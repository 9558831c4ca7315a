import RouteNotation.Proofs.Dsl.EntityMappings
import RouteNotation.Proofs.Yaml.UniqueKeys
import RouteNotation.Route.GeneratedId

/-!
Entities of a tree from which generated ids are dropped. Main statements: they stand in the mappings
that they stood in, and what is lost are the references that were known by such an id.
-/

namespace RouteNotation.Dsl

open Yaml GeneratedId

section Lookups
variable {key : String} {es : List Entry}

theorem scalarText?_strip (v : Value) : (strip v).scalarText? = v.scalarText? := by
  cases v <;> rfl

theorem stripItems_eq_map (items : List Value) : stripItems items = items.map strip := by
  induction items with
  | nil => rfl
  | cons item rest ih => rw [stripItems, ih, List.map_cons]

theorem mapping?_strip (v : Value) :
    (strip v).mapping? = if isTagged v then v.mapping? else v.mapping?.map stripEntries := by
  cases v <;> rfl

theorem string?_of_generated {k v : Value} (h : isGeneratedEntry k v) : k.string? = some "id" := by
  simp only [isGeneratedEntry, Bool.and_eq_true, decide_eq_true_eq] at h
  exact h.1

theorem scalarText?_of_string? {v : Value} {s : String} (h : v.string? = some s) :
    v.scalarText? = some s := by
  induction v using Value.untagged.induct with
  | case1 tag v ih => exact ih h
  | case2 v bare =>
    cases v with
    | string t => exact h
    | tagged tag v => exact absurd rfl (bare tag v)
    | _ => cases h

theorem lookup?_stripEntries (other : key ≠ "id") (es : List Entry) :
    lookup? key (stripEntries es) = (lookup? key es).map strip := by
  induction es with
  | nil => rfl
  | cons e rest ih =>
    obtain ⟨k, v⟩ := e
    rw [stripEntries]
    split
    · rename_i generated
      have unlike : k ≠ .string key := by
        rintro rfl
        exact other (Option.some.inj (string?_of_generated generated))
      rw [Uri.lookup?_cons_of_ne unlike, ih]
    · by_cases here : k = .string key
      · rw [here, Uri.lookup?_cons_self, Uri.lookup?_cons_self]
        rfl
      · rw [Uri.lookup?_cons_of_ne here, Uri.lookup?_cons_of_ne here, ih]

theorem scalarUnder?_stripEntries (other : key ≠ "id") (es : List Entry) :
    scalarUnder? key (stripEntries es) = scalarUnder? key es := by
  rw [scalarUnder?, scalarUnder?, lookup?_stripEntries other, Option.bind_map]
  exact congrArg _ (funext scalarText?_strip)

/-- Whether the id of an entity is one that an editor made. -/
def isStamped (es : List Entry) : Bool :=
  (lookup? "id" es).any fun v => v.string?.any isGenerated

theorem lookup?_of_unique {k v : Value} {rest : List Entry} (unique : UniqueKeys ((k, v) :: rest))
    (here : k = .string key) : lookup? key rest = none := by
  cases found : lookup? key rest with
  | none => rfl
  | some w =>
    have different := List.rel_of_pairwise_cons unique (Uri.mem_of_lookup? found)
    rw [here] at different
    simp [Value.same] at different

/-- An id that an editor made is dropped, and there is no other. -/
theorem scalarUnder?_id_stripEntries (unique : UniqueKeys es) :
    scalarUnder? "id" (stripEntries es) = if isStamped es then none else scalarUnder? "id" es := by
  induction es with
  | nil => rfl
  | cons e rest ih =>
    obtain ⟨k, v⟩ := e
    have later := ih (List.Pairwise.of_cons unique)
    by_cases here : k = .string "id"
    · have once := lookup?_of_unique unique here
      have stamped : isStamped ((k, v) :: rest) = isGeneratedEntry k v := by
        rw [isStamped, here, Uri.lookup?_cons_self]
        simp [isGeneratedEntry, Value.string?, Value.untagged]
      rw [stamped, stripEntries]
      split
      · -- No other id comes behind the one that is dropped.
        rw [later, isStamped, scalarUnder?, once]
        rfl
      · rw [scalarUnder?, scalarUnder?, here, Uri.lookup?_cons_self, Uri.lookup?_cons_self]
        exact scalarText?_strip v
    · have stamped : isStamped ((k, v) :: rest) = isStamped rest := by
        rw [isStamped, Uri.lookup?_cons_of_ne here, isStamped]
      have under (w : Value) (es : List Entry) :
          scalarUnder? "id" ((k, w) :: es) = scalarUnder? "id" es := by
        rw [scalarUnder?, Uri.lookup?_cons_of_ne here, scalarUnder?]
      rw [stamped, under, stripEntries, ← later]
      split
      · rfl
      · exact under _ _

end Lookups

section Mappings

/-- The mapping as it is left: cleaned, unless a tag is in the way. -/
def EntityMapping.strip (m : EntityMapping) : EntityMapping :=
  if m.tagged then m else { m with entries := stripEntries m.entries }

variable {kind : EntityKind} {tagged : Bool}

theorem strip_of_tagged {ms : List EntityMapping} (h : ∀ m ∈ ms, m.tagged = true) :
    ms.map EntityMapping.strip = ms := by
  refine (List.map_congr_left fun m hm => ?_).trans (List.map_id ms)
  exact if_pos (h m hm)

theorem isMapping_strip (v : Value) : isMapping (strip v) = isMapping v := by
  cases v <;> rfl

theorem entityMapping?_strip (kind : EntityKind) (v : Value) :
    entityMapping? kind false (strip v) =
      (entityMapping? kind false v).map EntityMapping.strip := by
  cases v with
  | tagged tag v =>
    change entityMapping? kind false (.tagged tag v) = _
    rw [entityMapping?, Option.map_map]
    rfl
  | _ => rfl

theorem filterMap_strip (kind : EntityKind) (items : List Value) :
    (stripItems items).filterMap (entityMapping? kind false) =
      (items.filterMap (entityMapping? kind false)).map EntityMapping.strip := by
  rw [stripItems_eq_map, List.filterMap_map, List.map_filterMap]
  exact congrArg (items.filterMap ·) (funext (entityMapping?_strip kind))

theorem listMappings_strip (kind : EntityKind) (v : Value) :
    listMappings kind false (strip v) =
      (listMappings kind false v).map EntityMapping.strip := by
  cases v with
  | sequence items =>
    have same : (stripItems items).all isMapping = items.all isMapping := by
      rw [stripItems_eq_map, List.all_map]
      exact congrArg (items.all ·) (funext isMapping_strip)
    rw [strip, listMappings, listMappings, same, filterMap_strip]
    split <;> rfl
  | _ => rfl

theorem beanMappingsIn_strip (v : Value) : beanMappingsIn false (strip v) =
    (beanMappingsIn false v).map EntityMapping.strip := by
  cases v with
  | sequence items => exact filterMap_strip .bean items
  -- Behind the tag the beans are found, but not cleaned.
  | tagged tag v =>
    refine (strip_of_tagged fun m hm => ?_).symm
    obtain ⟨item, -, found⟩ := List.mem_filterMap.1 hm
    obtain ⟨es, -, rfl⟩ := Option.map_eq_some_iff.1 found
    rfl
  | _ => rfl

theorem sourceMapping?_strip (v : Value) : (sourceMapping? false (strip v)).toList =
    (sourceMapping? false v).toList.map EntityMapping.strip := by
  cases v with
  | tagged tag v =>
    refine (strip_of_tagged fun m hm => ?_).symm
    obtain ⟨es, -, rfl⟩ := Option.map_eq_some_iff.1 (Option.mem_toList.1 hm)
    rfl
  | _ => rfl

theorem sectionMappings_strip (key : String) (v : Value) :
    sectionMappings false key (strip v) =
      (sectionMappings false key v).map EntityMapping.strip := by
  unfold sectionMappings
  split
  · exact beanMappingsIn_strip v
  · exact listMappings_strip .reference v
  · exact listMappings_strip .restConfiguration v
  · exact listMappings_strip .restApi v
  · exact listMappings_strip .route v
  · exact sourceMapping?_strip v
  · rfl

theorem entryMappings_of_generated {k v : Value} (h : isGeneratedEntry k v) (tagged : Bool) :
    entryMappings tagged (k, v) = [] := by
  have key : k.scalarText? = some "id" := scalarText?_of_string? (string?_of_generated h)
  rw [entryMappings, key]
  rfl

theorem entryMappings_strip (k v : Value) : entryMappings false (k, strip v) =
    (entryMappings false (k, v)).map EntityMapping.strip := by
  unfold entryMappings
  dsimp only
  split
  · exact sectionMappings_strip _ v
  · rfl

theorem itemMappings_strip (item : Value) :
    itemMappings (strip item) = (itemMappings item).map EntityMapping.strip := by
  cases item with
  | mapping es =>
    change (stripEntries es).flatMap (entryMappings false) =
      (es.flatMap (entryMappings false)).map EntityMapping.strip
    induction es with
    | nil => rfl
    | cons e rest ih =>
      obtain ⟨k, v⟩ := e
      rw [stripEntries, List.flatMap_cons, List.map_append, ← ih]
      split
      · rename_i generated
        rw [entryMappings_of_generated generated]
        rfl
      · rw [List.flatMap_cons, entryMappings_strip]
  | tagged tag v =>
    refine (strip_of_tagged fun m hm => ?_).symm
    obtain ⟨e, -, found⟩ := List.mem_flatMap.1 hm
    unfold entryMappings at found
    split at found
    · exact (foundIn_of_sectionMappings found).isTagged
    · cases found
  | _ => rfl

/-- The entities of the cleaned tree are those of the tree, one by one. -/
theorem entityMappings_strip (v : Value) :
    entityMappings (strip v) = (entityMappings v).map EntityMapping.strip := by
  cases v with
  | sequence items =>
    change (stripItems items).flatMap itemMappings = (items.flatMap itemMappings).map _
    rw [stripItems_eq_map, List.flatMap_map, List.map_flatMap]
    exact congrArg items.flatMap (funext itemMappings_strip)
  | _ => rfl

end Mappings

section Runs
variable {σ β : Type} (field : σ → β) {read : σ → String → Value → Noted σ}

/-- What a run over the entries that are left has in a field that no id goes into. -/
theorem readFields_stripEntries (ids : ∀ s v, field (read s "id" v).value = field s)
    (others : ∀ s t key v, field s = field t →
      field (read s key v).value = field (read t key (strip v)).value)
    {s t : σ} (start : field s = field t) (es : List Entry) :
    field (readFields read s es).value = field (readFields read t (stripEntries es)).value := by
  induction es generalizing s t with
  | nil => exact start
  | cons e rest ih =>
    obtain ⟨k, v⟩ := e
    rw [stripEntries, readFields, List.foldlM_cons, Noted.value_bind]
    by_cases generated : isGeneratedEntry k v
    · -- Only the first run sees this entry.
      rw [if_pos generated]
      dsimp only
      rw [scalarText?_of_string? (string?_of_generated generated)]
      exact ih ((ids s v).trans start)
    · rw [if_neg generated, readFields, List.foldlM_cons, Noted.value_bind]
      dsimp only
      split
      · exact ih (others s t _ v start)
      · exact ih start

end Runs

/-- `e` has the entities of `d` but for these references, which are among those of `d`. -/
structure LosesReferences (lost : List Reference) (d e : Document) : Prop where
  beans : e.beans.map Bean.name = d.beans.map Bean.name
  references : e.references.Sublist d.references
  lost : d.references.Perm (e.references ++ lost)
  configuration : e.restConfiguration.isSome = d.restConfiguration.isSome
  restApis : e.restApis.length = d.restApis.length
  routes : e.routes.map (·.source.uri) = d.routes.map (·.source.uri)

namespace LosesReferences

theorem refl (d : Document) : LosesReferences [] d d where
  beans := rfl
  references := .refl _
  lost := by rw [List.append_nil]
  configuration := rfl
  restApis := rfl
  routes := rfl

theorem merge {lost more : List Reference} {d d' e e' : Document} (h : LosesReferences lost d e)
    (h' : LosesReferences more d' e') :
    LosesReferences (lost ++ more) (d.merge d') (e.merge e') where
  beans := by simp only [Document.merge, List.map_append, h.beans, h'.beans]
  references := h.references.append h'.references
  lost := by
    have both := h.lost.append h'.lost
    rw [List.append_assoc] at both
    refine both.trans ?_
    -- What the first document loses moves behind what is left of the second.
    rw [Document.merge, List.append_assoc]
    exact (List.perm_append_comm_assoc lost e'.references more).append_left e.references
  configuration := by
    simp only [Document.merge, Option.isSome_or, h.configuration, h'.configuration]
  restApis := by simp only [Document.merge, List.length_append, h.restApis, h'.restApis]
  routes := by simp only [Document.merge, List.map_append, h.routes, h'.routes]

theorem mergeAll {α : Type} {lost : α → Option Reference} {f g : α → Document} {as : List α}
    (h : ∀ a ∈ as, LosesReferences (lost a).toList (f a) (g a)) :
    LosesReferences (as.filterMap lost) (.mergeAll (as.map f)) (.mergeAll (as.map g)) := by
  induction as with
  | nil => exact refl _
  | cons a as ih =>
    obtain ⟨here, others⟩ := List.forall_mem_cons.1 h
    have both := here.merge (ih others)
    cases known : lost a with
    | none =>
      rw [known] at both
      rwa [List.filterMap_cons_none known]
    | some reference =>
      rw [known] at both
      rwa [List.filterMap_cons_some known]

theorem length_eq_iff {lost : List Reference} {d e : Document} (h : LosesReferences lost d e) :
    e.references.length = d.references.length ↔ lost = [] := by
  have total := h.lost.length_eq
  rw [List.length_append] at total
  rw [← List.length_eq_zero_iff]
  omega

end LosesReferences

section Entities
variable {es : List Entry}

def reference? (es : List Entry) : Option Reference := do
  return ⟨← scalarUnder? "id" es, ← scalarUnder? "interface" es, scalarUnder? "filter" es⟩

theorem value_readReference_eq (path : String) (es : List Entry) :
    (readReference path es).value = reference? es := by
  rw [readReference, reference?]
  cases scalarUnder? "id" es with
  | none => rfl
  | some id => cases scalarUnder? "interface" es <;> rfl

/-- A reference that is known by an id that an editor made, where no tag is in the way. -/
def EntityMapping.stampedReference? (m : EntityMapping) : Option Reference :=
  if m.kind = .reference && !m.tagged && isStamped m.entries then reference? m.entries else none

theorem reference?_stripEntries (unique : UniqueKeys es) :
    reference? (stripEntries es) = if isStamped es then none else reference? es := by
  rw [reference?, scalarUnder?_id_stripEntries unique, scalarUnder?_stripEntries (by decide),
    scalarUnder?_stripEntries (by decide)]
  split <;> rfl

theorem read_reference (es : List Entry) : EntityKind.reference.read es =
    { Document.empty with references := (reference? es).toList } := by
  rw [EntityKind.read, addReference, Noted.value_bind, value_readReference_eq]
  rfl

theorem losesReferences_reference (unique : UniqueKeys es) :
    LosesReferences (if isStamped es then reference? es else none).toList
      (EntityKind.reference.read es) (EntityKind.reference.read (stripEntries es)) := by
  rw [read_reference, read_reference, reference?_stripEntries unique]
  split
  · exact { LosesReferences.refl _ with references := List.nil_sublist _, lost := .refl _ }
  · exact .refl _

theorem names_stripEntries (es : List Entry) :
    (readBean "" (stripEntries es)).value.toList.map Bean.name =
      (readBean "" es).value.toList.map Bean.name := by
  have same : scalarUnder? "name" (stripEntries es) = scalarUnder? "name" es :=
    scalarUnder?_stripEntries (by decide) es
  cases found : scalarUnder? "name" es with
  | none => rw [readBean, readBean, same, found]
  | some name =>
    obtain ⟨b, read, called, -⟩ := readBean_value "" found
    obtain ⟨c, reread, alike, -⟩ := readBean_value "" (same.trans found)
    rw [read, reread, Option.toList_some, Option.toList_some, List.map_singleton,
      List.map_singleton, called, alike]

theorem uri_readEndpointField (path : String) (draft : EndpointDraft) (key : String) (v : Value) :
    (readEndpointField path draft key v).value.endpoint.uri =
      if key = "uri" then v.scalarText?.getD "" else draft.endpoint.uri := by
  unfold readEndpointField
  dsimp only
  split
  · rfl
  · split <;> rfl
  · rfl
  · rename_i other _ _
    exact (if_neg other).symm

theorem uri_stripEntries (path : String) (es : List Entry) :
    (readEndpoint path es).value.endpoint.uri =
      (readEndpoint path (stripEntries es)).value.endpoint.uri := by
  refine readFields_stripEntries (fun draft : EndpointDraft => draft.endpoint.uri)
    (fun s v => uri_readEndpointField path s "id" v) (fun s t key v same => ?_) rfl es
  rw [uri_readEndpointField, uri_readEndpointField, scalarText?_strip, same]

/-- The URI of the source that a value gives a route: of the last one that is a mapping. -/
def sourceUri? (path : String) (v : Value) (before : Option String) : Option String :=
  match v.mapping? with
  | some es =>
    let uri := (readEndpoint path es).value.endpoint.uri
    if uri.isEmpty then none else some uri
  | none => before

theorem sourceUri?_strip (path : String) (v : Value) (before : Option String) :
    sourceUri? path v before = sourceUri? path (strip v) before := by
  rw [sourceUri?, sourceUri?, mapping?_strip]
  cases isTagged v with
  | true => rfl
  | false =>
    cases v.mapping? with
    | none => rfl
    | some es =>
      rw [if_neg Bool.false_ne_true, Option.map_some]
      dsimp only
      rw [uri_stripEntries]

theorem source_readRouteField (path : String) (draft : RouteDraft) (key : String) (v : Value) :
    (readRouteField path draft key v).value.source.map Endpoint.uri =
      if key = "from" then sourceUri? (childPath path key) v (draft.source.map Endpoint.uri)
      else draft.source.map Endpoint.uri := by
  unfold readRouteField
  dsimp only
  split
  · rfl
  · rfl
  · rfl
  · rw [if_pos rfl, sourceUri?]
    cases v.mapping? with
    | some es =>
      dsimp only [Noted.value_bind, Noted.value_pure, RouteDraft.setSource]
      split <;> rfl
    | none => rfl
  · rfl
  · rename_i other _
    exact (if_neg other).symm

theorem sources_stripEntries (es : List Entry) :
    (readRoute "" (stripEntries es)).value.toList.map (·.source.uri) =
      (readRoute "" es).value.toList.map (·.source.uri) := by
  have finish (draft : RouteDraft) : (draft.finish "").value.toList.map (·.source.uri) =
      (draft.source.map Endpoint.uri).toList := by
    rw [RouteDraft.finish]
    cases draft.source <;> rfl
  have drafts := readFields_stripEntries
    (fun draft : RouteDraft => draft.source.map Endpoint.uri)
    (fun s v => source_readRouteField "" s "id" v) (fun s t key v same => ?_)
    (rfl : (fun draft : RouteDraft => draft.source.map Endpoint.uri) RouteDraft.empty = _) es
  · rw [readRoute, readRoute, Noted.value_bind, Noted.value_bind, finish, finish]
    exact congrArg _ drafts.symm
  · rw [source_readRouteField, source_readRouteField, same, ← sourceUri?_strip]

/-- Nothing but a reference is lost with its id. -/
theorem losesReferences_strip (m : EntityMapping) (unique : UniqueKeys m.entries) :
    LosesReferences m.stampedReference?.toList m.document m.strip.document := by
  obtain ⟨kind, es, tagged⟩ := m
  cases tagged with
  | true =>
    rw [EntityMapping.stampedReference?, Bool.not_true, Bool.and_false, Bool.false_and]
    exact .refl _
  | false =>
    have left : EntityMapping.strip ⟨kind, es, false⟩ = ⟨kind, stripEntries es, false⟩ := rfl
    rw [left]
    cases kind with
    | bean => exact { LosesReferences.refl _ with beans := names_stripEntries es }
    | reference => exact losesReferences_reference unique
    | restConfiguration => exact { LosesReferences.refl _ with configuration := rfl }
    | restApi => exact { LosesReferences.refl _ with restApis := rfl }
    | route => exact { LosesReferences.refl _ with routes := sources_stripEntries es }

end Entities

section Unique
variable {tagged : Bool} {m : EntityMapping}

theorem unique_of_foundIn {v : Value} (unique : v.Everywhere UniqueKeys)
    (h : FoundIn tagged v m) : UniqueKeys m.entries := by
  cases h with
  | single mapping => exact (everywhere_of_mapping? unique mapping).1
  | item sequence there mapping =>
    have items := itemsEverywhere_iff.1 (everywhere_of_sequence? unique sequence)
    exact (everywhere_of_mapping? (items _ there) mapping).1
  | source => exact List.pairwise_singleton _ _

theorem unique_of_entityMappings {v : Value} (unique : v.Everywhere UniqueKeys) :
    ∀ m ∈ entityMappings v, UniqueKeys m.entries := by
  intro m hm
  unfold entityMappings at hm
  split at hm
  · rename_i items
    obtain ⟨item, there, found⟩ := List.mem_flatMap.1 hm
    have below := itemsEverywhere_iff.1 unique item there
    unfold itemMappings at found
    cases mapping : item.mapping? with
    | none =>
      rw [mapping] at found
      cases found
    | some es =>
      rw [mapping] at found
      obtain ⟨e, he, found⟩ := List.mem_flatMap.1 found
      have inside := entriesEverywhere_iff.1 (everywhere_of_mapping? below mapping).2 e he
      unfold entryMappings at found
      split at found
      · exact unique_of_foundIn inside (foundIn_of_sectionMappings found)
      · cases found
  · cases hm

end Unique

/-- The references with an id that an editor made, in all places that no tag shuts off. -/
def stampedReferences (v : Value) : List Reference :=
  (entityMappings v).filterMap EntityMapping.stampedReference?

theorem error_readDocument_strip {v : Value} {error : Error}
    (wrong : readDocument v = .error error) : readDocument (strip v) = .error error := by
  cases v with
  | null | sequence => cases wrong
  | _ => exact wrong

/-- Dropping generated ids costs the references that are known by one, and no other entity. -/
theorem losesReferences_readDocument {v : Value} (unique : v.Everywhere UniqueKeys)
    {d : Noted Document} (read : readDocument v = .ok d) :
    ∃ e, readDocument (strip v) = .ok e ∧
      LosesReferences (stampedReferences v) d.value e.value := by
  have reread : ∃ e, readDocument (strip v) = .ok e := by
    unfold readDocument at read
    split at read
    · exact ⟨_, rfl⟩
    · exact ⟨_, rfl⟩
    · cases read
  obtain ⟨e, reread⟩ := reread
  refine ⟨e, reread, ?_⟩
  rw [value_readDocument_mappings read, value_readDocument_mappings reread, entityMappings_strip,
    List.map_map]
  exact LosesReferences.mergeAll fun m hm =>
    losesReferences_strip m (unique_of_entityMappings unique m hm)

end RouteNotation.Dsl
