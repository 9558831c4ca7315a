import RouteNotation.Proofs.Dsl.BeanMappings
import RouteNotation.Proofs.Dsl.SectionLists

/-!
The mappings that stand for entities in a value tree. Main statement: a document is the merge of
what each of them is read as by itself.
-/

namespace RouteNotation

theorem Document.mergeAll_flatMap {α : Type} (f : α → List Document) (as : List α) :
    mergeAll (as.flatMap f) = mergeAll (as.map fun a => mergeAll (f a)) := by
  induction as with
  | nil => rfl
  | cons a as ih => rw [List.flatMap_cons, mergeAll_append, ih, List.map_cons, mergeAll_cons]

namespace Dsl

open Yaml

inductive EntityKind
  | bean
  | reference
  | restConfiguration
  | restApi
  | route
  deriving DecidableEq, Repr

/-- The document that a mapping is read as. -/
def EntityKind.read : EntityKind → List Entry → Document
  | .bean, es => { Document.empty with beans := (readBean "" es).value.toList }
  | .reference, es => (addReference "" .empty es).value
  | .restConfiguration, es => (addRestConfiguration "" .empty es).value
  | .restApi, es => (addRestApi "" .empty es).value
  | .route, es => (addRoute "" .empty es).value

/-- A mapping for an entity, with the place that it has in the tree: whether it, or something that it
stands in, has a tag. -/
structure EntityMapping where
  kind : EntityKind
  entries : List Entry
  tagged : Bool

def EntityMapping.document (m : EntityMapping) : Document := m.kind.read m.entries

def isTagged : Value → Bool
  | .tagged _ _ => true
  | _ => false

section Mappings
variable (kind : EntityKind) (tagged : Bool)

def entityMapping? (v : Value) : Option EntityMapping :=
  v.mapping?.map fun es => ⟨kind, es, tagged || isTagged v⟩

/-- The mapping of a section with one entity, or those of a list in which nothing else stands. -/
def listMappings : Value → List EntityMapping
  | .mapping es => [⟨kind, es, tagged⟩]
  | .sequence items =>
    if items.all isMapping then items.filterMap (entityMapping? kind tagged) else []
  | _ => []

def beanMappingsIn (v : Value) : List EntityMapping :=
  (v.sequence?.getD []).filterMap (entityMapping? .bean (tagged || isTagged v))

/-- A source that stands alone is a route with nothing else. -/
def sourceMapping? (v : Value) : Option EntityMapping :=
  v.mapping?.map fun es => ⟨.route, [entry "from" (.mapping es)], tagged || isTagged v⟩

def sectionMappings (key : String) (v : Value) : List EntityMapping :=
  match key with
  | "beans" => beanMappingsIn tagged v
  | "reference" => listMappings .reference tagged v
  | "restConfiguration" => listMappings .restConfiguration tagged v
  | "rest" => listMappings .restApi tagged v
  | "route" => listMappings .route tagged v
  | "from" => (sourceMapping? tagged v).toList
  | _ => []

def entryMappings (e : Entry) : List EntityMapping :=
  match e.1.scalarText? with
  | some key => sectionMappings tagged key e.2
  | none => []

end Mappings

def itemMappings (item : Value) : List EntityMapping :=
  (item.mapping?.getD []).flatMap (entryMappings (isTagged item))

/-- The mappings of all entities, in the order in which they stand. -/
def entityMappings : Value → List EntityMapping
  | .sequence items => items.flatMap itemMappings
  | _ => []

/-- A mapping that is found in the value of a section: this value, an item of it, or the one that is
made for a source. A tag further up stays one. -/
inductive FoundIn (tagged : Bool) (v : Value) : EntityMapping → Prop
  | single {kind : EntityKind} {es : List Entry} {t : Bool} : v.mapping? = some es →
      (tagged = true → t = true) → FoundIn tagged v ⟨kind, es, t⟩
  | item {kind : EntityKind} {items : List Value} {item : Value} {es : List Entry} {t : Bool} :
      v.sequence? = some items → item ∈ items → item.mapping? = some es →
      (tagged = true → t = true) → FoundIn tagged v ⟨kind, es, t⟩
  | source {es : List Entry} {t : Bool} : v.mapping? = some es → (tagged = true → t = true) →
      FoundIn tagged v ⟨.route, [entry "from" (.mapping es)], t⟩

section Places
variable {kind : EntityKind} {tagged : Bool} {m : EntityMapping} {v : Value}

theorem FoundIn.isTagged (h : FoundIn true v m) : m.tagged = true := by
  cases h with
  | single _ above | item _ _ _ above | source _ above => exact above rfl

theorem foundIn_of_items {items : List Value} {below : Bool} (sequence : v.sequence? = some items)
    (above : tagged = true → below = true)
    (h : m ∈ items.filterMap (entityMapping? kind below)) : FoundIn tagged v m := by
  obtain ⟨item, there, found⟩ := List.mem_filterMap.1 h
  obtain ⟨es, mapping, rfl⟩ := Option.map_eq_some_iff.1 found
  exact .item sequence there mapping fun up => by rw [above up, Bool.true_or]

theorem foundIn_of_listMappings (h : m ∈ listMappings kind tagged v) : FoundIn tagged v m := by
  unfold listMappings at h
  split at h
  · rw [List.mem_singleton.1 h]
    exact .single rfl id
  · split at h
    · exact foundIn_of_items rfl id h
    · cases h
  · cases h

theorem foundIn_of_sectionMappings {key : String} (h : m ∈ sectionMappings tagged key v) :
    FoundIn tagged v m := by
  have above : tagged = true → (tagged || isTagged v) = true := fun up => by rw [up, Bool.true_or]
  unfold sectionMappings at h
  split at h
  · rw [beanMappingsIn] at h
    cases sequence : v.sequence? with
    | none =>
      rw [sequence] at h
      cases h
    | some items =>
      rw [sequence] at h
      exact foundIn_of_items sequence above h
  · exact foundIn_of_listMappings h
  · exact foundIn_of_listMappings h
  · exact foundIn_of_listMappings h
  · exact foundIn_of_listMappings h
  · obtain ⟨es, mapping, rfl⟩ := Option.map_eq_some_iff.1 (Option.mem_toList.1 h)
    exact .source mapping above
  · cases h

end Places

section Documents
variable {kind : EntityKind} {tagged : Bool}

theorem mappings?_sequence (items : List Value) : mappings? (.sequence items) =
    if items.all isMapping then some (items.filterMap Value.mapping?) else none := by
  split
  · rename_i all
    rw [mappings?]
    induction items with
    | nil => rfl
    | cons item rest ih =>
      simp only [List.all_cons, Bool.and_eq_true] at all
      obtain ⟨es, here⟩ := Option.isSome_iff_exists.1 all.1
      rw [List.mapM_cons, here, ih all.2, List.filterMap_cons_some here]
      rfl
  · rename_i other
    exact mappings?_of_other (Bool.eq_false_iff.2 other)

theorem documents_filterMap (items : List Value) :
    (items.filterMap (entityMapping? kind tagged)).map EntityMapping.document =
      (items.filterMap Value.mapping?).map kind.read := by
  rw [List.map_filterMap, List.map_filterMap]
  refine congrArg (items.filterMap ·) (funext fun item => ?_)
  rw [entityMapping?, Option.map_map]
  rfl

theorem documents_listMappings (v : Value) :
    (listMappings kind tagged v).map EntityMapping.document =
      ((mappings? v).getD []).map kind.read := by
  cases v with
  | mapping es => rfl
  | sequence items =>
    rw [listMappings, mappings?_sequence]
    split
    · exact documents_filterMap items
    · rfl
  | _ => rfl

theorem value_readEach_mappings {read : String → Document → List Entry → Noted Document}
    (alone : AddsAlone read) (same : ∀ es, (read "" .empty es).value = kind.read es)
    (path : String) (v : Value) : (readEach read path .empty v).value =
      .mergeAll ((listMappings kind tagged v).map EntityMapping.document) := by
  rw [value_readEach alone path "", Document.empty_merge, documents_listMappings]
  exact congrArg _ (List.map_congr_left fun es _ => same es)

theorem mergeAll_beans (maps : List (List Entry)) : Document.mergeAll (maps.map EntityKind.bean.read) =
    { Document.empty with beans := maps.filterMap fun es => (readBean "" es).value } := by
  induction maps with
  | nil => rfl
  | cons es maps ih =>
    rw [List.map_cons, Document.mergeAll_cons, ih, List.filterMap_cons, EntityKind.read]
    cases (readBean "" es).value <;> rfl

theorem value_readSection_mappings (tagged : Bool) (path key : String) (v : Value) :
    (readSection path .empty key v).value =
      .mergeAll ((sectionMappings tagged key v).map EntityMapping.document) := by
  unfold readSection
  split
  · rw [sectionMappings, beanMappingsIn, documents_filterMap, mergeAll_beans,
      ← beans_readBeans path]
    rfl
  · exact value_readEach_mappings addsAlone_addReference (fun _ => rfl) path v
  · exact value_readEach_mappings addsAlone_addRestConfiguration (fun _ => rfl) path v
  · exact value_readEach_mappings addsAlone_addRestApi (fun _ => rfl) path v
  · exact value_readEach_mappings addsAlone_addRoute (fun _ => rfl) path v
  · rw [sectionMappings, sourceMapping?]
    cases v.mapping? with
    | some es =>
      dsimp only
      rw [addsAlone_addRoute path "", Document.empty_merge]
      exact (Document.merge_empty _).symm
    | none => rfl
  · unfold sectionMappings
    split <;> first | contradiction | rfl

theorem value_readSectionEntry_mappings (tagged : Bool) (path : String) (e : Entry) :
    (readSectionEntry path .empty e).value =
      .mergeAll ((entryMappings tagged e).map EntityMapping.document) := by
  unfold readSectionEntry entryMappings
  cases e.1.scalarText? with
  | some key => exact value_readSection_mappings tagged _ key e.2
  | none => rfl

theorem value_readItem_mappings (path : String) (item : Value) :
    (readItem path .empty item).value =
      .mergeAll ((itemMappings item).map EntityMapping.document) := by
  unfold readItem itemMappings
  cases item.mapping? with
  | some es =>
    dsimp only
    rw [Noted.value_foldlM_merge (value_readSectionEntry path path), Document.empty_merge,
      Option.getD_some, List.map_flatMap, Document.mergeAll_flatMap]
    refine congrArg _ (List.map_congr_left fun e _ => ?_)
    exact value_readSectionEntry_mappings (isTagged item) path e
  | none => rfl

/-- A document is what the mappings of its entities are, one by one. -/
theorem value_readDocument_mappings {v : Value} {d : Noted Document} (read : readDocument v = .ok d) :
    d.value = .mergeAll ((entityMappings v).map EntityMapping.document) := by
  unfold readDocument at read
  split at read
  · cases read
    rfl
  · rename_i items
    cases read
    rw [value_readItems "", Document.empty_merge, entityMappings, List.map_flatMap,
      Document.mergeAll_flatMap]
    exact congrArg _ (List.map_congr_left fun item _ => value_readItem_mappings "" item)
  · cases read

end Documents
end Dsl
end RouteNotation
