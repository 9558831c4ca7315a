import RouteNotation.Proofs.Dsl.EntityValues
import RouteNotation.Proofs.Route.Merging

/-!
Each item of the root adds a document of its own to those before it, and so does each section in an
item and each entity in a section; some add nothing. Main statements: `value_readItems` and
`value_readItems_of_same`.
-/

namespace RouteNotation.Dsl

open Yaml

section Sections

/-- The mappings of a section add what each of them adds alone. -/
def AddsAlone (read : String → Document → List Entry → Noted Document) : Prop :=
  ∀ p q d es, (read p d es).value = d.merge (read q .empty es).value

theorem addsAlone_addReference : AddsAlone addReference := by
  intro p q d es
  simp [addReference, Document.merge, Document.empty, value_readReference p q]

theorem addsAlone_addRestConfiguration : AddsAlone addRestConfiguration := by
  intro p q d es
  obtain ⟨_, _, configuration, _, _⟩ := d
  cases configuration <;>
    simp [addRestConfiguration, Document.merge, Document.empty, value_readRestConfiguration p q]

theorem addsAlone_addRestApi : AddsAlone addRestApi := by
  intro p q d es
  simp [addRestApi, Document.merge, Document.empty, value_readRestApi p q]

theorem addsAlone_addRoute : AddsAlone addRoute := by
  intro p q d es
  simp [addRoute, Document.merge, Document.empty, value_readRoute p q]

theorem value_readEach {read : String → Document → List Entry → Noted Document}
    (alone : AddsAlone read) (p q : String) (d : Document) (v : Value) :
    (readEach read p d v).value =
      d.merge (.mergeAll (((mappings? v).getD []).map fun es => (read q .empty es).value)) := by
  unfold readEach
  split
  · simp [mappings?, alone p q]
  · rename_i maps _ found
    have places : maps.zipIdx.map (fun m => (read q .empty m.1).value) =
        (maps.zipIdx.map Prod.fst).map fun es => (read q .empty es).value := by
      rw [List.map_map]
      rfl
    rw [Noted.value_foldlM_merge (fun d m => alone _ q d m.1), found, Option.getD_some, places,
      List.zipIdx_map_fst]
  · rename_i found
    rw [found]
    exact (Document.merge_empty d).symm

theorem value_readBeanItems (p q : String) (index : Nat) (items : List Value) :
    (readBeanItems p index items).value = items.flatMap fun item => (readBeanItem q item).value := by
  induction items generalizing index with
  | nil => rfl
  | cons item rest ih =>
    rw [readBeanItems, Noted.value_bind, Noted.value_bind, Noted.value_pure, ih, List.flatMap_cons,
      value_readBeanItem _ q item]

theorem value_readBeans (p q : String) (v : Value) :
    (readBeans p v).value = (readBeans q v).value := by
  unfold readBeans
  split
  · rw [value_readBeanItems p q, value_readBeanItems q q]
  · rfl

theorem value_readSection (p q : String) (d : Document) (key : String) (v : Value) :
    (readSection p d key v).value = d.merge (readSection q .empty key v).value := by
  unfold readSection
  split
  · simp [Document.merge, Document.empty, value_readBeans p q]
  · simp [value_readEach addsAlone_addReference _ q]
  · simp [value_readEach addsAlone_addRestConfiguration _ q]
  · simp [value_readEach addsAlone_addRestApi _ q]
  · simp [value_readEach addsAlone_addRoute _ q]
  · split
    · exact addsAlone_addRoute p q d _
    · exact (Document.merge_empty d).symm
  · exact (Document.merge_empty d).symm

theorem value_readSectionEntry (p q : String) (d : Document) (e : Entry) :
    (readSectionEntry p d e).value = d.merge (readSectionEntry q .empty e).value := by
  unfold readSectionEntry
  split
  · exact value_readSection _ _ d _ e.2
  · exact (Document.merge_empty d).symm

theorem value_readItem (p q : String) (d : Document) (item : Value) :
    (readItem p d item).value = d.merge (readItem q .empty item).value := by
  unfold readItem
  split
  · rw [Noted.value_foldlM_merge (value_readSectionEntry p q),
      Noted.value_foldlM_merge (value_readSectionEntry q q), Document.empty_merge]
  · exact (Document.merge_empty d).symm

/-- The items of the root add what each of them adds alone, wherever it stands. -/
theorem value_readItems (q : String) (index : Nat) (d : Document) (items : List Value) :
    (readItems index d items).value =
      d.merge (.mergeAll (items.map fun item => (readItem q .empty item).value)) := by
  induction items generalizing index d with
  | nil => exact (Document.merge_empty d).symm
  | cons item rest ih =>
    rw [readItems, Noted.value_bind, ih, value_readItem _ q, List.map_cons, Document.mergeAll_cons,
      Document.merge_assoc]

end Sections

def sectionKeys : List String :=
  ["beans", "reference", "restConfiguration", "rest", "route", "from"]

/-- A source without a URI, or with an empty one. -/
def Sourceless (source : Value) : Prop :=
  ∀ fields ∈ source.mapping?, ∀ field ∈ fields, field.1.scalarText? = some "uri" →
    field.2.scalarText?.getD "" = ""

/-- Whether an entity of the section `key` lacks a field that it must have. -/
def Incomplete (key : String) (es : List Entry) : Prop :=
  match key with
  | "beans" => scalarUnder? "name" es = none
  | "reference" => scalarUnder? "id" es = none ∨ scalarUnder? "interface" es = none
  | "route" => ∀ e ∈ es, e.1.scalarText? = some "from" → Sourceless e.2
  | _ => False

/-- Sections that are passed over: one without a rule, and a single entity that is incomplete. -/
inductive PassedOver : Entry → Prop
  | unsupported {e : Entry} : (∀ key ∈ e.1.scalarText?, key ∉ sectionKeys) → PassedOver e
  | entity {k : Value} {key : String} {es : List Entry} : k.scalarText? = some key →
      key ≠ "beans" → Incomplete key es → PassedOver (k, .mapping es)
  | source {k v : Value} : k.scalarText? = some "from" → Sourceless v → PassedOver (k, v)

/-- Two values of the section `key` that differ in an incomplete entity of a list. -/
inductive SameEntityLists (key : String) : Value → Value → Prop
  | incomplete {before after : List Value} {item : Value} {es : List Entry} :
      item.mapping? = some es → Incomplete key es →
      SameEntityLists key (.sequence (before ++ item :: after)) (.sequence (before ++ after))
  | tagged {tag : String} {v w : Value} : SameEntityLists key v w →
      SameEntityLists key (.tagged tag v) (.tagged tag w)

/-- Two lists of items that differ in one thing without a meaning: an entity of a list that is
incomplete, a section that is passed over, or an item in which all sections are. -/
inductive SameItems : List Value → List Value → Prop
  | entity {before after : List Value} {item k v w : Value} {key : String} {es fs : List Entry} :
      item.mapping? = some (es ++ (k, v) :: fs) → k.scalarText? = some key →
      SameEntityLists key v w →
      SameItems (before ++ item :: after) (before ++ .mapping (es ++ (k, w) :: fs) :: after)
  | entry {before after : List Value} {item : Value} {es fs : List Entry} {e : Entry} :
      item.mapping? = some (es ++ e :: fs) → PassedOver e →
      SameItems (before ++ item :: after) (before ++ .mapping (es ++ fs) :: after)
  | item {before after : List Value} {item : Value} {es : List Entry} :
      item.mapping? = some es → (∀ e ∈ es, PassedOver e) →
      SameItems (before ++ item :: after) (before ++ after)

section PassedOver
variable {es : List Entry}

theorem value_readBean_of_incomplete (path : String) (h : scalarUnder? "name" es = none) :
    (readBean path es).value = none := by
  unfold readBean
  rw [h]
  rfl

theorem value_addReference_of_incomplete (path : String) (d : Document)
    (h : scalarUnder? "id" es = none ∨ scalarUnder? "interface" es = none) :
    (addReference path d es).value = d := by
  have none : (readReference path es).value = none := by
    unfold readReference
    rcases h with missing | missing
    · rw [missing]
      rfl
    · rw [missing]
      cases scalarUnder? "id" es <;> rfl
  rw [addReference, Noted.value_bind, none]
  simp

theorem value_readEndpoint_of_sourceless (path : String)
    (h : ∀ field ∈ es, field.1.scalarText? = some "uri" → field.2.scalarText?.getD "" = "") :
    (readEndpoint path es).value.endpoint.uri = "" := by
  apply Noted.foldlM_induction (P := fun draft : EndpointDraft => draft.endpoint.uri = "") rfl
  intro draft field there empty
  split
  · rename_i key text
    unfold readEndpointField
    dsimp only
    split
    · exact h field there text
    · split <;> exact empty
    · exact empty
    · exact empty
  · exact empty

theorem value_addRoute_of_incomplete (path : String) (d : Document)
    (h : ∀ e ∈ es, e.1.scalarText? = some "from" → Sourceless e.2) :
    (addRoute path d es).value = d := by
  have sourceless : (readFields (readRouteField path) .empty es).value.source = none := by
    apply Noted.foldlM_induction (P := fun draft : RouteDraft => draft.source = none) rfl
    intro draft e there none
    split
    · rename_i key text
      unfold readRouteField
      dsimp only
      split
      · exact none
      · exact none
      · exact none
      · split
        · rename_i fields found
          have empty := value_readEndpoint_of_sourceless (childPath path "from")
            (h e there text fields found)
          simp [RouteDraft.setSource, empty]
        · exact none
      · exact none
      · exact none
    · exact none
  have none : (readRoute path es).value = none := by
    rw [readRoute, Noted.value_bind, RouteDraft.finish, sourceless]
    rfl
  rw [addRoute, Noted.value_bind, none]
  simp

theorem value_readSectionEntry_of_passedOver (path : String) (d : Document) {e : Entry}
    (h : PassedOver e) : (readSectionEntry path d e).value = d := by
  cases h with
  | unsupported other =>
    unfold readSectionEntry
    split
    · rename_i key text
      have unknown := other key text
      simp only [sectionKeys, List.mem_cons, List.not_mem_nil, or_false, not_or] at unknown
      unfold readSection
      split <;> simp_all
    · rfl
  | entity text notBeans incomplete =>
    simp only [readSectionEntry, text]
    unfold Incomplete at incomplete
    split at incomplete
    · exact absurd rfl notBeans
    · exact value_addReference_of_incomplete _ d incomplete
    · exact value_addRoute_of_incomplete _ d incomplete
    · exact incomplete.elim
  | source text missing =>
    simp only [readSectionEntry, text, readSection]
    split
    · rename_i fields found
      apply value_addRoute_of_incomplete
      intro e there _ more same
      rw [List.mem_singleton.1 there] at same
      cases same
      exact missing fields found
    · rfl

theorem value_readEach_of_empty {read : String → Document → List Entry → Noted Document}
    (alone : AddsAlone read) {p : String} {before after : List Value} {item : Value}
    (mapping : item.mapping? = some es) (empty : ∀ q, (read q .empty es).value = .empty)
    (d : Document) :
    (readEach read p d (.sequence (before ++ item :: after))).value =
      (readEach read p d (.sequence (before ++ after))).value := by
  rw [value_readEach alone p p, value_readEach alone p p]
  congr 1
  simp only [mappings?, List.mapM_append, List.mapM_cons, mapping]
  cases before.mapM Value.mapping? with
  | none => rfl
  | some maps => cases after.mapM Value.mapping? <;> simp [Document.mergeAll_append, empty]

theorem value_readBeans_of_same (path : String) {v w : Value} (h : SameEntityLists "beans" v w) :
    (readBeans path v).value = (readBeans path w).value := by
  induction h with
  | @incomplete before after item es mapping missing =>
    have none : ∀ q, (readBeanItem q item).value = [] := by
      intro q
      rw [readBeanItem, mapping]
      simp [value_readBean_of_incomplete q missing]
    simp [readBeans, Value.sequence?, Value.untagged, value_readBeanItems path path, none]
  | tagged _ ih =>
    simp only [readBeans, Value.sequence?, Value.untagged] at ih ⊢
    split <;> split <;> simp_all

theorem value_readEach_of_same {read : String → Document → List Entry → Noted Document}
    {key : String} {v w : Value} (h : SameEntityLists key v w) (alone : AddsAlone read)
    (empty : ∀ q es, Incomplete key es → (read q .empty es).value = .empty) (p : String)
    (d : Document) :
    (readEach read p d v).value = (readEach read p d w).value := by
  cases h with
  | incomplete mapping incomplete =>
    exact value_readEach_of_empty alone mapping (fun q => empty q _ incomplete) d
  | tagged => rfl

theorem exists_incomplete {key : String} {v w : Value} (h : SameEntityLists key v w) :
    ∃ es, Incomplete key es := by
  induction h with
  | incomplete _ incomplete => exact ⟨_, incomplete⟩
  | tagged _ ih => exact ih

theorem value_readSection_of_same (path : String) (d : Document) {key : String} {v w : Value}
    (h : SameEntityLists key v w) :
    (readSection path d key v).value = (readSection path d key w).value := by
  obtain ⟨es, incomplete⟩ := exists_incomplete h
  unfold Incomplete at incomplete
  split at incomplete
  · simp [readSection, value_readBeans_of_same path h]
  · exact value_readEach_of_same h addsAlone_addReference
      (fun q _ missing => value_addReference_of_incomplete q .empty missing) path d
  · exact value_readEach_of_same h addsAlone_addRoute
      (fun q _ missing => value_addRoute_of_incomplete q .empty missing) path d
  · exact incomplete.elim

end PassedOver

/-- What has no meaning changes no document. -/
theorem value_readItems_of_same {items others : List Value} (h : SameItems items others)
    (i j : Nat) (d : Document) : (readItems i d items).value = (readItems j d others).value := by
  have entries : ∀ es : List Entry, (es.foldlM (readSectionEntry "") .empty).value =
      .mergeAll (es.map fun e => (readSectionEntry "" .empty e).value) := by
    intro es
    rw [Noted.value_foldlM_merge (value_readSectionEntry "" ""), Document.empty_merge]
  rw [value_readItems "" i, value_readItems "" j]
  cases h with
  | @entity before after item k v w key es fs mapping text same =>
    have alike : (readItem "" .empty item).value =
        (readItem "" .empty (.mapping (es ++ (k, w) :: fs))).value := by
      simp only [readItem, mapping]
      rw [entries]
      simp only [Value.mapping?, Value.untagged]
      rw [entries]
      simp [readSectionEntry, text, value_readSection_of_same _ _ same]
    rw [List.map_append, List.map_cons, alike, List.map_append, List.map_cons]
  | @entry before after item es fs e mapping passed =>
    have alike : (readItem "" .empty item).value =
        (readItem "" .empty (.mapping (es ++ fs))).value := by
      simp only [readItem, mapping]
      rw [entries]
      simp only [Value.mapping?, Value.untagged]
      rw [entries]
      simp [Document.mergeAll_append, value_readSectionEntry_of_passedOver _ _ passed]
    rw [List.map_append, List.map_cons, alike, List.map_append, List.map_cons]
  | @item before after item es mapping passed =>
    have nothing : (readItem "" .empty item).value = .empty := by
      simp only [readItem, mapping]
      rw [entries]
      apply Document.mergeAll_eq_empty
      intro d there
      obtain ⟨e, he, rfl⟩ := List.mem_map.1 there
      exact value_readSectionEntry_of_passedOver _ _ (passed e he)
    simp [Document.mergeAll_append, nothing]

end RouteNotation.Dsl
