import RouteNotation.Proofs.Dsl.DocumentRoundTrip
import RouteNotation.Proofs.Dsl.SeparateSections

/-!
Lists of entities in which some items are no mappings. Beans are read one by one, so such an item
costs only itself. The other sections take a list as a whole or not at all. Main statement:
`readDocument_sectionList`.
-/

namespace RouteNotation.Dsl

open Yaml

/-- Whether a value is a mapping, tags apart. -/
def isMapping (v : Value) : Bool := v.mapping?.isSome

theorem mapping?_of_other {v : Value} (other : isMapping v = false) : v.mapping? = none := by
  simpa [isMapping] using other

section Beans
variable {item : Value}

theorem readBeanItem_of_other (path : String) (other : isMapping item = false) :
    readBeanItem path item =
      ⟨[], [.unknownShape path s!"expected a map, found {item.describe}, skipped"]⟩ := by
  rw [readBeanItem, mapping?_of_other other]
  rfl

theorem value_readBeans_filter (path : String) (items : List Value) :
    (readBeans path (.sequence items)).value =
      (readBeans path (.sequence (items.filter isMapping))).value := by
  simp only [readBeans, Value.sequence?, Value.untagged]
  rw [value_readBeanItems path path, value_readBeanItems path path]
  induction items with
  | nil => rfl
  | cons item rest ih =>
    rw [List.flatMap_cons, List.filter_cons, ih]
    split
    · rw [List.flatMap_cons]
    · rename_i other
      rw [readBeanItem_of_other path (Bool.eq_false_iff.2 other), List.nil_append]

theorem mem_notes_readBeanItems (path : String) (index i : Nat) {items : List Value}
    (there : items[i]? = some item) (other : isMapping item = false) :
    .unknownShape (indexPath path (index + i)) s!"expected a map, found {item.describe}, skipped" ∈
      (readBeanItems path index items).notes := by
  induction items generalizing index i with
  | nil => cases there
  | cons first rest ih =>
    rw [readBeanItems, Noted.notes_bind, Noted.notes_bind]
    cases i with
    | zero =>
      cases Option.some.inj there
      rw [readBeanItem_of_other _ other]
      exact List.mem_append_left _ List.mem_cons_self
    | succ i =>
      have later := ih (index + 1) i there
      rw [Nat.add_assoc, Nat.add_comm 1] at later
      exact List.mem_append_right _ (List.mem_append_left _ later)

end Beans

section Lists
variable {items : List Value}

theorem mappings?_of_other (other : items.all isMapping = false) :
    mappings? (.sequence items) = none := by
  rw [mappings?]
  induction items with
  | nil => cases other
  | cons item rest ih =>
    rw [List.mapM_cons]
    cases here : item.mapping? with
    | none => rfl
    | some es =>
      have later : rest.all isMapping = false := by simpa [isMapping, here] using other
      rw [ih later]
      rfl

/-- One item that is no mapping, and the list is left out. -/
theorem readEach_of_other {read : String → Document → List Entry → Noted Document} (path : String)
    (d : Document) (other : items.all isMapping = false) : readEach read path d (.sequence items) =
      ⟨d, [.unknownShape path
        "expected a map or a list of maps, found a sequence, skipped"]⟩ := by
  simp only [readEach, mappings?_of_other other]
  rfl

/-- The sections whose entities can stand in a list, in any number. -/
def listKeys : List String := ["beans", "reference", "rest", "route"]

theorem readSection_of_other {key : String} (known : key ∈ listKeys) (notBeans : key ≠ "beans")
    (other : items.all isMapping = false) (path : String) (d : Document) :
    readSection path d key (.sequence items) = ⟨d, [.unknownShape path
      "expected a map or a list of maps, found a sequence, skipped"]⟩ := by
  simp only [listKeys, List.mem_cons, List.not_mem_nil, or_false] at known
  rcases known with rfl | rfl | rfl | rfl
  · exact absurd rfl notBeans
  · exact readEach_of_other path d other
  · exact readEach_of_other path d other
  · exact readEach_of_other path d other

theorem value_readSection_nil {key : String} (known : key ∈ listKeys) (path : String)
    (d : Document) : (readSection path d key (.sequence [])).value = d := by
  simp only [listKeys, List.mem_cons, List.not_mem_nil, or_false] at known
  rcases known with rfl | rfl | rfl | rfl
  · simp [readSection, readBeans, Value.sequence?, Value.untagged, readBeanItems]
  · rfl
  · rfl
  · rfl

end Lists

section Place
variable {before after : List Value} {es fs : List Entry} {key : String} {v w : Value}

/-- Items of the root, one of which has `v` under `key`. -/
def itemsWith (before after : List Value) (es fs : List Entry) (key : String) (v : Value) :
    List Value :=
  before ++ .mapping (es ++ entry key v :: fs) :: after

/-- A document depends on a section only through what the section is alone. -/
theorem value_itemsWith (same : (readSection "" .empty key v).value =
    (readSection "" .empty key w).value) (index : Nat) (d : Document) :
    (readItems index d (itemsWith before after es fs key v)).value =
      (readItems index d (itemsWith before after es fs key w)).value := by
  have entry : (readSectionEntry "" .empty (entry key v)).value =
      (readSectionEntry "" .empty (entry key w)).value := by
    change (readSection _ .empty key v).value = (readSection _ .empty key w).value
    rw [value_readSection _ "" .empty key v, value_readSection _ "" .empty key w, same]
  have item : (readItem "" .empty (.mapping (es ++ Yaml.entry key v :: fs))).value =
      (readItem "" .empty (.mapping (es ++ Yaml.entry key w :: fs))).value := by
    simp only [readItem, Value.mapping?, Value.untagged]
    rw [Noted.value_foldlM_merge (value_readSectionEntry "" ""),
      Noted.value_foldlM_merge (value_readSectionEntry "" ""), List.map_append, List.map_append,
      List.map_cons, List.map_cons, entry]
  rw [itemsWith, itemsWith, value_readItems "" index, value_readItems "" index, List.map_append,
    List.map_append, List.map_cons, List.map_cons, item]

/-- What is noted in a section, whatever was read before it, is noted. -/
theorem mem_notes_itemsWith {n : Diagnostic} {index : Nat}
    (h : ∀ d, n ∈ (readSection (childPath s!"[{index + before.length}]" key) d key v).notes)
    (d : Document) : n ∈ (readItems index d (itemsWith before after es fs key v)).notes := by
  rw [itemsWith, readItems_append, Noted.notes_bind, readItems, Noted.notes_bind]
  apply List.mem_append_right
  apply List.mem_append_left
  simp only [readItem, Value.mapping?, Value.untagged]
  rw [List.foldlM_append, Noted.notes_bind, List.foldlM_cons, Noted.notes_bind]
  exact List.mem_append_right _ (List.mem_append_left _ (h _))

end Place

/-- What is noted about an item that is no mapping. -/
def otherItem (here key : String) (i : Nat) (v : Value) : Diagnostic :=
  if key = "beans" then
    .unknownShape (indexPath here i) s!"expected a map, found {v.describe}, skipped"
  else .unknownShape here "expected a map or a list of maps, found a sequence, skipped"

theorem mem_notes_readSection {key : String} (known : key ∈ listKeys) {items : List Value} {i : Nat}
    {v : Value} (there : items[i]? = some v) (other : isMapping v = false) (path : String)
    (d : Document) : otherItem path key i v ∈ (readSection path d key (.sequence items)).notes := by
  rw [otherItem]
  split
  · rename_i beans
    have noted := mem_notes_readBeanItems path 0 i there other
    rw [Nat.zero_add] at noted
    simpa [beans, readSection, readBeans, Value.sequence?, Value.untagged] using noted
  · rename_i notBeans
    have some : items.all isMapping = false :=
      List.all_eq_false.2 ⟨v, List.mem_of_getElem? there, Bool.not_eq_true _ ▸ other⟩
    rw [readSection_of_other known notBeans some]
    exact List.mem_cons_self

/-- A list of entities under a key of any item of the root. The document is that of the mappings in
the list exactly if the list is one of beans, or holds mappings only, or its mappings add nothing.
Else the document is that of an empty list: one item that is no mapping costs all the others. Every
such item of a list of beans is noted, and of the other lists there is one note. -/
theorem readDocument_sectionList {key : String} (known : key ∈ listKeys)
    (before after : List Value) (es fs : List Entry) (items : List Value) :
    ∃ d maps empty : Noted Document,
      readDocument (.sequence (itemsWith before after es fs key (.sequence items))) = .ok d ∧
      readDocument (.sequence (itemsWith before after es fs key
        (.sequence (items.filter isMapping)))) = .ok maps ∧
      readDocument (.sequence (itemsWith before after es fs key (.sequence []))) = .ok empty ∧
      (d.value = maps.value ↔ key = "beans" ∨ items.all isMapping ∨ maps.value = empty.value) ∧
      (key ≠ "beans" → items.all isMapping = false → d.value = empty.value) ∧
      ∀ i v, items[i]? = some v → isMapping v = false →
        otherItem (childPath s!"[{before.length}]" key) key i v ∈ d.notes := by
  refine ⟨_, _, _, rfl, rfl, rfl, ?_⟩
  have lost (notBeans : key ≠ "beans") (other : items.all isMapping = false) :
      (readItems 0 .empty (itemsWith before after es fs key (.sequence items))).value =
        (readItems 0 .empty (itemsWith before after es fs key (.sequence []))).value := by
    apply value_itemsWith
    rw [readSection_of_other known notBeans other, value_readSection_nil known]
  refine ⟨?_, lost, fun i v there other => ?_⟩
  · by_cases beans : key = "beans"
    · refine iff_of_true (value_itemsWith ?_ 0 .empty) (.inl beans)
      simp [beans, readSection, value_readBeans_filter]
    · cases whole : items.all isMapping with
      | true =>
        rw [List.filter_eq_self.2 (List.all_eq_true.1 whole)]
        exact iff_of_true rfl (.inr (.inl rfl))
      | false =>
        rw [lost beans whole]
        simp only [beans, Bool.false_eq_true, false_or]
        exact eq_comm
  · refine mem_notes_itemsWith (fun d => ?_) .empty
    rw [Nat.zero_add]
    exact mem_notes_readSection known there other _ d

/-- Two beans with a text between them. -/
def mixedBeans : List Value :=
  [.mapping [textEntry "name" "a"], .string "b", .mapping [textEntry "name" "c"]]

theorem readDocument_sectionList_mixedBeans :
    "beans" ∈ listKeys ∧ ∃ d,
      readDocument (.sequence (itemsWith [] [] [] [] "beans" (.sequence mixedBeans))) = .ok d ∧
      d.value = { Document.empty with beans := [.named "a", .named "c"] } ∧
      .unknownShape "[0]/beans[1]" "expected a map, found a string, skipped" ∈ d.notes := by
  have known : "beans" ∈ listKeys := by decide
  obtain ⟨d, maps, empty, read, kept, -, same, -, noted⟩ :=
    readDocument_sectionList known [] [] [] [] mixedBeans
  refine ⟨known, d, read, ?_, noted 1 (.string "b") rfl rfl⟩
  rw [same.2 (.inl rfl)]
  cases kept
  decide +kernel

/-- One text in a list of references, and no reference is left. -/
theorem readDocument_sectionList_lostReference :
    let reference : Value := .mapping [textEntry "id" "a", textEntry "interface" "i"]
    ∃ d maps,
      readDocument (.sequence (itemsWith [] [] [] [] "reference"
        (.sequence [reference, .string "b"]))) = .ok d ∧
      readDocument (.sequence (itemsWith [] [] [] [] "reference"
        (.sequence ([reference, .string "b"].filter isMapping)))) = .ok maps ∧
      d.value = .empty ∧ maps.value = .ofReference ⟨"a", "i", none⟩ := by
  refine ⟨_, _, rfl, rfl, ?_⟩
  decide +kernel

end RouteNotation.Dsl
