import RouteNotation.Proofs.Route.UriPairs
import RouteNotation.Proofs.Yaml.KeyTexts

/-!
The texts of the scalars in a value tree, and what is looked up in trees without tags.
-/

namespace RouteNotation.Yaml

mutual

/-- The texts of the scalars in the tree, those in keys apart. -/
def Value.texts : Value → List String
  | .sequence items => itemsTexts items
  | .mapping es => entriesTexts es
  | .tagged _ v => v.texts
  | .null => []
  | .bool b => (Value.bool b).scalarText?.toList
  | .int i => (Value.int i).scalarText?.toList
  | .float x => (Value.float x).scalarText?.toList
  | .string s => [s]

def itemsTexts : List Value → List String
  | [] => []
  | v :: rest => v.texts ++ itemsTexts rest

def entriesTexts : List (Value × Value) → List String
  | [] => []
  | (_, v) :: rest => v.texts ++ entriesTexts rest

end

/-- A tree without tags in which no string is twice a key of one mapping. -/
structure Value.Clear (v : Value) : Prop where
  untagged : v.Untagged
  names : v.Everywhere Uri.DistinctNames

section
variable {v : Value} {es : List Entry} {items : List Value}

theorem itemsTexts_eq (items : List Value) : itemsTexts items = items.flatMap Value.texts := by
  induction items with
  | nil => rfl
  | cons v rest ih => rw [itemsTexts, ih, List.flatMap_cons]

theorem entriesTexts_eq (es : List Entry) : entriesTexts es = es.flatMap fun e => e.2.texts := by
  induction es with
  | nil => rfl
  | cons e rest ih => rw [entriesTexts, ih, List.flatMap_cons]

theorem texts_of_scalarText? {text : String} (h : v.scalarText? = some text) :
    v.texts = [text] := by
  induction v using Value.untagged.induct with
  | case1 tag v ih => exact ih h
  | case2 v bare =>
    cases v with
    | tagged tag v => exact absurd rfl (bare tag v)
    | null | sequence | mapping => cases h
    | string s => rw [Value.texts, Option.some.inj h]
    | _ => rw [Value.texts, h]; rfl

namespace Value.Clear

theorem item (h : (Value.sequence items).Clear) : ∀ v ∈ items, v.Clear := fun v mem =>
  ⟨itemsUntagged_iff.1 h.untagged v mem, itemsEverywhere_iff.1 h.names v mem⟩

theorem entry (h : (Value.mapping es).Clear) : ∀ e ∈ es, e.2.Clear := fun e mem =>
  ⟨(entriesUntagged_iff.1 h.untagged e mem).2, entriesEverywhere_iff.1 h.names.2 e mem⟩

theorem tail {e : Entry} (h : (Value.mapping (e :: es)).Clear) : (Value.mapping es).Clear := by
  refine ⟨h.untagged.2, ?_, h.names.2.2⟩
  exact (h.names.1 : Uri.DistinctNames (e :: es)).sublist
    (List.Sublist.filterMap _ (List.sublist_cons_self e es))

theorem eq_mapping (h : v.Clear) (found : v.mapping? = some es) : v = .mapping es :=
  eq_mapping_of_mapping? h.untagged found

theorem eq_sequence (h : v.Clear) (found : v.sequence? = some items) : v = .sequence items :=
  eq_sequence_of_sequence? h.untagged found

/-- What is looked up under a word is the value of the one entry that is read under it. -/
theorem scalarUnder? (h : (Value.mapping es).Clear) {e : Entry} (he : e ∈ es) {word : String}
    (key : e.1.scalarText? = some word) (noNumber : startsNumber word = false)
    (noTruth : word ≠ "true" ∧ word ≠ "false") :
    Yaml.scalarUnder? word es = e.2.scalarText? := by
  have string := eq_string_of_scalarText? (entriesUntagged_iff.1 h.untagged e he).1 key noNumber
    noTruth
  have distinct := Uri.distinctKeys_of_untagged h.untagged h.names.1
  have found : lookup? word es = some e.2 :=
    Uri.lookup?_of_mem distinct he (by rw [string]; rfl)
  rw [Yaml.scalarUnder?, found, Option.bind_some]

end Value.Clear
end
end RouteNotation.Yaml
