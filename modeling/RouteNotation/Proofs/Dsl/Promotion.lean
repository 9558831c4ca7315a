import RouteNotation.Proofs.Dsl.StepFields
import RouteNotation.Proofs.Route.StepTree

/-!
Steps as mappings, children that have lost their place included. What is written is told entry by
entry, and so is what is noted. Main statement: `stepBody_promotes`.
-/

namespace RouteNotation.Dsl

open Yaml OrderedMap

/-- What is written for one child. -/
def slotBody (path : String) : Slot → Noted Value
  | .nested step => stepValue (childPath path step.kind) step
  | .text _ value => pure (.string value)
  | .element tag step => stepBody (childPath path tag) step

/-- The keys of the children, each at its first place. -/
def childKeys (slots : List Slot) : List String :=
  (slots.map fun slot => groupKey slot.tag?).eraseDups

/-- What is written for the children under a key, in order. -/
def valuesUnder (path key : String) (slots : List Slot) : List Value :=
  (slots.filter fun slot => groupKey slot.tag? = key).map fun slot => (slotBody path slot).value

/-- A value that has its key to itself stands alone, unless the key always has a list. -/
def promoted (kind key : String) (values : List Value) : Value :=
  if values.length = 1 ∧ key ≠ "steps" ∧ branch? kind key ≠ some .list then values.headD .null
  else .sequence values

/-- The entries of a step itself: the attributes, the text, the expression. -/
def ownEntries (s : Step) : List Entry :=
  s.attributes.entries.map (fun a => textEntry a.1 a.2) ++ s.text.toList.map (textEntry "text") ++
    s.expression.toList.map fun e => entry (expressionKey s.kind e) (expressionField s.kind e)

def ownKeys (s : Step) : List String :=
  s.attributes.keys ++ s.text.toList.map (fun _ => "text") ++
    s.expression.toList.map (expressionKey s.kind)

/-- The keys of children that the step has for itself. -/
def collidingKeys (s : Step) : List String := (childKeys s.slots).filter (· ∈ ownKeys s)

/-- The entries of the children: one for each key that the step does not have for itself. -/
def childEntries (path : String) (s : Step) : List Entry :=
  ((childKeys s.slots).filter (· ∉ ownKeys s)).map fun key =>
    entry key (promoted s.kind key (valuesUnder path key s.slots))

def collision (path key : String) : Diagnostic :=
  .unknownShape (childPath path key)
    s!"child `{key}` collides with an existing key and was dropped"

def HasFields (s : Step) : Prop :=
  s.attributes.keys ≠ [] ∨ s.expression.isSome ∨ s.slots ≠ []

/-- No attribute stands where the expression is written under its language. -/
def LanguageApart (s : Step) : Prop :=
  ∀ e ∈ s.expression, (Role.ofTag s.kind).hasInlineExpression → e.language.tag ∉ s.attributes.keys

structure KeysApart (s : Step) : Prop where
  keys : ∀ key ∈ s.attributes.keys, isReserved key = false
  language : LanguageApart s

instance (s : Step) : Decidable (LanguageApart s) :=
  inferInstanceAs (Decidable (∀ e ∈ s.expression, _ → _))

instance (s : Step) : Decidable (KeysApart s) :=
  decidable_of_iff ((∀ key ∈ s.attributes.keys, isReserved key = false) ∧ LanguageApart s)
    ⟨fun ⟨keys, language⟩ => ⟨keys, language⟩, fun ⟨keys, language⟩ => ⟨keys, language⟩⟩

theorem groupValue_eq_promoted (kind key : String) (values : List Value) :
    groupValue kind key values = promoted kind key values := by
  unfold groupValue promoted
  split
  · simp [← not_or]
  · rename_i several
    rw [if_neg]
    rintro ⟨one, -⟩
    obtain ⟨v, rfl⟩ := List.length_eq_one_iff.1 one
    exact several v rfl

section Slots
variable {path : String}

theorem value_slotValues (slots : List Slot) : (slotValues path slots).value =
    slots.map fun slot => (groupKey slot.tag?, (slotBody path slot).value) := by
  induction slots with
  | nil => rfl
  | cons slot rest ih =>
    cases slot <;> simp only [slotValues, List.map_cons, ← ih] <;> rfl

theorem notes_slotValues (slots : List Slot) : (slotValues path slots).notes =
    slots.flatMap fun slot => (slotBody path slot).notes := by
  induction slots with
  | nil => rfl
  | cons slot rest ih =>
    cases slot <;>
      simp [slotValues, slotBody, stepValue, ih]

end Slots

section Groups
variable {path kind : String} {fields : Fields} {g : String × List Value}

theorem addGroup_of_mem (taken : g.1 ∈ fields.keys) :
    addGroup path kind fields g = ⟨fields, [collision path g.1]⟩ := by
  have contains : fields.contains g.1 = true := by simpa [OrderedMap.contains] using taken
  rw [addGroup, contains]
  rfl

theorem foldlM_addGroup_eq {gs : List (String × List Value)} (nodup : (gs.map Prod.fst).Nodup) :
    (gs.foldlM (addGroup path kind) fields).value.entries = fields.entries ++
        (gs.filter (·.1 ∉ fields.keys)).map (fun g => (g.1, groupValue kind g.1 g.2)) ∧
      (gs.foldlM (addGroup path kind) fields).notes =
        (gs.filter (·.1 ∈ fields.keys)).map fun g => collision path g.1 := by
  induction gs generalizing fields with
  | nil => simp
  | cons g gs ih =>
    rw [List.map_cons, List.nodup_cons] at nodup
    by_cases taken : g.1 ∈ fields.keys
    · obtain ⟨value, notes⟩ := @ih fields nodup.2
      simp [addGroup_of_mem taken, value, notes, taken]
    · obtain ⟨value, notes⟩ := @ih (fields.put g.1 (groupValue kind g.1 g.2)) nodup.2
      -- The key that was put in is not the key of any later group.
      have same : ∀ f ∈ gs, f.1 ∈ (fields.put g.1 (groupValue kind g.1 g.2)).keys ↔
          f.1 ∈ fields.keys := by
        intro f hf
        rw [Fields.mem_keys_put]
        exact or_iff_left fun again => nodup.1 (again ▸ List.mem_map_of_mem hf)
      have kept : gs.filter (·.1 ∉ (fields.put g.1 (groupValue kind g.1 g.2)).keys) =
          gs.filter (·.1 ∉ fields.keys) :=
        List.filter_congr fun f hf => decide_eq_decide.2 (not_congr (same f hf))
      have dropped : gs.filter (·.1 ∈ (fields.put g.1 (groupValue kind g.1 g.2)).keys) =
          gs.filter (·.1 ∈ fields.keys) :=
        List.filter_congr fun f hf => decide_eq_decide.2 (same f hf)
      rw [kept, Fields.put, entries_insert_of_not_mem taken] at value
      rw [dropped, Fields.put] at notes
      simp [addGroup_of_not_mem taken, value, notes, taken, Fields.put]

end Groups

theorem mem_ownKeys {s : Step} {key : String} : key ∈ ownKeys s ↔
    key ∈ (ownFields s.kind s.attributes s.text s.expression).keys := by
  rw [mem_keys_ownFields, ownKeys]
  cases s.text <;> cases s.expression <;> simp

theorem entries_slotGroups (path : String) (slots : List Slot) :
    (groups (slotValues path slots).value).entries =
      (childKeys slots).map fun key => (key, valuesUnder path key slots) := by
  rw [entries_groups_eq, value_slotValues, List.map_map]
  apply List.map_congr_left
  intro key _
  rw [List.filter_map, List.map_map]
  rfl

theorem value_foldlM_groups (path : String) (s : Step) :
    ((groups (slotValues path s.slots).value).entries.foldlM (addGroup path s.kind)
      (ownFields s.kind s.attributes s.text s.expression)).value.toEntries =
      (ownFields s.kind s.attributes s.text s.expression).toEntries ++ childEntries path s := by
  have nodup := (groups (slotValues path s.slots).value).nodup
  rw [Fields.toEntries, (foldlM_addGroup_eq nodup).1, entries_slotGroups, List.map_append,
    List.filter_map, List.map_map, List.map_map]
  simp only [childEntries, mem_ownKeys, groupValue_eq_promoted]
  rfl

theorem notes_foldlM_groups (path : String) (s : Step) :
    ((groups (slotValues path s.slots).value).entries.foldlM (addGroup path s.kind)
      (ownFields s.kind s.attributes s.text s.expression)).notes =
      (collidingKeys s).map (collision path) := by
  have nodup := (groups (slotValues path s.slots).value).nodup
  rw [(foldlM_addGroup_eq nodup).2, entries_slotGroups, List.filter_map, List.map_map]
  simp only [collidingKeys, mem_ownKeys]
  rfl

theorem value_stepBody (path : String) {s : Step} (h : HasFields s) : (stepBody path s).value =
    .mapping ((ownFields s.kind s.attributes s.text s.expression).toEntries ++
      childEntries path s) := by
  rw [← value_foldlM_groups]
  obtain ⟨kind, attributes, text, expression, slots⟩ := s
  unfold stepBody
  split
  · rename_i empty
    have nothing : (attributes.keys = [] ∧ expression = none) ∧ slots = [] := by
      simpa [OrderedMap.isEmpty, OrderedMap.keys] using empty
    obtain ⟨⟨noAttributes, rfl⟩, rfl⟩ := nothing
    rcases h with more | more | more
    · exact absurd noAttributes more
    · cases more
    · exact absurd rfl more
  · rfl

theorem notes_stepBody (path : String) (s : Step) : (stepBody path s).notes =
    s.slots.flatMap (fun slot => (slotBody path slot).notes) ++
      (collidingKeys s).map (collision path) := by
  rw [← notes_foldlM_groups, ← notes_slotValues]
  obtain ⟨kind, attributes, text, expression, slots⟩ := s
  unfold stepBody
  split
  · rename_i empty
    obtain rfl : slots = [] := by
      simp only [Bool.and_eq_true, List.isEmpty_iff] at empty
      exact empty.2
    cases text <;> rfl
  · simp [Step.slots, Step.kind, Step.attributes, Step.text, Step.expression]

mutual

theorem length_notes_stepBody (path : String) : (s : Step) →
    (stepBody path s).notes.length = (s.subtree.flatMap collidingKeys).length
  | ⟨kind, attributes, text, expression, slots⟩ => by
    rw [notes_stepBody, List.length_append, List.length_map, Step.subtree, List.flatMap_cons,
      List.length_append, ← length_notes_slots path slots, Nat.add_comm]
    rfl

theorem length_notes_slots (path : String) : (slots : List Slot) →
    (slots.flatMap fun slot => (slotBody path slot).notes).length =
      ((slotsSubtree slots).flatMap collidingKeys).length
  | [] => rfl
  | .nested step :: rest => by
    have here := length_notes_stepBody (childPath path step.kind) step
    rw [List.flatMap_cons, List.length_append, length_notes_slots path rest, slotsSubtree,
      List.flatMap_append, List.length_append, ← here]
    simp [slotBody, stepValue]
  | .element tag step :: rest => by
    have here := length_notes_stepBody (childPath path tag) step
    rw [List.flatMap_cons, List.length_append, length_notes_slots path rest, slotsSubtree,
      List.flatMap_append, List.length_append, ← here]
    rfl
  | .text _ _ :: rest => by
    rw [slotsSubtree, ← length_notes_slots path rest]
    rfl

end

theorem entries_putAttributes (attributes : Attributes) :
    (noFields.putAttributes attributes).entries =
      attributes.entries.map fun a => (a.1, .string a.2) := by
  have nodup : ((attributes.entries.map fun a => (a.1, Value.string a.2)).map Prod.fst).Nodup := by
    rw [List.map_map]
    exact attributes.nodup
  have all := entries_insertEach (m := noFields) nodup fun _ _ => not_mem_keys_noFields
  rw [List.foldl_map] at all
  exact all

theorem expressionKey_not_mem {s : Step} (h : KeysApart s) :
    ∀ e ∈ s.expression, expressionKey s.kind e ∉ s.attributes.keys := by
  intro e he known
  unfold expressionKey at known
  split at known
  · rename_i inline
    exact h.language e he inline known
  · exact absurd (h.keys _ known) (by decide)

theorem toEntries_ownFields {s : Step} (h : KeysApart s) :
    (ownFields s.kind s.attributes s.text s.expression).toEntries = ownEntries s := by
  have noText : "text" ∉ (noFields.putAttributes s.attributes).keys := by
    rw [Fields.mem_keys_putAttributes]
    rintro (known | known)
    · exact not_mem_keys_noFields known
    · exact absurd (h.keys _ known) (by decide)
  have texts : ((noFields.putAttributes s.attributes).putText? "text" s.text).entries =
      s.attributes.entries.map (fun a => (a.1, .string a.2)) ++
        s.text.toList.map fun text => ("text", .string text) := by
    rw [← entries_putAttributes]
    cases s.text with
    | none => simp [Fields.putText?]
    | some text => simp [Fields.putText?, Fields.put, entries_insert_of_not_mem noText]
  have expressions := expressionKey_not_mem h
  unfold ownFields ownEntries
  cases found : s.expression with
  | none =>
    simp only [addExpression, Fields.toEntries, texts, List.map_append, List.map_map,
      Option.toList_none, List.map_nil, List.append_nil]
    rfl
  | some e =>
    have new : expressionKey s.kind e ∉
        ((noFields.putAttributes s.attributes).putText? "text" s.text).keys := by
      rw [Fields.mem_keys_putText?, Fields.mem_keys_putAttributes]
      rintro ((known | known) | ⟨_, same⟩)
      · exact not_mem_keys_noFields known
      · exact expressions e found known
      · exact expressionKey_ne (by decide) (by decide) e same
    simp only [addExpression_some, Fields.toEntries, Fields.put, entries_insert_of_not_mem new,
      texts, List.map_append, List.map_map, Option.toList_some, List.map_cons, List.map_nil]
    rfl

/-- In a step with fields of its own or children, the attributes, the text and the expression come
first. Then comes one entry for each key of the children that is still free, where the key first
stands, with everything written for the children under it. The other keys are noted, once each, and
nothing else is noted anywhere in the tree. -/
theorem stepBody_promotes {s : Step} (apart : ∀ t ∈ s.subtree, KeysApart t) :
    (∀ t ∈ s.subtree, HasFields t → ∀ path,
      (stepBody path t).value = .mapping (ownEntries t ++ childEntries path t) ∧
        (stepBody path t).notes = t.slots.flatMap (fun slot => (slotBody path slot).notes) ++
          (collidingKeys t).map (collision path)) ∧
      ∀ path, (stepBody path s).notes.length = (s.subtree.flatMap collidingKeys).length := by
  refine ⟨?_, fun path => length_notes_stepBody path s⟩
  intro t ht fields path
  rw [value_stepBody path fields, toEntries_ownFields (apart t ht)]
  exact ⟨rfl, notes_stepBody path t⟩

/-- Children of several keys, mixed. Two keys are taken, by an attribute and by the expression, and
of the keys with one child two have a list all the same. -/
def mixedChoice : Step :=
  ⟨"choice", .ofList [("id", "c"), ("note", "kept")], some "t", some (.ofText .simple "e"),
    [.nested (.bare "log"), .text "note" "lost", .element "when" (.bare "when"),
      .text "script" "a", .nested (.bare "stop"), .text "simple" "late", .text "script" "b",
      .text "lone" "l"]⟩

theorem stepBody_promotes_mixed :
    (∀ t ∈ mixedChoice.subtree, KeysApart t) ∧ HasFields mixedChoice ∧
      (stepBody "r" mixedChoice).value = .mapping
        [textEntry "id" "c", textEntry "note" "kept", textEntry "text" "t",
          entry "simple" (.mapping [textEntry "expression" "e"]),
          entry "steps" (.sequence [.ofEntry "log" (.mapping []), .ofEntry "stop" (.mapping [])]),
          entry "when" (.sequence [.mapping []]),
          entry "script" (.sequence [.string "a", .string "b"]), textEntry "lone" "l"] ∧
      (stepBody "r" mixedChoice).notes = [collision "r" "note", collision "r" "simple"] := by
  have apart : ∀ t ∈ mixedChoice.subtree, KeysApart t := by decide
  have fields : HasFields mixedChoice := .inr (.inl rfl)
  have told := (stepBody_promotes apart).1 mixedChoice mixedChoice.mem_subtree fields "r"
  exact ⟨apart, fields, told.1, told.2⟩

end RouteNotation.Dsl
