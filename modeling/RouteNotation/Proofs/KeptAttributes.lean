import RouteNotation.Proofs.Blueprint.ReadNames
import RouteNotation.Proofs.Dsl.Promotion

/-!
Where each step of a tree stands in what is written for it, and which of its attributes stand there.
A position says which child, then which child of that one, and so on. Main statement:
`readStep_attributes`.
-/

namespace RouteNotation

def Step.at? : Step → List Nat → Option Step
  | s, [] => some s
  | s, i :: p => (s.slots[i]?.bind Slot.step?).bind fun t => t.at? p

mutual

theorem Step.exists_at?_of_mem : {s t : Step} → t ∈ s.subtree → ∃ p, s.at? p = some t
  | ⟨kind, attributes, text, expression, slots⟩, t, h => by
    rw [Step.subtree, List.mem_cons] at h
    rcases h with rfl | below
    · exact ⟨[], rfl⟩
    · obtain ⟨i, child, p, here, found⟩ := exists_at?_of_mem_slots below
      exact ⟨i :: p, by simp only [Step.at?, Step.slots, here, Option.bind_some, found]⟩

theorem exists_at?_of_mem_slots : {slots : List Slot} → {t : Step} → t ∈ slotsSubtree slots →
    ∃ (i : Nat) (child : Step) (p : List Nat),
      slots[i]?.bind Slot.step? = some child ∧ child.at? p = some t
  | .nested step :: rest, t, h | .element _ step :: rest, t, h => by
    rw [slotsSubtree, List.mem_append] at h
    rcases h with here | later
    · obtain ⟨p, found⟩ := Step.exists_at?_of_mem here
      exact ⟨0, step, p, rfl, found⟩
    · obtain ⟨i, child, p, there, found⟩ := exists_at?_of_mem_slots later
      exact ⟨i + 1, child, p, there, found⟩
  | .text _ _ :: rest, t, h => by
    rw [slotsSubtree] at h
    obtain ⟨i, child, p, there, found⟩ := exists_at?_of_mem_slots h
    exact ⟨i + 1, child, p, there, found⟩

end

theorem subtree_subset_slotsSubtree {slots : List Slot} {slot : Slot} {child : Step}
    (h : slot ∈ slots) (inside : slot.step? = some child) :
    child.subtree ⊆ slotsSubtree slots := by
  induction slots with
  | nil => cases h
  | cons first rest ih =>
    rcases List.mem_cons.1 h with rfl | later
    · cases slot with
      | text tag value => cases inside
      | nested step | element tag step =>
        cases inside
        exact List.subset_append_left _ _
    · cases first with
      | text tag value => exact ih later
      | nested step | element tag step => exact List.subset_append_of_subset_right _ (ih later)

theorem Step.subtree_subset {s child : Step} {slot : Slot} (h : slot ∈ s.slots)
    (inside : slot.step? = some child) : child.subtree ⊆ s.subtree := by
  obtain ⟨kind, attributes, text, expression, slots⟩ := s
  exact List.subset_cons_of_subset _ (subtree_subset_slotsSubtree h inside)

theorem Step.mem_subtree_of_at? {s t : Step} {p : List Nat} (h : s.at? p = some t) :
    t ∈ s.subtree := by
  induction p generalizing s with
  | nil =>
    cases h
    exact t.mem_subtree
  | cons i p ih =>
    obtain ⟨child, there, found⟩ := Option.bind_eq_some_iff.1 h
    obtain ⟨slot, hs, inside⟩ := Option.bind_eq_some_iff.1 there
    exact subtree_subset (List.mem_of_getElem? hs) inside (ih found)

theorem Step.mem_subtree_iff {s t : Step} : t ∈ s.subtree ↔ ∃ p, s.at? p = some t :=
  ⟨exists_at?_of_mem, fun ⟨_, h⟩ => mem_subtree_of_at? h⟩

namespace Dsl

open Yaml OrderedMap

/-- What stands under a key, if this is a mapping that has it. -/
def field? (key : String) (v : Value) : Option Value := v.mapping?.bind (lookup? key)

/-- The values under one key: those in the list, or the one that stands alone. -/
def members : Value → List Value
  | .sequence items => items
  | v => [v]

/-- What is written for the child at a place: under its key, after what is written for the children
before it that have the same key. A nested step has its kind around it. -/
def childBody? (slots : List Slot) (i : Nat) (body : Value) : Option Value := do
  let slot ← slots[i]?
  let key := groupKey slot.tag?
  let v ← field? key body
  let w ← (members v)[((slots.take i).filter fun before => groupKey before.tag? = key).length]?
  match slot with
  | .nested step => field? step.kind w
  | .text _ _ | .element _ _ => some w

def bodyAt? : Step → Value → List Nat → Option Value
  | _, body, [] => some body
  | s, body, i :: p => do
    let t ← s.slots[i]?.bind Slot.step?
    let w ← childBody? s.slots i body
    bodyAt? t w p

theorem getElem?_filter_rank {α : Type} {P : α → Bool} {as : List α} {i : Nat} {a : α}
    (h : as[i]? = some a) (ha : P a = true) :
    (as.filter P)[((as.take i).filter P).length]? = some a := by
  have cut : as.take i ++ a :: as.drop (i + 1) = as := by
    obtain ⟨hi, rfl⟩ := List.getElem?_eq_some_iff.1 h
    simp
  have filtered : (as.take i).filter P ++ a :: (as.drop (i + 1)).filter P = as.filter P := by
    rw [← List.filter_cons_of_pos ha, ← List.filter_append, cut]
  rw [← filtered, List.getElem?_append_right (Nat.le_refl _), Nat.sub_self]
  rfl

section Body
variable {path : String} {s t : Step}

theorem members_stepBody : members (stepBody path s).value = [(stepBody path s).value] := by
  obtain ⟨kind, attributes, text, expression, slots⟩ := s
  unfold stepBody
  split
  · cases text <;> rfl
  · rfl

theorem members_slotBody (slot : Slot) :
    members (slotBody path slot).value = [(slotBody path slot).value] := by
  cases slot with
  | nested step => rfl
  | text tag value => rfl
  | element tag step => exact members_stepBody

theorem members_promoted {kind key : String} {values : List Value} (nonempty : values ≠ [])
    (single : ∀ v ∈ values, members v = [v]) : members (promoted kind key values) = values := by
  unfold promoted
  split
  · rename_i alone
    obtain ⟨v, rfl⟩ := List.length_eq_one_iff.1 alone.1
    exact single v List.mem_cons_self
  · rfl

/-- No value is itself a list, so the list under a key has one member for each child. -/
theorem members_valuesUnder {kind key : String} {slots : List Slot}
    (present : key ∈ childKeys slots) :
    members (promoted kind key (valuesUnder path key slots)) = valuesUnder path key slots := by
  apply members_promoted
  · obtain ⟨slot, hs, rfl⟩ := List.mem_map.1 (List.mem_eraseDups.1 present)
    exact List.ne_nil_of_mem
      (List.mem_map_of_mem (List.mem_filter.2 ⟨hs, decide_eq_true rfl⟩))
  · intro v hv
    obtain ⟨slot, _, rfl⟩ := List.mem_map.1 hv
    exact members_slotBody slot

theorem getElem?_valuesUnder {slots : List Slot} {i : Nat} {slot : Slot}
    (here : slots[i]? = some slot) :
    (valuesUnder path (groupKey slot.tag?) slots)[((slots.take i).filter fun before =>
      groupKey before.tag? = groupKey slot.tag?).length]? = some (slotBody path slot).value := by
  have place := getElem?_filter_rank (P := fun before => groupKey before.tag? = groupKey slot.tag?)
    here (decide_eq_true rfl)
  rw [valuesUnder, List.getElem?_map, place]
  rfl

theorem distinctKeys_body (path : String) (s : Step) :
    Uri.DistinctKeys ((ownFields s.kind s.attributes s.text s.expression).toEntries ++
      childEntries path s) := by
  rw [← value_foldlM_groups]
  exact distinctKeys_toEntries _

theorem field?_stepBody (h : HasFields s) {key : String} {v : Value}
    (there : entry key v ∈ (ownFields s.kind s.attributes s.text s.expression).toEntries ++
      childEntries path s) : field? key (stepBody path s).value = some v := by
  rw [value_stepBody path h]
  exact Uri.lookup?_of_mem (distinctKeys_body path s) there rfl

theorem childBody?_stepBody (path : String) (free : collidingKeys s = []) {i : Nat} {slot : Slot}
    (here : s.slots[i]? = some slot) (inside : slot.step? = some t) :
    ∃ below, childBody? s.slots i (stepBody path s).value = some (stepBody below t).value := by
  have hs : slot ∈ s.slots := List.mem_of_getElem? here
  have known : groupKey slot.tag? ∈ childKeys s.slots :=
    List.mem_eraseDups.2 (List.mem_map_of_mem hs)
  have new : groupKey slot.tag? ∉ ownKeys s := by
    simpa using List.filter_eq_nil_iff.1 free _ known
  have found : field? (groupKey slot.tag?) (stepBody path s).value =
      some (promoted s.kind (groupKey slot.tag?) (valuesUnder path (groupKey slot.tag?) s.slots)) :=
    field?_stepBody (.inr (.inr (List.ne_nil_of_mem hs))) (List.mem_append_right _
      (List.mem_map_of_mem (List.mem_filter.2 ⟨known, decide_eq_true new⟩)))
  simp only [childBody?, here, found, members_valuesUnder known, getElem?_valuesUnder here,
    Option.bind_eq_bind, Option.bind_some]
  cases slot with
  | text tag text => cases inside
  | nested step =>
    cases inside
    exact ⟨childPath path t.kind, Uri.lookup?_cons_self _ _⟩
  | element tag step =>
    cases inside
    exact ⟨childPath path tag, rfl⟩

theorem bodyAt?_stepBody (path : String) (free : ∀ t ∈ s.subtree, collidingKeys t = [])
    {p : List Nat} (there : s.at? p = some t) :
    ∃ below, bodyAt? s (stepBody path s).value p = some (stepBody below t).value := by
  induction p generalizing s path with
  | nil =>
    cases there
    exact ⟨path, rfl⟩
  | cons i p ih =>
    obtain ⟨child, childThere, found⟩ := Option.bind_eq_some_iff.1 there
    obtain ⟨slot, here, inside⟩ := Option.bind_eq_some_iff.1 childThere
    obtain ⟨below, written⟩ := childBody?_stepBody path (free s s.mem_subtree) here inside
    have childFree : ∀ t ∈ child.subtree, collidingKeys t = [] :=
      fun t ht => free t (Step.subtree_subset (List.mem_of_getElem? here) inside ht)
    obtain ⟨last, same⟩ := ih below childFree found
    exact ⟨last, by simp only [bodyAt?, childThere, written, Option.bind_eq_bind,
      Option.bind_some, same]⟩

theorem get?_ownFields_text {a : String × String} (ha : a ∈ s.attributes.entries)
    (unreserved : isReserved a.1 = false) :
    ((noFields.putAttributes s.attributes).putText? "text" s.text).get? a.1 =
      some (.string a.2) := by
  have noText : a.1 ≠ "text" := by
    intro same
    rw [same] at unreserved
    cases unreserved
  have own : (noFields.putAttributes s.attributes).get? a.1 = some (.string a.2) := by
    have there : (a.1, Value.string a.2) ∈ (noFields.putAttributes s.attributes).entries := by
      rw [entries_putAttributes]
      exact List.mem_map_of_mem ha
    exact get?_of_mem there
  cases s.text with
  | none => exact own
  | some text => rw [Fields.putText?, get?_put, if_neg noText, own]

theorem field?_attribute {a : String × String} (ha : a ∈ s.attributes.entries)
    (unreserved : isReserved a.1 = false) :
    field? a.1 (stepBody path s).value = some (.string a.2) ↔
      ∀ e ∈ s.expression, expressionKey s.kind e ≠ a.1 := by
  have fields : HasFields s := .inl (List.ne_nil_of_mem (List.mem_map_of_mem ha))
  have texts := get?_ownFields_text ha unreserved
  have field (v : Value)
      (h : (ownFields s.kind s.attributes s.text s.expression).get? a.1 = some v) :
      field? a.1 (stepBody path s).value = some v :=
    field?_stepBody fields (List.mem_append_left _ (mem_toEntries.2 h))
  unfold ownFields at field
  cases found : s.expression with
  | none =>
    rw [found] at field
    exact iff_of_true (field _ texts) fun _ he => absurd he (Option.not_mem_none _)
  | some e =>
    rw [found, addExpression_some] at field
    by_cases same : expressionKey s.kind e = a.1
    · have written := field (expressionField s.kind e) (by rw [get?_put, if_pos same.symm])
      refine iff_of_false ?_ fun apart => apart e rfl same
      rw [written, expressionField]
      split <;> exact fun same => Value.noConfusion (Option.some.inj same)
    · refine iff_of_true (field _ ?_) ?_
      · rw [get?_put, if_neg (Ne.symm same), texts]
      · rintro e ⟨⟩
        exact same

end Body

/-- What is written for a step that was read from an element: a diagnostic is noted exactly if
children have a key that their step has for itself. If there is none, each step stands at its place,
and an attribute of it under its own key, unless the expression was written there. -/
theorem readStep_attributes {there : String} {e : Xml.Element} {s : Step}
    (read : (Blueprint.readStep there e).value = some s) (path : String) :
    ((stepValue path s).notes = [] ↔ ∀ t ∈ s.subtree, collidingKeys t = []) ∧
      ((stepValue path s).notes = [] → ∃ body, (stepValue path s).value = .ofEntry s.kind body ∧
        ∀ p t, s.at? p = some t → ∃ v, bodyAt? s body p = some v ∧
          ∀ a ∈ t.attributes.entries, field? a.1 v = some (.string a.2) ↔
            ∀ e ∈ t.expression, expressionKey t.kind e ≠ a.1) := by
  have noted : (stepValue path s).notes = [] ↔ ∀ t ∈ s.subtree, collidingKeys t = [] := by
    have notes : (stepValue path s).notes = (stepBody path s).notes := by simp [stepValue]
    rw [notes, ← List.length_eq_zero_iff, length_notes_stepBody, List.length_eq_zero_iff,
      List.flatMap_eq_nil_iff]
  refine ⟨noted, fun nothing => ⟨(stepBody path s).value, rfl, ?_⟩⟩
  intro p t found
  obtain ⟨below, written⟩ := bodyAt?_stepBody path (noted.1 nothing) found
  refine ⟨(stepBody below t).value, written, ?_⟩
  have names := (Blueprint.names_of_readStep read).of_mem_subtree t
    (Step.mem_subtree_iff.2 ⟨p, found⟩)
  exact fun a ha => field?_attribute ha (names.keys a.1 (List.mem_map_of_mem ha))

/-- A filter whose expression is under a language of its own, and a log under it. -/
def filterElement : Xml.Element :=
  ⟨"filter", .ofList [("id", "f"), ("text", "t")], [.element (.ofText "simple" .empty "y"),
    .element ⟨"camel:log", .ofList [("message", "m"), ("id", "l")], []⟩]⟩

def filterStep : Step :=
  ⟨"filter", .single "id" "f", none, some (.ofText .simple "y"),
    [.nested ⟨"log", .ofList [("message", "m"), ("id", "l")], none, none, []⟩]⟩

theorem readStep_attributes_filter :
    (Blueprint.readStep "r" filterElement).value = some filterStep ∧
      (stepValue "r" filterStep).notes = [] ∧
        ∃ body line, (stepValue "r" filterStep).value = .ofEntry "filter" body ∧
          bodyAt? filterStep body [0] = some line ∧ field? "id" body = some (.string "f") ∧
            field? "message" line = some (.string "m") := by
  have read : (Blueprint.readStep "r" filterElement).value = some filterStep := by decide
  have nothing : (stepValue "r" filterStep).notes = [] := by decide
  obtain ⟨body, written, each⟩ := (readStep_attributes read "r").2 nothing
  obtain ⟨own, here, ownKept⟩ := each [] filterStep rfl
  obtain rfl : body = own := Option.some.inj here
  obtain ⟨line, below, lineKept⟩ := each [0] _ rfl
  refine ⟨read, nothing, body, line, written, below, ?_, ?_⟩
  · exact (ownKept ("id", "f") (by decide)).2 (by decide)
  · exact (lineKept ("message", "m") (by decide)).2 nofun

/-- A filter with an attribute named after the language of its expression. -/
def crowdedFilter : Xml.Element :=
  ⟨"filter", .single "simple" "x", [.element (.ofText "simple" .empty "y")]⟩

theorem readStep_attributes_overwritten :
    ∃ s, Blueprint.readStep "r" crowdedFilter = pure (some s) ∧
      ("simple", "x") ∈ s.attributes.entries ∧ ∃ body,
        stepValue "r" s = pure (.ofEntry "filter" body) ∧
          field? "simple" body = some (.mapping [textEntry "expression" "y"]) := by
  refine ⟨⟨"filter", .single "simple" "x", none, some (.ofText .simple "y"), []⟩, ?_, ?_, ?_⟩
  · decide
  · decide
  · exact ⟨_, rfl, rfl⟩

end Dsl
end RouteNotation
