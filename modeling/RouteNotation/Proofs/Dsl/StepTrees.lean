import RouteNotation.Proofs.Dsl.StepFields

/-!
The trees of canonical steps are settled: in none of them is there a URI beside parameters that it
would be joined with. Main statement: `settled_bodyValue`.
-/

namespace RouteNotation.Dsl

open Yaml OrderedMap Uri

theorem settled_expressionValue (e : Expression) : Settled (expressionValue e) :=
  settled_of_quiet (.putAttributes (.putText? .noFields (quiet_string _) e.text)
    fun a _ => quiet_string a.1 a.2)

theorem settled_expressionField {kind : String} (e : Expression) :
    Settled (expressionField kind e) := by
  unfold expressionField
  split
  · exact settled_expressionValue e
  · exact settled_ofEntry (settled_expressionValue e)

theorem groupKey_eq_some {tag : Option String} {key : String} (other : key ≠ "steps")
    (same : groupKey tag = key) : tag = some key := by
  cases tag with
  | none => exact absurd same.symm other
  | some t => exact congrArg some same

theorem settled_groupValue {kind key : String} {values : List Value}
    (h : ∀ v ∈ values, Settled v) : Settled (groupValue kind key values) := by
  unfold groupValue
  split
  · split
    · exact settled_sequence h
    · exact h _ List.mem_cons_self
  · exact settled_sequence h

section Own
variable {kind : String} {attributes : Attributes} {text : Option String}
  {expression : Option Expression} {slots : List Slot}

/-- What passes for texts and for the expression passes for all fields of the step itself. -/
theorem all_ownFields {P : String → Value → Prop}
    (strings : ∀ a ∈ attributes.entries, P a.1 (.string a.2)) (own : ∀ s, P "text" (.string s))
    (other : ∀ e ∈ expression, P (expressionKey kind e) (expressionField kind e)) :
    (ownFields kind attributes text expression).All P := by
  have before : ((noFields.putAttributes attributes).putText? "text" text).All P :=
    .putText? (.putAttributes .noFields strings) own text
  unfold ownFields
  cases expression with
  | none => exact before
  | some e =>
    rw [addExpression_some]
    exact before.put (other e rfl)

theorem entries_stepFields (h : CanonicalBody kind attributes expression slots) :
    (stepFields ⟨kind, attributes, text, expression, slots⟩).entries =
      (ownFields kind attributes text expression).entries ++ (slotTags slots).map fun tag =>
        (groupKey tag, groupValue kind (groupKey tag) ((slotsUnder tag slots).map slotValue)) := by
  have nodup := nodup_groupKeys h.tag?_ne
  have new := h.groupKey_not_mem text
  rw [stepFields_eq h]
  generalize ownFields kind attributes text expression = own at new ⊢
  generalize hes : ((slotTags slots).map fun tag => (groupKey tag,
    groupValue kind (groupKey tag) ((slotsUnder tag slots).map slotValue))) = es
  rw [← entries_insertEach, ← hes, List.foldl_map]
  · rfl
  · rwa [← hes, List.map_map]
  · intro e he
    rw [← hes] at he
    obtain ⟨tag, ht, rfl⟩ := List.mem_map.1 he
    exact new tag ht

theorem isScalar_groupValue {kind key : String} {values : List Value}
    (h : (groupValue kind key values).isScalar) : ∃ v, values = [v] ∧ v.isScalar := by
  unfold groupValue at h
  split at h
  · rename_i v
    split at h
    · cases h
    · exact ⟨v, rfl, h⟩
  · cases h

/-- A group with one value has one slot. -/
theorem eq_of_slotsUnder {tag : Option String} {v : Value}
    (h : (slotsUnder tag slots).map slotValue = [v]) :
    ∃ slot ∈ slots, slot.tag? = tag ∧ slotsUnder tag slots = [slot] ∧ slotValue slot = v := by
  obtain ⟨slot, under, value⟩ := List.map_eq_singleton_iff.1 h
  have here : slot ∈ slotsUnder tag slots := under ▸ List.mem_singleton_self slot
  obtain ⟨member, same⟩ := mem_slotsUnder.1 here
  exact ⟨slot, member, same, under, value⟩

/-- A group that is written as a scalar is one text. -/
theorem alone_of_scalar {slot : Slot} (hs : slot ∈ slots)
    (h : (groupValue kind (groupKey slot.tag?)
      ((slotsUnder slot.tag? slots).map slotValue)).isScalar) :
    slotsUnder slot.tag? slots = [slot] ∧ slot.isText = true := by
  obtain ⟨v, values, scalar⟩ := isScalar_groupValue h
  obtain ⟨alone, _, _, under, rfl⟩ := eq_of_slotsUnder values
  have here : slot ∈ slotsUnder slot.tag? slots := mem_slotsUnder.2 ⟨hs, rfl⟩
  rw [under, List.mem_singleton] at here
  subst here
  refine ⟨under, ?_⟩
  cases slot with
  | text tag value => rfl
  | nested step => cases scalar
  | element tag step => cases scalar

theorem isScalar_expressionField (e : Expression) : (expressionField kind e).isScalar = false := by
  unfold expressionField
  split <;> rfl

/-- Scalars alone are written for a flat step only. -/
theorem isFlat_of_scalars (body : CanonicalBody kind attributes expression slots)
    (h : ∀ f ∈ (stepFields ⟨kind, attributes, text, expression, slots⟩).entries, f.2.isScalar) :
    isFlat ⟨kind, attributes, text, expression, slots⟩ = true := by
  rw [entries_stepFields body] at h
  have one : ∀ slot ∈ slots, slotsUnder slot.tag? slots = [slot] ∧ slot.isText = true :=
    fun slot hs => alone_of_scalar hs (h _ (List.mem_append_right _
      (List.mem_map_of_mem (mem_slotTags.2 ⟨slot, hs, rfl⟩))))
  have noExpression : expression = none := by
    cases expression with
    | none => rfl
    | some e =>
      have found : (ownFields kind attributes text (some e)).get? (expressionKey kind e) =
          some (expressionField kind e) := by
        rw [ownFields, addExpression_some]
        exact (get?_update _ _ _ _).trans (if_pos rfl)
      have scalar := h _ (List.mem_append_left _ (mem_entries_of_get? found))
      exact absurd (scalar.symm.trans (isScalar_expressionField e)) (by decide)
  have texts : slots.all Slot.isText = true := List.all_eq_true.2 fun slot hs => (one slot hs).2
  have distinct := nodup_tags_of_alone fun slot hs => (one slot hs).1
  simp [isFlat, Step.expression, Step.slots, noExpression, texts, distinct]

theorem parameters?_of_not_flat {s : Step} (h : CanonicalStep s) (notFlat : isFlat s = false) :
    parameters? (stepFields s).toValue = none := by
  have value : parameters? (stepFields s).toValue =
    (scalarEntries? (stepFields s).toEntries).map .ofList := rfl
  cases all : scalarEntries? (stepFields s).toEntries with
  | none => rw [value, all, Option.map_none]
  | some scalars =>
    have each := isSome_scalarEntries?.1 (Option.isSome_of_eq_some all)
    obtain ⟨kind, attributes, text, expression, slots⟩ := s
    rw [CanonicalStep] at h
    have flat := isFlat_of_scalars h.1 fun f hf => (each _ (List.mem_map_of_mem hf)).2
    exact absurd (flat.symm.trans notFlat) (by decide)

/-- Under the key of parameters stands nothing that a URI could be joined with. -/
theorem parameters?_group (below : CanonicalSlots slots)
    (notFlat : hasFlatParameters slots = false) :
    parameters? (groupValue kind parametersKey
      ((slotsUnder (some parametersKey) slots).map slotValue)) = none := by
  unfold groupValue
  split
  · rename_i values
    obtain ⟨slot, member, same, under, rfl⟩ := eq_of_slotsUnder values
    split
    · rfl
    · cases slot with
      | text tag value => rfl
      | nested step => cases same
      | element tag step =>
        rw [hasFlatParameters, under] at notFlat
        exact parameters?_of_not_flat (canonicalSlots_iff.1 below _ member step rfl) notFlat
  · rfl

/-- Without an attribute for it, no text stands under the key of a URI. -/
theorem string?_group (h : ∀ slot ∈ slots, CanonicalSlot kind attributes expression slots slot) :
    (groupValue kind uriKey ((slotsUnder (some uriKey) slots).map slotValue)).string? = none := by
  unfold groupValue
  split
  · rename_i values
    obtain ⟨slot, member, same, under, rfl⟩ := eq_of_slotsUnder values
    split
    · rfl
    · rename_i noList
      have fits := h slot member
      cases slot with
      | text tag value =>
        cases same
        rcases fits.2 with text | listed
        · exact absurd text (by decide)
        · rw [isListed, under] at listed
          simp only [List.length_cons, List.length_nil, Nat.zero_add, Nat.reduceLeDiff,
            decide_false, Bool.or_false, decide_eq_true_eq, Bool.or_eq_true, not_or]
            at listed noList
          exact absurd listed noList.2
      | nested step => cases same
      | element tag step => rfl
  · rfl

end Own

mutual

theorem settled_stepFields : {s : Step} → CanonicalStep s → Settled (stepFields s).toValue
  | ⟨kind, attributes, text, expression, slots⟩, h => by
    rw [CanonicalStep] at h
    obtain ⟨body, below⟩ := h
    have values := settled_slotValues below
    apply settled_toValue
    · rw [stepFields_eq body]
      apply Fields.All.putEach
      · exact all_ownFields (fun a _ => settled_string a.2) settled_string
          fun e _ => settled_expressionField e
      · intro tag _
        apply settled_groupValue
        intro v hv
        obtain ⟨slot, hs, rfl⟩ := List.mem_map.1 hv
        exact values slot (mem_slotsUnder.1 hs).1
    · rw [stepFields_eq body]
      -- With a URI among the attributes it is the parameters that do not fit, else it is the URI.
      by_cases uri : uriKey ∈ attributes.keys
      · apply packed?_of_parameters
        apply Fields.All.putEach
        · exact all_ownFields (fun _ _ _ => rfl) (fun _ _ => rfl) fun e _ same =>
            absurd same (expressionKey_ne (by decide) (by decide) e)
        · intro tag _ same
          rw [groupKey_eq_some (by decide) same]
          exact parameters?_group below (body.uri uri)
      · apply packed?_of_uri
        apply Fields.All.putEach
        · exact all_ownFields (fun a ha same => absurd (same ▸ List.mem_map_of_mem ha) uri)
            (fun _ same => absurd same (by decide)) fun e _ same =>
              absurd same (expressionKey_ne (by decide) (by decide) e)
        · intro tag _ same
          rw [groupKey_eq_some (by decide) same]
          exact string?_group body.children

theorem settled_slotValues : {slots : List Slot} → CanonicalSlots slots →
    ∀ slot ∈ slots, Settled (slotValue slot)
  | [], _ => nofun
  | .nested step :: rest, h => by
    rw [CanonicalSlots] at h
    exact List.forall_mem_cons.2
      ⟨settled_ofEntry (settled_stepFields h.1), settled_slotValues h.2⟩
  | .text tag value :: rest, h => by
    rw [CanonicalSlots] at h
    exact List.forall_mem_cons.2 ⟨settled_string value, settled_slotValues h⟩
  | .element tag step :: rest, h => by
    rw [CanonicalSlots] at h
    exact List.forall_mem_cons.2 ⟨settled_stepFields h.1, settled_slotValues h.2⟩

end

theorem settled_bodyValue {s : Step} (h : CanonicalStep s) : Settled (bodyValue s) := by
  unfold bodyValue
  split
  · exact settled_string _
  · exact settled_stepFields h

end RouteNotation.Dsl
