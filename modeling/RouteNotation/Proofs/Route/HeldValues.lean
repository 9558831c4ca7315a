import RouteNotation.Proofs.Route.DocumentValues
import RouteNotation.Proofs.Route.FirstExpression

/-!
Where a step holds a text that was read under a key, and what keeps it there while other keys are
read.
-/

namespace RouteNotation

def Expression.values (e : Expression) : List String := e.part.values

namespace Step

/-- The texts of the expression and of the children. -/
def lowerValues (s : Step) : List String :=
  s.expression.toList.flatMap Expression.values ++ (slotsParts s.slots).flatMap Part.values

theorem values_eq (s : Step) :
    s.values = (s.attributes.values ++ s.text.toList) ++ s.lowerValues := by
  obtain ⟨kind, attributes, text, expression, slots⟩ := s
  simp only [values, parts, List.flatMap_cons, List.flatMap_append, List.flatMap_map]
  rfl

/-- Whether a step holds a text where a key of its body can put it. -/
def Holds (key value : String) (s : Step) : Prop :=
  s.attributes.get? key = some value ∨ (key = "text" ∧ s.text = some value) ∨
    value ∈ s.lowerValues

theorem Holds.mem_values {s : Step} {key value : String} (h : s.Holds key value) :
    value ∈ s.values := by
  rw [values_eq, List.mem_append, List.mem_append]
  rcases h with under | ⟨-, text⟩ | lower
  · exact .inl (.inl (OrderedMap.mem_values_of_get? under))
  · exact .inl (.inr (Option.mem_toList.2 text))
  · exact .inr lower

/-- Whether `t` holds all that `s` holds under other keys. -/
structure Keeps (key : String) (s t : Step) : Prop where
  attributes : ∀ j ≠ key, t.attributes.get? j = s.attributes.get? j
  text : key ≠ "text" → t.text = s.text
  lower : s.lowerValues ⊆ t.lowerValues

theorem mem_lowerValues_push (s : Step) (slot : Slot) {value : String}
    (h : value ∈ (slotsParts [slot]).flatMap Part.values) : value ∈ (s.push slot).lowerValues := by
  obtain ⟨kind, attributes, text, expression, slots⟩ := s
  refine List.mem_append_right _ ?_
  change value ∈ (slotsParts (slots ++ [slot])).flatMap Part.values
  rw [slotsParts_append, List.flatMap_append]
  exact List.mem_append_right _ h

theorem mem_lowerValues_nested (s : Step) {child : Step} {value : String}
    (h : value ∈ child.values) : value ∈ (s.push (.nested child)).lowerValues :=
  mem_lowerValues_push s _ (by simpa [slotsParts, Step.values] using h)

theorem mem_lowerValues_element (s : Step) (tag : String) {child : Step} {value : String}
    (h : value ∈ child.values) : value ∈ (s.push (.element tag child)).lowerValues :=
  mem_lowerValues_push s _ (by simpa [slotsParts, Step.values] using h)

theorem mem_lowerValues_text (s : Step) (tag value : String) :
    value ∈ (s.push (.text tag value)).lowerValues :=
  mem_lowerValues_push s _ (by simp [slotsParts, Part.values])

theorem mem_lowerValues_withExpression (s : Step) {e : Expression} {value : String}
    (h : value ∈ e.values) : value ∈ (s.withExpression e).lowerValues :=
  List.mem_append_left _ (List.mem_flatMap.2 ⟨e, List.mem_singleton_self e, h⟩)

theorem Grows.keeps {key : String} {s t : Step} (h : s.Grows key t) : s.Keeps key t where
  attributes := h.others
  text := h.text
  lower := by
    obtain ⟨added, slots⟩ := h.slots
    rw [lowerValues, lowerValues, h.expression, ← slots, slotsParts_append, List.flatMap_append,
      ← List.append_assoc]
    exact List.subset_append_left _ _

namespace Keeps
variable {key j value : String} {s t u : Step}

theorem trans (first : s.Keeps key t) (rest : t.Keeps key u) : s.Keeps key u :=
  ⟨fun j other => (rest.attributes j other).trans (first.attributes j other),
    fun other => (rest.text other).trans (first.text other),
    List.Subset.trans first.lower rest.lower⟩

theorem withExpression (key : String) (free : s.expression = none) (e : Expression) :
    s.Keeps key (s.withExpression e) where
  attributes _ _ := rfl
  text _ := rfl
  lower := by
    rw [lowerValues, free]
    exact List.subset_append_right _ _

theorem holds (h : s.Keeps key t) (other : j ≠ key) (held : s.Holds j value) :
    t.Holds j value := by
  rcases held with under | ⟨rfl, text⟩ | lower
  · exact .inl ((h.attributes j other).trans under)
  · exact .inr (.inl ⟨rfl, (h.text other.symm).trans text⟩)
  · exact .inr (.inr (h.lower lower))

end Keeps
end Step
end RouteNotation
