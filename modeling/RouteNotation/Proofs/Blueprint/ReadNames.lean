import RouteNotation.Proofs.Blueprint.StepStability
import RouteNotation.Proofs.Xml.ElementTree

/-!
The names in a step that is read from an element, also where something was noted on the way: tags
are local names that are not reserved, and no attribute has a reserved key.
-/

namespace RouteNotation.Blueprint

open Xml

theorem unreserved_readAttributes (path : String) (attributes : Attributes) :
    ∀ key ∈ (readAttributes path attributes).value.keys, isReserved key = false := by
  intro key hk
  obtain ⟨a, ha, rfl⟩ := List.mem_map.1 hk
  simpa using (List.mem_filter.1 ha).2

theorem unreserved_readExpression (path : String) (language : Language) (e : Element) :
    ∀ key ∈ (readExpression path language e).value.attributes.keys, isReserved key = false := by
  rw [readExpression]
  split <;> exact unreserved_readAttributes path e.attributes

theorem readAttributes_eq_self_iff {path : String} {attributes : Attributes} :
    readAttributes path attributes = pure attributes ↔
      ∀ key ∈ attributes.keys, isReserved key = false :=
  ⟨fun same => (readAttributes_eq_pure same).2, readAttributes_of_keys path⟩

theorem value_readStep_eq_none {path : String} {e : Element} :
    (readStep path e).value = none ↔ isReserved e.localName := by
  obtain ⟨name, attributes, children⟩ := e
  rw [readStep]
  split
  · rename_i reserved
    exact iff_of_true rfl reserved
  · rename_i unreserved
    exact iff_of_false nofun unreserved

theorem reserved_of_rule {kind : String} {has : Bool} {e : Element} :
    ChildRule.of kind has e = .reserved ↔ isReserved e.localName := by
  unfold ChildRule.of
  grind

section Tags
variable {tag : String → Prop}

mutual

/-- What holds of the local name of every element that is not reserved holds of every tag. -/
theorem names_of_subtree {path : String} : {e : Element} → {s : Step} →
    (∀ f ∈ e.subtree, isReserved f.localName = false → tag f.localName) →
    (readStep path e).value = some s → s.Names tag (isReserved · = false)
  | ⟨name, attributes, children⟩, s, named, h => by
    rw [readStep] at h
    split at h
    · cases h
    · rename_i unreserved
      cases h
      have own := named ⟨name, attributes, children⟩ (Element.mem_subtree _)
        (Bool.eq_false_iff.2 unreserved)
      refine names_of_elementsWithin path children _
        (fun f hf => named f (List.mem_cons_of_mem _ hf)) ⟨own, ?_, nofun, trivial⟩
      exact unreserved_readAttributes path attributes

theorem names_of_elementsWithin (path : String) : (cs : List Content) → (step : Step) →
    (∀ f ∈ elementsWithin cs, isReserved f.localName = false → tag f.localName) →
    step.Names tag (isReserved · = false) →
      (readChildren path step cs).value.Names tag (isReserved · = false)
  | [], _, _, h => h
  | .text _ :: rest, step, named, h => by
    rw [readChildren]
    exact names_of_elementsWithin path rest step named h
  | .element e :: rest, step, named, h => by
    rw [elementsWithin_element, List.forall_mem_append] at named
    obtain ⟨here, later⟩ := named
    have fits := ChildRule.fits_of step.kind step.expression.isSome e
    have child : ∀ c ∈ (readStep (childPath path e.localName) e).value,
        c.Names tag (isReserved · = false) := fun c hc => names_of_subtree here hc
    rw [readChildren]
    split
    · exact names_of_elementsWithin path rest step later h
    · rename_i language _
      exact names_of_elementsWithin path rest _ later
        (h.withExpression (unreserved_readExpression _ language e))
    · exact names_of_elementsWithin path rest _ later (h.pushElement child)
    · rename_i value rule
      rw [rule] at fits
      exact names_of_elementsWithin path rest _ later
        (h.push ⟨here e e.mem_subtree fits.1.2, trivial⟩)
    · exact names_of_elementsWithin path rest _ later (h.pushElement child)
    · exact names_of_elementsWithin path rest _ later (h.pushNested child)

end
end Tags

/-- Names as they are read. -/
abbrev ReadNames (s : Step) : Prop := s.Names IsLocalTag (isReserved · = false)

theorem names_of_readStep {path : String} {e : Element} {s : Step}
    (h : (readStep path e).value = some s) : ReadNames s :=
  names_of_subtree (fun f _ unreserved => ⟨colon_not_mem_localName f.name, unreserved⟩) h

end RouteNotation.Blueprint
