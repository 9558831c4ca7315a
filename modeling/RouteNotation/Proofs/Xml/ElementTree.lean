import RouteNotation.Proofs.Xml.NamedTree
import RouteNotation.Proofs.Xml.WrapperTags

/-!
All the elements in an element: itself first, then those below it in document order.
-/

namespace RouteNotation.Xml

def Element.subtree (e : Element) : List Element := e :: e.descendants

theorem Element.mem_subtree (e : Element) : e ∈ e.subtree := List.mem_cons_self

theorem elementsWithin_element (e : Element) (rest : List Content) :
    elementsWithin (.element e :: rest) = e.subtree ++ elementsWithin rest := rfl

/-- The text of an element that holds no element. -/
def Element.leafText? (e : Element) : Option String := if e.hasElements then none else e.text?

theorem elementsWithin_eq_nil {cs : List Content} (h : cs.filterMap Content.element? = []) :
    elementsWithin cs = [] := by
  induction cs with
  | nil => rfl
  | cons c cs ih =>
    cases c with
    | text value => exact ih h
    | element e => cases h

theorem Element.descendants_eq_nil {e : Element} (h : e.hasElements = false) :
    e.descendants = [] := by
  obtain ⟨name, attributes, children⟩ := e
  apply elementsWithin_eq_nil
  simpa [Element.hasElements, Element.elements, Element.children] using h

mutual

/-- The names of a tree are those of all its elements. -/
theorem Element.WellNamed.of_mem_descendants : {e : Element} → e.WellNamed →
    ∀ f ∈ e.descendants, f.WellNamed
  | ⟨_, _, _⟩, h => ContentsWellNamed.of_mem_elementsWithin h.2.2

theorem ContentsWellNamed.of_mem_elementsWithin : {cs : List Content} → ContentsWellNamed cs →
    ∀ f ∈ elementsWithin cs, f.WellNamed
  | [], _ => nofun
  | .element _ :: _, h => List.forall_mem_cons.2 ⟨h.1, List.forall_mem_append.2
      ⟨h.1.of_mem_descendants, ContentsWellNamed.of_mem_elementsWithin h.2⟩⟩
  | .text _ :: rest, h => by
    rw [elementsWithin]
    exact ContentsWellNamed.of_mem_elementsWithin h

end

theorem Element.WellNamed.of_mem_subtree {e : Element} (h : e.WellNamed) :
    ∀ f ∈ e.subtree, f.WellNamed :=
  List.forall_mem_cons.2 ⟨h, h.of_mem_descendants⟩

end RouteNotation.Xml
