import RouteNotation.Blueprint.Printer
import RouteNotation.Blueprint.Reader

/-!
Which reader each section of a document goes to, by its tag. Texts between sections mean nothing.
-/

namespace RouteNotation.Blueprint

open Xml

theorem localName_of_name {e : Element} {tag : String} (name : e.name = tag)
    (whole : localName tag = tag) : e.localName = tag := by
  rw [Element.localName, name, whole]

theorem elements_ofElements (name : String) (attributes : Attributes) (es : List Element) :
    (Element.ofElements name attributes es).elements = es := by
  rw [Element.elements, Element.ofElements, Element.children, List.filterMap_map]
  exact List.filterMap_some

theorem readSections_eq (d : Document) (cs : List Content) :
    readSections d cs = (cs.filterMap Content.element?).foldlM readSection d := by
  induction cs generalizing d with
  | nil => rfl
  | cons c cs ih =>
    cases c with
    | element e =>
      simp only [readSections, Content.element?, List.filterMap_cons, List.foldlM_cons, ih]
    | text value => simp only [readSections, Content.element?, List.filterMap_cons, ih]

/-- The sections of a root that is no single route. -/
theorem readDocument_eq {root : Element} (tag : root.localName ≠ "route") :
    readDocument root = root.elements.foldlM readSection .empty := by
  rw [readDocument, if_neg tag, readSections_eq, Element.elements]

section Tags
variable {d : Document} {e : Element}

theorem readSection_of_bean (tag : e.localName = "bean") : readSection d e = (do
    let bean ← readBean (entityPath e d.beans.length) e
    return { d with beans := d.beans ++ bean.toList }) := by
  obtain ⟨name, attributes, children⟩ := e
  rw [Element.localName, Element.name] at tag
  rw [readSection]
  simp only [tag]

theorem readSection_of_reference (tag : e.localName = "reference") : readSection d e = (do
    let reference ← readReference (entityPath e d.references.length) e
    return { d with references := d.references ++ reference.toList }) := by
  obtain ⟨name, attributes, children⟩ := e
  rw [Element.localName, Element.name] at tag
  rw [readSection]
  simp only [tag]

theorem readSection_of_restConfiguration (tag : e.localName = "restConfiguration")
    (first : d.restConfiguration = none) : readSection d e = (do
      let configuration ← readRestConfiguration "restConfiguration" e
      return { d with restConfiguration := some configuration }) := by
  obtain ⟨name, attributes, children⟩ := e
  rw [Element.localName, Element.name] at tag
  rw [readSection]
  simp only [tag, first, Option.isSome_none, Bool.false_eq_true, if_false]

theorem readSection_of_rest (tag : e.localName = "rest") : readSection d e = (do
    let api ← readRestApi (entityPath e d.restApis.length) e
    return { d with restApis := d.restApis ++ [api] }) := by
  obtain ⟨name, attributes, children⟩ := e
  rw [Element.localName, Element.name] at tag
  rw [readSection]
  simp only [tag]

theorem readSection_of_route (tag : e.localName = "route") : readSection d e = (do
    let route ← readRoute (entityPath e d.routes.length) e
    return { d with routes := d.routes ++ route.toList }) := by
  obtain ⟨name, attributes, children⟩ := e
  rw [Element.localName, Element.name] at tag
  rw [readSection]
  simp only [tag]

theorem readSection_of_context (tag : e.localName = "camelContext") :
    readSection d e = e.elements.foldlM readSection d := by
  obtain ⟨name, attributes, children⟩ := e
  rw [Element.localName, Element.name] at tag
  rw [readSection]
  simp only [tag, readSections_eq]
  rfl

theorem readSection_of_placeholder (tag : e.localName = "property-placeholder") :
    readSection d e = pure d := by
  obtain ⟨name, attributes, children⟩ := e
  rw [Element.localName, Element.name] at tag
  rw [readSection]
  simp only [tag]

end Tags

/-- No attribute says where the messages of a route come from. -/
theorem source_addRouteAttributes (attributes : Attributes) :
    (attributes.entries.foldl addRouteAttribute .empty).source = none := by
  apply List.foldlRecOn (motive := fun draft : RouteDraft => draft.source = none) _ _ rfl
  intro draft none a _
  unfold addRouteAttribute
  split <;> exact none

end RouteNotation.Blueprint
