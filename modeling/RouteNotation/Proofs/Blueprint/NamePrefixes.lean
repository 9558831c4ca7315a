import RouteNotation.Proofs.Blueprint.Sections
import RouteNotation.Proofs.Blueprint.StepStability

/-!
Prefixes of element names mean nothing. Every reader gives the same for a tree whose names are cut to
their local names. Main statement: `readDocument_of_unprefixed`.
-/

namespace RouteNotation

namespace Xml

mutual

/-- The tree with its names cut to their local names. -/
def Element.unprefixed : Element → Element
  | ⟨name, attributes, children⟩ => ⟨localName name, attributes, unprefixedContents children⟩

def unprefixedContents : List Content → List Content
  | [] => []
  | .element e :: rest => .element e.unprefixed :: unprefixedContents rest
  | .text value :: rest => .text value :: unprefixedContents rest

end

@[simp] theorem localName_localName (name : String) : localName (localName name) = localName name :=
  Blueprint.localName_eq_self (Blueprint.colon_not_mem_localName name)

theorem texts_unprefixedContents (cs : List Content) :
    (unprefixedContents cs).filterMap Content.text? = cs.filterMap Content.text? := by
  induction cs with
  | nil => rfl
  | cons c cs ih => cases c <;> simp [unprefixedContents, Content.text?, List.filterMap_cons, ih]

theorem elements_unprefixedContents (cs : List Content) :
    (unprefixedContents cs).filterMap Content.element? =
      (cs.filterMap Content.element?).map Element.unprefixed := by
  induction cs with
  | nil => rfl
  | cons c cs ih => cases c <;> simp [unprefixedContents, Content.element?, List.filterMap_cons, ih]

namespace Element
variable (e : Element)

@[simp] theorem localName_unprefixed : e.unprefixed.localName = e.localName := by
  obtain ⟨name, attributes, children⟩ := e
  exact localName_localName name

@[simp] theorem attributes_unprefixed : e.unprefixed.attributes = e.attributes := by
  obtain ⟨name, attributes, children⟩ := e
  rfl

@[simp] theorem attribute?_unprefixed (key : String) :
    e.unprefixed.attribute? key = e.attribute? key := by
  rw [attribute?, attributes_unprefixed, attribute?]

@[simp] theorem elements_unprefixed : e.unprefixed.elements = e.elements.map unprefixed := by
  obtain ⟨name, attributes, children⟩ := e
  exact elements_unprefixedContents children

@[simp] theorem hasElements_unprefixed : e.unprefixed.hasElements = e.hasElements := by
  simp [hasElements]

theorem characters_unprefixed : e.unprefixed.characters = e.characters := by
  obtain ⟨name, attributes, children⟩ := e
  exact congrArg String.join (texts_unprefixedContents children)

@[simp] theorem text?_unprefixed : e.unprefixed.text? = e.text? := by
  rw [text?, characters_unprefixed, text?]

@[simp] theorem isTextOnly_unprefixed : e.unprefixed.isTextOnly = e.isTextOnly := by
  simp [isTextOnly]

@[simp] theorem elementsNamed_unprefixed (name : String) :
    e.unprefixed.elementsNamed name = (e.elementsNamed name).map unprefixed := by
  simp [elementsNamed, List.filter_map, Function.comp_def]

end Element
end Xml

namespace Blueprint

open Xml

theorem foldlM_unprefixed {σ : Type} {f : σ → Element → Noted σ}
    (h : ∀ s e, f s e.unprefixed = f s e) (s : σ) (es : List Element) :
    (es.map Element.unprefixed).foldlM f s = es.foldlM f s := by
  simp only [List.foldlM_map, h]

section Steps

@[simp] theorem rule_unprefixed (kind : String) (hasExpression : Bool) (e : Element) :
    ChildRule.of kind hasExpression e.unprefixed = ChildRule.of kind hasExpression e := by
  simp [ChildRule.of]

@[simp] theorem readExpression_unprefixed (path : String) (language : Language) (e : Element) :
    readExpression path language e.unprefixed = readExpression path language e := by
  simp [readExpression]

mutual

theorem readStep_unprefixed (path : String) :
    (e : Element) → readStep path e.unprefixed = readStep path e
  | ⟨name, attributes, children⟩ => by
    have inner : Element.mk (localName name) .empty (unprefixedContents children) =
      Element.unprefixed ⟨name, .empty, children⟩ := rfl
    have later := fun step => readChildren_unprefixed path step children
    rw [Element.unprefixed, readStep, readStep]
    simp only [localName_localName, inner, later, Element.hasElements_unprefixed,
      Element.text?_unprefixed]

theorem readChildren_unprefixed (path : String) (step : Step) :
    (cs : List Content) → readChildren path step (unprefixedContents cs) = readChildren path step cs
  | [] => rfl
  | .text value :: rest => readChildren_unprefixed path step rest
  | .element e :: rest => by
    have later := fun step => readChildren_unprefixed path step rest
    simp only [unprefixedContents, readChildren, rule_unprefixed, Element.localName_unprefixed,
      readExpression_unprefixed, readStep_unprefixed _ e, later]

end

end Steps

section Entities
variable (path : String) (e : Element)

@[simp] theorem propertyValue?_unprefixed : propertyValue? e.unprefixed = propertyValue? e := by
  simp [propertyValue?, List.findSome?_map, Function.comp_def]

theorem readBeanChild_unprefixed (bean : Bean) :
    readBeanChild path bean e.unprefixed = readBeanChild path bean e := by
  simp [readBeanChild, readArgument, readProperty]

@[simp] theorem readBean_unprefixed : readBean path e.unprefixed = readBean path e := by
  simp [readBean, foldlM_unprefixed fun bean e => readBeanChild_unprefixed path e bean]

@[simp] theorem readReference_unprefixed :
    readReference path e.unprefixed = readReference path e := by
  simp [readReference]

theorem readPropertyList_unprefixed (configuration : RestConfiguration) :
    readPropertyList path configuration e.unprefixed = readPropertyList path configuration e := by
  simp [readPropertyList]

@[simp] theorem readRestConfiguration_unprefixed :
    readRestConfiguration path e.unprefixed = readRestConfiguration path e := by
  simp [readRestConfiguration,
    foldlM_unprefixed fun configuration e => readPropertyList_unprefixed path e configuration]

theorem readOperationChild_unprefixed (operation : Operation) :
    readOperationChild path operation e.unprefixed = readOperationChild path operation e := by
  simp [readOperationChild]

@[simp] theorem readOperation_unprefixed :
    readOperation path e.unprefixed = readOperation path e := by
  simp [readOperation,
    foldlM_unprefixed fun operation e => readOperationChild_unprefixed path e operation]

theorem readRestChild_unprefixed (api : RestApi) :
    readRestChild path api e.unprefixed = readRestChild path api e := by
  simp [readRestChild]

@[simp] theorem readRestApi_unprefixed : readRestApi path e.unprefixed = readRestApi path e := by
  simp [readRestApi, foldlM_unprefixed fun api e => readRestChild_unprefixed path e api]

theorem readParameter_unprefixed (endpoint : Endpoint) :
    readParameter path endpoint e.unprefixed = readParameter path endpoint e := by
  simp [readParameter]

@[simp] theorem readEndpoint_unprefixed : readEndpoint path e.unprefixed = readEndpoint path e := by
  simp [readEndpoint, foldlM_unprefixed fun endpoint e => readParameter_unprefixed path e endpoint]

@[simp] theorem readRouteStep_unprefixed (draft : RouteDraft) :
    readRouteStep path draft e.unprefixed = readRouteStep path draft e := by
  simp [readRouteStep, readStep_unprefixed]

theorem readRouteChild_unprefixed (draft : RouteDraft) :
    readRouteChild path draft e.unprefixed = readRouteChild path draft e := by
  simp [readRouteChild]

@[simp] theorem readRoute_unprefixed : readRoute path e.unprefixed = readRoute path e := by
  simp [readRoute, foldlM_unprefixed fun draft e => readRouteChild_unprefixed path e draft]

@[simp] theorem entityPath_unprefixed (index : Nat) :
    entityPath e.unprefixed index = entityPath e index := by
  simp [entityPath]

end Entities

mutual

theorem readSection_unprefixed (d : Document) :
    (e : Element) → readSection d e.unprefixed = readSection d e
  | ⟨name, attributes, children⟩ => by
    have whole : Element.mk (localName name) attributes (unprefixedContents children) =
      Element.unprefixed ⟨name, attributes, children⟩ := rfl
    have inner := readSections_unprefixed d children
    rw [Element.unprefixed, readSection, readSection]
    simp only [whole, localName_localName, entityPath_unprefixed, readBean_unprefixed,
      readReference_unprefixed, readRestConfiguration_unprefixed, readRestApi_unprefixed,
      readRoute_unprefixed, inner]

theorem readSections_unprefixed (d : Document) :
    (cs : List Content) → readSections d (unprefixedContents cs) = readSections d cs
  | [] => rfl
  | .text _ :: rest => readSections_unprefixed d rest
  | .element e :: rest => by
    have later := fun d => readSections_unprefixed d rest
    simp only [unprefixedContents, readSections, readSection_unprefixed d e, later]

end

theorem readDocument_unprefixed (root : Element) :
    readDocument root.unprefixed = readDocument root := by
  obtain ⟨name, attributes, children⟩ := root
  have same : Element.localName (Element.unprefixed ⟨name, attributes, children⟩) =
    Element.localName ⟨name, attributes, children⟩ := Element.localName_unprefixed _
  simp only [readDocument, same, readSection_unprefixed]
  split
  · rfl
  · exact readSections_unprefixed .empty children

/-- Two trees whose elements have the same local names, and are otherwise equal, are read as the
same document with the same diagnostics. -/
theorem readDocument_of_unprefixed {e f : Element} (same : e.unprefixed = f.unprefixed) :
    readDocument e = readDocument f := by
  rw [← readDocument_unprefixed e, same, readDocument_unprefixed]

/-- A bean, a route and a section without a rule, with prefixes. -/
def prefixedRoot : Element :=
  .ofElements "b:blueprint" .empty [
    .ofElements "b:bean" (.single "id" "a") [.leaf "x:y:property" (.single "name" "p")],
    .ofElements ":route" .empty [
      .leaf "c:from" (.single "uri" "u"),
      .ofElements "c:filter" .empty [.ofText "d:simple" .empty "x", .leaf "c:steps" .empty]],
    .leaf "b:other" .empty]

/-- The same in the namespace that needs none. -/
def plainRoot : Element :=
  .ofElements "blueprint" .empty [
    .ofElements "bean" (.single "id" "a") [.leaf "property" (.single "name" "p")],
    .ofElements "route" .empty [
      .leaf "from" (.single "uri" "u"),
      .ofElements "filter" .empty [.ofText "simple" .empty "x", .leaf "steps" .empty]],
    .leaf "other" .empty]

theorem readDocument_of_unprefixed_plainRoot :
    prefixedRoot.unprefixed = plainRoot.unprefixed ∧
      readDocument prefixedRoot = readDocument plainRoot ∧
      (readDocument prefixedRoot).notes = [
        .unknownShape "bean[a]/property" "property `p` without a value skipped",
        .unknownShape "route[0]/filter/steps" "reserved tag `steps` dropped",
        .unknownShape "other" "unsupported section `other` skipped"] := by
  have same : prefixedRoot.unprefixed = plainRoot.unprefixed := by decide +kernel
  have read := readDocument_of_unprefixed same
  refine ⟨same, read, ?_⟩
  rw [read]
  decide +kernel

end Blueprint
end RouteNotation
