import RouteNotation.Diagnostic
import RouteNotation.Route.Step
import RouteNotation.Xml.Element

/-!
Steps from markup. `ChildRule.of` decides once for each child element what it is to its parent; the
readers below only follow it.
-/

namespace RouteNotation.Blueprint

open Xml

/-- What an element is to the step around it. -/
inductive ChildRule
  /-- Its tag has another meaning, so it is left out. -/
  | reserved
  /-- The expression of the step. -/
  | expression (language : Language)
  /-- An expression where the step has one already; it stays as a child. -/
  | lateExpression
  /-- A child that is a text. -/
  | text (value : String)
  /-- A child that is itself a step. -/
  | element
  /-- A nested step. -/
  | nested
  deriving DecidableEq, Repr

/-- The rule for the element `e` in a step of this kind. -/
def ChildRule.of (kind : String) (hasExpression : Bool) (e : Element) : ChildRule :=
  let tag := e.localName
  if isReserved tag then .reserved
  else match Role.ofTag tag with
    | .expression language => if hasExpression then .lateExpression else .expression language
    | .clause => .element
    | .container _ | .plain =>
      if (branch? kind tag).isSome then .element
      else if e.isTextOnly then .text (e.text?.getD "")
      else if (Role.ofTag kind).isContainer then .nested
      else .element

def reservedTag (path tag : String) : Noted Unit :=
  .unknownShape path s!"reserved tag `{tag}` dropped"

/-- The attributes without those whose name is reserved. -/
def readAttributes (path : String) (attributes : Attributes) : Noted Attributes :=
  ⟨attributes.filterKeys fun key => !isReserved key,
    (attributes.keys.filter isReserved).map fun key =>
      .unknownShape path s!"reserved attribute `{key}` dropped"⟩

/-- An expression; elements inside one have no meaning. -/
def readExpression (path : String) (language : Language) (e : Element) : Noted Expression := do
  if e.hasElements then
    .unknownShape path "nested elements inside an expression are ignored"
  let attributes ← readAttributes path e.attributes
  return ⟨language, e.text?, attributes⟩

mutual

/-- The step that an element stands for. It has a text only if no element is in it. -/
def readStep (path : String) : Element → Noted (Option Step)
  | ⟨name, attributes, children⟩ => do
    let kind := Xml.localName name
    if isReserved kind then
      reservedTag path kind
      return none
    else
      let attributes ← readAttributes path attributes
      let e : Element := ⟨name, .empty, children⟩
      let text := if e.hasElements then none else e.text?
      let step ← readChildren path ⟨kind, attributes, text, none, []⟩ children
      return some step

/-- The step with what its child elements add. -/
def readChildren (path : String) (step : Step) : List Content → Noted Step
  | [] => pure step
  | .text _ :: rest => readChildren path step rest
  | .element e :: rest => do
    let tag := e.localName
    let here := childPath path tag
    match ChildRule.of step.kind step.expression.isSome e with
    | .reserved =>
      reservedTag here tag
      readChildren path step rest
    | .expression language =>
      let expression ← readExpression here language e
      readChildren path (step.withExpression expression) rest
    | .lateExpression =>
      .unknownShape here s!"`{step.kind}` already has an expression, `{tag}` kept as a child"
      let child ← readStep here e
      readChildren path (step.pushElement child) rest
    | .text value => readChildren path (step.push (.text tag value)) rest
    | .element =>
      let child ← readStep here e
      readChildren path (step.pushElement child) rest
    | .nested =>
      let child ← readStep here e
      readChildren path (step.pushNested child) rest

end
end RouteNotation.Blueprint
