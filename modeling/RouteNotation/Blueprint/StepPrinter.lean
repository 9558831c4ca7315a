import RouteNotation.Route.Step
import RouteNotation.Xml.Wrapper

/-!
Steps as markup: the text, the expression, then the children in order. A run of nested steps stands
in one wrapper, and so does a run of several children with one tag.
-/

namespace RouteNotation.Blueprint

open Xml

def expressionElement (expression : Expression) : Element :=
  ⟨expression.language.tag, expression.attributes, expression.text.toList.map .text⟩

/-- The values in order, those in a row under one key put together. -/
def runs {κ α : Type} [DecidableEq κ] : List (κ × α) → List (κ × List α)
  | [] => []
  | (k, a) :: rest =>
    match runs rest with
    | [] => [(k, [a])]
    | (k', as) :: more => if k = k' then (k, a :: as) :: more else (k, [a]) :: (k', as) :: more

/-- A run of children with one tag, or of nested steps when there is no tag. -/
def runElement : Option String × List Element → Element
  | (none, steps) => .ofElements stepsTag .empty steps
  | (some _, [child]) => child
  | (some _, children) => .ofElements childrenTag .empty children

mutual

def stepElement : Step → Element
  | ⟨kind, attributes, text, expression, slots⟩ =>
    ⟨kind, attributes, text.toList.map .text ++
      (expression.map expressionElement).toList.map .element ++
      (runs (slotElements slots)).map fun run => .element (runElement run)⟩

/-- The element of each child, with its tag. -/
def slotElements : List Slot → List (Option String × Element)
  | [] => []
  | .nested step :: rest => (none, stepElement step) :: slotElements rest
  | .text tag value :: rest => (some tag, .ofText tag .empty value) :: slotElements rest
  | .element tag step :: rest => (some tag, stepElement step) :: slotElements rest

end
end RouteNotation.Blueprint
