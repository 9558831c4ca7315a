import RouteNotation.Diagnostic
import RouteNotation.Route.Step
import RouteNotation.Yaml.Value

/-!
Steps as value trees. In the body of a step come its attributes, its text, its expression and then
its children, grouped by key. A group whose key is taken is left out with a diagnostic.
-/

namespace RouteNotation.Dsl

open Yaml

/-- A mapping whose keys are strings, while it is written. -/
abbrev Fields := OrderedMap String Value

namespace Fields

def toValue (fields : Fields) : Value := .mapping (fields.entries.map fun f => entry f.1 f.2)

/-- Writes a field, in place of the one with this key or else at the end. -/
def put (fields : Fields) (key : String) (v : Value) : Fields := fields.insert key v

def putText (fields : Fields) (a : String × String) : Fields := fields.put a.1 (.string a.2)

/-- Writes a text if there is one. -/
def putText? (fields : Fields) (key : String) : Option String → Fields
  | some text => fields.put key (.string text)
  | none => fields

def putAttributes (fields : Fields) (attributes : Attributes) : Fields :=
  attributes.entries.foldl putText fields

end Fields

def noFields : Fields := .empty

def attributesValue (attributes : Attributes) : Value :=
  (noFields.putAttributes attributes).toValue

/-- The text of an expression, then its attributes. -/
def expressionValue (expression : Expression) : Value :=
  ((noFields.putText? "expression" expression.text).putAttributes expression.attributes).toValue

/-- The expression of a step: under its language, or for some kinds under a key of its own. -/
def addExpression (kind : String) (fields : Fields) : Option Expression → Fields
  | none => fields
  | some expression =>
    let language := expression.language.tag
    let value := expressionValue expression
    if (Role.ofTag kind).hasInlineExpression then fields.put language value
    else fields.put "expression" (.ofEntry language value)

/-- The fields of a step before its children. -/
def ownFields (kind : String) (attributes : Attributes) (text : Option String)
    (expression : Option Expression) : Fields :=
  addExpression kind ((noFields.putAttributes attributes).putText? "text" text) expression

/-- The values by key, in the order in which the keys first come. -/
def groups (values : List (String × Value)) : OrderedMap String (List Value) :=
  values.foldl (fun groups v => groups.append v.1 [v.2]) .empty

/-- A group as one value: a list, unless it has one member that can stand alone. -/
def groupValue (kind key : String) (values : List Value) : Value :=
  match values with
  | [v] =>
    if key = "steps" || branch? kind key = some .list then .sequence [v] else v
  | _ => .sequence values

def addGroup (path kind : String) (fields : Fields) (group : String × List Value) :
    Noted Fields :=
  if fields.contains group.1 then do
    .unknownShape (childPath path group.1)
      s!"child `{group.1}` collides with an existing key and was dropped"
    return fields
  else return fields.put group.1 (groupValue kind group.1 group.2)

mutual

/-- The body of a step: a text if the step has nothing else, and a mapping otherwise. -/
def stepBody (path : String) : Step → Noted Value
  | ⟨kind, attributes, text, expression, slots⟩ => do
    if attributes.isEmpty && expression.isNone && slots.isEmpty then
      return match text with
        | some text => .string text
        | none => .mapping []
    else
      let fields := ownFields kind attributes text expression
      let values ← slotValues path slots
      let fields ← (groups values).entries.foldlM (addGroup path kind) fields
      return fields.toValue

/-- The value of each child, with its key. -/
def slotValues (path : String) : List Slot → Noted (List (String × Value))
  | [] => pure []
  | .nested step :: rest => do
    let body ← stepBody (childPath path step.kind) step
    let values ← slotValues path rest
    return ("steps", .ofEntry step.kind body) :: values
  | .text tag text :: rest => do
    let values ← slotValues path rest
    return (tag, .string text) :: values
  | .element tag step :: rest => do
    let body ← stepBody (childPath path tag) step
    let values ← slotValues path rest
    return (tag, body) :: values

end

/-- A step as the mapping from its kind to its body. -/
def stepValue (path : String) (step : Step) : Noted Value := do
  return .ofEntry step.kind (← stepBody path step)

end RouteNotation.Dsl
