import RouteNotation.Diagnostic
import RouteNotation.Route.Step
import RouteNotation.Xml.Name
import RouteNotation.Yaml.Value

/-!
Steps from value trees. A step is a mapping from its kind to its body. In a body every key is judged
once by `FieldRule.of`; the readers below only follow it.
-/

namespace RouteNotation.Dsl

open Yaml

/-- A value that stands where something else is expected. -/
def expected (path what found : String) : Noted Unit :=
  .unknownShape path s!"expected {what}, found {found}, skipped"

/-- Adds a scalar as an attribute, if the key can be the name of one. -/
def readAttribute (path : String) (attributes : Attributes) (key : String) (v : Value) :
    Noted Attributes :=
  if !Xml.isValidName key then do
    .unknownShape path s!"`{key}` is not a valid XML name, skipped"
    return attributes
  else match v.scalarText? with
    | some text => return attributes.insert key text
    | none => do
      expected (childPath path key) "a scalar" v.describe
      return attributes

/-- Adds an entry as an attribute; a key that is no scalar has no text and is passed over. -/
def readAttributeEntry (path : String) (attributes : Attributes) (e : Entry) : Noted Attributes :=
  match e.1.scalarText? with
  | some key => readAttribute path attributes key e.2
  | none => return attributes

def readAttributes (path : String) (es : List Entry) : Noted Attributes :=
  es.foldlM (readAttributeEntry path) .empty

def readExpressionEntry (path : String) (expression : Expression) (e : Entry) :
    Noted Expression := do
  match e.1.scalarText? with
  | some "expression" => return { expression with text := e.2.scalarText? }
  | some key =>
    return { expression with
      attributes := ← readAttribute path expression.attributes key e.2 }
  | none => return expression

/-- An expression: its text alone, or a mapping with the text and attributes. -/
def readExpression (path : String) (language : Language) (body : Value) : Noted Expression :=
  match body with
  | .mapping es => es.foldlM (readExpressionEntry path) ⟨language, none, .empty⟩
  | v => return ⟨language, v.scalarText?, .empty⟩

/-- The language and the body of an expression under a key of its own. -/
def wrapped? (v : Value) : Option (Language × Value) := do
  let (tag, body) ← firstEntry? (← v.mapping?)
  return (← Language.ofTag? tag, body)

def readWrapper (path : String) (step : Step) (v : Value) : Noted Step :=
  match wrapped? v with
  | none => do
    expected path "`\x7blanguage: expression\x7d`" v.describe
    return step
  | some (language, body) =>
    if step.expression.isSome then do
      .unknownShape path s!"`{step.kind}` already has an expression, wrapper ignored"
      return step
    else return step.withExpression (← readExpression path language body)

/-- What a key in the body of a step stands for. -/
inductive FieldRule
  /-- The list of nested steps. -/
  | steps
  /-- The expression under a key of its own. -/
  | wrapper
  /-- The text of the step. -/
  | text (value : String)
  /-- A key that has another meaning. -/
  | reserved
  /-- The expression, under its language. -/
  | expression (language : Language)
  /-- An expression where the step has one already; it becomes a child. -/
  | lateExpression
  /-- An attribute or a child. -/
  | child
  deriving DecidableEq, Repr

def FieldRule.of (role : Role) (hasExpression : Bool) (key : String) (v : Value) : FieldRule :=
  match key with
  | "steps" => .steps
  | "expression" => .wrapper
  | "text" => match v.scalarText? with
    | some value => .text value
    | none => .reserved
  | "children" | "item" => .reserved
  | _ => match Role.ofTag key with
    | .expression language =>
      if v.mapping?.isSome || (v.isScalar && role.takesScalarExpression) then
        if hasExpression then .lateExpression else .expression language
      else .child
    | _ => .child

/-- An entry of the steps of a container that is a text under a tag: the expression of the container
if it has none, and else a child. Shorthands stay steps. -/
def collapse? (step : Step) (item : Value) : Option Step := do
  let es ← item.mapping?
  let (tag, body) ← firstEntry? es
  let text ← body.scalarText?
  if es.length ≠ 1 || (shorthand? tag).isSome || !Xml.isValidName tag || isReserved tag then none
  else match Role.ofTag tag with
    | .expression language =>
      if step.expression.isNone then some (step.withExpression (.ofText language text))
      else some (step.push (.text tag text))
    | _ => some (step.push (.text tag text))

/-- A step whose body is a text: the text is an attribute where the kind has a shorthand. -/
def textStep (kind text : String) : Step :=
  match shorthand? kind with
  | some key => ⟨kind, .single key text, none, none, []⟩
  | none => ⟨kind, .empty, some text, none, []⟩

/-- Adds a child that is a text. -/
def readTextChild (path tag : String) (step : Step) (v : Value) : Noted Step :=
  match v.scalarText? with
  | some text => return step.push (.text tag text)
  | none => do
    expected path "a scalar or a map" v.describe
    return step

/-- Adds a text under a key: an attribute, unless the key is for children. -/
def readTextField (path key : String) (step : Step) (v : Value) : Noted Step :=
  if v.isScalar && !isTextChild key then do
    return step.withAttributes (← readAttribute path step.attributes key v)
  else readTextChild (childPath path key) key step v

mutual

/-- One step, from the mapping of its kind to its body. `found` names the value, tags included. -/
def readStepItem (path found : String) : Value → Noted (Option Step)
  | .tagged _ v => readStepItem path found v
  | .mapping ((k, body) :: more) =>
    match k.scalarText? with
    | some kind => do
      if !more.isEmpty then
        .unknownShape path s!"step `{kind}` has extra keys, only the first is used"
      readStep (childPath path kind) kind body
    | none => do
      expected path "a `\x7bkind: body\x7d` map" found
      return none
  | _ => do
    expected path "a `\x7bkind: body\x7d` map" found
    return none

/-- The step of a kind with this body. -/
def readStep (path kind : String) (body : Value) : Noted (Option Step) :=
  if !Xml.isValidName kind || isReserved kind then do
    .unknownShape path s!"`{kind}` cannot be used as a tag, skipped"
    return none
  else match body with
    | .null => return some (.bare kind)
    | .mapping es => do return some (← readBody path (.ofTag kind) (.bare kind) es)
    | .sequence _ | .tagged _ _ => do
      expected path "a map, a scalar or null" body.describe
      return none
    | v => return some (textStep kind (v.scalarText?.getD ""))

/-- The step with what the entries of its body add. -/
def readBody (path : String) (role : Role) (step : Step) : List (Value × Value) → Noted Step
  | [] => pure step
  | (k, v) :: rest => do
    match k.scalarText? with
    | none =>
      .unknownShape path "non-scalar key skipped"
      readBody path role step rest
    | some key =>
      let here := childPath path key
      match FieldRule.of role step.expression.isSome key v with
      | .steps =>
        if !role.isContainer then
          .unknownShape here s!"`{step.kind}` does not take nested steps"
        let step ← readNested here v.describe role.isContainer step v
        readBody path role step rest
      | .wrapper =>
        let step ← readWrapper here step v
        readBody path role step rest
      | .text value => readBody path role (step.withText (some value)) rest
      | .reserved =>
        expected here "no reserved key" v.describe
        readBody path role step rest
      | .expression language =>
        let expression ← readExpression here language v
        readBody path role (step.withExpression expression) rest
      | .lateExpression =>
        .unknownShape here s!"`{step.kind}` already has an expression, `{key}` kept as a child"
        let step ← readChild path key step v
        readBody path role step rest
      | .child =>
        let step ← readChild path key step v
        readBody path role step rest

/-- Adds nested steps. -/
def readNested (path found : String) (container : Bool) (step : Step) : Value → Noted Step
  | .tagged _ v => readNested path found container step v
  | .sequence items => readNestedItems path container 0 step items
  | _ => do
    expected path "a list of steps" found
    return step

def readNestedItems (path : String) (container : Bool) (index : Nat) (step : Step) :
    List Value → Noted Step
  | [] => pure step
  | item :: rest => do
    match if container then collapse? step item else none with
    | some step => readNestedItems path container (index + 1) step rest
    | none =>
      let nested ← readStepItem (indexPath path index) item.describe item
      readNestedItems path container (index + 1) (step.pushNested nested) rest

/-- Adds what stands under a key without a meaning of its own: children if it is a mapping, a list
or null, and else an attribute or a child with text. -/
def readChild (path key : String) (step : Step) (v : Value) : Noted Step :=
  if !Xml.isValidName key then do
    .unknownShape path s!"`{key}` is not a valid XML name, skipped"
    return step
  else match v with
    | .sequence items => readChildItems (childPath path key) key step items
    | .mapping es => do
      let child ← readBody (childPath path key) (.ofTag key) (.bare key) es
      return step.push (.element key child)
    | .null => return step.push (.element key (.bare key))
    | v => readTextField path key step v

/-- Adds one child for each item. -/
def readChildItems (path key : String) (step : Step) : List Value → Noted Step
  | [] => pure step
  | .null :: rest => readChildItems path key (step.push (.element key (.bare key))) rest
  | .mapping es :: rest => do
    let child ← readBody path (.ofTag key) (.bare key) es
    readChildItems path key (step.push (.element key child)) rest
  | v :: rest => do readChildItems path key (← readTextChild path key step v) rest

end

def readStepItems (path : String) (index : Nat) : List Value → Noted (List Step)
  | [] => pure []
  | item :: rest => do
    let step ← readStepItem (indexPath path index) item.describe item
    let steps ← readStepItems path (index + 1) rest
    return step.toList ++ steps

/-- The steps of a route. -/
def readSteps (path : String) (v : Value) : Noted (List Step) :=
  match v.sequence? with
  | some items => readStepItems path 0 items
  | none => do
    expected path "a list of steps" v.describe
    return []

end RouteNotation.Dsl
