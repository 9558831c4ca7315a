import RouteNotation.Dsl.Reader
import RouteNotation.Proofs.Yaml.Texts

/-!
The texts in a value tree that are passed over without a diagnostic: what stands in a mapping or a
list where only a text is asked for, what stands under a key that has no text, or one whose text
comes again later in the mapping, and what stands beside the one entry that is looked at.
-/

namespace RouteNotation.Dsl

open Yaml

/-- Where a text is asked for, a mapping or a list is taken for nothing. -/
def textUnread (v : Value) : List String := if v.isScalar then [] else v.texts

/-- Whether entries are read under this text, which then are put in place of an earlier one. -/
def readUnder (key : String) (es : List Entry) : Bool :=
  es.any fun e => e.1.scalarText? = some key

/-- Where entries are read by the texts of their keys, the last one counts of those with one text,
and an entry whose key has no text is passed over. -/
def fieldsUnread (unread : String → Value → List String) : List Entry → List String
  | [] => []
  | e :: rest =>
    (match e.1.scalarText? with
      | none => e.2.texts
      | some key => if readUnder key rest then e.2.texts else unread key e.2) ++
    fieldsUnread unread rest

def attributesUnread : List Entry → List String := fieldsUnread fun _ _ => []

def expressionFieldUnread (key : String) (v : Value) : List String :=
  if key = "expression" then textUnread v else []

def expressionUnread : Value → List String
  | .mapping es => fieldsUnread expressionFieldUnread es
  | v => textUnread v

/-- Only the first entry of a mapping with an expression in it is looked at. -/
def wrapperUnread (v : Value) : List String :=
  match v.mapping? with
  | some ((_, body) :: more) => expressionUnread body ++ entriesTexts more
  | _ => []

section Steps

mutual

def stepItemUnread : Value → List String
  | .mapping ((k, body) :: _) => stepUnread (k.scalarText?.getD "") body
  | _ => []

def stepUnread (kind : String) : Value → List String
  | .mapping es => bodyUnread (.ofTag kind) es
  | _ => []

def bodyUnread (role : Role) : List (Value × Value) → List String
  | [] => []
  | (k, v) :: rest =>
    (match k.scalarText? with
      | none => []
      | some key => if readUnder key rest then v.texts else
        match FieldRule.of role false key v with
        | .steps => nestedUnread v
        | .wrapper => wrapperUnread v
        | .expression _ => expressionUnread v
        | .child => childUnread key v
        | .text _ | .reserved | .lateExpression => []) ++ bodyUnread role rest

def nestedUnread : Value → List String
  | .sequence items => nestedItemsUnread items
  | _ => []

def nestedItemsUnread : List Value → List String
  | [] => []
  | item :: rest => stepItemUnread item ++ nestedItemsUnread rest

def childUnread (key : String) : Value → List String
  | .sequence items => childItemsUnread key items
  | .mapping es => bodyUnread (.ofTag key) es
  | _ => []

def childItemsUnread (key : String) : List Value → List String
  | [] => []
  | item :: rest => stepUnread key item ++ childItemsUnread key rest

end

/-- One entry of a body. -/
def bodyEntryUnread (role : Role) (key : String) (v : Value) : List String :=
  match FieldRule.of role false key v with
  | .steps => nestedUnread v
  | .wrapper => wrapperUnread v
  | .expression _ => expressionUnread v
  | .child => childUnread key v
  | .text _ | .reserved | .lateExpression => []

theorem bodyUnread_cons {role : Role} {k v : Value} {rest : List Entry} {key : String}
    (scalar : k.scalarText? = some key) :
    bodyUnread role ((k, v) :: rest) =
      (if readUnder key rest then v.texts else bodyEntryUnread role key v) ++
        bodyUnread role rest := by
  simp only [bodyUnread, scalar]
  rfl

def stepsUnread (v : Value) : List String := (v.sequence?.getD []).flatMap stepItemUnread

end Steps

section Sections

def beanFieldUnread (key : String) (v : Value) : List String :=
  match key with
  | "type" | "factoryBean" | "factoryMethod" => textUnread v
  | "properties" => attributesUnread (v.mapping?.getD [])
  | _ => []

def beansUnread (items : List Value) : List String :=
  items.flatMap fun item => fieldsUnread beanFieldUnread (item.mapping?.getD [])

def referenceFieldUnread (key : String) (v : Value) : List String :=
  if key = "filter" then textUnread v else []

/-- The mappings of a section. -/
def mappingsUnread (unread : List Entry → List String) (v : Value) : List String :=
  ((mappings? v).getD []).flatMap unread

def configurationFieldUnread (_ : String) (v : Value) : List String :=
  mappingsUnread attributesUnread v

/-- Of the endpoint of an operation only the URI is looked at. -/
def targetUnread (v : Value) : List String :=
  fieldsUnread (fun key v => if key = "uri" then [] else v.texts) (v.mapping?.getD [])

def operationFieldUnread (key : String) (v : Value) : List String :=
  match key with
  | "description" => textUnread v
  | "to" => targetUnread v
  | _ => []

def restFieldUnread (key : String) (v : Value) : List String :=
  match key with
  | "id" | "path" | "description" => textUnread v
  | _ => mappingsUnread (fieldsUnread operationFieldUnread) v

def endpointFieldUnread (key : String) (v : Value) : List String :=
  match key with
  | "parameters" => attributesUnread (v.mapping?.getD [])
  | "steps" => stepsUnread v
  | _ => []

def routeFieldUnread (key : String) (v : Value) : List String :=
  match key with
  | "id" | "errorHandlerRef" | "description" => textUnread v
  | "from" => fieldsUnread endpointFieldUnread (v.mapping?.getD [])
  | "steps" => stepsUnread v
  | _ => []

def sectionUnread (key : String) (v : Value) : List String :=
  match key with
  | "beans" => beansUnread (v.sequence?.getD [])
  | "reference" => mappingsUnread (fieldsUnread referenceFieldUnread) v
  | "restConfiguration" => mappingsUnread (fieldsUnread configurationFieldUnread) v
  | "rest" => mappingsUnread (fieldsUnread restFieldUnread) v
  | "route" => mappingsUnread (fieldsUnread routeFieldUnread) v
  | "from" => routeFieldUnread "from" v
  | _ => []

def sectionEntryUnread (e : Entry) : List String :=
  match e.1.scalarText? with
  | some key => sectionUnread key e.2
  | none => []

/-- The texts in a document that are passed over. -/
def documentUnread (root : Value) : List String :=
  (root.sequence?.getD []).flatMap fun item => (item.mapping?.getD []).flatMap sectionEntryUnread

end Sections
end RouteNotation.Dsl
