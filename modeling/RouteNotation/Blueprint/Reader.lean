import RouteNotation.Blueprint.StepReader
import RouteNotation.Route.Document

/-!
The document in markup. Every entity is read on its own: one that cannot be read is left out with a
diagnostic and changes nothing for the others.
-/

namespace RouteNotation.Blueprint

open Xml

/-- The path of an entity: its tag with its id, or with its place among those read so far. -/
def entityPath (e : Element) (index : Nat) : String :=
  match e.attribute? "id" with
  | some id => s!"{e.localName}[{id}]"
  | none => indexPath e.localName index

/-- The value of a property or an argument: an attribute, the text, or the text of the first
element `value` that has one. -/
def propertyValue? (e : Element) : Option PropertyValue :=
  match e.attribute? "value", e.attribute? "ref" with
  | some value, _ => some (.literal value)
  | none, some bean => some (.reference bean)
  | none, none =>
    (e.text?.or ((e.elementsNamed "value").findSome? Element.text?)).map .literal

def addBeanAttribute (bean : Bean) (a : String × String) : Bean :=
  match a.1 with
  | "id" => bean
  | "class" => { bean with type := some a.2 }
  | "factory-ref" | "factory-bean" => { bean with factoryBean := some a.2 }
  | "factory-method" => { bean with factoryMethod := some a.2 }
  | key => { bean with extra := bean.extra.insert key a.2 }

def readArgument (path : String) (bean : Bean) (e : Element) : Noted Bean :=
  match propertyValue? e with
  | some value => return { bean with arguments := bean.arguments ++ [value.toText] }
  | none => do
    .unknownShape path "argument without a value skipped"
    return bean

def readProperty (path : String) (bean : Bean) (e : Element) : Noted Bean :=
  match e.attribute? "name" with
  | none => do
    .missingField path "name"
    return bean
  | some name =>
    match propertyValue? e with
    | some value => return { bean with properties := bean.properties.insert name value }
    | none => do
      .unknownShape path s!"property `{name}` without a value skipped"
      return bean

def readBeanChild (path : String) (bean : Bean) (e : Element) : Noted Bean := do
  let tag := e.localName
  let here := childPath path tag
  match tag with
  | "argument" => readArgument here bean e
  | "property" => readProperty here bean e
  | _ =>
    .unknownShape here s!"unsupported bean child `{tag}`"
    return bean

def readBean (path : String) (e : Element) : Noted (Option Bean) :=
  match e.attribute? "id" with
  | none => .skippedWithout path "id"
  | some id => do
    let bean := e.attributes.entries.foldl addBeanAttribute (.named id)
    return some (← e.elements.foldlM (readBeanChild path) bean)

def isReferenceKey (key : String) : Bool := ["id", "interface", "filter"].contains key

def readReference (path : String) (e : Element) : Noted (Option Reference) :=
  match e.attribute? "id", e.attribute? "interface" with
  | none, _ => .skippedWithout path "id"
  | some _, none => .skippedWithout path "interface"
  | some id, some interface =>
    ⟨some ⟨id, interface, e.attribute? "filter"⟩,
      (e.attributes.keys.filter fun key => !isReferenceKey key).map fun key =>
        .unknownShape path s!"reference attribute `{key}` ignored"⟩

def readPropertyList (path : String) (configuration : RestConfiguration) (e : Element) :
    Noted RestConfiguration := do
  let tag := e.localName
  if e.hasElements then
    .unknownShape (childPath path tag) "nested elements inside a property are ignored"
  let attributes ← readAttributes path e.attributes
  return { configuration with
    propertyLists := configuration.propertyLists.append tag [attributes] }

def readRestConfiguration (path : String) (e : Element) : Noted RestConfiguration := do
  let attributes ← readAttributes path e.attributes
  e.elements.foldlM (readPropertyList path) ⟨attributes, .empty⟩

def readOperationChild (path : String) (operation : Operation) (e : Element) :
    Noted Operation := do
  let tag := e.localName
  match tag with
  | "description" => return { operation with description := e.text? }
  | "to" => return { operation with target := e.attribute? "uri" }
  | _ =>
    .unknownShape (childPath path tag) s!"unsupported verb child `{tag}`"
    return operation

def readOperation (path : String) (e : Element) : Noted Operation := do
  let attributes ← readAttributes path e.attributes
  e.elements.foldlM (readOperationChild path) { Operation.empty with attributes }

def addRestAttribute (api : RestApi) (a : String × String) : RestApi :=
  match a.1 with
  | "id" => { api with id := some a.2 }
  | "path" => { api with path := some a.2 }
  | key => { api with attributes := api.attributes.insert key a.2 }

def readRestChild (path : String) (api : RestApi) (e : Element) : Noted RestApi := do
  let tag := e.localName
  let here := childPath path tag
  if tag = "description" then return { api with description := e.text? }
  else match HttpVerb.ofTag? tag with
    | some verb =>
      let operation ← readOperation here e
      return { api with operations := api.operations.append verb [operation] }
    | none =>
      .unknownShape here s!"unsupported rest child `{tag}`"
      return api

def readRestApi (path : String) (e : Element) : Noted RestApi :=
  e.elements.foldlM (readRestChild path) (e.attributes.entries.foldl addRestAttribute .empty)

def readParameter (path : String) (endpoint : Endpoint) (e : Element) : Noted Endpoint := do
  let tag := e.localName
  match tag, e.attribute? "name", (e.attribute? "value").or e.text? with
  | "parameter", some name, some value =>
    return { endpoint with parameters := endpoint.parameters.insert name value }
  | _, _, _ =>
    .unknownShape (childPath path tag) s!"unsupported endpoint child `{tag}`"
    return endpoint

/-- An endpoint; without a URI it is none. -/
def readEndpoint (path : String) (e : Element) : Noted (Option Endpoint) :=
  match e.attribute? "uri" with
  | none => return none
  | some uri => do
    let attributes := e.attributes.filterKeys (· ≠ "uri")
    return some (← e.elements.foldlM (readParameter path) ⟨uri, .empty, attributes⟩)

/-- A route while its children are read: the source may still be missing. -/
structure RouteDraft where
  id : Option String
  errorHandler : Option String
  attributes : Attributes
  description : Option String
  source : Option Endpoint
  steps : List Step

namespace RouteDraft

def empty : RouteDraft := ⟨none, none, .empty, none, none, []⟩

/-- The route, or a diagnostic when nothing was read that messages come from. -/
def finish (draft : RouteDraft) (path : String) : Noted (Option Route) :=
  match draft.source with
  | some source =>
    return some ⟨draft.id, draft.errorHandler, draft.attributes, draft.description, source,
      draft.steps⟩
  | none => .skippedWithout path "from.uri"

end RouteDraft

def addRouteAttribute (draft : RouteDraft) (a : String × String) : RouteDraft :=
  match a.1 with
  | "id" => { draft with id := some a.2 }
  | "errorHandlerRef" => { draft with errorHandler := some a.2 }
  | key => { draft with attributes := draft.attributes.insert key a.2 }

def readRouteStep (path : String) (draft : RouteDraft) (e : Element) : Noted RouteDraft := do
  let step ← readStep path e
  return { draft with steps := draft.steps ++ step.toList }

def readRouteChild (path : String) (draft : RouteDraft) (e : Element) : Noted RouteDraft := do
  let tag := e.localName
  let here := childPath path tag
  match tag with
  | "from" =>
    if draft.source.isNone then
      let source ← readEndpoint here e
      return { draft with source }
    else
      .unknownShape here "second `from` ignored"
      return draft
  | "description" =>
    if e.hasElements then readRouteStep here draft e
    else return { draft with description := e.text? }
  | _ => readRouteStep here draft e

def readRoute (path : String) (e : Element) : Noted (Option Route) := do
  let draft := e.attributes.entries.foldl addRouteAttribute .empty
  (← e.elements.foldlM (readRouteChild path) draft).finish path

mutual

/-- The document with what one element adds to it. Some elements only group others. -/
def readSection (d : Document) : Element → Noted Document
  | ⟨name, attributes, children⟩ => do
    let e : Element := ⟨name, attributes, children⟩
    let tag := Xml.localName name
    match tag with
    | "bean" =>
      let bean ← readBean (entityPath e d.beans.length) e
      return { d with beans := d.beans ++ bean.toList }
    | "reference" =>
      let reference ← readReference (entityPath e d.references.length) e
      return { d with references := d.references ++ reference.toList }
    | "restConfiguration" =>
      if d.restConfiguration.isSome then
        .unknownShape tag "only one restConfiguration is allowed, extra one dropped"
        return d
      else
        let configuration ← readRestConfiguration tag e
        return { d with restConfiguration := some configuration }
    | "rest" =>
      let api ← readRestApi (entityPath e d.restApis.length) e
      return { d with restApis := d.restApis ++ [api] }
    | "route" =>
      let route ← readRoute (entityPath e d.routes.length) e
      return { d with routes := d.routes ++ route.toList }
    | "camelContext" | "routes" | "rests" => readSections d children
    | "property-placeholder" => return d
    | _ =>
      .unknownShape tag s!"unsupported section `{tag}` skipped"
      return d

def readSections (d : Document) : List Content → Noted Document
  | [] => pure d
  | .text _ :: rest => readSections d rest
  | .element e :: rest => do readSections (← readSection d e) rest

end

/-- The document below a root, which may also be a single route. -/
def readDocument (root : Element) : Noted Document :=
  if root.localName = "route" then readSection .empty root else readSections .empty root.children

end RouteNotation.Blueprint
