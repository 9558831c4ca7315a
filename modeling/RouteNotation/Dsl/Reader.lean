import RouteNotation.Dsl.StepReader
import RouteNotation.Error
import RouteNotation.Route.Document
import RouteNotation.Text.Numeral

/-!
The document in value trees: a sequence of mappings whose keys name sections. What has no rule is
passed over with a diagnostic.
-/

namespace RouteNotation.Dsl

open Yaml

/-- The mappings of a section: one, or a list of them. -/
def mappings? : Value → Option (List (List Entry))
  | .mapping es => some [es]
  | .sequence items => items.mapM Value.mapping?
  | _ => none

/-- An index, which fits in 64 bits. -/
def argumentIndex? (key : Value) : Option Nat :=
  key.scalarText?.bind fun text => Numeral.readBelow? 10 UInt64.size text.toList

def readIndexedArgument (path : String) (arguments : List (Nat × String)) (e : Entry) :
    Noted (List (Nat × String)) :=
  match argumentIndex? e.1, e.2.scalarText? with
  | some index, some text => return arguments ++ [(index, text)]
  | _, _ => do
    .unknownShape path "constructor argument skipped"
    return arguments

def readArgument (path : String) (arguments : List String) (v : Value) : Noted (List String) :=
  match v.scalarText? with
  | some text => return arguments ++ [text]
  | none => do
    .unknownShape path "constructor argument skipped"
    return arguments

/-- Constructor arguments, in a list or by index; equal indices keep their order. -/
def readArguments (path : String) : Value → Noted (List String)
  | .mapping es => do
    let arguments ← es.foldlM (readIndexedArgument path) []
    return (arguments.mergeSort fun a b => a.1 ≤ b.1).map Prod.snd
  | .sequence items => items.foldlM (readArgument path) []
  | v => do
    expected path "a map or a list" v.describe
    return []

def readProperty (path : String) (bean : Bean) (e : Entry) : Noted Bean :=
  match e.1.scalarText?, e.2.scalarText? with
  | some name, some text =>
    return { bean with properties := bean.properties.insert name (.ofText text) }
  | _, _ => do
    .unknownShape path "property must map a name to a scalar, skipped"
    return bean

def readProperties (path : String) (bean : Bean) (v : Value) : Noted Bean :=
  match v.mapping? with
  | some es => es.foldlM (readProperty path) bean
  | none => do
    expected path "a map" v.describe
    return bean

def readBeanField (path : String) (bean : Bean) (key : String) (v : Value) : Noted Bean := do
  match key with
  | "name" => return bean
  | "type" => return { bean with type := v.scalarText? }
  | "factoryBean" => return { bean with factoryBean := v.scalarText? }
  | "factoryMethod" => return { bean with factoryMethod := v.scalarText? }
  | "constructors" => return { bean with arguments := ← readArguments (childPath path key) v }
  | "properties" => readProperties (childPath path key) bean v
  | _ => return { bean with extra := ← readAttribute path bean.extra key v }

/-- Reads the entries whose key is a scalar, in order. -/
def readFields {σ : Type} (read : σ → String → Value → Noted σ) (s : σ) (es : List Entry) :
    Noted σ :=
  es.foldlM (fun s e => match e.1.scalarText? with
    | some key => read s key e.2
    | none => return s) s

def readBean (path : String) (es : List Entry) : Noted (Option Bean) :=
  match scalarUnder? "name" es with
  | none => .skippedWithout path "name"
  | some name => do return some (← readFields (readBeanField path) (.named name) es)

def readBeanItem (path : String) (item : Value) : Noted (List Bean) :=
  match item.mapping? with
  | some es => do return (← readBean path es).toList
  | none => do
    expected path "a map" item.describe
    return []

def readBeanItems (path : String) (index : Nat) : List Value → Noted (List Bean)
  | [] => pure []
  | item :: rest => do
    let bean ← readBeanItem (indexPath path index) item
    return bean ++ (← readBeanItems path (index + 1) rest)

def readBeans (path : String) (v : Value) : Noted (List Bean) :=
  match v.sequence? with
  | some items => readBeanItems path 0 items
  | none => do
    expected path "a list of beans" v.describe
    return []

def isReferenceKey (key : String) : Bool := ["id", "interface", "filter"].contains key

def readReference (path : String) (es : List Entry) : Noted (Option Reference) :=
  match scalarUnder? "id" es, scalarUnder? "interface" es with
  | none, _ => .skippedWithout path "id"
  | some _, none => .skippedWithout path "interface"
  | some id, some interface =>
    let keys := es.filterMap fun e => e.1.scalarText?
    ⟨some ⟨id, interface, scalarUnder? "filter" es⟩,
      (keys.filter fun key => !isReferenceKey key).map fun key =>
        .unknownShape path s!"reference key `{key}` ignored"⟩

/-- The attributes of each mapping of a list; all of them have one path. -/
def readPropertyList (path : String) (maps : List (List Entry)) : Noted (List Attributes) :=
  maps.mapM (readAttributes path)

def readConfigurationField (path : String) (configuration : RestConfiguration) (key : String)
    (v : Value) : Noted RestConfiguration := do
  let here := childPath path key
  if v.isScalar then
    return { configuration with attributes := ← readAttribute path configuration.attributes key v }
  else if !Xml.isValidName key then
    expected here "a valid XML name" v.describe
    return configuration
  else match mappings? v with
    | some maps =>
      let list ← readPropertyList here maps
      return { configuration with propertyLists := configuration.propertyLists.insert key list }
    | none =>
      expected here "a list of property maps" v.describe
      return configuration

def readRestConfiguration (path : String) (es : List Entry) : Noted RestConfiguration :=
  readFields (readConfigurationField path) ⟨.empty, .empty⟩ es

/-- The endpoint of an operation: a text, or a mapping with a URI. -/
def target? (v : Value) : Option String :=
  v.scalarText?.or (v.mapping?.bind (scalarUnder? "uri"))

def readOperationField (path : String) (operation : Operation) (key : String) (v : Value) :
    Noted Operation := do
  match key with
  | "description" => return { operation with description := v.scalarText? }
  | "to" =>
    if (target? v).isNone then
      expected (childPath path key) "an endpoint uri" v.describe
    return { operation with target := target? v }
  | _ => return { operation with attributes := ← readAttribute path operation.attributes key v }

def readOperation (path : String) (es : List Entry) : Noted Operation :=
  readFields (readOperationField path) .empty es

def readRestField (path : String) (api : RestApi) (key : String) (v : Value) : Noted RestApi := do
  match key with
  | "id" => return { api with id := v.scalarText? }
  | "path" => return { api with path := v.scalarText? }
  | "description" => return { api with description := v.scalarText? }
  | _ => match HttpVerb.ofTag? key with
    | some verb =>
      let here := childPath path key
      match mappings? v with
      | some maps =>
        let operations ← maps.mapM (readOperation here)
        return { api with operations := api.operations.append verb operations }
      | none =>
        expected here "a list of operations" v.describe
        return api
    | none => return { api with attributes := ← readAttribute path api.attributes key v }

def readRestApi (path : String) (es : List Entry) : Noted RestApi :=
  readFields (readRestField path) .empty es

/-- An endpoint while its fields are read, with the steps that stand in it. -/
structure EndpointDraft where
  endpoint : Endpoint
  steps : List Step

def readEndpointField (path : String) (draft : EndpointDraft) (key : String) (v : Value) :
    Noted EndpointDraft := do
  let here := childPath path key
  let endpoint := draft.endpoint
  match key with
  | "uri" => return { draft with endpoint := { endpoint with uri := v.scalarText?.getD "" } }
  | "parameters" => match v.mapping? with
    | some es =>
      return { draft with endpoint := { endpoint with parameters := ← readAttributes here es } }
    | none =>
      expected here "a map" v.describe
      return draft
  | "steps" => return { draft with steps := draft.steps ++ (← readSteps here v) }
  | _ =>
    let attributes ← readAttribute path endpoint.attributes key v
    return { draft with endpoint := { endpoint with attributes } }

def readEndpoint (path : String) (es : List Entry) : Noted EndpointDraft :=
  readFields (readEndpointField path) ⟨.empty, []⟩ es

/-- A route while its fields are read: the source may still be missing, and its steps stand before
those of the route itself. -/
structure RouteDraft where
  id : Option String
  errorHandler : Option String
  attributes : Attributes
  description : Option String
  source : Option Endpoint
  sourceSteps : List Step
  steps : List Step

namespace RouteDraft

def empty : RouteDraft := ⟨none, none, .empty, none, none, [], []⟩

/-- An endpoint without a URI is no source, but its steps count. -/
def setSource (draft : RouteDraft) (source : EndpointDraft) : RouteDraft :=
  { draft with
    source := if source.endpoint.uri.isEmpty then none else some source.endpoint
    sourceSteps := draft.sourceSteps ++ source.steps }

/-- The route, or a diagnostic when it has no source. -/
def finish (draft : RouteDraft) (path : String) : Noted (Option Route) :=
  match draft.source with
  | some source =>
    return some ⟨draft.id, draft.errorHandler, draft.attributes, draft.description, source,
      draft.sourceSteps ++ draft.steps⟩
  | none => .skippedWithout path "from.uri"

end RouteDraft

def readRouteField (path : String) (draft : RouteDraft) (key : String) (v : Value) :
    Noted RouteDraft := do
  let here := childPath path key
  match key with
  | "id" => return { draft with id := v.scalarText? }
  | "errorHandlerRef" => return { draft with errorHandler := v.scalarText? }
  | "description" => return { draft with description := v.scalarText? }
  | "from" => match v.mapping? with
    | some es => return draft.setSource (← readEndpoint here es)
    | none =>
      expected here "a map" v.describe
      return draft
  | "steps" => return { draft with steps := ← readSteps here v }
  | _ => return { draft with attributes := ← readAttribute path draft.attributes key v }

def readRoute (path : String) (es : List Entry) : Noted (Option Route) := do
  (← readFields (readRouteField path) .empty es).finish path

/-- Reads the mappings of a section one after another. Those of a list have their place in the
path. -/
def readEach (read : String → Document → List Entry → Noted Document) (path : String)
    (d : Document) (v : Value) : Noted Document :=
  match v, mappings? v with
  | .mapping es, _ => read path d es
  | _, some maps => maps.zipIdx.foldlM (fun d m => read (indexPath path m.2) d m.1) d
  | _, none => do
    expected path "a map or a list of maps" v.describe
    return d

def addReference (path : String) (d : Document) (es : List Entry) : Noted Document := do
  return { d with references := d.references ++ (← readReference path es).toList }

def addRestConfiguration (path : String) (d : Document) (es : List Entry) : Noted Document := do
  if d.restConfiguration.isSome then
    .unknownShape path "only one restConfiguration is allowed, extra one dropped"
    return d
  else
    return { d with restConfiguration := some (← readRestConfiguration path es) }

def addRestApi (path : String) (d : Document) (es : List Entry) : Noted Document := do
  return { d with restApis := d.restApis ++ [← readRestApi path es] }

def addRoute (path : String) (d : Document) (es : List Entry) : Noted Document := do
  return { d with routes := d.routes ++ (← readRoute path es).toList }

/-- One section. A source that stands alone is a route with nothing else. -/
def readSection (path : String) (d : Document) (key : String) (v : Value) : Noted Document := do
  match key with
  | "beans" => return { d with beans := d.beans ++ (← readBeans path v) }
  | "reference" => readEach addReference path d v
  | "restConfiguration" => readEach addRestConfiguration path d v
  | "rest" => readEach addRestApi path d v
  | "route" => readEach addRoute path d v
  | "from" => match v.mapping? with
    | some es => addRoute path d [entry "from" (.mapping es)]
    | none =>
      expected path "a map" v.describe
      return d
  | _ =>
    .unknownShape path s!"unsupported section `{key}` skipped"
    return d

def readSectionEntry (path : String) (d : Document) (e : Entry) : Noted Document :=
  match e.1.scalarText? with
  | some key => readSection (childPath path key) d key e.2
  | none => do
    .unknownShape path "non-scalar section key skipped"
    return d

/-- One item of the root: a mapping of sections. -/
def readItem (path : String) (d : Document) (item : Value) : Noted Document :=
  match item.mapping? with
  | some es => es.foldlM (readSectionEntry path) d
  | none => do
    .unknownShape path s!"expected a section map, found {item.describe}"
    return d

def readItems (index : Nat) (d : Document) : List Value → Noted Document
  | [] => pure d
  | item :: rest => do readItems (index + 1) (← readItem s!"[{index}]" d item) rest

/-- The document that a tree stands for. The root is a sequence; null is an empty document. -/
def readDocument (root : Value) : Except Error (Noted Document) :=
  match root with
  | .null => .ok (pure .empty)
  | .sequence items => .ok (readItems 0 .empty items)
  | v => .error (.ofKind (.unexpectedRoot v.describe) .nowhere)

end RouteNotation.Dsl
