import RouteNotation.Dsl.StepPrinter
import RouteNotation.Route.Document

/-!
The document as a value tree: a sequence of sections, each a mapping with one entry. Empty sections
are left out.
-/

namespace RouteNotation.Dsl

open Yaml

/-- Constructor arguments by index. -/
def argumentsValue (arguments : List String) : Value :=
  .mapping (arguments.zipIdx.map fun a => (.int a.2, .string a.1))

def propertiesValue (properties : OrderedMap String PropertyValue) : Value :=
  .mapping (properties.entries.map fun p => textEntry p.1 p.2.toText)

/-- A field for a list, unless it is empty. -/
def putUnless (empty : Bool) (fields : Fields) (key : String) (v : Value) : Fields :=
  if empty then fields else fields.put key v

def beanValue (bean : Bean) : Value :=
  let fields := noFields.put "name" (.string bean.name)
  let fields := fields.putText? "type" bean.type
  let fields := fields.putText? "factoryBean" bean.factoryBean
  let fields := fields.putText? "factoryMethod" bean.factoryMethod
  let fields := fields.putAttributes bean.extra
  let fields := putUnless bean.arguments.isEmpty fields "constructors"
    (argumentsValue bean.arguments)
  (putUnless bean.properties.isEmpty fields "properties"
    (propertiesValue bean.properties)).toValue

def referenceValue (reference : Reference) : Value :=
  let fields := noFields.put "id" (.string reference.id)
  let fields := fields.put "interface" (.string reference.interface)
  (fields.putText? "filter" reference.filter).toValue

def putPropertyList (fields : Fields) (list : String × List Attributes) : Fields :=
  fields.put list.1 (.sequence (list.2.map attributesValue))

def restConfigurationValue (configuration : RestConfiguration) : Value :=
  (configuration.propertyLists.entries.foldl putPropertyList
    (noFields.putAttributes configuration.attributes)).toValue

def operationValue (operation : Operation) : Value :=
  let fields := noFields.putAttributes operation.attributes
  let fields := fields.putText? "description" operation.description
  (fields.putText? "to" operation.target).toValue

def putOperations (fields : Fields) (list : HttpVerb × List Operation) : Fields :=
  fields.put list.1.tag (.sequence (list.2.map operationValue))

def restApiValue (api : RestApi) : Value :=
  let fields := noFields.putText? "id" api.id
  let fields := fields.putText? "path" api.path
  let fields := fields.putAttributes api.attributes
  let fields := fields.putText? "description" api.description
  (api.operations.entries.foldl putOperations fields).toValue

/-- The steps of a route are written below its source. -/
def sourceValue (source : Endpoint) (steps : List Value) : Value :=
  let fields := noFields.put "uri" (.string source.uri)
  let fields := putUnless source.parameters.isEmpty fields "parameters"
    (attributesValue source.parameters)
  let fields := fields.putAttributes source.attributes
  (fields.put "steps" (.sequence steps)).toValue

def routeValue (path : String) (route : Route) : Noted Value := do
  let fields := noFields.putText? "id" route.id
  let fields := fields.putText? "errorHandlerRef" route.errorHandler
  let fields := fields.putAttributes route.attributes
  let fields := fields.putText? "description" route.description
  let steps ← route.steps.mapM fun step => stepValue (childPath path step.kind) step
  return (fields.put "from" (sourceValue route.source steps)).toValue

def routePath (index : Nat) (route : Route) : String :=
  match route.id with
  | some id => s!"route[{id}]"
  | none => indexPath "route" index

def documentValue (d : Document) : Noted Value := do
  let beans := if d.beans.isEmpty then []
    else [Value.ofEntry "beans" (.sequence (d.beans.map beanValue))]
  let references := d.references.map fun r => Value.ofEntry "reference" (referenceValue r)
  let configuration := d.restConfiguration.toList.map fun c =>
    Value.ofEntry "restConfiguration" (restConfigurationValue c)
  let apis := d.restApis.map fun a => Value.ofEntry "rest" (restApiValue a)
  let routes ← d.routes.zipIdx.mapM fun r => do
    return Value.ofEntry "route" (← routeValue (routePath r.2 r.1) r.1)
  return .sequence (beans ++ references ++ configuration ++ apis ++ routes)

end RouteNotation.Dsl
