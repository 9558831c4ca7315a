import RouteNotation.Blueprint.StepPrinter
import RouteNotation.Route.Document
import RouteNotation.Route.Uri

/-!
The document as markup: a blueprint whose sections are all there, also when they are empty.
-/

namespace RouteNotation.Blueprint

open Xml

/-- The placeholder for properties that a blueprint begins with. -/
structure Placeholder where
  id : String
  persistentId : String
  updateStrategy : String
  deriving DecidableEq, Repr

structure Settings where
  placeholder : Placeholder
  contextId : String
  deriving DecidableEq, Repr

def Settings.default : Settings := ⟨⟨"settings.props", "settings", "reload"⟩, "camelContext"⟩

def contextNamespace : String := "http://camel.apache.org/schema/blueprint"

def namespaces : Attributes := .ofList [
  ("xmlns", "http://www.osgi.org/xmlns/blueprint/v1.0.0"),
  ("xmlns:xsi", "http://www.w3.org/2001/XMLSchema-instance"),
  ("xmlns:cm", "http://aries.apache.org/blueprint/xmlns/blueprint-cm/v1.0.0"),
  ("xmlns:camel", contextNamespace),
  ("xsi:schemaLocation", String.intercalate " " [
    "http://www.osgi.org/xmlns/blueprint/v1.0.0",
    "http://www.osgi.org/xmlns/blueprint/v1.0.0/blueprint.xsd",
    "http://aries.apache.org/blueprint/xmlns/blueprint-cm/v1.0.0",
    "http://aries.apache.org/blueprint/xmlns/blueprint-cm/v1.0.0/blueprint-cm.xsd",
    "http://camel.apache.org/schema/blueprint",
    "http://camel.apache.org/schema/blueprint/camel-blueprint.xsd"])]

def placeholderElement (p : Placeholder) : Element :=
  .leaf "cm:property-placeholder" (.ofList [("id", p.id), ("persistent-id", p.persistentId),
    ("update-strategy", p.updateStrategy)])

def descriptionElements (description : Option String) : List Element :=
  description.toList.map (.ofText "description" .empty)

/-- The attributes with the value of a property. -/
def withValue (attributes : Attributes) : PropertyValue → Attributes
  | .literal text => attributes.insert "value" text
  | .reference bean => attributes.insert "ref" bean

def argumentElement (argument : String) : Element :=
  .leaf "argument" (withValue .empty (.ofText argument))

def propertyElement (p : String × PropertyValue) : Element :=
  .leaf "property" (withValue (.single "name" p.1) p.2)

def beanElement (bean : Bean) : Element :=
  let attributes := (((OrderedMap.single "id" bean.name).insertSome "class" bean.type).insertSome
    "factory-ref" bean.factoryBean).insertSome "factory-method" bean.factoryMethod
  .ofElements "bean" (attributes.insertAll bean.extra)
    (bean.arguments.map argumentElement ++ bean.properties.entries.map propertyElement)

def referenceElement (reference : Reference) : Element :=
  .leaf "reference" (((OrderedMap.single "id" reference.id).insert "interface"
    reference.interface).insertSome "filter" reference.filter)

def propertyListElement (list : String × List Attributes) : Element :=
  .ofElements itemTag .empty (list.2.map (.leaf list.1))

def restConfigurationElement (configuration : RestConfiguration) : Element :=
  .ofElements "restConfiguration" configuration.attributes
    (configuration.propertyLists.entries.map propertyListElement)

def operationElement (verb : HttpVerb) (operation : Operation) : Element :=
  .ofElements verb.tag operation.attributes (descriptionElements operation.description ++
    operation.target.toList.map fun uri => .leaf "to" (.single "uri" uri))

def operationsElement (list : HttpVerb × List Operation) : Element :=
  .ofElements itemTag .empty (list.2.map (operationElement list.1))

def restApiElement (api : RestApi) : Element :=
  let attributes := (OrderedMap.empty.insertSome "id" api.id).insertSome "path" api.path
  .ofElements "rest" (attributes.insertAll api.attributes)
    (descriptionElements api.description ++ api.operations.entries.map operationsElement)

/-- The source of a route, with its parameters in the URI. -/
def sourceElement (source : Endpoint) : Element :=
  let uri := Uri.pack source.uri source.parameters
  .leaf "from" ((OrderedMap.single "uri" uri).insertAll source.attributes)

def routeElement (route : Route) : Element :=
  let attributes := (OrderedMap.empty.insertSome "id" route.id).insertSome "errorHandlerRef"
    route.errorHandler
  .ofElements "route" (attributes.insertAll route.attributes)
    (descriptionElements route.description ++
      [sourceElement route.source, .ofElements stepsTag .empty (route.steps.map stepElement)])

def contextElement (id : String) (d : Document) : Element :=
  .ofElements "camelContext" (.ofList [("id", id), ("xmlns", contextNamespace)])
    (d.restConfiguration.toList.map restConfigurationElement ++ d.restApis.map restApiElement ++
      d.routes.map routeElement)

/-- The blueprint, with the wrappers that group lists still in it. -/
def documentElement (settings : Settings) (d : Document) : Element :=
  .ofElements "blueprint" namespaces
    (placeholderElement settings.placeholder :: d.references.map referenceElement ++
      contextElement settings.contextId d :: d.beans.map beanElement)

end RouteNotation.Blueprint
