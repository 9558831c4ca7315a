import RouteNotation.Proofs.Route.StepNames
import RouteNotation.Route.Document

/-!
Conditions on all the names in a document. The names of fields are not among them, nor are ids and
the names of properties, which are values in markup.
-/

namespace RouteNotation

def RestConfiguration.Names (tag key : String → Prop) (c : RestConfiguration) : Prop :=
  (∀ k ∈ c.attributes.keys, key k) ∧ ∀ list ∈ c.propertyLists.entries,
    tag list.1 ∧ ∀ properties ∈ list.2, ∀ k ∈ properties.keys, key k

def RestApi.Names (key : String → Prop) (api : RestApi) : Prop :=
  (∀ k ∈ api.attributes.keys, key k) ∧ ∀ list ∈ api.operations.entries,
    ∀ operation ∈ list.2, ∀ k ∈ operation.attributes.keys, key k

def Route.Names (tag key : String → Prop) (route : Route) : Prop :=
  (∀ k ∈ route.attributes.keys, key k) ∧ (∀ k ∈ route.source.attributes.keys, key k) ∧
    ∀ step ∈ route.steps, step.Names tag key

/-- Every tag in the document passes `tag`, and every attribute key passes `key`. -/
structure Document.Names (tag key : String → Prop) (d : Document) : Prop where
  beans : ∀ bean ∈ d.beans, ∀ k ∈ bean.extra.keys, key k
  configuration : ∀ c ∈ d.restConfiguration, c.Names tag key
  restApis : ∀ api ∈ d.restApis, api.Names key
  routes : ∀ route ∈ d.routes, route.Names tag key

end RouteNotation
