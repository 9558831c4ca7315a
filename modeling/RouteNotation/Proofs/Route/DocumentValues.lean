import RouteNotation.Proofs.OrderedMap
import RouteNotation.Proofs.Route.StepParts
import RouteNotation.Route.Document

/-!
The texts that a document holds: its fields, the values of its attributes, arguments and properties,
and the texts of its steps at every depth.
-/

namespace RouteNotation

def OrderedMap.values {κ α : Type} [DecidableEq κ] (m : OrderedMap κ α) : List α :=
  m.entries.map Prod.snd

theorem OrderedMap.mem_values_of_get? {κ α : Type} [DecidableEq κ] {m : OrderedMap κ α} {k : κ}
    {a : α} (h : m.get? k = some a) : a ∈ m.values :=
  List.mem_map.2 ⟨(k, a), mem_entries_of_get? h, rfl⟩

/-- The members of all lists of a map; appending only adds some. -/
theorem OrderedMap.mem_flatten_append {κ α : Type} [DecidableEq κ] {m : OrderedMap κ (List α)}
    {k : κ} {as : List α} {a : α} (h : a ∈ m.values.flatten ∨ a ∈ as) :
    a ∈ (m.append k as).values.flatten := by
  rw [List.mem_flatten]
  have appended : (m.append k as).get? k = some ((m.get? k).getD [] ++ as) :=
    (get?_update ..).trans (if_pos rfl)
  rcases h with before | added
  · obtain ⟨list, there, mem⟩ := List.mem_flatten.1 before
    obtain ⟨e, he, rfl⟩ := List.mem_map.1 there
    by_cases same : e.1 = k
    · have found : m.get? k = some e.2 := same ▸ get?_of_mem he
      rw [found] at appended
      exact ⟨_, mem_values_of_get? appended, List.mem_append_left _ mem⟩
    · have kept : (m.append k as).get? e.1 = some e.2 :=
        (get?_update ..).trans ((if_neg same).trans (get?_of_mem he))
      exact ⟨_, mem_values_of_get? kept, mem⟩
  · exact ⟨_, mem_values_of_get? appended, List.mem_append_right _ added⟩

def Part.values (p : Part) : List String := p.attributes.values ++ p.text.toList

def Step.values (s : Step) : List String := s.parts.flatMap Part.values

def Bean.values (b : Bean) : List String :=
  b.name :: (b.type.toList ++ b.factoryBean.toList ++ b.factoryMethod.toList ++ b.arguments ++
    b.properties.values.map PropertyValue.toText ++ b.extra.values)

def Reference.values (r : Reference) : List String := r.id :: r.interface :: r.filter.toList

def RestConfiguration.values (c : RestConfiguration) : List String :=
  c.attributes.values ++ c.propertyLists.values.flatten.flatMap OrderedMap.values

def Operation.values (o : Operation) : List String :=
  o.attributes.values ++ o.description.toList ++ o.target.toList

def operationsValues (operations : OrderedMap HttpVerb (List Operation)) : List String :=
  operations.values.flatten.flatMap Operation.values

def RestApi.values (a : RestApi) : List String :=
  a.id.toList ++ a.path.toList ++ a.attributes.values ++ a.description.toList ++
    operationsValues a.operations

def Endpoint.values (e : Endpoint) : List String :=
  e.uri :: (e.parameters.values ++ e.attributes.values)

def Route.values (r : Route) : List String :=
  r.id.toList ++ r.errorHandler.toList ++ r.attributes.values ++ r.description.toList ++
    r.source.values ++ r.steps.flatMap Step.values

def Document.values (d : Document) : List String :=
  d.beans.flatMap Bean.values ++ d.references.flatMap Reference.values ++
    d.restConfiguration.toList.flatMap RestConfiguration.values ++
    d.restApis.flatMap RestApi.values ++ d.routes.flatMap Route.values

end RouteNotation
