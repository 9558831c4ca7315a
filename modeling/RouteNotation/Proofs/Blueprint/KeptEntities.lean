import RouteNotation.Proofs.Blueprint.DocumentMarkup
import RouteNotation.Proofs.Blueprint.Sections
import RouteNotation.Proofs.Noted

/-!
What reading keeps of an entity, whatever else is in its element: that it is there, and the
attributes by which it is known.
-/

namespace RouteNotation.Blueprint

open Xml OrderedMap

theorem readBean_isSome (path : String) {e : Element} (h : (e.attribute? "id").isSome) :
    (readBean path e).value.isSome := by
  unfold readBean
  cases found : e.attribute? "id" with
  | none =>
    rw [found] at h
    contradiction
  | some id => rfl

theorem readReference_value {path : String} {e : Element} {r : Reference}
    (same : e.attributes = (referenceElement r).attributes) :
    (readReference path e).value = some r := by
  obtain ⟨id, interface, filter⟩ := r
  have id : e.attribute? "id" = some id := by
    rw [Element.attribute?, same]
    cases filter <;> rfl
  have interface : e.attribute? "interface" = some interface := by
    rw [Element.attribute?, same]
    cases filter <;> rfl
  have filter : e.attribute? "filter" = filter := by
    rw [Element.attribute?, same]
    cases filter <;> rfl
  unfold readReference
  simp only [id, interface, filter]

theorem readRestApi_value (path : String) (e : Element) :
    (readRestApi path e).value.id = e.attribute? "id" ∧
      (readRestApi path e).value.path = e.attribute? "path" := by
  have id : (e.attributes.entries.foldl addRestAttribute .empty).id = e.attribute? "id" := by
    rw [foldl_field RestApi.id "id" (fun _ _ => rfl) _ e.attributes .empty]
    · exact Option.or_none
    · intro api a other
      unfold addRestAttribute
      split <;> first | rfl | contradiction
  have location : (e.attributes.entries.foldl addRestAttribute .empty).path =
      e.attribute? "path" := by
    rw [foldl_field RestApi.path "path" (fun _ _ => rfl) _ e.attributes .empty]
    · exact Option.or_none
    · intro api a other
      unfold addRestAttribute
      split <;> first | rfl | contradiction
  unfold readRestApi
  apply Noted.foldlM_induction (P := fun api : RestApi =>
    api.id = e.attribute? "id" ∧ api.path = e.attribute? "path") ⟨id, location⟩
  intro api child _ h
  unfold readRestChild
  dsimp only
  split
  · exact h
  · split
    · exact h
    · exact h

theorem readEndpoint_value (path : String) {uri : String} {e : Element}
    (h : e.attribute? "uri" = some uri) :
    ∃ source, (readEndpoint path e).value = some source ∧ source.uri = uri := by
  unfold readEndpoint
  rw [h]
  refine ⟨_, rfl, ?_⟩
  apply Noted.foldlM_induction (P := fun source : Endpoint => source.uri = uri) rfl
  intro source child _ same
  unfold readParameter
  dsimp only
  split <;> exact same

/-- Children leave the names of a route alone, and the source if there is one or if they are
nothing like it. -/
theorem readRouteChild_value (path : String) (draft : RouteDraft) (e : Element) :
    (readRouteChild path draft e).value.id = draft.id ∧
      (readRouteChild path draft e).value.errorHandler = draft.errorHandler ∧
      (e.localName ≠ "from" ∨ draft.source.isSome →
        (readRouteChild path draft e).value.source = draft.source) := by
  unfold readRouteChild
  dsimp only
  split
  · rename_i tag
    split
    · rename_i missing
      refine ⟨rfl, rfl, fun h => ?_⟩
      rcases h with other | found
      · exact absurd tag other
      · rw [Option.isNone_iff_eq_none.1 missing] at found
        contradiction
    · exact ⟨rfl, rfl, fun _ => rfl⟩
  · split
    · exact ⟨rfl, rfl, fun _ => rfl⟩
    · exact ⟨rfl, rfl, fun _ => rfl⟩
  · exact ⟨rfl, rfl, fun _ => rfl⟩

theorem readRouteChildren_value (path : String) (draft : RouteDraft) (es : List Element)
    (h : (∀ e ∈ es, e.localName ≠ "from") ∨ draft.source.isSome) :
    (es.foldlM (readRouteChild path) draft).value.id = draft.id ∧
      (es.foldlM (readRouteChild path) draft).value.errorHandler = draft.errorHandler ∧
      (es.foldlM (readRouteChild path) draft).value.source = draft.source := by
  apply Noted.foldlM_induction (P := fun d : RouteDraft =>
    d.id = draft.id ∧ d.errorHandler = draft.errorHandler ∧ d.source = draft.source)
    ⟨rfl, rfl, rfl⟩
  intro d e he ⟨sameId, sameHandler, sameSource⟩
  obtain ⟨keptId, keptHandler, keptSource⟩ := readRouteChild_value path d e
  refine ⟨keptId.trans sameId, keptHandler.trans sameHandler, (keptSource ?_).trans sameSource⟩
  rcases h with others | known
  · exact .inl (others e he)
  · exact .inr (by rwa [sameSource])

/-- A route is read as long as its first source names an endpoint. -/
theorem readRoute_value (path : String) {uri : String} {e source : Element}
    {before after : List Element} (whole : e.elements = before ++ source :: after)
    (others : ∀ f ∈ before, f.localName ≠ "from") (tag : source.localName = "from")
    (found : source.attribute? "uri" = some uri) :
    ∃ route, (readRoute path e).value = some route ∧ route.id = e.attribute? "id" ∧
      route.errorHandler = e.attribute? "errorHandlerRef" ∧ route.source.uri = uri := by
  have id : (e.attributes.entries.foldl addRouteAttribute .empty).id = e.attribute? "id" := by
    rw [foldl_field RouteDraft.id "id" (fun _ _ => rfl) _ e.attributes .empty]
    · exact Option.or_none
    · intro draft a other
      unfold addRouteAttribute
      split <;> first | rfl | contradiction
  have errorHandler : (e.attributes.entries.foldl addRouteAttribute .empty).errorHandler =
      e.attribute? "errorHandlerRef" := by
    rw [foldl_field RouteDraft.errorHandler "errorHandlerRef" (fun _ _ => rfl) _ e.attributes
      .empty]
    · exact Option.or_none
    · intro draft a other
      unfold addRouteAttribute
      split <;> first | rfl | contradiction
  obtain ⟨endpoint, read, same⟩ := readEndpoint_value (childPath path "from") found
  have sourced : ∀ d : RouteDraft, d.source = none →
      (readRouteChild path d source).value = { d with source := some endpoint } := by
    intro d missing
    unfold readRouteChild
    simp only [tag, missing, Option.isNone_none, if_true, Noted.value_bind, read]
    rfl
  obtain ⟨startId, startHandler, startSource⟩ := readRouteChildren_value path
    (e.attributes.entries.foldl addRouteAttribute .empty) before (.inl others)
  rw [source_addRouteAttributes] at startSource
  rw [readRoute, Noted.value_bind, whole, List.foldlM_append, Noted.value_bind, List.foldlM_cons,
    Noted.value_bind, sourced _ startSource]
  obtain ⟨endId, endHandler, endSource⟩ := readRouteChildren_value path
    { (before.foldlM (readRouteChild path) (e.attributes.entries.foldl addRouteAttribute
      .empty)).value with source := some endpoint } after (.inr rfl)
  rw [RouteDraft.finish, endSource]
  exact ⟨_, rfl, endId.trans (startId.trans id), endHandler.trans (startHandler.trans errorHandler),
    same⟩

end RouteNotation.Blueprint
