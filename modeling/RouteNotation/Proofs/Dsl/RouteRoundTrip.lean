import RouteNotation.Proofs.Dsl.EntityRoundTrip
import RouteNotation.Proofs.Dsl.StepRoundTrip
import RouteNotation.Proofs.Dsl.StepTrees

/-!
Routes read back from their value trees, with the children of their steps grouped.
-/

namespace RouteNotation.Dsl

open Yaml OrderedMap Uri

/-- A source that a value tree tells in full: parameters would be joined with the URI. -/
def CanonicalSource (source : Endpoint) : Prop :=
  source.uri ≠ "" ∧ source.parameters = .empty ∧
    ∀ key ∈ source.attributes.keys, Xml.isValidName key ∧ key ∉ ["uri", "parameters", "steps"]

/-- A step directly in a route. A text alone must not be taken for a shorthand. -/
def CanonicalDirectStep (step : Step) : Prop :=
  CanonicalStep step ∧ (isTextStep step = true → shorthand? step.kind = none)

/-- A route that a value tree tells in full, up to the order of groups. -/
def CanonicalRoute (route : Route) : Prop :=
  (∀ key ∈ route.attributes.keys, Xml.isValidName key ∧
    key ∉ ["id", "errorHandlerRef", "description", "from", "steps"]) ∧
  CanonicalSource route.source ∧ ∀ step ∈ route.steps, CanonicalDirectStep step

instance (source : Endpoint) : Decidable (CanonicalSource source) :=
  inferInstanceAs (Decidable (_ ∧ _ ∧ ∀ key ∈ source.attributes.keys, _ ∧ _))

instance (step : Step) : Decidable (CanonicalDirectStep step) :=
  inferInstanceAs (Decidable (_ ∧ (_ → _)))

instance (route : Route) : Decidable (CanonicalRoute route) :=
  inferInstanceAs (Decidable ((∀ key ∈ route.attributes.keys, _ ∧ _) ∧ _ ∧
    ∀ step ∈ route.steps, CanonicalDirectStep step))

/-- What is written for a step in a list. -/
def stepTree (step : Step) : Value := .ofEntry step.kind (bodyValue step)

/-- What is written for a route whose steps are written in full. -/
def routeTree (route : Route) : Value :=
  let fields := noFields.putText? "id" route.id
  let fields := fields.putText? "errorHandlerRef" route.errorHandler
  let fields := fields.putAttributes route.attributes
  let fields := fields.putText? "description" route.description
  (fields.put "from" (sourceValue route.source (route.steps.map stepTree))).toValue

theorem routeValue_eq (path : String) {route : Route} (h : CanonicalRoute route) :
    routeValue path route = pure (routeTree route) := by
  have steps : (route.steps.map id).mapM (fun step => stepValue (childPath path step.kind) step) =
      pure (route.steps.map stepTree) := by
    apply Noted.mapM_map_eq_pure
    intro step hs
    rw [id, stepValue, stepBody_eq _ (h.2.2 step hs).1]
    rfl
  rw [List.map_id] at steps
  rw [routeValue, steps]
  rfl

theorem readStepItems_stepTrees (path : String) (index : Nat) {steps : List Step}
    (h : ∀ step ∈ steps, CanonicalDirectStep step) :
    readStepItems path index (steps.map stepTree) = pure (steps.map Step.regrouped) := by
  induction steps generalizing index with
  | nil => rfl
  | cons step rest ih =>
    rw [List.forall_mem_cons] at h
    rw [List.map_cons, readStepItems, ih _ h.2, stepTree,
      readStepItem_bodyValue _ _ h.1.1 h.1.2]
    rfl

section Source
variable {source : Endpoint} {steps : List Step}

theorem readEndpointField_attribute {path key : String} {draft : EndpointDraft}
    (valid : Xml.isValidName key) (other : key ∉ ["uri", "parameters", "steps"]) (text : String) :
    readEndpointField path draft key (.string text) =
      pure { draft with endpoint := { draft.endpoint with
        attributes := draft.endpoint.attributes.insert key text } } := by
  simp only [List.mem_cons, List.not_mem_nil, or_false, not_or] at other
  unfold readEndpointField
  dsimp only
  split
  · exact absurd rfl other.1
  · exact absurd rfl other.2.1
  · exact absurd rfl other.2.2
  · rw [readAttribute_text valid, pure_bind]

theorem readEndpoint_sourceValue (path : String) (h : CanonicalSource source)
    (canonical : ∀ step ∈ steps, CanonicalDirectStep step) :
    ∃ es, sourceValue source (steps.map stepTree) = .mapping es ∧
      readEndpoint path es = pure ⟨source, steps.map Step.regrouped⟩ ∧ Settled (.mapping es) := by
  obtain ⟨uri, parameters, attributes⟩ := source
  obtain ⟨_, noParameters, keys⟩ := h
  cases noParameters
  have located : Reads (readEndpointField path) ⟨.empty, []⟩ (noFields.put "uri" (.string uri))
      ⟨⟨uri, .empty, .empty⟩, []⟩ := reads_noFields.put "uri" not_mem_keys_noFields rfl
  have extended := located.putAttributes (fun m => (⟨⟨uri, .empty, m⟩, []⟩ : EndpointDraft))
    (by
      intro key hk known
      simp only [Fields.mem_keys_put, not_mem_keys_noFields, false_or] at known
      subst known
      exact (keys _ hk).2 (by decide))
    (fun m key hk text => readEndpointField_attribute (keys key hk).1 (keys key hk).2 text)
  have whole := extended.put "steps" (v := .sequence (steps.map stepTree))
    (u := ⟨⟨uri, .empty, attributes⟩, steps.map Step.regrouped⟩)
    (by
      simp only [Fields.mem_keys_putAttributes, Fields.mem_keys_put, not_mem_keys_noFields,
        false_or]
      rintro (same | hk)
      · exact absurd same (by decide)
      · exact (keys _ hk).2 (by decide))
    (by
      have items : (Value.sequence (steps.map stepTree)).sequence? =
          some (steps.map stepTree) := rfl
      simp only [readEndpointField, readSteps, items, readStepItems_stepTrees _ 0 canonical,
        pure_bind, List.nil_append])
  refine ⟨_, rfl, whole.readFields, settled_of_quiet (.put (.putAttributes (.put .noFields
    (quiet_string _ _)) fun a _ => quiet_string _ _) (quiet_sequence fun v hv => ?_))⟩
  obtain ⟨step, hs, rfl⟩ := List.mem_map.1 hv
  exact settled_ofEntry (settled_bodyValue (canonical step hs).1)

end Source

theorem readRouteField_attribute {path key : String} {draft : RouteDraft}
    (valid : Xml.isValidName key)
    (other : key ∉ ["id", "errorHandlerRef", "description", "from", "steps"]) (text : String) :
    readRouteField path draft key (.string text) =
      pure { draft with attributes := draft.attributes.insert key text } := by
  simp only [List.mem_cons, List.not_mem_nil, or_false, not_or] at other
  unfold readRouteField
  dsimp only
  split
  · exact absurd rfl other.1
  · exact absurd rfl other.2.1
  · exact absurd rfl other.2.2.1
  · exact absurd rfl other.2.2.2.1
  · exact absurd rfl other.2.2.2.2
  · rw [readAttribute_text valid, pure_bind]

theorem readRoute_toEntries {path : String} {fields : Fields} {draft : RouteDraft}
    (h : Reads (readRouteField path) .empty fields draft) :
    readRoute path fields.toEntries = draft.finish path := by
  rw [readRoute, h.readFields, pure_bind]

theorem readRoute_routeTree (path : String) {route : Route} (h : CanonicalRoute route) :
    ∃ es, routeTree route = .mapping es ∧ readRoute path es = pure (some route.regrouped) ∧
      Settled (.mapping es) := by
  obtain ⟨id, handler, attributes, description, source, steps⟩ := route
  obtain ⟨keys, canonical, below⟩ := h
  obtain ⟨es, tree, read, settled⟩ :=
    readEndpoint_sourceValue (childPath path "from") canonical below
  have free : ∀ key ∈ ["id", "errorHandlerRef", "description", "from", "steps"],
      key ∉ attributes.keys := fun key known hk => (keys key hk).2 known
  have start : Reads (readRouteField path) .empty noFields .empty := reads_noFields
  have identified := start.putText?
    (fun id => (⟨id, none, .empty, none, none, [], []⟩ : RouteDraft)) "id" not_mem_keys_noFields
    (fun _ => rfl) id
  have handled := identified.putText?
    (fun handler => (⟨id, handler, .empty, none, none, [], []⟩ : RouteDraft)) "errorHandlerRef"
    (by simp [Fields.mem_keys_putText?, not_mem_keys_noFields]) (fun _ => rfl) handler
  have extended := handled.putAttributes
    (fun m => (⟨id, handler, m, none, none, [], []⟩ : RouteDraft))
    (by
      intro key hk known
      rcases Fields.key_of_putTwo known with rfl | rfl
      · exact free _ (by decide) hk
      · exact free _ (by decide) hk)
    (fun m key hk text => readRouteField_attribute (keys key hk).1 (keys key hk).2 text)
  have described := extended.putText?
    (fun text => (⟨id, handler, attributes, text, none, [], []⟩ : RouteDraft)) "description"
    (by simp [Fields.mem_keys_putText?, Fields.mem_keys_putAttributes, not_mem_keys_noFields, free])
    (fun _ => rfl) description
  have whole := described.put "from" (v := sourceValue source (steps.map stepTree))
    (u := ⟨id, handler, attributes, description, some source, steps.map Step.regrouped, []⟩)
    (by simp [Fields.mem_keys_putText?, Fields.mem_keys_putAttributes, not_mem_keys_noFields, free])
    (by
      have entries : (Value.mapping es).mapping? = some es := rfl
      have located : source.uri.isEmpty = false :=
        Bool.eq_false_iff.2 fun empty => canonical.1 (String.isEmpty_iff.1 empty)
      rw [tree]
      simp only [readRouteField, entries, read, pure_bind, RouteDraft.setSource, located,
        Bool.false_eq_true, if_false, List.nil_append])
  refine ⟨_, rfl, ?_, settled_of_quiet (.put (.putText? (.putAttributes (.putText? (.putText?
    .noFields (quiet_string _) _) (quiet_string _) _) fun a _ => quiet_string _ _)
    (quiet_string _) _) ?_)⟩
  · refine (readRoute_toEntries whole).trans ?_
    rw [RouteDraft.finish, List.append_nil]
    rfl
  · rw [tree]
    exact ⟨settled, fun same => absurd same (by decide)⟩

end RouteNotation.Dsl
