import RouteNotation.Proofs.Dsl.StepValues

/-!
What becomes of the texts in the mappings of a REST configuration, of a REST service and of a route
when nothing is noted: the entity holds them, or they are passed over. Main statements:
`values_readRestConfiguration`, `values_readRestApi` and `values_readRoute`.
-/

namespace RouteNotation.Dsl

open Yaml

section Lists
variable {v : Value} {maps : List (List Entry)}

/-- The texts in the mappings of a section are those of its value. -/
theorem clear_mappings? (clear : v.Clear) (found : mappings? v = some maps) :
    (∀ es ∈ maps, (Value.mapping es).Clear) ∧ v.texts = maps.flatMap entriesTexts := by
  cases v with
  | mapping es =>
    cases found
    exact ⟨fun _ he => List.mem_singleton.1 he ▸ clear, (List.append_nil _).symm⟩
  | sequence items =>
    have all : items.mapM Value.mapping? = some maps := found
    have below := clear.item
    clear found clear
    rw [Value.texts]
    induction items generalizing maps with
    | nil =>
      cases all
      exact ⟨nofun, rfl⟩
    | cons item rest ih =>
      obtain ⟨first, others⟩ := List.forall_mem_cons.1 below
      simp only [List.mapM_cons, Option.bind_eq_bind, Option.bind_eq_some_iff,
        Option.pure_def, Option.some.injEq] at all
      obtain ⟨es, mapping, more, later, rfl⟩ := all
      obtain rfl := first.eq_mapping mapping
      obtain ⟨clear, same⟩ := ih later others
      refine ⟨List.forall_mem_cons.2 ⟨first, clear⟩, ?_⟩
      rw [itemsTexts, same, List.flatMap_cons, Value.texts]
  | _ => cases found

/-- What is accounted for in each mapping of a list is accounted for in the list. -/
theorem values_mapM {α : Type} {read : List Entry → Noted α} {values : α → List String}
    {unread : List Entry → List String}
    (each : ∀ {es a}, (Value.mapping es).Clear → read es = pure a →
      ∀ x ∈ entriesTexts es, x ∈ values a ∨ x ∈ unread es)
    (clear : v.Clear) (found : mappings? v = some maps) {as : List α}
    (run : maps.mapM read = pure as) :
    ∀ x ∈ v.texts, x ∈ as.flatMap values ∨ x ∈ mappingsUnread unread v := by
  obtain ⟨below, texts⟩ := clear_mappings? clear found
  intro x hx
  rw [texts, List.mem_flatMap] at hx
  obtain ⟨es, he, hx⟩ := hx
  obtain ⟨a, ha, made⟩ := Noted.mem_of_mapM_eq_pure run es he
  rw [mappingsUnread, found, Option.getD_some]
  exact (each (below es he) made x hx).imp (fun held => List.mem_flatMap.2 ⟨a, ha, held⟩)
    fun unread => List.mem_flatMap.2 ⟨es, he, unread⟩

end Lists

section Rest
variable {path key x : String}

/-- Whether a REST configuration holds a text under a key. -/
def ConfigurationHolds (key x : String) (c : RestConfiguration) : Prop :=
  c.attributes.get? key = some x ∨
    ∃ list, c.propertyLists.get? key = some list ∧ x ∈ list.flatMap OrderedMap.values

theorem accounts_readConfigurationField (path : String) : Accounts (fun _ v => v.Clear)
    (readConfigurationField path) ConfigurationHolds configurationFieldUnread where
  takes {c t key v} read clear x hx := by
    unfold readConfigurationField at read
    dsimp only at read
    split at read
    · obtain ⟨held, rfl⟩ := Noted.bind_pure_eq_pure.1 read
      exact .inl (.inl (holds_readAttribute held hx))
    · split at read
      · exact absurd read Noted.unknownShape_bind_ne_pure
      · split at read
        · rename_i maps found
          obtain ⟨list, rfl⟩ := Noted.bind_pure_eq_pure.1 read
          refine (values_mapM values_readAttributes clear found list x hx).imp_left fun held => ?_
          exact .inr ⟨_, (OrderedMap.get?_insert ..).trans (if_pos rfl), held⟩
        · exact absurd read Noted.unknownShape_bind_ne_pure
  keeps c key v j x other held := by
    unfold readConfigurationField
    dsimp only
    split
    · exact held.imp_left fun there => (keeps_readAttribute path c.attributes v other).trans there
    · split
      · exact held
      · split
        · exact held.imp_right fun ⟨list, there, mem⟩ =>
            ⟨list, (OrderedMap.get?_insert ..).trans ((if_neg other).trans there), mem⟩
        · exact held

theorem values_readRestConfiguration {es : List Entry} {c : RestConfiguration}
    (clear : (Value.mapping es).Clear) (run : readRestConfiguration path es = pure c) :
    ∀ x ∈ entriesTexts es, x ∈ c.values ∨ x ∈ fieldsUnread configurationFieldUnread es := by
  have all := (accounts_readConfigurationField path).readFields run
    fun e he _ _ => clear.entry e he
  refine fun x hx => (all x hx).imp_left fun ⟨key, held⟩ => List.mem_append.2 ?_
  refine held.imp OrderedMap.mem_values_of_get? fun ⟨list, there, mem⟩ => ?_
  obtain ⟨m, hm, mem⟩ := List.mem_flatMap.1 mem
  exact List.mem_flatMap.2
    ⟨m, List.mem_flatten.2 ⟨list, OrderedMap.mem_values_of_get? there, hm⟩, mem⟩

/-- Whether an operation holds a text where a key of its mapping puts it. -/
def OperationHolds (key x : String) (o : Operation) : Prop :=
  match key with
  | "description" => o.description = some x
  | "to" => o.target = some x
  | _ => o.attributes.get? key = some x

theorem target_or_unread {v : Value} {x : String} (clear : v.Clear) (found : (target? v).isSome)
    (hx : x ∈ v.texts) : target? v = some x ∨ x ∈ targetUnread v := by
  unfold target? at found ⊢
  cases scalar : v.scalarText? with
  | some text =>
    rw [texts_of_scalarText? scalar, List.mem_singleton] at hx
    exact .inl (congrArg some hx.symm)
  | none =>
    rw [scalar, Option.none_or] at found
    obtain ⟨uri, there⟩ := Option.isSome_iff_exists.1 found
    obtain ⟨es, mapping, looked⟩ := Option.bind_eq_some_iff.1 there
    obtain rfl := clear.eq_mapping mapping
    rw [Value.texts, entriesTexts_eq, List.mem_flatMap] at hx
    obtain ⟨e, he, hx⟩ := hx
    rw [Option.none_or, there]
    by_cases same : uri = x
    · exact .inl (congrArg some same)
    · refine .inr (mem_fieldsUnread he hx fun key text => ?_)
      split
      · -- The one entry that is read under this key is the one that is looked up.
        rename_i here
        rw [clear.scalarUnder? he (here ▸ text) (by decide) (by decide)] at looked
        rw [texts_of_scalarText? looked, List.mem_singleton] at hx
        exact absurd hx.symm same
      · exact hx

theorem accounts_readOperationField (path : String) : Accounts (fun _ v => v.Clear)
    (readOperationField path) OperationHolds operationFieldUnread where
  takes {o t key v} read clear x hx := by
    unfold readOperationField at read
    split at read
    · obtain rfl := Noted.eq_of_pure read
      exact text_or_unread hx
    · split at read
      · exact absurd read Noted.unknownShape_bind_ne_pure
      · rename_i found
        obtain rfl := Noted.eq_of_pure read
        exact target_or_unread clear (Option.isSome_iff_ne_none.2 (by simpa using found)) hx
    · obtain ⟨held, rfl⟩ := Noted.bind_pure_eq_pure.1 read
      have there := holds_readAttribute held hx
      left
      unfold OperationHolds
      split <;> first | contradiction | exact there
  keeps o key v j x other held := by
    unfold readOperationField
    split
    case h_2 => split <;> unfold OperationHolds at held ⊢ <;> split <;> simp_all
    all_goals
      unfold OperationHolds at held ⊢
      split <;> simp_all [keeps_readAttribute]

theorem values_readOperation {es : List Entry} {o : Operation} (clear : (Value.mapping es).Clear)
    (run : readOperation path es = pure o) :
    ∀ x ∈ entriesTexts es, x ∈ o.values ∨ x ∈ fieldsUnread operationFieldUnread es := by
  have all := (accounts_readOperationField path).readFields run
    fun e he _ _ => clear.entry e he
  refine fun x hx => (all x hx).imp_left fun ⟨key, held⟩ => ?_
  unfold OperationHolds at held
  unfold Operation.values
  split at held
  · simp [held]
  · simp [held]
  · simp [OrderedMap.mem_values_of_get? held]

/-- Whether a REST service holds a text where a key of its mapping puts it. -/
def RestHolds (key x : String) (a : RestApi) : Prop :=
  match key with
  | "id" => a.id = some x
  | "path" => a.path = some x
  | "description" => a.description = some x
  | _ => a.attributes.get? key = some x ∨ x ∈ operationsValues a.operations

theorem mem_operationsValues_append {operations : OrderedMap HttpVerb (List Operation)}
    {verb : HttpVerb} {more : List Operation}
    (h : x ∈ operationsValues operations ∨ x ∈ more.flatMap Operation.values) :
    x ∈ operationsValues (operations.append verb more) := by
  refine List.mem_flatMap.2 ?_
  rcases h with before | added
  · obtain ⟨o, ho, mem⟩ := List.mem_flatMap.1 before
    exact ⟨o, OrderedMap.mem_flatten_append (.inl ho), mem⟩
  · obtain ⟨o, ho, mem⟩ := List.mem_flatMap.1 added
    exact ⟨o, OrderedMap.mem_flatten_append (.inr ho), mem⟩

theorem accounts_readRestField (path : String) : Accounts (fun _ v => v.Clear)
    (readRestField path) RestHolds restFieldUnread where
  takes {a t key v} read clear x hx := by
    unfold readRestField at read
    split at read
    · obtain rfl := Noted.eq_of_pure read
      exact text_or_unread hx
    · obtain rfl := Noted.eq_of_pure read
      exact text_or_unread hx
    · obtain rfl := Noted.eq_of_pure read
      exact text_or_unread hx
    · have holds : RestHolds key x t ↔ t.attributes.get? key = some x ∨
          x ∈ operationsValues t.operations := by
        unfold RestHolds
        split <;> first | contradiction | rfl
      have unread : restFieldUnread key v =
          mappingsUnread (fieldsUnread operationFieldUnread) v := by
        unfold restFieldUnread
        split <;> first | contradiction | rfl
      rw [holds, unread]
      split at read
      · dsimp only at read
        split at read
        · rename_i maps found
          obtain ⟨list, rfl⟩ := Noted.bind_pure_eq_pure.1 read
          refine (values_mapM values_readOperation clear found list x hx).imp_left fun held => ?_
          exact .inr (mem_operationsValues_append (.inr held))
        · exact absurd read Noted.unknownShape_bind_ne_pure
      · obtain ⟨held, rfl⟩ := Noted.bind_pure_eq_pure.1 read
        exact .inl (.inl (holds_readAttribute held hx))
  keeps a key v j x other held := by
    unfold readRestField
    split
    case h_4 =>
      split
      · dsimp only
        split
        · unfold RestHolds at held ⊢
          split <;> simp_all
          exact held.imp_right fun mem => mem_operationsValues_append (.inl mem)
        · exact held
      · unfold RestHolds at held ⊢
        split <;> simp_all [keeps_readAttribute]
    all_goals
      unfold RestHolds at held ⊢
      split <;> simp_all

theorem values_readRestApi {es : List Entry} {a : RestApi} (clear : (Value.mapping es).Clear)
    (run : readRestApi path es = pure a) :
    ∀ x ∈ entriesTexts es, x ∈ a.values ∨ x ∈ fieldsUnread restFieldUnread es := by
  have all := (accounts_readRestField path).readFields run
    fun e he _ _ => clear.entry e he
  refine fun x hx => (all x hx).imp_left fun ⟨key, held⟩ => ?_
  unfold RestHolds at held
  unfold RestApi.values
  split at held
  · simp [held]
  · simp [held]
  · simp [held]
  · simp only [List.mem_append]
    rcases held with under | lower
    · exact .inl (.inl (.inr (OrderedMap.mem_values_of_get? under)))
    · exact .inr lower

end Rest

section Routes
variable {path key x : String}

/-- Whether an endpoint, or the steps in it, hold a text where a key of its mapping puts it. -/
def EndpointHolds (key x : String) (draft : EndpointDraft) : Prop :=
  match key with
  | "uri" => draft.endpoint.uri = x ∨ draft.endpoint.uri = ""
  | "parameters" => x ∈ draft.endpoint.parameters.values
  | "steps" => x ∈ draft.steps.flatMap Step.values
  | _ => draft.endpoint.attributes.get? key = some x

theorem accounts_readEndpointField (path : String) : Accounts (fun _ v => v.Clear)
    (readEndpointField path) EndpointHolds endpointFieldUnread where
  takes {draft t key v} read clear x hx := by
    unfold readEndpointField at read
    dsimp only at read
    split at read
    · obtain rfl := Noted.eq_of_pure read
      refine .inl ?_
      cases scalar : v.scalarText? with
      | none => exact .inr rfl
      | some text =>
        rw [texts_of_scalarText? scalar, List.mem_singleton] at hx
        exact .inl hx.symm
    · split at read
      · rename_i es mapping
        obtain rfl := clear.eq_mapping mapping
        obtain ⟨parameters, rfl⟩ := Noted.bind_pure_eq_pure.1 read
        exact values_readAttributes clear parameters x hx
      · exact absurd read Noted.unknownShape_bind_ne_pure
    · obtain ⟨steps, rfl⟩ := Noted.bind_pure_eq_pure.1 read
      refine (values_readSteps clear steps x hx).imp_left fun held => ?_
      change x ∈ (draft.steps ++ _).flatMap Step.values
      rw [List.flatMap_append]
      exact List.mem_append_right _ held
    · obtain ⟨held, rfl⟩ := Noted.bind_pure_eq_pure.1 read
      have there := holds_readAttribute held hx
      left
      unfold EndpointHolds
      split <;> first | contradiction | exact there
  keeps draft key v j x other held := by
    unfold readEndpointField
    dsimp only
    split
    case h_2 =>
      split
      · unfold EndpointHolds at held ⊢
        split <;> simp_all
      · exact held
    all_goals
      unfold EndpointHolds at held ⊢
      split <;> simp_all [keeps_readAttribute]

theorem values_readEndpoint {es : List Entry} {draft : EndpointDraft}
    (clear : (Value.mapping es).Clear) (run : readEndpoint path es = pure draft)
    (located : draft.endpoint.uri ≠ "") :
    ∀ x ∈ entriesTexts es,
      (x ∈ draft.endpoint.values ∨ x ∈ draft.steps.flatMap Step.values) ∨
        x ∈ fieldsUnread endpointFieldUnread es := by
  have all := (accounts_readEndpointField path).readFields run
    fun e he _ _ => clear.entry e he
  refine fun x hx => (all x hx).imp_left fun ⟨key, held⟩ => ?_
  unfold EndpointHolds at held
  unfold Endpoint.values
  split at held
  · rcases held with same | empty
    · exact .inl (same ▸ List.mem_cons_self)
    · exact absurd empty located
  · exact .inl (List.mem_cons_of_mem _ (List.mem_append_left _ held))
  · exact .inr held
  · exact .inl (List.mem_cons_of_mem _
      (List.mem_append_right _ (OrderedMap.mem_values_of_get? held)))

/-- Whether a route holds a text where a key of its mapping puts it, provided that it has a
source. -/
def RouteHolds (key x : String) (draft : RouteDraft) : Prop :=
  match key with
  | "id" => draft.id = some x
  | "errorHandlerRef" => draft.errorHandler = some x
  | "description" => draft.description = some x
  | "from" => ∀ source ∈ draft.source, x ∈ source.values ∨ x ∈ draft.sourceSteps.flatMap Step.values
  | "steps" => x ∈ draft.steps.flatMap Step.values
  | _ => draft.attributes.get? key = some x

theorem accounts_readRouteField (path : String) : Accounts (fun _ v => v.Clear)
    (readRouteField path) RouteHolds routeFieldUnread where
  takes {draft t key v} read clear x hx := by
    unfold readRouteField at read
    dsimp only at read
    split at read
    · obtain rfl := Noted.eq_of_pure read
      exact text_or_unread hx
    · obtain rfl := Noted.eq_of_pure read
      exact text_or_unread hx
    · obtain rfl := Noted.eq_of_pure read
      exact text_or_unread hx
    · split at read
      · rename_i es mapping
        obtain rfl := clear.eq_mapping mapping
        obtain ⟨endpoint, rfl⟩ := Noted.bind_pure_eq_pure.1 read
        by_cases empty : (readEndpoint (childPath path "from") es).value.endpoint.uri = ""
        · refine .inl fun source there => ?_
          simp [RouteDraft.setSource, empty] at there
        · refine (values_readEndpoint clear endpoint empty x hx).imp_left ?_
          intro held source there
          simp only [RouteDraft.setSource, String.isEmpty_iff, empty, if_false, Option.mem_def,
            Option.some.injEq] at there
          subst there
          rw [RouteDraft.setSource, List.flatMap_append]
          exact held.imp_right (List.mem_append_right _)
      · exact absurd read Noted.unknownShape_bind_ne_pure
    · obtain ⟨steps, rfl⟩ := Noted.bind_pure_eq_pure.1 read
      exact values_readSteps clear steps x hx
    · obtain ⟨held, rfl⟩ := Noted.bind_pure_eq_pure.1 read
      have there := holds_readAttribute held hx
      left
      unfold RouteHolds
      split <;> first | contradiction | exact there
  keeps draft key v j x other held := by
    unfold readRouteField
    dsimp only
    split
    case h_4 =>
      split
      · unfold RouteHolds at held ⊢
        split <;> simp_all [RouteDraft.setSource]
      · exact held
    all_goals
      unfold RouteHolds at held ⊢
      split <;> simp_all [keeps_readAttribute]

theorem values_readRoute {es : List Entry} {r : Option Route} (clear : (Value.mapping es).Clear)
    (run : readRoute path es = pure r) :
    ∀ x ∈ entriesTexts es, x ∈ r.toList.flatMap Route.values ∨
      x ∈ fieldsUnread routeFieldUnread es := by
  obtain ⟨read, last⟩ := Noted.bind_eq_pure.1 run
  have all := (accounts_readRouteField path).readFields read
    fun e he _ _ => clear.entry e he
  unfold RouteDraft.finish at last
  split at last
  · rename_i source there
    obtain rfl := Noted.eq_of_pure last
    refine fun x hx => (all x hx).imp_left fun ⟨key, held⟩ => ?_
    rw [Option.toList_some, List.flatMap_singleton]
    unfold RouteHolds at held
    unfold Route.values
    simp only [List.mem_append, List.flatMap_append]
    split at held
    · simp [held]
    · simp [held]
    · simp [held]
    · rcases held source there with here | steps
      · exact .inl (.inr here)
      · exact .inr (.inl steps)
    · exact .inr (.inr held)
    · simp [OrderedMap.mem_values_of_get? held]
  · exact absurd last Noted.skippedWithout_ne_pure

end Routes
end RouteNotation.Dsl
