import RouteNotation.Proofs.Dsl.DocumentRoundTrip
import RouteNotation.Proofs.Route.RejoinedTree
import Mathlib.Tactic.Choose

/-!
Entities that are found again in the trees that they are written as, whatever their attributes are
called and whether URIs are taken apart in between or not.
-/

namespace RouteNotation.Dsl

open Yaml OrderedMap Uri

section Reading
variable {es : List Entry}

/-- What the field under `key` brings about, and no other field undoes, is there in the end. -/
theorem readFields_established {σ : Type} {read : σ → String → Value → Noted σ} {P : σ → Prop}
    {Q : Value → Prop} {key : String} (sets : ∀ s v, Q v → P (read s key v).value)
    (keeps : ∀ s k v, k ≠ key → P s → P (read s k v).value) (named : Named es)
    (each : ∀ v, (Value.string key, v) ∈ es → Q v) {s : σ}
    (start : P s ∨ ∃ v, (Value.string key, v) ∈ es) : P (readFields read s es).value := by
  induction es generalizing s with
  | nil => simpa [readFields] using start
  | cons e rest ih =>
    obtain ⟨k, v⟩ := e
    obtain ⟨⟨name, same⟩, others⟩ := List.forall_mem_cons.1 named
    obtain rfl : k = .string name := same
    have text : (Value.string name).scalarText? = some name := rfl
    have first : readFields read s ((.string name, v) :: rest) =
        read s name v >>= fun s => readFields read s rest := by
      simp only [readFields, List.foldlM_cons, text]
    rw [first, Noted.value_bind]
    refine ih others (fun w hw => each w (List.mem_cons_of_mem _ hw)) ?_
    by_cases here : name = key
    · subst here
      exact .inl (sets s v (each v List.mem_cons_self))
    · rcases start with set | ⟨w, hw⟩
      · exact .inl (keeps s name v here set)
      · rcases List.mem_cons.1 hw with first | later
        · exact absurd (Value.string.inj (Prod.mk.inj first).1).symm here
        · exact .inr ⟨w, later⟩

theorem readEndpoint_of_located (path : String) (named : Named es) (located : Located es) :
    (readEndpoint path es).value.endpoint.uri ≠ "" := by
  refine readFields_established (P := fun draft : EndpointDraft => draft.endpoint.uri ≠ "") ?_ ?_
    named located.2 (.inr located.1)
  · rintro draft v ⟨s, nonempty, rfl⟩
    exact nonempty
  · intro draft k v other located
    unfold readEndpointField
    dsimp only
    split
    · exact absurd rfl other
    · split
      · exact located
      · exact located
    · exact located
    · exact located

/-- A mapping that a route can start from. -/
def Sourced (v : Value) : Prop := ∃ es, v = .mapping es ∧ Named es ∧ Located es

theorem readRoute_of_sourced (path : String) (named : Named es)
    (there : ∃ v, (Value.string "from", v) ∈ es)
    (each : ∀ v, (Value.string "from", v) ∈ es → Sourced v) :
    ∃ route, (readRoute path es).value = some route := by
  have sourced : (readFields (readRouteField path) .empty es).value.source.isSome := by
    refine readFields_established (P := fun draft : RouteDraft => draft.source.isSome) ?_ ?_ named
      each (.inr there)
    · rintro draft v ⟨fs, rfl, keys, located⟩
      have found := readEndpoint_of_located (childPath path "from") keys located
      have entries : (Value.mapping fs).mapping? = some fs := rfl
      simp [readRouteField, entries, RouteDraft.setSource, found]
    · intro draft k v other sourced
      unfold readRouteField
      dsimp only
      split
      · exact sourced
      · exact sourced
      · exact sourced
      · exact absurd rfl other
      · exact sourced
      · exact sourced
  obtain ⟨source, found⟩ := Option.isSome_iff_exists.1 sourced
  rw [readRoute, Noted.value_bind, RouteDraft.finish, found]
  exact ⟨_, rfl⟩

theorem scalarUnder?_isSome {key : String} (there : ∃ v, (Value.string key, v) ∈ es)
    (each : ∀ v, (Value.string key, v) ∈ es → v.isScalar) :
    ∃ text, scalarUnder? key es = some text := by
  obtain ⟨v, hv⟩ := there
  obtain ⟨w, found⟩ := exists_lookup?_of_mem hv
  obtain ⟨text, scalar⟩ := Option.isSome_iff_exists.1 (each w (mem_of_lookup? found))
  exact ⟨text, by rw [scalarUnder?, found, Option.bind_some, scalar]⟩

theorem length_readBeanItems (path : String) (index : Nat) {items : List Value}
    (h : ∀ v ∈ items, ∃ es name, v = .mapping es ∧ scalarUnder? "name" es = some name) :
    (readBeanItems path index items).value.length = items.length := by
  induction items generalizing index with
  | nil => rfl
  | cons v rest ih =>
    obtain ⟨⟨es, name, rfl, found⟩, others⟩ := List.forall_mem_cons.1 h
    have entries : (Value.mapping es).mapping? = some es := rfl
    simp [readBeanItems, readBeanItem, entries, readBean, found, ih _ others]

end Reading

section Written
variable {fields : Fields} {key : String} {v : Value}

theorem named_toEntries (fields : Fields) : Named fields.toEntries := by
  intro e he
  obtain ⟨f, _, rfl⟩ := List.mem_map.1 he
  exact ⟨f.1, rfl⟩

theorem get?_putAttributes {attributes : Attributes} (h : key ∉ attributes.keys) :
    (fields.putAttributes attributes).get? key = fields.get? key := by
  unfold Fields.putAttributes OrderedMap.keys at *
  generalize attributes.entries = es at h
  induction es generalizing fields with
  | nil => rfl
  | cons a as ih =>
    rw [List.map_cons, List.mem_cons, not_or] at h
    rw [List.foldl_cons, ih h.2, Fields.putText, get?_put, if_neg h.1]

theorem sourced_sourceValue {source : Endpoint} (nonempty : source.uri ≠ "")
    (free : "uri" ∉ source.attributes.keys) (steps : List Value) :
    Sourced (sourceValue source steps) := by
  refine ⟨_, rfl, named_toEntries _, ?_⟩
  have found (w : Value) : (Value.string uriKey, w) ∈
      ((putUnless source.parameters.isEmpty (noFields.put "uri" (.string source.uri)) "parameters"
        (attributesValue source.parameters)).putAttributes source.attributes
          |>.put "steps" (.sequence steps)).toEntries ↔ w = .string source.uri := by
    have stays : (putUnless source.parameters.isEmpty (noFields.put "uri" (.string source.uri))
        "parameters" (attributesValue source.parameters)).get? "uri" =
          some (.string source.uri) := by
      unfold putUnless
      split
      · rfl
      · rw [get?_put, if_neg (by decide)]
        rfl
    rw [mem_toEntries, uriKey, get?_put, if_neg (by decide), get?_putAttributes free, stays,
      Option.some.injEq]
    exact eq_comm
  exact ⟨⟨_, (found _).2 rfl⟩, fun w hw => ⟨_, nonempty, (found w).1 hw⟩⟩

theorem sourced_rejoin {unpack : Bool} (h : Sourced v) : Sourced (rejoin unpack v) := by
  obtain ⟨es, rfl, named, located⟩ := h
  exact ⟨_, rejoin_mapping unpack es, named_rejoinEntries named, located_rejoinEntries located⟩

/-- A field that is always a text stays one. -/
theorem scalarUnder?_rejoin {unpack : Bool} (notUri : key ≠ uriKey)
    (notParameters : key ≠ parametersKey) (known : key ∈ fields.keys)
    (texts : fields.All fun k v => k = key → ∃ s, v = .string s) :
    ∃ text, scalarUnder? key (rejoinEntries unpack fields.toEntries) = some text := by
  obtain ⟨w, found⟩ := Option.isSome_iff_exists.1 (get?_isSome known)
  refine scalarUnder?_isSome
    ⟨_, (mem_rejoinEntries notUri notParameters).2 ⟨w, mem_toEntries.2 found, rfl⟩⟩ ?_
  intro v hv
  obtain ⟨w, hw, rfl⟩ := (mem_rejoinEntries notUri notParameters).1 hv
  obtain ⟨s, rfl⟩ := texts _ (mem_entries_of_get? (mem_toEntries.1 hw)) rfl
  rw [rejoin_string]
  rfl

end Written

section Entities
variable (unpack : Bool)

theorem rejoin_beanValue (bean : Bean) : ∃ es name,
    rejoin unpack (beanValue bean) = .mapping es ∧ scalarUnder? "name" es = some name := by
  obtain ⟨name, type, factoryBean, factoryMethod, arguments, properties, extra⟩ := bean
  have found : ∃ text, scalarUnder? "name" (rejoinEntries unpack
      (putUnless properties.isEmpty (putUnless arguments.isEmpty
        (((((noFields.put "name" (.string name)).putText? "type" type).putText? "factoryBean"
          factoryBean).putText? "factoryMethod" factoryMethod).putAttributes extra) "constructors"
        (argumentsValue arguments)) "properties" (propertiesValue properties)).toEntries) =
          some text := by
    apply scalarUnder?_rejoin (by decide) (by decide)
    · simp only [Fields.mem_keys_putUnless, Fields.mem_keys_putAttributes,
        Fields.mem_keys_putText?, Fields.mem_keys_put, or_true, true_or]
    · refine .putUnless (.putUnless (.putAttributes (.putText? (.putText? (.putText?
        (.put .noFields ?_) ?_ _) ?_ _) ?_ _) ?_) ?_) ?_
      · exact fun _ => ⟨_, rfl⟩
      · exact fun text _ => ⟨text, rfl⟩
      · exact fun text _ => ⟨text, rfl⟩
      · exact fun text _ => ⟨text, rfl⟩
      · exact fun a _ _ => ⟨a.2, rfl⟩
      · exact fun _ same => absurd same (by decide)
      · exact fun _ same => absurd same (by decide)
  obtain ⟨text, scalar⟩ := found
  exact ⟨_, text, rejoin_mapping unpack _, scalar⟩

theorem rejoin_referenceValue (reference : Reference) : ∃ es id interface,
    rejoin unpack (referenceValue reference) = .mapping es ∧ scalarUnder? "id" es = some id ∧
      scalarUnder? "interface" es = some interface := by
  have all {key : String} (known : key = "id" ∨ key = "interface") :
      ∃ text, scalarUnder? key (rejoinEntries unpack
        (((noFields.put "id" (.string reference.id)).put "interface"
          (.string reference.interface)).putText? "filter" reference.filter).toEntries) =
            some text := by
    apply scalarUnder?_rejoin
    · rcases known with rfl | rfl <;> decide
    · rcases known with rfl | rfl <;> decide
    · simp only [Fields.mem_keys_putText?, Fields.mem_keys_put]
      rcases known with rfl | rfl
      · exact .inl (.inl (.inr rfl))
      · exact .inl (.inr rfl)
    · exact .putText? (.put (.put .noFields fun _ => ⟨_, rfl⟩) fun _ => ⟨_, rfl⟩)
        (fun text _ => ⟨text, rfl⟩) _
  obtain ⟨id, first⟩ := all (.inl rfl)
  obtain ⟨interface, second⟩ := all (.inr rfl)
  exact ⟨_, id, interface, rejoin_mapping unpack _, first, second⟩

theorem rejoin_routeValue (path : String) {route : Route} (nonempty : route.source.uri ≠ "")
    (free : "uri" ∉ route.source.attributes.keys) : ∃ es,
    rejoin unpack (routeValue path route).value = .mapping es ∧ Named es ∧
      (∃ v, (Value.string "from", v) ∈ es) ∧
      ∀ v, (Value.string "from", v) ∈ es → Sourced v := by
  obtain ⟨id, handler, attributes, description, source, steps⟩ := route
  let fields := (((noFields.putText? "id" id).putText? "errorHandlerRef"
    handler).putAttributes attributes).putText? "description" description
  let below := (steps.mapM fun step => stepValue (childPath path step.kind) step).value
  refine ⟨_, rejoin_mapping unpack (fields.put "from" (sourceValue source below)).toEntries,
    named_rejoinEntries (named_toEntries _), ?_⟩
  have origin (v : Value) : (Value.string "from", v) ∈
      (fields.put "from" (sourceValue source below)).toEntries ↔
        v = sourceValue source below := by
    rw [mem_toEntries, get?_put, if_pos rfl, Option.some.injEq]
    exact eq_comm
  have notUri : "from" ≠ uriKey := by decide
  have notParameters : "from" ≠ parametersKey := by decide
  constructor
  · exact ⟨_, (mem_rejoinEntries notUri notParameters).2 ⟨_, (origin _).2 rfl, rfl⟩⟩
  · intro v hv
    obtain ⟨w, hw, rfl⟩ := (mem_rejoinEntries notUri notParameters).1 hv
    rw [(origin w).1 hw]
    exact sourced_rejoin (sourced_sourceValue nonempty free below)

end Entities

section Sections
variable (unpack : Bool)

/-- Items that each add one value to a list of the document. -/
theorem readItems_value {β : Type} (add : Document → List β → Document) {items : List Value}
    (none : ∀ d, add d [] = d) (more : ∀ d b bs, add (add d [b]) bs = add d (b :: bs))
    (h : ∀ path d, ∀ v ∈ items, ∃ b, (readItem path d v).value = add d [b]) (index : Nat)
    (d : Document) :
    ∃ bs : List β, bs.length = items.length ∧ (readItems index d items).value = add d bs := by
  induction items generalizing index d with
  | nil => exact ⟨[], rfl, (none d).symm⟩
  | cons v rest ih =>
    obtain ⟨b, first⟩ := h s!"[{index}]" d v List.mem_cons_self
    obtain ⟨bs, count, later⟩ := ih (fun path d w hw => h path d w (List.mem_cons_of_mem _ hw))
      (index + 1) (add d [b])
    refine ⟨b :: bs, congrArg (· + 1) count, ?_⟩
    rw [readItems, Noted.value_bind, first, later, more]

theorem readItem_rejoin (path : String) (d : Document) {key : String} (notUri : key ≠ uriKey)
    (v : Value) : readItem path d (rejoin unpack (.ofEntry key v)) =
      readSection (childPath path key) d key (rejoin unpack v) := by
  rw [rejoin_ofEntry unpack notUri, readItem_ofEntry]

theorem readItems_beans (beans : List Bean) (index : Nat) (d : Document) :
    ∃ bs : List Bean, bs.length = beans.length ∧
      (readItems index d ((beanItems beans).map (rejoin unpack))).value =
        { d with beans := d.beans ++ bs } := by
  unfold beanItems
  split
  · rename_i none
    rw [List.isEmpty_iff.1 none]
    exact ⟨[], rfl, by simp [readItems]⟩
  · have each : ∀ v ∈ (beans.map beanValue).map (rejoin unpack),
        ∃ es name, v = .mapping es ∧ scalarUnder? "name" es = some name := by
      rw [List.map_map]
      intro v hv
      obtain ⟨bean, _, rfl⟩ := List.mem_map.1 hv
      exact rejoin_beanValue unpack bean
    have items : (rejoin unpack (.sequence (beans.map beanValue))).sequence? =
        some ((beans.map beanValue).map (rejoin unpack)) := by
      rw [rejoin_sequence]
      rfl
    refine ⟨_, (length_readBeanItems (childPath s!"[{index}]" "beans") 0 each).trans (by simp), ?_⟩
    rw [List.map_singleton, readItems, readItem_rejoin unpack _ _ (by decide)]
    simp only [readSection, readBeans, items, readItems, Noted.value_bind, Noted.value_pure]

theorem readItems_references (references : List Reference) (index : Nat) (d : Document) :
    ∃ rs : List Reference, rs.length = references.length ∧
      (readItems index d ((references.map fun r =>
        Value.ofEntry "reference" (referenceValue r)).map (rejoin unpack))).value =
          { d with references := d.references ++ rs } := by
  have one : ∀ path d, ∀ v ∈ (references.map fun r =>
      Value.ofEntry "reference" (referenceValue r)).map (rejoin unpack),
      ∃ r : Reference, (readItem path d v).value =
        { d with references := d.references ++ [r] } := by
    intro path d v hv
    rw [List.map_map] at hv
    obtain ⟨reference, _, rfl⟩ := List.mem_map.1 hv
    obtain ⟨es, id, interface, tree, first, second⟩ := rejoin_referenceValue unpack reference
    refine ⟨⟨id, interface, scalarUnder? "filter" es⟩, ?_⟩
    rw [Function.comp_apply, readItem_rejoin unpack _ _ (by decide), tree]
    simp [readSection, readEach, addReference, readReference, first, second]
  obtain ⟨rs, count, read⟩ := readItems_value
    (fun d rs => { d with references := d.references ++ rs }) (by simp) (by simp) one index d
  exact ⟨rs, by simpa using count, read⟩

theorem readItems_apis (apis : List RestApi) (index : Nat) (d : Document) :
    ∃ as : List RestApi, as.length = apis.length ∧
      (readItems index d ((apis.map fun a =>
        Value.ofEntry "rest" (restApiValue a)).map (rejoin unpack))).value =
          { d with restApis := d.restApis ++ as } := by
  have one : ∀ path d, ∀ v ∈ (apis.map fun a =>
      Value.ofEntry "rest" (restApiValue a)).map (rejoin unpack),
      ∃ a : RestApi, (readItem path d v).value = { d with restApis := d.restApis ++ [a] } := by
    intro path d v hv
    rw [List.map_map] at hv
    obtain ⟨api, _, rfl⟩ := List.mem_map.1 hv
    rw [Function.comp_apply, readItem_rejoin unpack _ _ (by decide), restApiValue,
      Fields.toValue_eq, rejoin_mapping]
    exact ⟨_, rfl⟩
  obtain ⟨as, count, read⟩ := readItems_value
    (fun d as => { d with restApis := d.restApis ++ as }) (by simp) (by simp) one index d
  exact ⟨as, by simpa using count, read⟩

theorem readItems_configuration (c : Option RestConfiguration) (index : Nat) {d : Document}
    (first : d.restConfiguration = none) :
    ∃ e : Option RestConfiguration, e.isSome = c.isSome ∧
      (readItems index d ((c.toList.map fun c =>
        Value.ofEntry "restConfiguration" (restConfigurationValue c)).map
          (rejoin unpack))).value = { d with restConfiguration := e } := by
  cases c with
  | none =>
    have same : { d with restConfiguration := none } = d := by rw [← first]
    exact ⟨none, rfl, same.symm⟩
  | some c =>
    rw [Option.toList_some, List.map_singleton, List.map_singleton, readItems,
      readItem_rejoin unpack _ _ (by decide), restConfigurationValue, Fields.toValue_eq,
      rejoin_mapping]
    simp only [readSection, readEach, addRestConfiguration, first, Option.isSome_none,
      Bool.false_eq_true, if_false, readItems, Noted.value_bind]
    refine ⟨some _, ?_, rfl⟩
    rfl

theorem readItems_routes {items : List Value} (h : ∀ v ∈ items, ∃ path route,
      v = .ofEntry "route" (routeValue path route).value ∧ route.source.uri ≠ "" ∧
        "uri" ∉ route.source.attributes.keys) (index : Nat) (d : Document) :
    ∃ rs : List Route, rs.length = items.length ∧
      (readItems index d (items.map (rejoin unpack))).value =
        { d with routes := d.routes ++ rs } := by
  have one : ∀ path d, ∀ v ∈ items.map (rejoin unpack),
      ∃ r : Route, (readItem path d v).value = { d with routes := d.routes ++ [r] } := by
    intro path d v hv
    obtain ⟨w, hw, rfl⟩ := List.mem_map.1 hv
    obtain ⟨here, route, rfl, nonempty, free⟩ := h w hw
    obtain ⟨es, tree, named, there, each⟩ := rejoin_routeValue unpack here nonempty free
    obtain ⟨r, read⟩ := readRoute_of_sourced (childPath path "route") named there each
    refine ⟨r, ?_⟩
    rw [readItem_rejoin unpack _ _ (by decide), tree]
    simp [readSection, readEach, addRoute, read]
  obtain ⟨rs, count, read⟩ := readItems_value
    (fun d rs => { d with routes := d.routes ++ rs }) (by simp) (by simp) one index d
  exact ⟨rs, by simpa using count, read⟩

end Sections

/-- There are as many entities of each kind in both documents. -/
structure SameEntities (d e : Document) : Prop where
  beans : e.beans.length = d.beans.length
  references : e.references.length = d.references.length
  configuration : e.restConfiguration.isSome = d.restConfiguration.isSome
  restApis : e.restApis.length = d.restApis.length
  routes : e.routes.length = d.routes.length

theorem documentValue_value (d : Document) : ∃ items : List Value,
    (documentValue d).value = .sequence (beanItems d.beans ++
      (d.references.map fun r => .ofEntry "reference" (referenceValue r)) ++
      (d.restConfiguration.toList.map fun c =>
        .ofEntry "restConfiguration" (restConfigurationValue c)) ++
      (d.restApis.map fun api => .ofEntry "rest" (restApiValue api)) ++ items) ∧
    items.length = d.routes.length ∧
    ∀ v ∈ items, ∃ path, ∃ route ∈ d.routes,
      v = .ofEntry "route" (routeValue path route).value := by
  refine ⟨_, rfl, ?_, ?_⟩
  · rw [Noted.value_mapM, List.length_map, List.length_zipIdx]
  · rw [Noted.value_mapM]
    intro v hv
    obtain ⟨r, hr, rfl⟩ := List.mem_map.1 hv
    exact ⟨routePath r.2 r.1, r.1, List.fst_mem_of_mem_zipIdx hr, rfl⟩

/-- No entity is lost on the way through a tree, as long as every route names where its messages
come from. -/
theorem readDocument_rejoin (unpack : Bool) {d : Document}
    (sources : ∀ route ∈ d.routes, route.source.uri ≠ "" ∧
      "uri" ∉ route.source.attributes.keys) :
    ∃ e, readDocument (rejoin unpack (documentValue d).value) = .ok e ∧
      SameEntities d e.value := by
  obtain ⟨items, tree, count, routes⟩ := documentValue_value d
  rw [tree, rejoin_sequence, List.map_append, List.map_append, List.map_append, List.map_append]
  refine ⟨_, rfl, ?_⟩
  -- Each list is read wherever it stands, and whatever was read before it.
  choose bs beans readBeans using readItems_beans unpack d.beans
  choose rs references readReferences using readItems_references unpack d.references
  choose c configuration readConfiguration using fun index (e : Document) first =>
    readItems_configuration unpack d.restConfiguration index (d := e) first
  choose as apis readApis using readItems_apis unpack d.restApis
  have sourced : ∀ v ∈ items, ∃ path route, v = .ofEntry "route" (routeValue path route).value ∧
      route.source.uri ≠ "" ∧ "uri" ∉ route.source.attributes.keys := by
    intro v hv
    obtain ⟨path, route, hr, rfl⟩ := routes v hv
    exact ⟨path, route, rfl, sources route hr⟩
  choose ss length readRoutes using readItems_routes unpack sourced
  simp only [readItems_append, Noted.value_bind, readBeans, readReferences]
  rw [readConfiguration _ _ rfl, readApis, readRoutes]
  exact ⟨beans _ _, references _ _, configuration _ _ _, apis _ _, (length _ _).trans count⟩

end RouteNotation.Dsl
