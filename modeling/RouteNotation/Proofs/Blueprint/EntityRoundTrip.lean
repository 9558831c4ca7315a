import RouteNotation.Blueprint.Reader
import RouteNotation.Proofs.Blueprint.DocumentMarkup
import RouteNotation.Proofs.Blueprint.Sections
import RouteNotation.Proofs.Blueprint.StepRoundTrip
import RouteNotation.Proofs.Noted

/-!
Entities read from their markup as they were: beans, references, REST services and routes.
-/

namespace RouteNotation

theorem PropertyValue.toText_ofText (text : String) :
    (PropertyValue.ofText text).toText = text := by
  unfold PropertyValue.ofText Text.dropStart?
  split
  · rename_i name cut
    split at cut
    · rename_i starts
      obtain ⟨rest, whole⟩ := List.isPrefixOf_iff_prefix.1 starts
      split
      · rfl
      · cases Option.some.inj cut
        rw [← String.length_toList, ← whole, List.drop_left, PropertyValue.toText,
          ← String.toList_inj, String.toList_append, String.toList_ofList, whole]
    · cases cut
  · rfl

namespace Blueprint

open Xml OrderedMap

/-- A bean that markup tells in full. -/
def CanonicalBean (bean : Bean) : Prop :=
  ∀ key ∈ bean.extra.keys, isValidName key ∧
    key ∉ ["id", "class", "factory-ref", "factory-bean", "factory-method"]

instance (bean : Bean) : Decidable (CanonicalBean bean) :=
  inferInstanceAs (Decidable (∀ key ∈ bean.extra.keys, _ ∧ _))

theorem entries_beanElement {bean : Bean} (h : CanonicalBean bean) :
    (beanElement bean).attributes.entries = ("id", bean.name) ::
      (bean.type.toList.map (fun value => ("class", value)) ++
      (bean.factoryBean.toList.map (fun value => ("factory-ref", value)) ++
      (bean.factoryMethod.toList.map (fun value => ("factory-method", value)) ++
        bean.extra.entries))) := by
  have extra : ∀ k ∈ bean.extra.keys,
      k ∉ ((((single "id" bean.name).insertSome "class" bean.type).insertSome "factory-ref"
        bean.factoryBean).insertSome "factory-method" bean.factoryMethod).keys := by
    intro k hk known
    simp only [mem_keys_insertSome, mem_keys_single] at known
    have other := (h k hk).2
    rcases known with ((rfl | ⟨_, rfl⟩) | ⟨_, rfl⟩) | ⟨_, rfl⟩ <;> exact other (by decide)
  rw [beanElement, Element.ofElements, Element.attributes, entries_insertAll extra,
    entries_insertSome (by simp [mem_keys_insertSome, mem_keys_single]),
    entries_insertSome (by simp [mem_keys_insertSome, mem_keys_single]),
    entries_insertSome (by simp [mem_keys_single])]
  simp [single]

theorem foldl_addBeanAttribute {bean : Bean} (h : CanonicalBean bean) :
    (beanElement bean).attributes.entries.foldl addBeanAttribute (.named bean.name) =
      { bean with arguments := [], properties := .empty } := by
  obtain ⟨name, type, factoryBean, factoryMethod, arguments, properties, extra⟩ := bean
  have others : ∀ m : Attributes, ∀ e ∈ extra.entries,
      addBeanAttribute ⟨name, type, factoryBean, factoryMethod, [], .empty, m⟩ e =
        ⟨name, type, factoryBean, factoryMethod, [], .empty, m.insert e.1 e.2⟩ := by
    intro m e he
    have other := (h e.1 (List.mem_map_of_mem he)).2
    simp only [List.mem_cons, List.not_mem_nil, not_or] at other
    unfold addBeanAttribute
    split <;> simp_all
  have rest := foldl_put_entries (fun m =>
    (⟨name, type, factoryBean, factoryMethod, [], .empty, m⟩ : Bean)) others
  rw [entries_beanElement h, List.foldl_cons, List.foldl_append, List.foldl_append,
    List.foldl_append]
  cases type <;> cases factoryBean <;> cases factoryMethod <;> exact rest

theorem propertyValue?_argumentElement (text : String) :
    (propertyValue? (argumentElement text)).map PropertyValue.toText = some text := by
  have back := PropertyValue.toText_ofText text
  cases value : PropertyValue.ofText text <;> rw [value] at back <;>
    simpa [argumentElement, propertyValue?, value, withValue, Element.attribute?, Element.leaf,
      Element.attributes, OrderedMap.insert, get?_update, get?_eq_none not_mem_keys_empty]
      using back

theorem propertyValue?_propertyElement (p : String × PropertyValue) :
    propertyValue? (propertyElement p) = some p.2 := by
  obtain ⟨name, value⟩ := p
  have none : ∀ k, k ≠ "name" → (single "name" name).get? k = none :=
    fun k hk => get?_eq_none (mt mem_keys_single.1 hk)
  cases value <;>
    simp [propertyElement, propertyValue?, withValue, Element.attribute?, Element.leaf,
      Element.attributes, OrderedMap.insert, get?_update, none]

theorem attribute?_propertyElement (p : String × PropertyValue) :
    (propertyElement p).attribute? "name" = some p.1 := by
  obtain ⟨name, value⟩ := p
  cases value <;> rfl

theorem readBeanChild_argumentElement (path : String) (bean : Bean) (text : String) :
    readBeanChild path bean (argumentElement text) =
      pure { bean with arguments := bean.arguments ++ [text] } := by
  have tag : (argumentElement text).localName = "argument" :=
    localName_of_name rfl (by decide)
  obtain ⟨value, read, same⟩ := Option.map_eq_some_iff.1 (propertyValue?_argumentElement text)
  simp only [readBeanChild, tag, readArgument, read, same]

theorem readBeanChild_propertyElement (path : String) (bean : Bean) (p : String × PropertyValue) :
    readBeanChild path bean (propertyElement p) =
      pure { bean with properties := bean.properties.insert p.1 p.2 } := by
  have tag : (propertyElement p).localName = "property" :=
    localName_of_name rfl (by decide)
  simp only [readBeanChild, tag, readProperty, attribute?_propertyElement,
    propertyValue?_propertyElement]

theorem readBean_beanElement (path : String) {bean : Bean} (h : CanonicalBean bean) :
    readBean path (beanElement bean) = pure (some bean) := by
  have id : (beanElement bean).attribute? "id" = some bean.name := by
    rw [Element.attribute?, get?, entries_beanElement h, lookup, if_pos rfl]
  have arguments : ∀ b : Bean,
      (bean.arguments.map argumentElement).foldlM (readBeanChild path) b =
        pure { b with arguments := b.arguments ++ bean.arguments } := by
    intro b
    have gathered : bean.arguments.foldl (fun b a => { b with arguments := b.arguments ++ [a] }) b =
        { b with arguments := bean.arguments.foldl (fun as a => as ++ [a]) b.arguments } :=
      List.foldl_hom (fun as => ({ b with arguments := as } : Bean)) fun _ _ => rfl
    rw [List.foldlM_map, Noted.foldlM_eq_pure fun b a _ => readBeanChild_argumentElement path b a,
      gathered, List.foldl_append_eq_append, ← List.flatMap_def, List.flatMap_singleton']
  have properties : ∀ b : Bean,
      (bean.properties.entries.map propertyElement).foldlM (readBeanChild path) b =
        pure { b with properties := b.properties.insertAll bean.properties } := by
    intro b
    have gathered : bean.properties.entries.foldl
        (fun b p => { b with properties := b.properties.insert p.1 p.2 }) b =
          { b with properties := b.properties.insertAll bean.properties } :=
      List.foldl_hom (fun m => ({ b with properties := m } : Bean)) fun _ _ => rfl
    rw [List.foldlM_map, Noted.foldlM_eq_pure fun b p _ => readBeanChild_propertyElement path b p,
      gathered]
  have elements : (beanElement bean).elements = bean.arguments.map argumentElement ++
      bean.properties.entries.map propertyElement := elements_ofElements _ _ _
  rw [readBean, id]
  simp only [foldl_addBeanAttribute h, elements, List.foldlM_append, arguments, properties,
    pure_bind, List.nil_append, insertAll_empty]

theorem readReference_referenceElement (path : String) (r : Reference) :
    readReference path (referenceElement r) = pure (some r) := by
  obtain ⟨id, interface, filter⟩ := r
  cases filter <;> rfl

/-- A tag that stands for itself in a list of properties. -/
def IsListTag (tag : String) : Prop := isValidName tag ∧ ':' ∉ tag.toList ∧ NoWrapper tag

instance (tag : String) : Decidable (IsListTag tag) := inferInstanceAs (Decidable (_ ∧ _))

/-- A configuration that markup tells in full. A list that is empty leaves no trace. -/
def CanonicalRestConfiguration (c : RestConfiguration) : Prop :=
  (∀ key ∈ c.attributes.keys, IsKey key) ∧ ∀ list ∈ c.propertyLists.entries,
    IsListTag list.1 ∧ list.2 ≠ [] ∧ ∀ properties ∈ list.2, ∀ key ∈ properties.keys, IsKey key

instance (c : RestConfiguration) : Decidable (CanonicalRestConfiguration c) :=
  inferInstanceAs (Decidable ((∀ key ∈ c.attributes.keys, IsKey key) ∧
    ∀ list ∈ c.propertyLists.entries, IsListTag list.1 ∧ list.2 ≠ [] ∧
      ∀ properties ∈ list.2, ∀ key ∈ properties.keys, IsKey key))

theorem readRestConfiguration_plain (path : String) {c : RestConfiguration}
    (h : CanonicalRestConfiguration c) :
    readRestConfiguration path (plainRestConfiguration c) = pure c := by
  have list : ∀ d : RestConfiguration, ∀ p ∈ c.propertyLists.flatten,
      readPropertyList path d (.leaf p.1 p.2) =
        pure { d with propertyLists := d.propertyLists.append p.1 [p.2] } := by
    intro d p hp
    obtain ⟨list, hl, hp⟩ := List.mem_flatMap.1 hp
    obtain ⟨properties, hmem, rfl⟩ := List.mem_map.1 hp
    obtain ⟨⟨_, noColon, _⟩, _, keys⟩ := h.2 list hl
    have tag : (Element.leaf list.1 properties).localName = list.1 := localName_eq_self noColon
    have all := readAttributes_of_keys path fun key hk => (keys properties hmem key hk).2
    have none : (Element.leaf list.1 properties).hasElements = false := rfl
    simp only [readPropertyList, none, tag, Bool.false_eq_true, if_false]
    rw [show (Element.leaf list.1 properties).attributes = properties from rfl, all, pure_bind]
  have lists := foldl_append_flatten fun e he => (h.2 e he).2.1
  have all := readAttributes_of_keys path fun key hk => (h.1 key hk).2
  rw [readRestConfiguration, plainRestConfiguration, elements_ofElements,
    show (Element.ofElements "restConfiguration" c.attributes _).attributes = c.attributes from rfl,
    all, pure_bind, List.foldlM_map, Noted.foldlM_eq_pure list]
  obtain ⟨attributes, propertyLists⟩ := c
  congr 1
  have gathered : propertyLists.flatten.foldl
      (fun d p => { d with propertyLists := d.propertyLists.append p.1 [p.2] })
        (⟨attributes, .empty⟩ : RestConfiguration) =
          ⟨attributes, propertyLists.flatten.foldl (fun m p => m.append p.1 [p.2]) .empty⟩ :=
    List.foldl_hom (fun m => (⟨attributes, m⟩ : RestConfiguration)) fun _ _ => rfl
  rw [gathered, lists]

def CanonicalOperation (operation : Operation) : Prop :=
  (∀ key ∈ operation.attributes.keys, IsKey key) ∧ CanonicalText operation.description

instance (operation : Operation) : Decidable (CanonicalOperation operation) :=
  inferInstanceAs (Decidable (_ ∧ CanonicalText operation.description))

def CanonicalRestApi (api : RestApi) : Prop :=
  (∀ key ∈ api.attributes.keys, isValidName key ∧ key ∉ ["id", "path"]) ∧
    CanonicalText api.description ∧ ∀ list ∈ api.operations.entries,
      list.2 ≠ [] ∧ ∀ operation ∈ list.2, CanonicalOperation operation

instance (api : RestApi) : Decidable (CanonicalRestApi api) :=
  inferInstanceAs (Decidable ((∀ key ∈ api.attributes.keys, isValidName key ∧ key ∉ _) ∧
    CanonicalText api.description ∧ ∀ list ∈ api.operations.entries,
      list.2 ≠ [] ∧ ∀ operation ∈ list.2, CanonicalOperation operation))

theorem localName_verb (verb : HttpVerb) : localName verb.tag = verb.tag := by
  cases verb <;> decide

theorem localName_description (value : String) :
    (Element.ofText "description" .empty value).localName = "description" :=
  localName_of_name rfl (by decide)

theorem readOperation_operationElement (path : String) {verb : HttpVerb} {operation : Operation}
    (h : CanonicalOperation operation) :
    readOperation path (operationElement verb operation) = pure operation := by
  obtain ⟨attributes, description, target⟩ := operation
  have all := readAttributes_of_keys path fun key hk => (h.1 key hk).2
  have described : (descriptionElements description).foldlM (readOperationChild path)
      ⟨attributes, none, none⟩ = pure ⟨attributes, description, none⟩ := by
    cases description with
    | none => rfl
    | some text =>
      simp [descriptionElements, readOperationChild, localName_description,
        text?_ofText "description" .empty (h.2 text rfl)]
  have targeted : (target.toList.map fun uri => Element.leaf "to" (.single "uri" uri)).foldlM
      (readOperationChild path) ⟨attributes, description, none⟩ =
        pure ⟨attributes, description, target⟩ := by
    cases target with
    | none => rfl
    | some uri =>
      have tag : (Element.leaf "to" (.single "uri" uri)).localName = "to" :=
        localName_of_name rfl (by decide)
      have value : (Element.leaf "to" (.single "uri" uri)).attribute? "uri" = some uri := rfl
      simp [readOperationChild, tag, value]
  rw [readOperation, operationElement, elements_ofElements,
    show (Element.ofElements verb.tag attributes _).attributes = attributes from rfl, all,
    pure_bind, List.foldlM_append]
  exact (congrArg (· >>= _) described).trans targeted

theorem entries_restApiElement {api : RestApi}
    (h : ∀ key ∈ api.attributes.keys, isValidName key ∧ key ∉ ["id", "path"]) :
    (plainRestApi api).attributes.entries = api.id.toList.map (fun value => ("id", value)) ++
      (api.path.toList.map (fun value => ("path", value)) ++ api.attributes.entries) := by
  have noId : "id" ∉ api.attributes.keys := fun known => (h _ known).2 (by decide)
  have noPath : "path" ∉ api.attributes.keys := fun known => (h _ known).2 (by decide)
  exact entries_insertTwo (by decide) noId noPath

theorem readRestApi_plainRestApi (path : String) {api : RestApi} (h : CanonicalRestApi api) :
    readRestApi path (plainRestApi api) = pure api := by
  obtain ⟨id, location, attributes, description, operations⟩ := api
  obtain ⟨keys, text, lists⟩ := h
  have others : ∀ m : Attributes, ∀ e ∈ attributes.entries,
      addRestAttribute ⟨id, location, m, none, .empty⟩ e =
        ⟨id, location, m.insert e.1 e.2, none, .empty⟩ := by
    intro m e he
    have other := (keys e.1 (List.mem_map_of_mem he)).2
    simp only [List.mem_cons, List.not_mem_nil, not_or] at other
    unfold addRestAttribute
    split <;> simp_all
  have rest := foldl_put_entries (fun m => (⟨id, location, m, none, .empty⟩ : RestApi)) others
  have attributed : (plainRestApi ⟨id, location, attributes, description,
      operations⟩).attributes.entries.foldl addRestAttribute .empty =
        ⟨id, location, attributes, none, .empty⟩ := by
    rw [entries_restApiElement keys, List.foldl_append, List.foldl_append]
    cases id <;> cases location <;> exact rest
  have described : (descriptionElements description).foldlM (readRestChild path)
      ⟨id, location, attributes, none, .empty⟩ =
        pure ⟨id, location, attributes, description, .empty⟩ := by
    cases description with
    | none => rfl
    | some value =>
      simp [descriptionElements, readRestChild, localName_description,
        text?_ofText "description" .empty (text value rfl)]
  have operation : ∀ a : RestApi, ∀ p ∈ operations.flatten,
      readRestChild path a (operationElement p.1 p.2) =
        pure { a with operations := a.operations.append p.1 [p.2] } := by
    intro a p hp
    obtain ⟨list, hl, hp⟩ := List.mem_flatMap.1 hp
    obtain ⟨operation, hmem, rfl⟩ := List.mem_map.1 hp
    have tag : (operationElement list.1 operation).localName = list.1.tag := localName_verb list.1
    have noDescription : list.1.tag ≠ "description" := by cases list.1 <;> decide
    simp only [readRestChild, tag, noDescription, if_false, HttpVerb.ofTag?_tag,
      readOperation_operationElement _ ((lists list hl).2 operation hmem), pure_bind]
  have gathered : operations.flatten.foldl
      (fun a p => { a with operations := a.operations.append p.1 [p.2] })
        (⟨id, location, attributes, description, .empty⟩ : RestApi) =
          ⟨id, location, attributes, description,
            operations.flatten.foldl (fun m p => m.append p.1 [p.2]) .empty⟩ :=
    List.foldl_hom (fun m => (⟨id, location, attributes, description, m⟩ : RestApi))
      fun _ _ => rfl
  rw [readRestApi, attributed, plainRestApi, elements_ofElements, List.foldlM_append, described,
    pure_bind, List.foldlM_map, Noted.foldlM_eq_pure operation, gathered,
    foldl_append_flatten fun e he => (lists e he).1]

def CanonicalEndpoint (source : Endpoint) : Prop :=
  source.parameters = .empty ∧ ∀ key ∈ source.attributes.keys, isValidName key ∧ key ≠ "uri"

instance (source : Endpoint) : Decidable (CanonicalEndpoint source) :=
  inferInstanceAs (Decidable (source.parameters = .empty ∧ ∀ key ∈ source.attributes.keys, _ ∧ _))

def CanonicalRoute (route : Route) : Prop :=
  (∀ key ∈ route.attributes.keys, isValidName key ∧ key ∉ ["id", "errorHandlerRef"]) ∧
    CanonicalText route.description ∧ CanonicalEndpoint route.source ∧
    ∀ step ∈ route.steps, CanonicalStep step ∧ step.kind ∉ ["from", "description"]

instance (route : Route) : Decidable (CanonicalRoute route) :=
  inferInstanceAs (Decidable ((∀ key ∈ route.attributes.keys, isValidName key ∧ key ∉ _) ∧
    CanonicalText route.description ∧ CanonicalEndpoint route.source ∧
    ∀ step ∈ route.steps, CanonicalStep step ∧ step.kind ∉ _))

theorem pack_empty (uri : String) : Uri.pack uri .empty = uri := by
  have none : ∀ scheme, Uri.primaryKeyIn? scheme .empty = none := by
    intro scheme
    simp [Uri.primaryKeyIn?, OrderedMap.contains, OrderedMap.keys, OrderedMap.empty]
  have same : Uri.takePrimary uri .empty = (uri, .empty) := by
    unfold Uri.takePrimary
    split
    · rfl
    · simp [none]
  rw [Uri.pack, same]
  rfl

theorem readEndpoint_sourceElement (path : String) {source : Endpoint}
    (h : CanonicalEndpoint source) :
    readEndpoint path (sourceElement source) = pure (some source) := by
  obtain ⟨uri, parameters, attributes⟩ := source
  obtain ⟨rfl, keys⟩ := h
  have entries : (sourceElement ⟨uri, .empty, attributes⟩).attributes.entries =
      ("uri", uri) :: attributes.entries := by
    have others : ∀ k ∈ attributes.keys, k ∉ (single "uri" uri).keys :=
      fun k hk known => (keys k hk).2 (mem_keys_single.1 known)
    rw [sourceElement, Element.leaf, Element.attributes, pack_empty, entries_insertAll others]
    rfl
  have found : (sourceElement ⟨uri, .empty, attributes⟩).attribute? "uri" = some uri := by
    rw [Element.attribute?, get?, entries, lookup, if_pos rfl]
  have left : (sourceElement ⟨uri, .empty, attributes⟩).attributes.filterKeys (· ≠ "uri") =
      attributes := by
    apply OrderedMap.ext
    change List.filter (fun e => e.1 ≠ "uri") (OrderedMap.entries _) = _
    rw [entries, List.filter_cons_of_neg (by simp)]
    apply List.filter_eq_self.2
    intro e he
    simpa using (keys e.1 (List.mem_map_of_mem he)).2
  rw [readEndpoint, found]
  simp only [left]
  rfl

theorem entries_plainRoute {route : Route}
    (h : ∀ key ∈ route.attributes.keys, isValidName key ∧ key ∉ ["id", "errorHandlerRef"]) :
    (plainRoute route).attributes.entries = route.id.toList.map (fun value => ("id", value)) ++
      (route.errorHandler.toList.map (fun value => ("errorHandlerRef", value)) ++
        route.attributes.entries) := by
  have noId : "id" ∉ route.attributes.keys := fun known => (h _ known).2 (by decide)
  have noHandler : "errorHandlerRef" ∉ route.attributes.keys :=
    fun known => (h _ known).2 (by decide)
  exact entries_insertTwo (by decide) noId noHandler

theorem foldl_addRouteAttribute {route : Route}
    (h : ∀ key ∈ route.attributes.keys, isValidName key ∧ key ∉ ["id", "errorHandlerRef"]) :
    (plainRoute route).attributes.entries.foldl addRouteAttribute .empty =
      ⟨route.id, route.errorHandler, route.attributes, none, none, []⟩ := by
  have others : ∀ m : Attributes, ∀ e ∈ route.attributes.entries,
      addRouteAttribute ⟨route.id, route.errorHandler, m, none, none, []⟩ e =
        ⟨route.id, route.errorHandler, m.insert e.1 e.2, none, none, []⟩ := by
    intro m e he
    have other := (h e.1 (List.mem_map_of_mem he)).2
    simp only [List.mem_cons, List.not_mem_nil, not_or] at other
    unfold addRouteAttribute
    split <;> simp_all
  have rest := foldl_put_entries (fun m =>
    (⟨route.id, route.errorHandler, m, none, none, []⟩ : RouteDraft)) others
  rw [entries_plainRoute h, List.foldl_append, List.foldl_append, ← rest]
  cases route.id <;> cases route.errorHandler <;> rfl

theorem readRouteChild_plainElement (path : String) (draft : RouteDraft) {s : Step}
    (h : CanonicalStep s) (kind : s.kind ∉ ["from", "description"]) :
    readRouteChild path draft (plainElement s) =
      pure { draft with steps := draft.steps ++ [s] } := by
  simp only [List.mem_cons, List.not_mem_nil, or_false, not_or] at kind
  unfold readRouteChild
  rw [localName_plainElement h.told]
  simp [kind.1, kind.2, readRouteStep, readStep_plainElement _ h.told]

theorem foldlM_plainElements (path : String) (draft : RouteDraft) {steps : List Step}
    (h : ∀ step ∈ steps, CanonicalStep step ∧ step.kind ∉ ["from", "description"]) :
    (steps.map plainElement).foldlM (readRouteChild path) draft =
      pure { draft with steps := draft.steps ++ steps } := by
  induction steps generalizing draft with
  | nil => simp
  | cons s ss ih =>
    obtain ⟨canonical, kind⟩ := h s List.mem_cons_self
    rw [List.map_cons, List.foldlM_cons, readRouteChild_plainElement path draft canonical kind,
      pure_bind, ih _ fun t ht => h t (List.mem_cons_of_mem s ht)]
    simp

theorem readRoute_plainRoute (path : String) {route : Route} (h : CanonicalRoute route) :
    readRoute path (plainRoute route) = pure (some route) := by
  obtain ⟨id, errorHandler, attributes, description, source, steps⟩ := route
  obtain ⟨keys, text, canonical, children⟩ := h
  have described : (descriptionElements description).foldlM (readRouteChild path)
      ⟨id, errorHandler, attributes, none, none, []⟩ =
        pure ⟨id, errorHandler, attributes, description, none, []⟩ := by
    cases description with
    | none => rfl
    | some value =>
      have noElements : (Element.ofText "description" .empty value).hasElements = false := rfl
      simp [descriptionElements, readRouteChild, localName_description, noElements,
        text?_ofText "description" .empty (text value rfl)]
  have sourced : readRouteChild path ⟨id, errorHandler, attributes, description, none, []⟩
      (sourceElement source) =
        pure ⟨id, errorHandler, attributes, description, some source, []⟩ := by
    have tag : (sourceElement source).localName = "from" :=
      localName_of_name rfl (by decide)
    simp [readRouteChild, tag, readEndpoint_sourceElement _ canonical]
  rw [readRoute, foldl_addRouteAttribute keys, plainRoute, elements_ofElements,
    List.foldlM_append, described, pure_bind, List.foldlM_cons, sourced, pure_bind,
    foldlM_plainElements path _ children]
  rfl

end Blueprint
end RouteNotation
