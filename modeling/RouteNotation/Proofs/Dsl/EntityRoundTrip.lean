import RouteNotation.Proofs.Dsl.Fields
import RouteNotation.Proofs.Route.Tags
import RouteNotation.Proofs.Text.Numeral
import RouteNotation.Xml.Name

/-!
Entities read from their value trees as they were: beans, references and REST services. In their
trees no URI stands beside parameters.
-/

namespace RouteNotation

namespace Text

theorem dropStart?_append (start rest : String) : dropStart? start (start ++ rest) = some rest := by
  have starts : start.toList.isPrefixOf (start ++ rest).toList = true := by
    rw [String.toList_append, List.isPrefixOf_iff_prefix]
    exact List.prefix_append _ _
  rw [dropStart?, if_pos starts, String.toList_append, ← String.length_toList, List.drop_left,
    String.ofList_toList]

end Text

namespace Dsl

open Yaml OrderedMap Uri

section Attributes
variable {path : String}

theorem readAttributes_attributesValue {attributes : Attributes}
    (valid : ∀ key ∈ attributes.keys, Xml.isValidName key) :
    readAttributes path (noFields.putAttributes attributes).toEntries = pure attributes := by
  have all : Reads (fun m key v => readAttributeEntry path m (entry key v)) .empty
      (noFields.putAttributes attributes) attributes :=
    reads_noFields.putAttributes id (fun _ _ => not_mem_keys_noFields) fun m key hk text =>
      readAttribute_text (valid key hk) text
  rw [readAttributes, Fields.toEntries, List.foldlM_map]
  exact all

end Attributes

section Beans

/-- A property that its text tells. -/
def CanonicalProperty : PropertyValue → Prop
  | .literal text => ∀ name ∈ Text.dropStart? PropertyValue.referenceMark text, name = ""
  | .reference bean => bean ≠ ""

/-- A bean that a value tree tells in full. The places of its arguments fit in 64 bits. -/
structure CanonicalBean (bean : Bean) : Prop where
  keys : ∀ key ∈ bean.extra.keys, Xml.isValidName key ∧
    key ∉ ["name", "type", "factoryBean", "factoryMethod", "constructors", "properties"]
  properties : ∀ p ∈ bean.properties.entries, CanonicalProperty p.2
  places : bean.arguments.length ≤ UInt64.size

instance : (value : PropertyValue) → Decidable (CanonicalProperty value)
  | .literal text => inferInstanceAs (Decidable
    (∀ name ∈ Text.dropStart? PropertyValue.referenceMark text, name = ""))
  | .reference bean => inferInstanceAs (Decidable (bean ≠ ""))

instance (bean : Bean) : Decidable (CanonicalBean bean) :=
  decidable_of_iff ((∀ key ∈ bean.extra.keys, Xml.isValidName key ∧
    key ∉ ["name", "type", "factoryBean", "factoryMethod", "constructors", "properties"]) ∧
    (∀ p ∈ bean.properties.entries, CanonicalProperty p.2) ∧
    bean.arguments.length ≤ UInt64.size)
    ⟨fun ⟨keys, properties, places⟩ => ⟨keys, properties, places⟩,
      fun ⟨keys, properties, places⟩ => ⟨keys, properties, places⟩⟩

theorem ofText_toText {value : PropertyValue} (h : CanonicalProperty value) :
    PropertyValue.ofText value.toText = value := by
  cases value with
  | literal text =>
    rw [PropertyValue.toText, PropertyValue.ofText]
    split
    · rename_i name found
      rw [h name found]
      rfl
    · rfl
  | reference bean =>
    have nonempty : bean.isEmpty = false :=
      Bool.eq_false_iff.2 fun empty => h (String.isEmpty_iff.1 empty)
    rw [PropertyValue.toText, PropertyValue.ofText, Text.dropStart?_append]
    simp only [nonempty, Bool.false_eq_true, if_false]

theorem argumentIndex?_int {index : Nat} (h : index < UInt64.size) :
    argumentIndex? (.int index) = some index := by
  have text : (Value.int index).scalarText? = some index.repr := rfl
  rw [argumentIndex?, text, Option.bind_some, Numeral.readBelow?_repr h]

theorem foldlM_readIndexedArgument (path : String) (before : List (Nat × String))
    {arguments : List String} {start : Nat} (h : arguments.length + start ≤ UInt64.size) :
    ((arguments.zipIdx start).map fun a => ((.int a.2, .string a.1) : Entry)).foldlM
      (readIndexedArgument path) before =
        pure (before ++ (arguments.zipIdx start).map fun a => (a.2, a.1)) := by
  induction arguments generalizing before start with
  | nil => simp
  | cons a rest ih =>
    rw [List.length_cons] at h
    have place : argumentIndex? (.int start) = some start := argumentIndex?_int (by omega)
    have text : (Value.string a).scalarText? = some a := rfl
    rw [List.zipIdx_cons, List.map_cons, List.foldlM_cons, readIndexedArgument]
    simp only [place, text, pure_bind]
    rw [ih _ (by omega)]
    simp

theorem readArguments_argumentsValue (path : String) {arguments : List String}
    (h : arguments.length ≤ UInt64.size) :
    readArguments path (argumentsValue arguments) = pure arguments := by
  have sorted : (arguments.zipIdx.map fun a => (a.2, a.1)).Pairwise
      fun a b => decide (a.1 ≤ b.1) = true := by
    have places : (arguments.zipIdx.map Prod.snd).Pairwise (· ≤ ·) := by
      rw [List.zipIdx_map_snd]
      exact List.pairwise_le_range'
    rw [List.pairwise_map] at places ⊢
    exact places.imp fun le => decide_eq_true le
  rw [argumentsValue, readArguments, foldlM_readIndexedArgument path [] (by simpa using h),
    pure_bind, List.nil_append, List.mergeSort_of_pairwise sorted, List.map_map]
  exact congrArg pure (List.zipIdx_map_fst 0 arguments)

theorem readProperties_propertiesValue (path : String) (bean : Bean)
    {properties : OrderedMap String PropertyValue}
    (h : ∀ p ∈ properties.entries, CanonicalProperty p.2) :
    readProperties path bean (propertiesValue properties) =
      pure { bean with properties := bean.properties.insertAll properties } := by
  have each : ∀ (b : Bean), ∀ p ∈ properties.entries,
      readProperty path b (textEntry p.1 p.2.toText) =
        pure { b with properties := b.properties.insert p.1 p.2 } := by
    intro b p hp
    have name : (Value.string p.1).scalarText? = some p.1 := rfl
    have text : (Value.string p.2.toText).scalarText? = some p.2.toText := rfl
    simp only [readProperty, textEntry, name, text, ofText_toText (h p hp)]
  have entries : (propertiesValue properties).mapping? =
    some (properties.entries.map fun p => textEntry p.1 p.2.toText) := rfl
  have all : properties.entries.foldl
      (fun b p => { b with properties := b.properties.insert p.1 p.2 }) bean =
        { bean with properties := bean.properties.insertAll properties } :=
    foldl_put (fun m => ({ bean with properties := m } : Bean)) fun _ _ _ => rfl
  rw [readProperties, entries]
  simp only [List.foldlM_map]
  rw [Noted.foldlM_eq_pure each]
  exact congrArg pure all

theorem settled_propertiesValue (properties : OrderedMap String PropertyValue) :
    Settled (propertiesValue properties) := by
  have nodup : ((properties.entries.map fun p => (p.1, Value.string p.2.toText)).map
      Prod.fst).Nodup := by
    rw [List.map_map]
    exact properties.nodup
  have texts : Settled (Fields.toValue ⟨_, nodup⟩) := by
    apply settled_of_quiet
    intro f hf
    obtain ⟨p, _, rfl⟩ := List.mem_map.1 hf
    exact quiet_string _ _
  rw [Fields.toValue, List.map_map] at texts
  exact texts

/-- Indices are no strings, and so no key of a URI. -/
theorem settled_argumentsValue (arguments : List String) : Settled (argumentsValue arguments) := by
  have noString : ∀ e ∈ arguments.zipIdx.map (fun a => ((.int a.2, .string a.1) : Entry)),
      e.1.string? = none ∧ Settled e.2 := by
    intro e he
    obtain ⟨a, _, rfl⟩ := List.mem_map.1 he
    exact ⟨rfl, settled_string _⟩
  rw [argumentsValue, Settled]
  refine ⟨⟨?_, ?_⟩, ?_, settledEntries_iff.2 fun e he => (noString e he).2⟩
  · intro e he s same
    rw [(noString e he).1] at same
    cases same
  · rw [List.filterMap_eq_nil_iff.2 fun e he => (noString e he).1]
    exact List.nodup_nil
  · cases found : lookup? uriKey (arguments.zipIdx.map fun a =>
        ((.int a.2, .string a.1) : Entry)) with
    | none => simp [packed?, found]
    | some v => cases (noString _ (mem_of_lookup? found)).1

theorem readBeanField_extra {path key : String} {bean : Bean} (valid : Xml.isValidName key)
    (other : key ∉ ["name", "type", "factoryBean", "factoryMethod", "constructors", "properties"])
    (text : String) : readBeanField path bean key (.string text) =
      pure { bean with extra := bean.extra.insert key text } := by
  simp only [List.mem_cons, List.not_mem_nil, or_false, not_or] at other
  unfold readBeanField
  split
  · exact absurd rfl other.1
  · exact absurd rfl other.2.1
  · exact absurd rfl other.2.2.1
  · exact absurd rfl other.2.2.2.1
  · exact absurd rfl other.2.2.2.2.1
  · exact absurd rfl other.2.2.2.2.2
  · rw [readAttribute_text valid, pure_bind]

theorem readBean_toEntries {path name : String} {fields : Fields} {bean : Bean}
    (h : Reads (readBeanField path) (.named name) fields bean)
    (all : fields.All fun k v => Quiet k v ∧ (k = "name" → v = .string name))
    (known : "name" ∈ fields.keys) :
    readBean path fields.toEntries = pure (some bean) ∧ Settled (.mapping fields.toEntries) := by
  have found : scalarUnder? "name" fields.toEntries = some name := by
    rw [scalarUnder?, Fields.lookup?_toEntries, get?_of_all (fun f hf => (all f hf).2) known]
    rfl
  refine ⟨?_, settled_of_quiet fun f hf => (all f hf).1⟩
  rw [readBean, found]
  simp only [h.readFields, pure_bind]

theorem readBean_beanValue (path : String) {bean : Bean} (h : CanonicalBean bean) :
    ∃ es, beanValue bean = .mapping es ∧ readBean path es = pure (some bean) ∧
      Settled (.mapping es) := by
  obtain ⟨name, type, factoryBean, factoryMethod, arguments, properties, extra⟩ := bean
  obtain ⟨keys, canonical, places⟩ := h
  have free : ∀ key ∈ ["name", "type", "factoryBean", "factoryMethod", "constructors",
      "properties"], key ∉ extra.keys := fun key known hk => (keys key hk).2 known
  have named : Reads (readBeanField path) (.named name) (noFields.put "name" (.string name))
      (.named name) := reads_noFields.put "name" not_mem_keys_noFields rfl
  have typed := named.putText? (fun type => (⟨name, type, none, none, [], .empty, .empty⟩ : Bean))
    "type" (by simp [Fields.mem_keys_put, not_mem_keys_noFields]) (fun _ => rfl) type
  have made := typed.putText?
    (fun factory => (⟨name, type, factory, none, [], .empty, .empty⟩ : Bean)) "factoryBean"
    (by simp [Fields.mem_keys_put, Fields.mem_keys_putText?, not_mem_keys_noFields])
    (fun _ => rfl) factoryBean
  have called := made.putText?
    (fun method => (⟨name, type, factoryBean, method, [], .empty, .empty⟩ : Bean)) "factoryMethod"
    (by simp [Fields.mem_keys_put, Fields.mem_keys_putText?, not_mem_keys_noFields])
    (fun _ => rfl) factoryMethod
  have extended := called.putAttributes
    (fun m => (⟨name, type, factoryBean, factoryMethod, [], .empty, m⟩ : Bean))
    (by
      intro key hk known
      simp only [Fields.mem_keys_put, Fields.mem_keys_putText?, not_mem_keys_noFields, false_or]
        at known
      have other := (keys key hk).2
      rcases known with ((rfl | ⟨_, rfl⟩) | ⟨_, rfl⟩) | ⟨_, rfl⟩ <;> exact other (by decide))
    (fun m key hk => readBeanField_extra (keys key hk).1 (keys key hk).2)
  have filled := extended.putUnless arguments.isEmpty "constructors"
    (by simp [Fields.mem_keys_put, Fields.mem_keys_putText?, Fields.mem_keys_putAttributes,
      not_mem_keys_noFields, free])
    (u := ⟨name, type, factoryBean, factoryMethod, arguments, .empty, extra⟩)
    (v := argumentsValue arguments)
    (fun none => by rw [List.isEmpty_iff.1 none])
    (fun _ => by
      simp only [readBeanField, readArguments_argumentsValue _ places, pure_bind])
  have whole := filled.putUnless properties.isEmpty "properties"
    (by simp [Fields.mem_keys_put, Fields.mem_keys_putText?, Fields.mem_keys_putAttributes,
      Fields.mem_keys_putUnless, not_mem_keys_noFields, free])
    (u := ⟨name, type, factoryBean, factoryMethod, arguments, properties, extra⟩)
    (v := propertiesValue properties)
    (fun none => by
      have same : properties = .empty := OrderedMap.ext (List.isEmpty_iff.1 none)
      rw [same])
    (fun _ => by
      simp only [readBeanField, readProperties_propertiesValue _ _ canonical, insertAll_empty])
  have unnamed : ∀ {k : String} {v : Value}, Quiet k v → k ≠ "name" →
      Quiet k v ∧ (k = "name" → v = .string name) :=
    fun quiet other => ⟨quiet, fun same => absurd same other⟩
  refine ⟨_, rfl, readBean_toEntries whole ?_ ?_⟩
  · refine .putUnless (.putUnless (.putAttributes (.putText? (.putText? (.putText? (.put .noFields
      ⟨quiet_string _ _, fun _ => rfl⟩) ?_ _) ?_ _) ?_ _) ?_) ?_) ?_
    · exact fun text => unnamed (quiet_string _ text) (by decide)
    · exact fun text => unnamed (quiet_string _ text) (by decide)
    · exact fun text => unnamed (quiet_string _ text) (by decide)
    · intro a ha
      refine unnamed (quiet_string _ _) fun same => ?_
      exact free "name" (by decide) (same ▸ List.mem_map_of_mem ha)
    · exact fun _ => unnamed ⟨settled_argumentsValue _, fun same => absurd same (by decide)⟩
        (by decide)
    · exact fun _ => unnamed ⟨settled_propertiesValue _, fun same => absurd same (by decide)⟩
        (by decide)
  · simp [Fields.mem_keys_put, Fields.mem_keys_putText?, Fields.mem_keys_putAttributes,
      Fields.mem_keys_putUnless]

end Beans

theorem readReference_referenceValue (path : String) (r : Reference) :
    ∃ es, referenceValue r = .mapping es ∧ readReference path es = pure (some r) ∧
      Settled (.mapping es) := by
  obtain ⟨id, interface, filter⟩ := r
  refine ⟨_, rfl, ?_, settled_of_quiet (.putText? (.put (.put .noFields (quiet_string _ _))
    (quiet_string _ _)) (quiet_string _) _)⟩
  cases filter <;> rfl

section Rest

def CanonicalRestConfiguration (c : RestConfiguration) : Prop :=
  (∀ key ∈ c.attributes.keys, Xml.isValidName key) ∧ ∀ list ∈ c.propertyLists.entries,
    (Xml.isValidName list.1 ∧ list.1 ∉ c.attributes.keys) ∧
      ∀ properties ∈ list.2, ∀ key ∈ properties.keys, Xml.isValidName key

def CanonicalOperation (operation : Operation) : Prop :=
  ∀ key ∈ operation.attributes.keys, Xml.isValidName key ∧ key ∉ ["description", "to"]

def CanonicalRestApi (api : RestApi) : Prop :=
  (∀ key ∈ api.attributes.keys, (Xml.isValidName key ∧ key ∉ ["id", "path", "description"]) ∧
    HttpVerb.ofTag? key = none) ∧
  ∀ list ∈ api.operations.entries, ∀ operation ∈ list.2, CanonicalOperation operation

instance (c : RestConfiguration) : Decidable (CanonicalRestConfiguration c) :=
  inferInstanceAs (Decidable (_ ∧ ∀ list ∈ c.propertyLists.entries, (_ ∧ _) ∧
    ∀ properties ∈ list.2, ∀ key ∈ properties.keys, _))

instance (operation : Operation) : Decidable (CanonicalOperation operation) :=
  inferInstanceAs (Decidable (∀ key ∈ operation.attributes.keys, _ ∧ _))

instance (api : RestApi) : Decidable (CanonicalRestApi api) :=
  inferInstanceAs (Decidable (_ ∧ ∀ list ∈ api.operations.entries, ∀ operation ∈ list.2,
    CanonicalOperation operation))

theorem readConfigurationField_list {path tag : String} (c : RestConfiguration)
    {list : List Attributes} (valid : Xml.isValidName tag)
    (keys : ∀ properties ∈ list, ∀ key ∈ properties.keys, Xml.isValidName key) :
    readConfigurationField path c tag (.sequence (list.map attributesValue)) =
      pure { c with propertyLists := c.propertyLists.insert tag list } := by
  have maps : mappings? (.sequence (list.map attributesValue)) =
      some (list.map fun properties => (noFields.putAttributes properties).toEntries) :=
    Noted.mapM_map_eq_pure fun _ _ => rfl
  have read : readPropertyList (childPath path tag)
      (list.map fun properties => (noFields.putAttributes properties).toEntries) = pure list :=
    Noted.mapM_map_eq_self fun properties hp => readAttributes_attributesValue (keys properties hp)
  have noScalar : (Value.sequence (list.map attributesValue)).isScalar = false := rfl
  simp only [readConfigurationField, noScalar, Bool.false_eq_true, if_false, valid, Bool.not_true,
    maps, read, pure_bind]

theorem readRestConfiguration_value (path : String) {c : RestConfiguration}
    (h : CanonicalRestConfiguration c) :
    ∃ es, restConfigurationValue c = .mapping es ∧ readRestConfiguration path es = pure c ∧
      Settled (.mapping es) := by
  obtain ⟨attributes, lists⟩ := c
  obtain ⟨keys, canonical⟩ := h
  have own : Reads (readConfigurationField path) ⟨.empty, .empty⟩
      (noFields.putAttributes attributes) ⟨attributes, .empty⟩ :=
    reads_noFields.putAttributes (fun m => (⟨m, .empty⟩ : RestConfiguration))
      (fun _ _ => not_mem_keys_noFields) fun m key hk text => by
        have scalar : (Value.string text).isScalar = true := rfl
        simp only [readConfigurationField, scalar, if_true, readAttribute_text (keys key hk),
          pure_bind]
  have whole : Reads (readConfigurationField path) ⟨.empty, .empty⟩
      (lists.entries.foldl putPropertyList (noFields.putAttributes attributes))
      ⟨attributes, .ofList lists.entries⟩ := by
    refine Reads.putEach (fun some => (⟨attributes, .ofList some⟩ : RestConfiguration)) own ?_
      lists.nodup ?_
    · intro list hl known
      rcases Fields.mem_keys_putAttributes.1 known with old | known
      · exact not_mem_keys_noFields old
      · exact (canonical list hl).1.2 known
    · intro before list hl
      rw [readConfigurationField_list _ (canonical list hl).1.1 (canonical list hl).2,
        OrderedMap.ofList, OrderedMap.ofList, List.foldl_append]
      rfl
  rw [ofList_entries] at whole
  refine ⟨_, rfl, whole.readFields, settled_of_quiet (.putEach (.putAttributes .noFields
    fun a _ => quiet_string _ _) fun list hl => quiet_sequence fun v hv => ?_)⟩
  obtain ⟨properties, _, rfl⟩ := List.mem_map.1 hv
  exact settled_attributesValue properties

theorem readOperation_operationValue (path : String) {operation : Operation}
    (h : CanonicalOperation operation) :
    ∃ es, operationValue operation = .mapping es ∧ readOperation path es = pure operation ∧
      Settled (.mapping es) := by
  obtain ⟨attributes, description, target⟩ := operation
  have own : Reads (readOperationField path) .empty (noFields.putAttributes attributes)
      ⟨attributes, none, none⟩ :=
    reads_noFields.putAttributes (fun m => (⟨m, none, none⟩ : Operation))
      (fun _ _ => not_mem_keys_noFields) fun m key hk text => by
        obtain ⟨valid, other⟩ := h key hk
        simp only [List.mem_cons, List.not_mem_nil, or_false, not_or] at other
        unfold readOperationField
        split
        · exact absurd rfl other.1
        · exact absurd rfl other.2
        · rw [readAttribute_text valid, pure_bind]
  have free : ∀ key ∈ ["description", "to"], key ∉ (noFields.putAttributes attributes).keys := by
    intro key known hk
    rcases Fields.mem_keys_putAttributes.1 hk with old | hk
    · exact not_mem_keys_noFields old
    · exact (h key hk).2 known
  have described := own.putText? (fun text => (⟨attributes, text, none⟩ : Operation)) "description"
    (free _ (by decide)) (fun _ => rfl) description
  have whole := described.putText? (fun text => (⟨attributes, description, text⟩ : Operation)) "to"
    (by simp [Fields.mem_keys_putText?, free]) (fun _ => rfl) target
  exact ⟨_, rfl, whole.readFields, settled_of_quiet (.putText? (.putText? (.putAttributes .noFields
    fun a _ => quiet_string _ _) (quiet_string _) _) (quiet_string _) _)⟩

theorem verb_tag_other (verb : HttpVerb) : verb.tag ∉ ["id", "path", "description"] := by
  cases verb <;> decide

theorem readRestField_operations {path : String} (api : RestApi) (verb : HttpVerb)
    {operations : List Operation} (h : ∀ operation ∈ operations, CanonicalOperation operation) :
    readRestField path api verb.tag (.sequence (operations.map operationValue)) =
      pure { api with operations := api.operations.append verb operations } := by
  have other := verb_tag_other verb
  simp only [List.mem_cons, List.not_mem_nil, or_false, not_or] at other
  have maps : mappings? (.sequence (operations.map operationValue)) =
      some (operations.map fun o => ((operationValue o).mapping?).getD []) :=
    Noted.mapM_map_eq_pure fun _ _ => rfl
  have read : (operations.map fun o => ((operationValue o).mapping?).getD []).mapM
      (readOperation (childPath path verb.tag)) = pure operations := by
    apply Noted.mapM_map_eq_self
    intro o ho
    obtain ⟨es, same, read, _⟩ := readOperation_operationValue (childPath path verb.tag) (h o ho)
    rw [same]
    exact read
  unfold readRestField
  split
  · rename_i same
    exact absurd same other.1
  · rename_i same
    exact absurd same other.2.1
  · rename_i same
    exact absurd same other.2.2
  · simp only [HttpVerb.ofTag?_tag, maps, read, pure_bind]

theorem Reads.putOperations {path : String} {s : RestApi} {fields : Fields}
    {id place : Option String} {attributes : Attributes} {description : Option String}
    (h : Reads (readRestField path) s fields ⟨id, place, attributes, description, .empty⟩)
    (operations : OrderedMap HttpVerb (List Operation))
    (new : ∀ list ∈ operations.entries, list.1.tag ∉ fields.keys)
    (canonical : ∀ list ∈ operations.entries, ∀ o ∈ list.2, CanonicalOperation o) :
    Reads (readRestField path) s (operations.entries.foldl putOperations fields)
      ⟨id, place, attributes, description, operations⟩ := by
  have all : Reads (readRestField path) s (operations.entries.foldl Dsl.putOperations fields)
      ⟨id, place, attributes, description,
        operations.entries.foldl (fun m list => m.append list.1 list.2) .empty⟩ := by
    refine h.putEach (fun lists => (⟨id, place, attributes, description,
      lists.foldl (fun m list => m.append list.1 list.2) .empty⟩ : RestApi)) new ?_ ?_
    · have nodup := operations.nodup
      rw [List.Nodup, List.pairwise_map] at nodup ⊢
      exact nodup.imp fun other same => other (HttpVerb.tag_injective same)
    · intro before list hl
      rw [readRestField_operations _ _ (canonical list hl), List.foldl_append]
      rfl
  rwa [foldl_append_entries] at all

theorem readRestApi_restApiValue (path : String) {api : RestApi} (h : CanonicalRestApi api) :
    ∃ es, restApiValue api = .mapping es ∧ readRestApi path es = pure api ∧
      Settled (.mapping es) := by
  obtain ⟨id, apiPath, attributes, description, operations⟩ := api
  obtain ⟨keys, canonical⟩ := h
  have free : ∀ key ∈ ["id", "path", "description"], key ∉ attributes.keys :=
    fun key known hk => (keys key hk).1.2 known
  have start : Reads (readRestField path) .empty noFields .empty := reads_noFields
  have identified := start.putText?
    (fun id => (⟨id, none, .empty, none, .empty⟩ : RestApi)) "id" not_mem_keys_noFields
    (fun _ => rfl) id
  have placed := identified.putText?
    (fun place => (⟨id, place, .empty, none, .empty⟩ : RestApi)) "path"
    (by simp [Fields.mem_keys_putText?, not_mem_keys_noFields]) (fun _ => rfl) apiPath
  have extended := placed.putAttributes
    (fun m => (⟨id, apiPath, m, none, .empty⟩ : RestApi))
    (by
      intro key hk known
      rcases Fields.key_of_putTwo known with rfl | rfl
      · exact free _ (by decide) hk
      · exact free _ (by decide) hk)
    (by
      intro m key hk text
      obtain ⟨⟨valid, other⟩, noVerb⟩ := keys key hk
      simp only [List.mem_cons, List.not_mem_nil, or_false, not_or] at other
      unfold readRestField
      split
      · exact absurd rfl other.1
      · exact absurd rfl other.2.1
      · exact absurd rfl other.2.2
      · simp only [noVerb, readAttribute_text valid, pure_bind])
  have described := extended.putText?
    (fun text => (⟨id, apiPath, attributes, text, .empty⟩ : RestApi)) "description"
    (by simp [Fields.mem_keys_putText?, Fields.mem_keys_putAttributes, not_mem_keys_noFields, free])
    (fun _ => rfl) description
  have whole := described.putOperations operations
    (by
      intro list _ known
      have other := verb_tag_other list.1
      simp only [List.mem_cons, List.not_mem_nil, or_false, not_or] at other
      simp only [Fields.mem_keys_putText?, Fields.mem_keys_putAttributes, not_mem_keys_noFields,
        false_or, other, and_false, or_false] at known
      have verb := HttpVerb.ofTag?_tag list.1
      rw [(keys _ known).2] at verb
      cases verb)
    canonical
  refine ⟨_, rfl, whole.readFields, settled_of_quiet (.putEach (.putText? (.putAttributes (.putText?
    (.putText? .noFields (quiet_string _) _) (quiet_string _) _) fun a _ => quiet_string _ _)
    (quiet_string _) _) fun list hl => quiet_sequence fun v hv => ?_)⟩
  obtain ⟨operation, ho, rfl⟩ := List.mem_map.1 hv
  obtain ⟨es, same, _, settled⟩ :=
    readOperation_operationValue path (canonical list hl operation ho)
  rw [same]
  exact settled

end Rest

end Dsl
end RouteNotation
