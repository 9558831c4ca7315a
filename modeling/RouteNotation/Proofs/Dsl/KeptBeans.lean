import RouteNotation.Proofs.Blueprint.EntityRoundTrip
import RouteNotation.Proofs.Dsl.BeanMappings
import RouteNotation.Proofs.Dsl.FieldValues

/-!
What becomes of the texts in the mappings of beans and of references when nothing is noted: the
entity holds them, or they are passed over. Main statements: `values_readBeans` and
`values_readReference`.
-/

namespace RouteNotation.Dsl

open Yaml

section Beans
variable {path name : String} {v : Value}

theorem values_readIndexedArguments {es : List Entry} {arguments : List (Nat × String)}
    (run : es.foldlM (readIndexedArgument path) [] = pure arguments) :
    ∀ x ∈ entriesTexts es, x ∈ arguments.map Prod.snd := by
  have each := Noted.foldlM_kept (fun arguments (e : Entry) =>
    ∀ x ∈ e.2.texts, x ∈ arguments.map Prod.snd) run ?_ ?_
  · intro x hx
    rw [entriesTexts_eq, List.mem_flatMap] at hx
    obtain ⟨e, he, hx⟩ := hx
    exact each e he x hx
  · intro s s' e he read x hx
    unfold readIndexedArgument at read
    split at read
    · rename_i index text _ scalar
      obtain rfl := Noted.eq_of_pure read
      rw [texts_of_scalarText? scalar, List.mem_singleton] at hx
      rw [hx, List.map_append]
      exact List.mem_append_right _ (List.mem_singleton_self text)
    · exact absurd read Noted.unknownShape_bind_ne_pure
  · intro s e f held x hx
    unfold readIndexedArgument
    split
    · rw [Noted.value_pure, List.map_append]
      exact List.mem_append_left _ (held x hx)
    · exact held x hx

theorem values_readArgumentItems {items : List Value} {arguments : List String}
    (run : items.foldlM (readArgument path) [] = pure arguments) :
    ∀ x ∈ itemsTexts items, x ∈ arguments := by
  have each := Noted.foldlM_kept (fun arguments (item : Value) =>
    ∀ x ∈ item.texts, x ∈ arguments) run ?_ ?_
  · intro x hx
    rw [itemsTexts_eq, List.mem_flatMap] at hx
    obtain ⟨item, hi, hx⟩ := hx
    exact each item hi x hx
  · intro s s' item hi read x hx
    unfold readArgument at read
    split at read
    · rename_i text scalar
      obtain rfl := Noted.eq_of_pure read
      rw [texts_of_scalarText? scalar, List.mem_singleton] at hx
      exact List.mem_append_right _ (List.mem_singleton.2 hx)
    · exact absurd read Noted.unknownShape_bind_ne_pure
  · intro s item other held x hx
    unfold readArgument
    split
    · exact List.mem_append_left _ (held x hx)
    · exact held x hx

theorem values_readArguments {arguments : List String} (clear : v.Clear)
    (run : readArguments path v = pure arguments) : ∀ x ∈ v.texts, x ∈ arguments := by
  cases v with
  | mapping es =>
    obtain ⟨indexed, rfl⟩ := Noted.bind_pure_eq_pure.1 run
    intro x hx
    obtain ⟨a, ha, rfl⟩ := List.mem_map.1 (values_readIndexedArguments indexed x hx)
    exact List.mem_map_of_mem (List.mem_mergeSort.2 ha)
  | sequence items => exact values_readArgumentItems run
  | tagged tag v => exact clear.untagged.elim
  | _ => exact absurd run Noted.unknownShape_bind_ne_pure

theorem properties_readProperties (path : String) (b : Bean) (v : Value) :
    ∃ properties, (readProperties path b v).value = { b with properties } := by
  unfold readProperties
  split
  · refine Noted.foldlM_induction (P := fun c : Bean => ∃ properties, c = { b with properties })
      ⟨b.properties, rfl⟩ fun c e _ same => ?_
    obtain ⟨properties, rfl⟩ := same
    unfold readProperty
    split
    · exact ⟨_, rfl⟩
    · exact ⟨properties, rfl⟩
  · exact ⟨b.properties, rfl⟩

theorem values_readProperties {b c : Bean} (clear : v.Clear)
    (run : readProperties path b v = pure c) :
    ∀ x ∈ v.texts, x ∈ c.properties.values.map PropertyValue.toText ∨
      x ∈ attributesUnread (v.mapping?.getD []) := by
  unfold readProperties at run
  split at run
  · rename_i es mapping
    obtain rfl := clear.eq_mapping mapping
    have all := foldlM_accounts (fun name x (b : Bean) => b.properties.get? name = some (.ofText x))
      (fun _ _ => []) run ?_ ?_
    · intro x hx
      refine (all x hx).imp_left ?_
      rintro ⟨name, found⟩
      exact List.mem_map.2
        ⟨_, OrderedMap.mem_values_of_get? found, PropertyValue.toText_ofText x⟩
    · intro s s' e name he key read x hx
      unfold readProperty at read
      rw [key] at read
      cases scalar : e.2.scalarText? with
      | some text =>
        rw [scalar] at read
        obtain rfl := Noted.eq_of_pure read
        rw [texts_of_scalarText? scalar, List.mem_singleton] at hx
        rw [hx]
        exact .inl ((OrderedMap.get?_insert ..).trans (if_pos rfl))
      | none =>
        rw [scalar] at read
        exact absurd read Noted.unknownShape_bind_ne_pure
    · intro s e name x other found
      unfold readProperty
      split
      · rename_i later _ key _
        have different : name ≠ later := fun same => other (key.trans (congrArg some same.symm))
        exact (OrderedMap.get?_insert ..).trans ((if_neg different).trans found)
      · exact found
  · exact absurd run Noted.unknownShape_bind_ne_pure

/-- Whether a bean holds a text where a key of its mapping puts it; its name is read first. -/
def BeanHolds (name key x : String) (b : Bean) : Prop :=
  match key with
  | "name" => x = name
  | "type" => b.type = some x
  | "factoryBean" => b.factoryBean = some x
  | "factoryMethod" => b.factoryMethod = some x
  | "constructors" => x ∈ b.arguments
  | "properties" => x ∈ b.properties.values.map PropertyValue.toText
  | _ => b.extra.get? key = some x

theorem accounts_readBeanField (path name : String) :
    Accounts (fun key v => v.Clear ∧ (key = "name" → v.scalarText? = some name))
      (readBeanField path) (BeanHolds name) beanFieldUnread where
  takes {b t key v} read fits x hx := by
    unfold readBeanField at read
    split at read
    · rw [texts_of_scalarText? (fits.2 rfl), List.mem_singleton] at hx
      exact .inl hx
    · obtain rfl := Noted.eq_of_pure read
      exact text_or_unread hx
    · obtain rfl := Noted.eq_of_pure read
      exact text_or_unread hx
    · obtain rfl := Noted.eq_of_pure read
      exact text_or_unread hx
    · obtain ⟨held, rfl⟩ := Noted.bind_pure_eq_pure.1 read
      exact .inl (values_readArguments fits.1 held x hx)
    · exact values_readProperties fits.1 read x hx
    · obtain ⟨held, rfl⟩ := Noted.bind_pure_eq_pure.1 read
      have there := holds_readAttribute held hx
      left
      unfold BeanHolds
      split <;> first | contradiction | exact there
  keeps b key v j x other held := by
    unfold readBeanField
    obtain ⟨properties, same⟩ := properties_readProperties (childPath path "properties") b v
    -- Whatever field is set here, the one that the other key speaks of is another.
    split
    all_goals
      unfold BeanHolds at held ⊢
      split <;> simp_all [keeps_readAttribute]

theorem BeanHolds.mem_values {key x : String} {b : Bean} (h : BeanHolds name key x b)
    (same : b.name = name) : x ∈ b.values := by
  unfold BeanHolds at h
  unfold Bean.values
  split at h
  · rw [h, same]
    exact List.mem_cons_self
  · simp [h]
  · simp [h]
  · simp [h]
  · simp [h]
  · simp only [List.mem_cons, List.mem_append]
    exact .inr (.inl (.inr h))
  · simp [OrderedMap.mem_values_of_get? h]

theorem values_readBean {es : List Entry} {r : Option Bean} (clear : (Value.mapping es).Clear)
    (run : readBean path es = pure r) :
    ∀ x ∈ entriesTexts es, x ∈ r.toList.flatMap Bean.values ∨
      x ∈ fieldsUnread beanFieldUnread es := by
  cases found : scalarUnder? "name" es with
  | none =>
    rw [readBean, found] at run
    exact absurd run Noted.skippedWithout_ne_pure
  | some name =>
    obtain ⟨b, bean, same, -⟩ := readBean_value path found
    rw [run] at bean
    obtain rfl : r = some b := bean
    rw [readBean, found] at run
    obtain ⟨read, last⟩ := Noted.bind_eq_pure.1 run
    have made := Option.some.inj (Noted.eq_of_pure last)
    rw [made] at read
    -- The name is looked up, and no other entry is read under its key.
    have named : ∀ e ∈ es, e.1.scalarText? = some "name" → e.2.scalarText? = some name :=
      fun e he key => (clear.scalarUnder? he key (by decide) (by decide)).symm.trans found
    have all := (accounts_readBeanField path name).readFields read fun e he key is =>
      ⟨clear.entry e he, fun here => named e he (here ▸ is)⟩
    intro x hx
    rw [Option.toList_some, List.flatMap_singleton]
    refine (all x hx).imp_left ?_
    rintro ⟨key, held⟩
    exact held.mem_values same

theorem values_readBeanItem {item : Value} {beans : List Bean} (clear : item.Clear)
    (run : readBeanItem path item = pure beans) :
    ∀ x ∈ item.texts, x ∈ beans.flatMap Bean.values ∨
      x ∈ fieldsUnread beanFieldUnread (item.mapping?.getD []) := by
  unfold readBeanItem at run
  split at run
  · rename_i es mapping
    obtain rfl := clear.eq_mapping mapping
    obtain ⟨read, rfl⟩ := Noted.bind_pure_eq_pure.1 run
    exact values_readBean clear read
  · exact absurd run Noted.unknownShape_bind_ne_pure

theorem values_readBeanItems {index : Nat} {items : List Value} {beans : List Bean}
    (clear : ∀ v ∈ items, v.Clear) (run : readBeanItems path index items = pure beans) :
    ∀ x ∈ itemsTexts items, x ∈ beans.flatMap Bean.values ∨ x ∈ beansUnread items := by
  induction items generalizing index beans with
  | nil => nofun
  | cons item rest ih =>
    obtain ⟨below, others⟩ := List.forall_mem_cons.1 clear
    rw [readBeanItems, Noted.bind_eq_pure, Noted.bind_eq_pure] at run
    obtain ⟨first, later, last⟩ := run
    obtain rfl := Noted.eq_of_pure last
    intro x hx
    rw [List.flatMap_append, beansUnread, List.flatMap_cons, List.mem_append, List.mem_append]
    rcases List.mem_append.1 hx with here | after
    · exact (values_readBeanItem below first x here).imp .inl .inl
    · exact (ih others later x after).imp .inr .inr

theorem values_readBeans {beans : List Bean} (clear : v.Clear)
    (run : readBeans path v = pure beans) :
    ∀ x ∈ v.texts, x ∈ beans.flatMap Bean.values ∨ x ∈ beansUnread (v.sequence?.getD []) := by
  unfold readBeans at run
  split at run
  · rename_i items found
    obtain rfl := clear.eq_sequence found
    exact values_readBeanItems clear.item run
  · exact absurd run Noted.unknownShape_bind_ne_pure

end Beans

section References
variable {path : String} {es : List Entry}

/-- A key that is not read in a reference would have been noted. -/
theorem isReferenceKey_of_readReference {r : Option Reference}
    (run : readReference path es = pure r) {e : Entry} (he : e ∈ es) {key : String}
    (scalar : e.1.scalarText? = some key) : isReferenceKey key := by
  unfold readReference at run
  split at run
  · exact absurd run Noted.skippedWithout_ne_pure
  · exact absurd run Noted.skippedWithout_ne_pure
  · have none := congrArg Noted.notes run
    rw [Noted.notes_pure, List.map_eq_nil_iff, List.filter_eq_nil_iff] at none
    simpa using none key (List.mem_filterMap.2 ⟨e, he, scalar⟩)

theorem values_readReference {r : Option Reference} (clear : (Value.mapping es).Clear)
    (run : readReference path es = pure r) :
    ∀ x ∈ entriesTexts es, x ∈ r.toList.flatMap Reference.values ∨
      x ∈ fieldsUnread referenceFieldUnread es := by
  have known := @isReferenceKey_of_readReference path es r run
  unfold readReference at run
  split at run
  · exact absurd run Noted.skippedWithout_ne_pure
  · exact absurd run Noted.skippedWithout_ne_pure
  · rename_i id interface hasId hasInterface
    obtain rfl : some _ = r := congrArg Noted.value run
    intro x hx
    rw [Option.toList_some, List.flatMap_singleton]
    rw [entriesTexts_eq, List.mem_flatMap] at hx
    obtain ⟨e, he, hx⟩ := hx
    have looked {word : String} (key : e.1.scalarText? = some word)
        (noNumber : startsNumber word = false) (noTruth : word ≠ "true" ∧ word ≠ "false") :
        ∀ text, scalarUnder? word es = some text → x = text := by
      intro text found
      rw [clear.scalarUnder? he key noNumber noTruth] at found
      rwa [texts_of_scalarText? found, List.mem_singleton] at hx
    by_cases held : x ∈ Reference.values ⟨id, interface, scalarUnder? "filter" es⟩
    · exact .inl held
    · refine .inr (mem_fieldsUnread he hx fun key scalar => ?_)
      simp only [Reference.values, List.mem_cons, Option.mem_toList, not_or] at held
      obtain ⟨noId, noInterface, noFilter⟩ := held
      have named := known he scalar
      simp only [isReferenceKey, List.contains_eq_mem, List.mem_cons, List.not_mem_nil, or_false,
        decide_eq_true_eq] at named
      rcases named with rfl | rfl | rfl
      · exact absurd (looked scalar (by decide) (by decide) id hasId) noId
      · exact absurd (looked scalar (by decide) (by decide) interface hasInterface) noInterface
      · rw [clear.scalarUnder? he scalar (by decide) (by decide)] at noFilter
        rw [referenceFieldUnread, if_pos rfl]
        exact (text_or_unread hx).resolve_left noFilter

end References
end RouteNotation.Dsl
