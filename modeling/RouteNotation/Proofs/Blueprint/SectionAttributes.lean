import RouteNotation.Proofs.Blueprint.BeanElements

/-!
What becomes of the attributes of beans and references when markup is read with nothing noted. Each
is kept, but for those that another one takes the place of and those that no rule reads. Main
statement: `readDocument_sectionAttributes`.
-/

namespace RouteNotation

/-- Whether a text stands in a bean: as its name, in a field, as an argument, as the name or the
value of a property, or as another attribute. A reference is written behind a mark. -/
inductive Bean.Holds (b : Bean) (v : String) : Prop
  | name : b.name = v → Holds b v
  | type : b.type = some v → Holds b v
  | factoryBean : b.factoryBean = some v → Holds b v
  | factoryMethod : b.factoryMethod = some v → Holds b v
  | argument {x : PropertyValue} : x = .literal v ∨ x = .reference v → x.toText ∈ b.arguments →
      Holds b v
  | propertyName : v ∈ b.properties.keys → Holds b v
  | propertyValue {x : PropertyValue} : x = .literal v ∨ x = .reference v →
      x ∈ b.properties.entries.map Prod.snd → Holds b v
  | extra : v ∈ b.extra.entries.map Prod.snd → Holds b v

/-- Whether a text stands in a reference. -/
def Reference.Holds (r : Reference) (v : String) : Prop :=
  r.id = v ∨ r.interface = v ∨ r.filter = some v

namespace Blueprint

open Xml OrderedMap

section Sections

mutual

/-- The sections in an element: itself, or those that it groups. -/
def sectionsIn : Element → List Element
  | ⟨name, attributes, children⟩ =>
    if localName name ∈ groupTags then contentsSections children
    else [⟨name, attributes, children⟩]

def contentsSections : List Content → List Element
  | [] => []
  | .element e :: rest => sectionsIn e ++ contentsSections rest
  | .text _ :: rest => contentsSections rest

end

/-- The sections of a root, which may also be a single route. -/
def sections (root : Element) : List Element :=
  if root.localName = "route" then [root] else contentsSections root.children

mutual

theorem foldlM_sectionsIn (d : Document) :
    (e : Element) → (sectionsIn e).foldlM readSection d = readSection d e
  | ⟨name, attributes, children⟩ => by
    rw [sectionsIn]
    split
    · rename_i group
      rw [readSection_of_group d group]
      exact foldlM_contentsSections d children
    · rw [List.foldlM_cons]
      exact bind_pure _

theorem foldlM_contentsSections (d : Document) :
    (cs : List Content) → (contentsSections cs).foldlM readSection d = readSections d cs
  | [] => rfl
  | .text _ :: rest => foldlM_contentsSections d rest
  | .element e :: rest => by
    rw [contentsSections, List.foldlM_append, foldlM_sectionsIn d e, readSections]
    exact bind_congr fun d => foldlM_contentsSections d rest

end

theorem foldlM_sections (root : Element) :
    (sections root).foldlM readSection .empty = readDocument root := by
  rw [sections, readDocument]
  split
  · rw [List.foldlM_cons]
    exact bind_pure _
  · exact foldlM_contentsSections .empty root.children

/-- Each section is read with nothing noted, and what it adds stays in the document. -/
theorem readSection_of_mem {root e : Element} {d : Document} (read : readDocument root = pure d)
    (he : e ∈ sections root) :
    ∃ before added after, readSection before e = pure added ∧ d = added.merge after := by
  obtain ⟨l, r, split⟩ := List.append_of_mem he
  rw [← foldlM_sections, split] at read
  obtain ⟨before, added, here, rest⟩ := Noted.foldlM_split read
  refine ⟨before, added, .mergeAll (r.map fun e => (readSection .empty e).value), here, ?_⟩
  rw [← Noted.value_foldlM_merge value_readSection added r, rest]
  rfl

end Sections

section Attributes

/-- The attributes that name the factory of a bean. -/
def factoryKeys : List String := ["factory-ref", "factory-bean"]

/-- What a bean has of the attribute `key`. -/
def beanField (key : String) (b : Bean) : Option String :=
  match key with
  | "id" => some b.name
  | "class" => b.type
  | "factory-ref" | "factory-bean" => b.factoryBean
  | "factory-method" => b.factoryMethod
  | key => b.extra.get? key

variable {b : Bean} {key v : String} {e : Element}

theorem holds_of_beanField (h : beanField key b = some v) : b.Holds v := by
  unfold beanField at h
  split at h
  · exact .name (Option.some.inj h)
  · exact .type h
  · exact .factoryBean h
  · exact .factoryBean h
  · exact .factoryMethod h
  · exact .extra (List.mem_map.2 ⟨_, mem_entries_of_get? h, rfl⟩)

theorem beanField_addBeanAttribute (b : Bean) {a : String × String} (notId : a.1 ≠ "id") :
    beanField a.1 (addBeanAttribute b a) = some a.2 := by
  unfold addBeanAttribute
  split
  · rename_i id
    exact absurd id notId
  · rename_i key
    rw [key]
    rfl
  · rename_i key
    rw [key]
    rfl
  · rename_i key
    rw [key]
    rfl
  · rename_i key
    rw [key]
    rfl
  · unfold beanField
    split <;> simp_all [get?_insert]

/-- Another attribute changes nothing, unless both name the factory. -/
theorem beanField_addOther (b : Bean) {a : String × String} (other : key ≠ a.1)
    (factory : a.1 ∈ factoryKeys → key ∉ factoryKeys) :
    beanField key (addBeanAttribute b a) = beanField key b := by
  unfold addBeanAttribute
  split <;> unfold beanField <;> split <;> simp_all [factoryKeys, get?_insert]

end Attributes

section Beans

/-- The attributes of a bean, and of the elements in it, that are read as nothing though nothing is
noted. -/
inductive Unread (bean : Element) : Element → String × String → Prop
  /-- A factory before another one. -/
  | factory {a b : String × String} : a.1 ∈ factoryKeys → b.1 ∈ factoryKeys →
      [a, b].Sublist bean.attributes.entries → Unread bean bean a
  /-- A name that is not read in an argument or a property. -/
  | other {e : Element} {a : String × String} : e ∈ bean.elements →
      a.1 ∉ ["name", "value", "ref"] → Unread bean e a
  /-- An argument is not named. -/
  | argumentName {e : Element} {a : String × String} : e ∈ bean.elements →
      e.localName = "argument" → a.1 = "name" → Unread bean e a
  /-- A reference beside a value. -/
  | reference {e : Element} {a : String × String} : e ∈ bean.elements → a.1 = "ref" →
      e.attribute? "value" ≠ none → Unread bean e a
  /-- The value of a property before another one with the same name. -/
  | property {e f : Element} {a : String × String} : a.1 ≠ "name" → e.localName = "property" →
      f.localName = "property" → f.attribute? "name" = e.attribute? "name" →
      [e, f].Sublist bean.elements → Unread bean e a

theorem pair_sublist {α : Type} {l r : List α} {a b : α} (hb : b ∈ r) :
    [a, b].Sublist (l ++ a :: r) :=
  ((List.singleton_sublist.2 hb).cons_cons a).trans (List.sublist_append_right l (a :: r))

theorem beanField_addBeanAttributes {e : Element} {id : String}
    (named : e.attribute? "id" = some id)
    {a : String × String} (ha : a ∈ e.attributes.entries) :
    beanField a.1 (e.attributes.entries.foldl addBeanAttribute (.named id)) = some a.2 ∨
      Unread e e a := by
  have value := get?_of_mem ha
  by_cases isId : a.1 = "id"
  · left
    rw [isId] at value ⊢
    rw [beanField, name_addBeanAttributes, ← value]
    exact named.symm
  · obtain ⟨l, r, split⟩ := List.append_of_mem ha
    by_cases later : a.1 ∈ factoryKeys ∧ ∃ b ∈ r, b.1 ∈ factoryKeys
    · obtain ⟨first, b, hb, second⟩ := later
      exact .inr (.factory first second (split ▸ pair_sublist hb))
    · left
      have nodup := e.attributes.nodup
      rw [split, List.map_append, List.map_cons, List.nodup_append, List.nodup_cons] at nodup
      rw [split, List.foldl_append, List.foldl_cons]
      apply List.foldlRecOn (motive := fun b => beanField a.1 b = some a.2) _ _
        (beanField_addBeanAttribute _ isId)
      intro b kept c hc
      rw [beanField_addOther b, kept]
      · intro same
        exact nodup.2.1.1 (same ▸ List.mem_map_of_mem hc)
      · intro second first
        exact later ⟨first, c, hc, second⟩

/-- What is read of an element in a bean: an argument or a property. -/
theorem readBeanChild_eq_pure {path : String} {b b' : Bean} {e : Element}
    (read : readBeanChild path b e = pure b') :
    ∃ x, propertyValue? e = some x ∧
      ((e.localName = "argument" ∧ b' = { b with arguments := b.arguments ++ [x.toText] }) ∨
        ∃ name, e.localName = "property" ∧ e.attribute? "name" = some name ∧
          b' = { b with properties := b.properties.insert name x }) := by
  unfold readBeanChild at read
  dsimp only at read
  split at read
  · rename_i tag
    unfold readArgument at read
    split at read
    · rename_i x value
      exact ⟨x, value, .inl ⟨tag, (congrArg Noted.value read).symm⟩⟩
    · exact absurd read Noted.unknownShape_bind_ne_pure
  · rename_i tag
    unfold readProperty at read
    split at read
    · cases congrArg Noted.notes read
    · rename_i name named
      split at read
      · rename_i x value
        exact ⟨x, value, .inr ⟨name, tag, named, (congrArg Noted.value read).symm⟩⟩
      · exact absurd read Noted.unknownShape_bind_ne_pure
  · exact absurd read Noted.unknownShape_bind_ne_pure

theorem beanField_readBeanChild {path key : String} {b b' : Bean} {e : Element}
    (read : readBeanChild path b e = pure b') : beanField key b' = beanField key b := by
  obtain ⟨x, -, ⟨-, rfl⟩ | ⟨name, -, -, rfl⟩⟩ := readBeanChild_eq_pure read <;> rfl

/-- An attribute of an argument or a property is its value, if it is not its name and is read. -/
theorem value_or_unread {bean e : Element} {x : PropertyValue} (he : e ∈ bean.elements)
    (value : propertyValue? e = some x) {a : String × String} (ha : a ∈ e.attributes.entries)
    (notName : a.1 ≠ "name") : (x = .literal a.2 ∨ x = .reference a.2) ∨ Unread bean e a := by
  have found : e.attribute? a.1 = some a.2 := get?_of_mem ha
  unfold propertyValue? at value
  by_cases isValue : a.1 = "value"
  · rw [isValue] at found
    rw [found] at value
    cases value
    exact .inl (.inl rfl)
  by_cases isRef : a.1 = "ref"
  · rw [isRef] at found
    cases beside : e.attribute? "value" with
    | none =>
      rw [beside, found] at value
      cases value
      exact .inl (.inr rfl)
    | some text => exact .inr (.reference he isRef (by rw [beside]; nofun))
  · exact .inr (.other he (by simp [notName, isValue, isRef]))

theorem holds_of_readBeanChild {path : String} {bean e : Element} {l r : List Element}
    {b₁ b₂ b : Bean} (split : bean.elements = l ++ e :: r)
    (read : readBeanChild path b₁ e = pure b₂) (rest : r.foldlM (readBeanChild path) b₂ = pure b)
    {a : String × String} (ha : a ∈ e.attributes.entries) : b.Holds a.2 ∨ Unread bean e a := by
  have he : e ∈ bean.elements := split ▸ List.mem_append_right l List.mem_cons_self
  obtain ⟨x, value, ⟨tag, rfl⟩ | ⟨name, tag, named, rfl⟩⟩ := readBeanChild_eq_pure read
  · by_cases isName : a.1 = "name"
    · exact .inr (.argumentName he tag isName)
    refine (value_or_unread he value ha isName).imp_left fun gives => .argument gives ?_
    refine Noted.foldlM_pure_induction (P := fun b : Bean => x.toText ∈ b.arguments) rest
      (List.mem_append_right _ List.mem_cons_self) fun s s' f _ step there => ?_
    obtain ⟨y, -, ⟨-, rfl⟩ | ⟨_, -, -, rfl⟩⟩ := readBeanChild_eq_pure step
    · exact List.mem_append_left _ there
    · exact there
  · by_cases isName : a.1 = "name"
    · left
      have same : a.2 = name := by
        have found : e.attribute? a.1 = some a.2 := get?_of_mem ha
        rw [isName, named] at found
        exact (Option.some.inj found).symm
      rw [same]
      refine .propertyName ?_
      refine Noted.foldlM_pure_induction (P := fun b : Bean => name ∈ b.properties.keys) rest
        (mem_keys_insert.2 (.inr rfl)) fun s s' f _ step there => ?_
      obtain ⟨y, -, ⟨-, rfl⟩ | ⟨_, -, -, rfl⟩⟩ := readBeanChild_eq_pure step
      · exact there
      · exact mem_keys_insert.2 (.inl there)
    by_cases later : ∃ f ∈ r, f.localName = "property" ∧ f.attribute? "name" = some name
    · obtain ⟨f, hf, second, again⟩ := later
      exact .inr (.property isName tag second (again.trans named.symm) (split ▸ pair_sublist hf))
    refine (value_or_unread he value ha isName).imp_left fun gives => .propertyValue gives ?_
    have last : b.properties.get? name = some x := by
      refine Noted.foldlM_pure_induction (P := fun b : Bean => b.properties.get? name = some x) rest
        ((get?_insert _ _ _ _).trans (if_pos rfl)) fun s s' f hf step there => ?_
      obtain ⟨y, -, ⟨-, rfl⟩ | ⟨other, second, again, rfl⟩⟩ := readBeanChild_eq_pure step
      · exact there
      · have different : name ≠ other := fun same => later ⟨f, hf, second, same ▸ again⟩
        exact (get?_insert _ _ _ _).trans ((if_neg different).trans there)
    exact List.mem_map.2 ⟨_, mem_entries_of_get? last, rfl⟩

/-- A bean that is read with nothing noted. -/
theorem holds_of_readBean {path : String} {e : Element} {b : Bean}
    (read : readBean path e = pure (some b)) :
    ∀ f ∈ e :: e.elements, ∀ a ∈ f.attributes.entries, b.Holds a.2 ∨ Unread e f a := by
  unfold readBean at read
  split at read
  · cases congrArg Noted.notes read
  · rename_i id named
    obtain ⟨run, same⟩ := Noted.bind_eq_pure.1 read
    cases congrArg Noted.value same
    rw [List.forall_mem_cons]
    refine ⟨fun a ha => ?_, fun f hf a ha => ?_⟩
    · refine (beanField_addBeanAttributes named ha).imp_left fun field => ?_
      exact holds_of_beanField (Noted.foldlM_pure_induction
        (P := fun b : Bean => beanField a.1 b = some a.2) run field
        fun s s' f _ step kept => (beanField_readBeanChild step).trans kept)
    · obtain ⟨l, r, split⟩ := List.append_of_mem hf
      have parts := run
      rw [split] at parts
      obtain ⟨b₁, b₂, here, rest⟩ := Noted.foldlM_split parts
      exact holds_of_readBeanChild split here (split ▸ rest) ha

end Beans

theorem holds_of_readReference {path : String} {e : Element} {r : Reference}
    (read : readReference path e = pure (some r)) : ∀ a ∈ e.attributes.entries, r.Holds a.2 := by
  intro a ha
  have found : e.attribute? a.1 = some a.2 := get?_of_mem ha
  unfold readReference at read
  split at read
  · cases congrArg Noted.notes read
  · cases congrArg Noted.notes read
  · rename_i id interface named typed
    cases congrArg Noted.value read
    have known : isReferenceKey a.1 := by
      have none := List.map_eq_nil_iff.1 (congrArg Noted.notes read)
      have passes := List.filter_eq_nil_iff.1 none a.1 (List.mem_map_of_mem ha)
      simpa using passes
    simp only [isReferenceKey, List.contains_eq_mem, List.mem_cons, List.not_mem_nil, or_false,
      decide_eq_true_eq] at known
    rcases known with key | key | key <;> rw [key] at found
    · exact .inl (Option.some.inj (named.symm.trans found))
    · exact .inr (.inl (Option.some.inj (typed.symm.trans found)))
    · exact .inr (.inr found)

theorem exists_bean {d d' : Document} {e : Element} (tag : e.localName = "bean")
    (read : readSection d e = pure d') :
    ∃ path b, readBean path e = pure (some b) ∧ b ∈ d'.beans := by
  rw [readSection_of_bean tag, Noted.bind_eq_pure] at read
  obtain ⟨here, same⟩ := read
  cases congrArg Noted.value same
  cases found : (readBean (entityPath e d.beans.length) e).value with
  | none =>
    rw [found] at here
    unfold readBean at here
    split at here
    · cases congrArg Noted.notes here
    · cases congrArg Noted.value here
  | some b => exact ⟨_, b, found ▸ here, List.mem_append_right _ (by simp)⟩

theorem exists_reference {d d' : Document} {e : Element} (tag : e.localName = "reference")
    (read : readSection d e = pure d') :
    ∃ path r, readReference path e = pure (some r) ∧ r ∈ d'.references := by
  rw [readSection_of_reference tag, Noted.bind_eq_pure] at read
  obtain ⟨here, same⟩ := read
  cases congrArg Noted.value same
  cases found : (readReference (entityPath e d.references.length) e).value with
  | none =>
    rw [found] at here
    unfold readReference at here
    split at here
    · cases congrArg Noted.notes here
    · cases congrArg Noted.notes here
    · cases congrArg Noted.value here
  | some r => exact ⟨_, r, found ▸ here, List.mem_append_right _ (by simp)⟩

/-- The attributes of the beans and references that are read with nothing noted. Of a bean, and of
the arguments and properties in it, each stands in that bean or is one of those that are not read;
of a reference each stands in it. -/
theorem readDocument_sectionAttributes {root : Element} {d : Document}
    (read : readDocument root = pure d) {e : Element} (he : e ∈ sections root) :
    (e.localName = "bean" → ∃ b ∈ d.beans, ∀ f ∈ e :: e.elements, ∀ a ∈ f.attributes.entries,
      b.Holds a.2 ∨ Unread e f a) ∧
    (e.localName = "reference" → ∃ r ∈ d.references, ∀ a ∈ e.attributes.entries,
      r.Holds a.2) := by
  obtain ⟨before, added, after, here, rfl⟩ := readSection_of_mem read he
  constructor
  · intro tag
    obtain ⟨path, b, bean, there⟩ := exists_bean tag here
    exact ⟨b, List.mem_append_left _ there, holds_of_readBean bean⟩
  · intro tag
    obtain ⟨path, r, reference, there⟩ := exists_reference tag here
    exact ⟨r, List.mem_append_left _ there, holds_of_readReference reference⟩

section Example

/-- A bean in a group, with a value and with a reference, and a reference to a service beside it. -/
def servicesRoot : Element :=
  .ofElements "blueprint" .empty [
    .ofElements "camelContext" .empty [
      .ofElements "bean"
        (.ofList [("id", "a"), ("class", "C"), ("factory-ref", "f"), ("scope", "s")])
        [.leaf "argument" (.single "value" "v"),
          .leaf "property" (.ofList [("name", "p"), ("ref", "q")])]],
    .leaf "reference" (.ofList [("id", "r"), ("interface", "i"), ("filter", "x")])]

def servicesDocument : Document :=
  { Document.empty with
    beans := [⟨"a", some "C", some "f", none, ["v"], .single "p" (.reference "q"),
      .single "scope" "s"⟩]
    references := [⟨"r", "i", some "x"⟩] }

theorem readDocument_sectionAttributes_servicesRoot :
    readDocument servicesRoot = pure servicesDocument ∧
      (∃ b ∈ servicesDocument.beans, b.Holds "q") ∧
      ∃ r ∈ servicesDocument.references, r.Holds "x" := by
  have read : readDocument servicesRoot = pure servicesDocument := by decide +kernel
  let property : Element := .leaf "property" (.ofList [("name", "p"), ("ref", "q")])
  let bean : Element := .ofElements "bean"
    (.ofList [("id", "a"), ("class", "C"), ("factory-ref", "f"), ("scope", "s")])
    [.leaf "argument" (.single "value" "v"), property]
  let reference : Element :=
    .leaf "reference" (.ofList [("id", "r"), ("interface", "i"), ("filter", "x")])
  have isRead : ∀ f, f = property → ¬ Unread bean f ("ref", "q") := by
    intro f same unread
    cases unread with
    | factory => exact absurd same (by decide +kernel)
    | other _ name => exact absurd name (by decide)
    | argumentName _ _ name => exact absurd name (by decide)
    | reference _ _ beside => exact beside (by rw [same]; decide +kernel)
    | property _ _ _ _ later =>
      have both := (List.cons.inj (later.eq_of_length rfl)).1
      exact absurd (same.symm.trans both) (by decide +kernel)
  have beans := (readDocument_sectionAttributes read (e := bean) (by decide +kernel)).1 (by decide)
  have references :=
    (readDocument_sectionAttributes read (e := reference) (by decide +kernel)).2 (by decide)
  refine ⟨read, ?_, ?_⟩
  · obtain ⟨b, hb, holds⟩ := beans
    have ref := holds property (by decide +kernel) ("ref", "q") (by decide +kernel)
    exact ⟨b, hb, ref.resolve_right (isRead property rfl)⟩
  · obtain ⟨r, hr, holds⟩ := references
    exact ⟨r, hr, holds ("filter", "x") (by decide +kernel)⟩

/-- The place of an argument is lost, and nothing is noted. -/
theorem readDocument_sectionAttributes_indexedArgument :
    let argument : Element := .leaf "argument" (.ofList [("index", "7"), ("value", "v")])
    let bean : Element := .ofElements "bean" (.single "id" "a") [argument]
    let b : Bean := ⟨"a", none, none, none, ["v"], .empty, .empty⟩
    bean ∈ sections (.ofElements "blueprint" .empty [bean]) ∧
      ("index", "7") ∈ argument.attributes.entries ∧
      readDocument (.ofElements "blueprint" .empty [bean]) = pure (.ofBean b) ∧ ¬ b.Holds "7" := by
  refine ⟨by decide +kernel, by decide +kernel, by decide +kernel, ?_⟩
  rintro (h | h | h | h | ⟨rfl | rfl, h⟩ | h | ⟨rfl | rfl, h⟩ | h) <;> revert h <;> decide +kernel

end Example
end Blueprint
end RouteNotation
