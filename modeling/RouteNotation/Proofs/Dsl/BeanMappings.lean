import RouteNotation.Proofs.Dsl.Fields
import RouteNotation.Proofs.Dsl.SeparateSections

/-!
The mappings of beans, as they are found in value trees and as they are written. Main statements:
beans are read from the mappings that have a name, in order, and which name is written for a bean.
-/

namespace RouteNotation.Dsl

open Yaml OrderedMap

/-- The mappings in the lists under `beans`. -/
def sectionBeans (e : Entry) : List (List Entry) :=
  if e.1.scalarText? = some "beans" then (e.2.sequence?.getD []).filterMap Value.mapping? else []

def itemBeans (item : Value) : List (List Entry) := (item.mapping?.getD []).flatMap sectionBeans

/-- The mappings of all beans in a document. -/
def beanMappings (v : Value) : List (List Entry) := (v.sequence?.getD []).flatMap itemBeans

/-- Those that can be read: a bean must have a name. -/
def namedBeans (v : Value) : List (List Entry) :=
  (beanMappings v).filter fun es => (scalarUnder? "name" es).isSome

theorem beans_readBeans (path : String) (v : Value) : (readBeans path v).value =
    ((v.sequence?.getD []).filterMap Value.mapping?).filterMap fun es =>
      (readBean "" es).value := by
  unfold readBeans
  cases v.sequence? with
  | none => rfl
  | some items =>
    rw [value_readBeanItems path "", Option.getD_some, List.filterMap_filterMap]
    induction items with
    | nil => rfl
    | cons item items ih =>
      rw [List.flatMap_cons, ih, List.filterMap_cons, readBeanItem]
      cases item.mapping? with
      | none => rfl
      | some es => cases found : (readBean "" es).value <;> simp [found]

theorem beans_readEach {read : String → Document → List Entry → Noted Document}
    (alone : AddsAlone read) (none : ∀ es, (read "" .empty es).value.beans = []) (path : String)
    (v : Value) : (readEach read path .empty v).value.beans = [] := by
  rw [value_readEach alone path "", Document.empty_merge, Document.beans_mergeAll,
    List.flatMap_eq_nil_iff]
  intro d hd
  obtain ⟨es, _, rfl⟩ := List.mem_map.1 hd
  exact none es

/-- Only one section is for beans. -/
theorem beans_readSection {key : String} (other : key ≠ "beans") (path : String) (v : Value) :
    (readSection path .empty key v).value.beans = [] := by
  unfold readSection
  split
  · exact absurd rfl other
  · exact beans_readEach addsAlone_addReference (fun _ => rfl) path v
  · exact beans_readEach addsAlone_addRestConfiguration (fun _ => rfl) path v
  · exact beans_readEach addsAlone_addRestApi (fun _ => rfl) path v
  · exact beans_readEach addsAlone_addRoute (fun _ => rfl) path v
  · split <;> rfl
  · rfl

theorem beans_readSectionEntry (path : String) (e : Entry) :
    (readSectionEntry path .empty e).value.beans =
      (sectionBeans e).filterMap fun es => (readBean "" es).value := by
  unfold readSectionEntry sectionBeans
  cases e.1.scalarText? with
  | none => rfl
  | some key =>
    by_cases beans : key = "beans"
    · subst beans
      rw [if_pos rfl, ← beans_readBeans (childPath path "beans")]
      exact List.nil_append _
    · rw [if_neg fun same => beans (Option.some.inj same)]
      exact beans_readSection beans _ e.2

theorem beans_readItem (path : String) (item : Value) : (readItem path .empty item).value.beans =
    (itemBeans item).filterMap fun es => (readBean "" es).value := by
  unfold readItem itemBeans
  cases item.mapping? with
  | none => rfl
  | some es =>
    rw [Noted.value_foldlM_merge (value_readSectionEntry path path), Document.empty_merge,
      Document.beans_mergeAll, List.flatMap_map, Option.getD_some, List.filterMap_flatMap]
    exact congrArg es.flatMap (funext (beans_readSectionEntry path))

theorem beans_readDocument {v : Value} {d : Noted Document} (h : readDocument v = .ok d) :
    d.value.beans = (beanMappings v).filterMap fun es => (readBean "" es).value := by
  unfold readDocument at h
  split at h
  · cases h
    rfl
  · rename_i items
    cases h
    have all : beanMappings (.sequence items) = items.flatMap itemBeans := rfl
    rw [value_readItems "", Document.empty_merge, Document.beans_mergeAll, List.flatMap_map, all,
      List.filterMap_flatMap]
    exact congrArg items.flatMap (funext (beans_readItem ""))
  · cases h

/-- The text of the last scalar under a key. -/
def lastScalarUnder? (key : String) (es : List Entry) : Option String :=
  (es.filterMap fun e => if e.1.scalarText? = some key then e.2.scalarText? else none).getLast?

theorem get?_readAttribute (path : String) (m : Attributes) {key : String} (k : String) (v : Value)
    (valid : Xml.isValidName k) : (readAttribute path m key v).value.get? k =
      if key = k then v.scalarText?.or (m.get? k) else m.get? k := by
  unfold readAttribute
  split
  · rename_i invalid
    rw [if_neg]
    · rfl
    · rintro rfl
      simp [valid] at invalid
  · split
    · rename_i text scalar
      rw [scalar, Noted.value_pure, get?_insert]
      by_cases same : key = k
      · subst same
        rw [if_pos rfl, if_pos rfl, Option.some_or]
      · rw [if_neg (Ne.symm same), if_neg same]
    · rename_i none
      rw [none]
      split <;> rfl

theorem extra_readProperties (path : String) (b : Bean) (v : Value) :
    (readProperties path b v).value.name = b.name ∧
      (readProperties path b v).value.extra = b.extra := by
  unfold readProperties
  split
  · refine Noted.foldlM_induction (P := fun c : Bean => c.name = b.name ∧ c.extra = b.extra)
      ⟨rfl, rfl⟩ fun c e _ same => ?_
    unfold readProperty
    split <;> exact same
  · exact ⟨rfl, rfl⟩

/-- A key called `id` is like any other. -/
theorem id_readBeanField (path : String) (b : Bean) (key : String) (v : Value) :
    (readBeanField path b key v).value.name = b.name ∧
      (readBeanField path b key v).value.extra.get? "id" =
        (if key = "id" then v.scalarText? else none).or (b.extra.get? "id") := by
  unfold readBeanField
  split
  · exact ⟨rfl, rfl⟩
  · exact ⟨rfl, rfl⟩
  · exact ⟨rfl, rfl⟩
  · exact ⟨rfl, rfl⟩
  · exact ⟨rfl, rfl⟩
  · obtain ⟨name, extra⟩ := extra_readProperties (childPath path "properties") b v
    exact ⟨name, congrArg (·.get? "id") extra⟩
  · refine ⟨rfl, (get?_readAttribute path b.extra "id" v (by decide)).trans ?_⟩
    split <;> rfl

theorem readBean_value (path : String) {name : String} {es : List Entry}
    (h : scalarUnder? "name" es = some name) :
    ∃ b, (readBean path es).value = some b ∧ b.name = name ∧
      b.extra.get? "id" = lastScalarUnder? "id" es := by
  have read : (readBean path es).value =
      some (readFields (readBeanField path) (.named name) es).value := by
    rw [readBean, h]
    rfl
  refine ⟨_, read, ?_, ?_⟩
  · refine Noted.foldlM_induction (P := fun b : Bean => b.name = name) rfl fun b e _ same => ?_
    split
    · exact (id_readBeanField path b _ e.2).1.trans same
    · exact same
  · -- A later `id` takes the place of an earlier one, unless its value is no scalar.
    refine (Noted.foldlM_last (fun b : Bean => b.extra.get? "id")
      (fun e : Entry => if e.1.scalarText? = some "id" then e.2.scalarText? else none)
      (fun b e => ?_) (.named name) es).trans (Option.or_none)
    split
    · rename_i key text
      rw [(id_readBeanField path b key e.2).2, text]
      simp
    · rename_i none
      rw [none]
      rfl

/-- What is true of each bean by what its mapping is like, in order. -/
theorem map_beans_readDocument {α : Type} {f : Bean → α} {g : List Entry → α}
    (h : ∀ es name b, scalarUnder? "name" es = some name → b.name = name →
      b.extra.get? "id" = lastScalarUnder? "id" es → f b = g es) {v : Value} {d : Noted Document}
    (read : readDocument v = .ok d) : d.value.beans.map f = (namedBeans v).map g := by
  have each : ∀ es : List Entry, ((readBean "" es).value.map f) =
      if (scalarUnder? "name" es).isSome then some (g es) else none := by
    intro es
    cases found : scalarUnder? "name" es with
    | none =>
      rw [readBean, found]
      rfl
    | some name =>
      obtain ⟨b, bean, same, extra⟩ := readBean_value "" found
      rw [bean, Option.map_some, h es name b found same extra]
      rfl
  rw [beans_readDocument read]
  exact map_filterMap_of_filter each _

theorem scalarUnder?_putAttributes (fields : Fields) (attributes : Attributes) (key : String) :
    ((fields.putAttributes attributes).get? key).bind Value.scalarText? =
      (attributes.get? key).or ((fields.get? key).bind Value.scalarText?) := by
  apply foldl_field (fun fields : Fields => (fields.get? key).bind Value.scalarText?) key
  · intro fields text
    rw [Fields.putText, get?_put, if_pos rfl]
    rfl
  · intro fields a other
    rw [Fields.putText, get?_put, if_neg (Ne.symm other)]

theorem get?_putUnless {key k : String} (other : k ≠ key) (empty : Bool) (fields : Fields)
    (v : Value) : (putUnless empty fields key v).get? k = fields.get? k := by
  cases empty with
  | true => rfl
  | false => exact (get?_put fields key k v).trans (if_neg other)

theorem get?_putText? {key k : String} (other : k ≠ key) (fields : Fields) (text : Option String) :
    (fields.putText? key text).get? k = fields.get? k := by
  cases text with
  | none => rfl
  | some text => exact (get?_put fields key k _).trans (if_neg other)

/-- An attribute of its own takes the place of the name that is written for a bean. -/
theorem name_beanValue (b : Bean) : ∃ es, (beanValue b).mapping? = some es ∧
    scalarUnder? "name" es = (b.extra.get? "name").or (some b.name) := by
  refine ⟨_, rfl, ?_⟩
  change (lookup? "name" (Fields.toEntries _)).bind Value.scalarText? = _
  rw [Fields.lookup?_toEntries, get?_putUnless (by decide), get?_putUnless (by decide),
    scalarUnder?_putAttributes, get?_putText? (by decide), get?_putText? (by decide),
    get?_putText? (by decide), get?_put, if_pos rfl]
  rfl

theorem itemBeans_ofEntry (key : String) (v : Value) : itemBeans (.ofEntry key v) =
    if key = "beans" then (v.sequence?.getD []).filterMap Value.mapping? else [] := by
  rw [itemBeans, Value.ofEntry]
  change [entry key v].flatMap sectionBeans = _
  rw [List.flatMap_singleton, sectionBeans]
  simp [entry, Value.scalarText?]

theorem itemBeans_others {α : Type} {key : String} (other : key ≠ "beans") (f : α → Value)
    (as : List α) : (as.map fun a => Value.ofEntry key (f a)).flatMap itemBeans = [] := by
  rw [List.flatMap_map, List.flatMap_eq_nil_iff]
  intro a _
  rw [itemBeans_ofEntry, if_neg other]

/-- The names in the list of beans that is written. -/
theorem names_documentValue (d : Document) :
    (beanMappings (documentValue d).value).map (scalarUnder? "name") =
      d.beans.map fun b => (b.extra.get? "name").or (some b.name) := by
  have names : ((d.beans.map beanValue).filterMap Value.mapping?).map (scalarUnder? "name") =
      d.beans.map fun b => (b.extra.get? "name").or (some b.name) := by
    induction d.beans with
    | nil => rfl
    | cons b bs ih =>
      obtain ⟨es, mapping, name⟩ := name_beanValue b
      rw [List.map_cons, List.filterMap_cons_some mapping, List.map_cons, name, ih, List.map_cons]
  rw [← names, documentValue, Noted.value_bind, Noted.value_pure, Noted.value_mapM, beanMappings]
  simp only [Value.sequence?, Value.untagged, Option.getD_some, List.flatMap_append,
    Noted.value_bind, Noted.value_pure, itemBeans_others (by decide : "reference" ≠ "beans"),
    itemBeans_others (by decide : "restConfiguration" ≠ "beans"),
    itemBeans_others (by decide : "rest" ≠ "beans"),
    itemBeans_others (by decide : "route" ≠ "beans"), List.append_nil]
  cases d.beans with
  | nil => rfl
  | cons b bs => simp [itemBeans_ofEntry, Value.sequence?, Value.untagged]

end RouteNotation.Dsl
