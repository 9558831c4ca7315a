import RouteNotation.Proofs.Blueprint.SeparateSections
import RouteNotation.Proofs.OrderedMap

/-!
The elements of beans, as they are found in markup and as they are written. Main statements: beans
are read from the elements that have an id, in order, and which id is written for a bean.
-/

namespace RouteNotation.Blueprint

open Xml OrderedMap

mutual

/-- The elements for beans in a section, which may be a group of sections. -/
def sectionBeans : Element → List Element
  | ⟨name, attributes, children⟩ =>
    if localName name = "bean" then [⟨name, attributes, children⟩]
    else if localName name ∈ groupTags then contentsBeans children
    else []

def contentsBeans : List Content → List Element
  | [] => []
  | .element e :: rest => sectionBeans e ++ contentsBeans rest
  | .text _ :: rest => contentsBeans rest

end

/-- The elements for beans below a root, which may also be a single route. -/
def beanElements (root : Element) : List Element :=
  if root.localName = "route" then [] else contentsBeans root.children

/-- Those that can be read: a bean must have an id. -/
def identifiedBeans (root : Element) : List Element :=
  (beanElements root).filter fun e => (e.attribute? "id").isSome

mutual

theorem beans_readSection : (e : Element) →
    (readSection .empty e).value.beans = (sectionBeans e).filterMap fun b => (readBean "" b).value
  | ⟨name, attributes, children⟩ => by
    rw [sectionBeans]
    split
    · rename_i tag
      have bean : Element.localName ⟨name, attributes, children⟩ = "bean" := tag
      rw [readSection_of_bean bean, Noted.value_bind, value_readBean _ ""]
      cases found : (readBean "" ⟨name, attributes, children⟩).value <;>
        simp [found, Document.empty]
    · split
      · rename_i group
        rw [readSection_of_group _ group]
        exact beans_readSections children
      · rename_i other single
        simp only [groupTags, List.mem_cons, List.not_mem_nil, or_false, not_or] at single
        rw [readSection]
        split
        · rename_i tag
          exact absurd tag other
        · rfl
        · rfl
        · rfl
        · rfl
        · rename_i tag
          exact absurd tag single.1
        · rename_i tag
          exact absurd tag single.2.1
        · rename_i tag
          exact absurd tag single.2.2
        · rfl
        · rfl

theorem beans_readSections : (cs : List Content) →
    (readSections .empty cs).value.beans =
      (contentsBeans cs).filterMap fun b => (readBean "" b).value
  | [] => rfl
  | .text _ :: rest => by
    rw [readSections, contentsBeans]
    exact beans_readSections rest
  | .element e :: rest => by
    rw [readSections, Noted.value_bind, value_readSections, contentsBeans, List.filterMap_append,
      ← beans_readSection e, ← beans_readSections rest]
    rfl

end

theorem beans_readDocument (root : Element) : (readDocument root).value.beans =
    (beanElements root).filterMap fun b => (readBean "" b).value := by
  rw [readDocument, beanElements]
  split
  · rename_i route
    rw [readSection_of_route route]
    rfl
  · exact beans_readSections root.children

section Attributes
variable {m : Attributes}

theorem name_addBeanAttributes (b : Bean) :
    (m.entries.foldl addBeanAttribute b).name = b.name := by
  apply List.foldlRecOn (motive := fun bean : Bean => bean.name = b.name) _ _ rfl
  intro bean same a _
  unfold addBeanAttribute
  split <;> exact same

/-- An attribute called `name` is like any other. -/
theorem extraName_addBeanAttributes (b : Bean) :
    (m.entries.foldl addBeanAttribute b).extra.get? "name" =
      (m.get? "name").or (b.extra.get? "name") := by
  apply foldl_field (fun bean : Bean => bean.extra.get? "name") "name"
  · intro bean a
    simp [addBeanAttribute, get?_insert]
  · intro bean a other
    unfold addBeanAttribute
    split
    · rfl
    · rfl
    · rfl
    · rfl
    · rfl
    · simp [get?_insert, Ne.symm other]

end Attributes

/-- What a child of a bean element is read into. -/
theorem attributes_readBeanChild (path : String) (b : Bean) (e : Element) :
    (readBeanChild path b e).value.name = b.name ∧
      (readBeanChild path b e).value.extra = b.extra := by
  unfold readBeanChild
  dsimp only
  split
  · unfold readArgument
    split <;> exact ⟨rfl, rfl⟩
  · unfold readProperty
    split
    · exact ⟨rfl, rfl⟩
    · split <;> exact ⟨rfl, rfl⟩
  · exact ⟨rfl, rfl⟩

theorem readBean_value (path : String) {id : String} {e : Element}
    (h : e.attribute? "id" = some id) : ∃ b, (readBean path e).value = some b ∧ b.name = id ∧
      b.extra.get? "name" = e.attribute? "name" := by
  have children : ∀ b : Bean, (e.elements.foldlM (readBeanChild path) b).value.name = b.name ∧
      (e.elements.foldlM (readBeanChild path) b).value.extra = b.extra := by
    intro b
    refine Noted.foldlM_induction (P := fun c : Bean => c.name = b.name ∧ c.extra = b.extra)
      ⟨rfl, rfl⟩ fun c child _ same => ?_
    obtain ⟨name, extra⟩ := attributes_readBeanChild path c child
    exact ⟨name.trans same.1, extra.trans same.2⟩
  obtain ⟨name, extra⟩ := children (e.attributes.entries.foldl addBeanAttribute (.named id))
  refine ⟨_, by rw [readBean, h]; rfl, ?_, ?_⟩
  · rw [name, name_addBeanAttributes]
    rfl
  · rw [extra, extraName_addBeanAttributes]
    exact Option.or_none

/-- What is true of each bean by what its element is like, in order. -/
theorem map_beans_readDocument {α : Type} {f : Bean → α} {g : Element → α}
    (h : ∀ e id b, e.attribute? "id" = some id → b.name = id →
      b.extra.get? "name" = e.attribute? "name" → f b = g e) (root : Element) :
    (readDocument root).value.beans.map f = (identifiedBeans root).map g := by
  have each : ∀ e : Element, ((readBean "" e).value.map f) =
      if (e.attribute? "id").isSome then some (g e) else none := by
    intro e
    cases id : e.attribute? "id" with
    | none =>
      rw [readBean, id]
      rfl
    | some id' =>
      obtain ⟨b, read, name, extra⟩ := readBean_value "" id
      rw [read, Option.map_some, h e id' b id name extra]
      rfl
  rw [beans_readDocument]
  exact map_filterMap_of_filter each _

/-- An attribute of its own takes the place of the id that is written for a bean. -/
theorem id_beanElement (b : Bean) :
    (beanElement b).attribute? "id" = (b.extra.get? "id").or (some b.name) := by
  have own : ((((single "id" b.name).insertSome "class" b.type).insertSome "factory-ref"
      b.factoryBean).insertSome "factory-method" b.factoryMethod).get? "id" = some b.name := by
    rw [get?_insertSome, if_neg (by decide), get?_insertSome, if_neg (by decide), get?_insertSome,
      if_neg (by decide)]
    rfl
  rw [← own, ← get?_insertAll_or]
  rfl

theorem contentsBeans_eq_nil {es : List Element} (h : ∀ e ∈ es, sectionBeans e = []) :
    contentsBeans (es.map .element) = [] := by
  induction es with
  | nil => rfl
  | cons e es ih =>
    obtain ⟨first, others⟩ := List.forall_mem_cons.1 h
    rw [List.map_cons, contentsBeans, first, ih others]
    rfl

theorem contentsBeans_append (cs ds : List Content) :
    contentsBeans (cs ++ ds) = contentsBeans cs ++ contentsBeans ds := by
  induction cs with
  | nil => rfl
  | cons c cs ih => cases c <;> simp [contentsBeans, ih]

theorem contentsBeans_beanElements (bs : List Bean) :
    contentsBeans ((bs.map beanElement).map .element) = bs.map beanElement := by
  induction bs with
  | nil => rfl
  | cons b bs ih =>
    rw [List.map_cons, List.map_cons, contentsBeans, ih]
    rfl

/-- Among the other elements of a document no bean is found. -/
theorem beanElements_documentElement (settings : Settings) (d : Document) :
    beanElements (documentElement settings d) = d.beans.map beanElement := by
  have inContext : sectionBeans (contextElement settings.contextId d) = [] := by
    apply contentsBeans_eq_nil
    intro e he
    rw [List.append_assoc, List.mem_append, List.mem_append, List.mem_map, List.mem_map,
      List.mem_map] at he
    rcases he with ⟨_, _, rfl⟩ | ⟨_, _, rfl⟩ | ⟨_, _, rfl⟩ <;> rfl
  have front : ∀ e ∈ placeholderElement settings.placeholder :: d.references.map referenceElement,
      sectionBeans e = [] := by
    rw [List.forall_mem_cons, List.forall_mem_map]
    exact ⟨rfl, fun _ _ => rfl⟩
  have contents : (documentElement settings d).children =
      (placeholderElement settings.placeholder :: d.references.map referenceElement).map .element ++
        .element (contextElement settings.contextId d) ::
          (d.beans.map beanElement).map .element := by
    rw [documentElement, Element.ofElements, Element.children, List.map_append]
    rfl
  have root : (documentElement settings d).localName ≠ "route" :=
    have other : localName "blueprint" ≠ "route" := by decide
    other
  -- The beans stand behind the context, in which there are none.
  rw [beanElements, if_neg root, contents, contentsBeans_append, contentsBeans_eq_nil front,
    contentsBeans, inContext, contentsBeans_beanElements]
  rfl

end RouteNotation.Blueprint
