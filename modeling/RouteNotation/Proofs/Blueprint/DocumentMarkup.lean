import RouteNotation.Blueprint.Printer
import RouteNotation.Proofs.Blueprint.StepMarkup
import RouteNotation.Proofs.OrderedMap
import RouteNotation.Proofs.Route.DocumentNames
import RouteNotation.Proofs.Xml.NamedTree

/-!
The document as markup, said without wrappers, and the names in it. Main statements:
`unwrap_documentElement`, `wellNamed_plainDocument`.
-/

namespace RouteNotation.Blueprint

open Xml OrderedMap

def plainRestConfiguration (configuration : RestConfiguration) : Element :=
  .ofElements "restConfiguration" configuration.attributes
    (configuration.propertyLists.flatten.map fun list => .leaf list.1 list.2)

def plainRestApi (api : RestApi) : Element :=
  .ofElements "rest" (restApiElement api).attributes
    (descriptionElements api.description ++
      api.operations.flatten.map fun list => operationElement list.1 list.2)

def plainRoute (route : Route) : Element :=
  .ofElements "route" (routeElement route).attributes
    (descriptionElements route.description ++
      sourceElement route.source :: route.steps.map plainElement)

/-- The context with a configuration as it was printed, whatever tags are in it. -/
def plainContext (id : String) (d : Document) : Element :=
  .ofElements "camelContext" (contextElement id d).attributes
    (d.restConfiguration.toList.map (fun c => (restConfigurationElement c).unwrap) ++
      d.restApis.map plainRestApi ++ d.routes.map plainRoute)

def plainDocument (settings : Settings) (d : Document) : Element :=
  .ofElements "blueprint" namespaces
    (placeholderElement settings.placeholder :: d.references.map referenceElement ++
      plainContext settings.contextId d :: d.beans.map beanElement)

/-- Wrappers around lists give way to what is in the lists. -/
theorem unwrapContents_items {κ α : Type} (element : κ → α → Element)
    {lists : List (κ × List α)} (h : ∀ list ∈ lists, ∀ a ∈ list.2,
      (element list.1 a).isWrapper = false ∧ (element list.1 a).unwrap = element list.1 a) :
    unwrapContents ((lists.map fun list =>
        Element.ofElements itemTag .empty (list.2.map (element list.1))).map .element) =
      ((lists.flatMap fun list => list.2.map fun a => (list.1, a)).map
        fun p => element p.1 p.2).map .element := by
  induction lists with
  | nil => rfl
  | cons list lists ih =>
    simp only [List.mem_cons, forall_eq_or_imp] at h
    have here : unwrapContents ((list.2.map (element list.1)).map .element) =
        (list.2.map (element list.1)).map .element := by
      rw [unwrapContents_map (by simpa using fun a ha => (h.1 a ha).1), List.map_map, List.map_map]
      apply List.map_congr_left
      intro a ha
      simp [(h.1 a ha).2]
    rw [List.map_cons, List.map_cons, unwrapContents_wrapper (by simp), here, ih h.2]
    simp [Function.comp_def]

theorem unwrap_descriptionElements (description : Option String) :
    unwrapContents ((descriptionElements description).map .element) =
      (descriptionElements description).map .element := by
  cases description with
  | none => rfl
  | some text =>
    have kept : (Element.ofText "description" .empty text).isWrapper = false :=
      isWrapper_eq_false_of_name (show NoWrapper "description" by decide)
    simp [descriptionElements, unwrapContents, kept]

theorem unwrap_restConfigurationElement {c : RestConfiguration} {key : String → Prop}
    (h : c.Names NoWrapper key) :
    (restConfigurationElement c).unwrap = plainRestConfiguration c := by
  have lists := unwrapContents_items Element.leaf fun list hl _ _ =>
    ⟨isWrapper_eq_false_of_name (h.2 list hl).1, unwrap_leaf _ _⟩
  exact congrArg _ lists

theorem unwrap_operationElement (verb : HttpVerb) (operation : Operation) :
    (operationElement verb operation).unwrap = operationElement verb operation := by
  have target : unwrapContents ((operation.target.toList.map fun uri =>
      Element.leaf "to" (.single "uri" uri)).map .element) =
        (operation.target.toList.map fun uri => Element.leaf "to" (.single "uri" uri)).map
          .element := by
    cases operation.target with
    | none => rfl
    | some uri =>
      have kept : (Element.leaf "to" (.single "uri" uri)).isWrapper = false :=
        isWrapper_eq_false_of_name (show NoWrapper "to" by decide)
      simp [unwrapContents, kept]
  simp only [operationElement, Element.ofElements, Element.unwrap, List.map_append,
    unwrapContents_append, unwrap_descriptionElements, target]

theorem isWrapper_operationElement (verb : HttpVerb) (operation : Operation) :
    (operationElement verb operation).isWrapper = false := by
  apply isWrapper_eq_false_of_name
  change verb.tag ∉ _
  cases verb <;> decide

theorem unwrap_restApiElement (api : RestApi) : (restApiElement api).unwrap = plainRestApi api := by
  have all : unwrapContents ((api.operations.entries.map operationsElement).map .element) = _ :=
    unwrapContents_items operationElement fun list _ operation _ =>
      ⟨isWrapper_operationElement _ _, unwrap_operationElement _ _⟩
  simp only [restApiElement, Element.ofElements, Element.unwrap, List.map_append,
    unwrapContents_append, unwrap_descriptionElements, all, plainRestApi, Element.attributes]
  rfl

theorem unwrap_routeElement {route : Route} {key : String → Prop}
    (h : ∀ step ∈ route.steps, step.Names NoWrapper key) :
    (routeElement route).unwrap = plainRoute route := by
  have source : (sourceElement route.source).isWrapper = false :=
    isWrapper_eq_false_of_name (show NoWrapper "from" by decide)
  have steps : unwrapContents ((route.steps.map stepElement).map .element) =
      (route.steps.map plainElement).map .element := by
    have kept : ∀ e ∈ route.steps.map stepElement, e.isWrapper = false := by
      intro e he
      obtain ⟨step, hs, rfl⟩ := List.mem_map.1 he
      apply isWrapper_eq_false_of_name
      rw [name_stepElement]
      exact (h step hs).kind
    rw [unwrapContents_map kept, List.map_map, List.map_map]
    exact List.map_congr_left fun step hs => congrArg _ (unwrap_stepElement (h step hs))
  rw [routeElement, plainRoute, Element.ofElements, Element.unwrap, List.map_append,
    unwrapContents_append, unwrap_descriptionElements, List.map_cons, unwrapContents_element source,
    List.map_cons, unwrapContents_wrapper (by simp), steps]
  simp [sourceElement, unwrapContents, Element.ofElements, routeElement, Element.attributes]

theorem unwrap_contextElement {id : String} {d : Document} {key : String → Prop}
    (h : ∀ route ∈ d.routes, ∀ step ∈ route.steps, step.Names NoWrapper key) :
    (contextElement id d).unwrap = plainContext id d := by
  have kept : ∀ e ∈ d.restConfiguration.toList.map restConfigurationElement ++
      d.restApis.map restApiElement ++ d.routes.map routeElement, e.isWrapper = false := by
    intro e he
    simp only [List.mem_append, List.mem_map] at he
    rcases he with (⟨_, _, rfl⟩ | ⟨_, _, rfl⟩) | ⟨_, _, rfl⟩
    · exact isWrapper_eq_false_of_name (show NoWrapper "restConfiguration" by decide)
    · exact isWrapper_eq_false_of_name (show NoWrapper "rest" by decide)
    · exact isWrapper_eq_false_of_name (show NoWrapper "route" by decide)
  have routes : d.routes.map (Element.unwrap ∘ routeElement) = d.routes.map plainRoute :=
    List.map_congr_left fun route hr => unwrap_routeElement (h route hr)
  rw [contextElement, unwrap_ofElements kept, plainContext, List.map_append, List.map_append,
    List.map_map, List.map_map, List.map_map, routes]
  simp [Function.comp_def, unwrap_restApiElement, contextElement, Element.ofElements,
    Element.attributes]

theorem unwrap_beanElement (bean : Bean) : (beanElement bean).unwrap = beanElement bean := by
  have leaves : ∀ e ∈ bean.arguments.map argumentElement ++
      bean.properties.entries.map propertyElement, e.isWrapper = false ∧ e.unwrap = e := by
    intro e he
    simp only [List.mem_append, List.mem_map] at he
    rcases he with ⟨_, _, rfl⟩ | ⟨_, _, rfl⟩
    · exact ⟨isWrapper_eq_false_of_name (show NoWrapper "argument" by decide), unwrap_leaf _ _⟩
    · exact ⟨isWrapper_eq_false_of_name (show NoWrapper "property" by decide), unwrap_leaf _ _⟩
  have same := List.map_congr_left fun e he => (leaves e he).2
  rw [beanElement, unwrap_ofElements fun e he => (leaves e he).1, same, List.map_id']

/-- The wrappers go wherever no step takes one for itself. -/
theorem unwrap_documentElement {settings : Settings} {d : Document} {key : String → Prop}
    (h : ∀ route ∈ d.routes, ∀ step ∈ route.steps, step.Names NoWrapper key) :
    (documentElement settings d).unwrap = plainDocument settings d := by
  have kept : ∀ e ∈ placeholderElement settings.placeholder :: d.references.map referenceElement ++
      contextElement settings.contextId d :: d.beans.map beanElement, e.isWrapper = false := by
    intro e he
    simp only [List.cons_append, List.mem_cons, List.mem_append, List.mem_map] at he
    rcases he with rfl | ⟨_, _, rfl⟩ | rfl | ⟨_, _, rfl⟩
    · exact isWrapper_eq_false_of_name (show NoWrapper "cm:property-placeholder" by decide)
    · exact isWrapper_eq_false_of_name (show NoWrapper "reference" by decide)
    · exact isWrapper_eq_false_of_name (show NoWrapper "camelContext" by decide)
    · exact isWrapper_eq_false_of_name (show NoWrapper "bean" by decide)
  have placeholder : (placeholderElement settings.placeholder).unwrap =
      placeholderElement settings.placeholder := unwrap_leaf _ _
  have reference : ∀ r, (referenceElement r).unwrap = referenceElement r := fun _ => unwrap_leaf _ _
  rw [documentElement, unwrap_ofElements kept, plainDocument]
  simp only [List.cons_append, List.map_cons, List.map_append, List.map_map, Function.comp_def,
    placeholder, reference, unwrap_contextElement h, unwrap_beanElement]

section Names

theorem wellNamed_ofElements {name : String} {attributes : Attributes} {es : List Element}
    (valid : isValidName name) (keys : ∀ k ∈ attributes.keys, isValidName k)
    (elements : ∀ e ∈ es, e.WellNamed) : (Element.ofElements name attributes es).WellNamed := by
  refine ⟨valid, keys, ?_⟩
  induction es with
  | nil => trivial
  | cons e es ih =>
    simp only [List.mem_cons, forall_eq_or_imp] at elements
    exact ⟨elements.1, ih elements.2⟩

theorem wellNamed_leaf {name : String} {attributes : Attributes} (valid : isValidName name)
    (keys : ∀ k ∈ attributes.keys, isValidName k) : (Element.leaf name attributes).WellNamed :=
  ⟨valid, keys, trivial⟩

theorem contentsWellNamed_texts (texts : List String) :
    ContentsWellNamed (texts.map .text) := by
  induction texts with
  | nil => trivial
  | cons t texts ih => exact ih

theorem wellNamed_expressionElement {e : Expression}
    (keys : ∀ k ∈ e.attributes.keys, isValidName k) : (expressionElement e).WellNamed := by
  refine ⟨?_, keys, contentsWellNamed_texts _⟩
  cases e.language <;> decide

theorem wellNamed_descriptionElements (description : Option String) :
    ∀ e ∈ descriptionElements description, e.WellNamed := by
  intro e he
  obtain ⟨text, _, rfl⟩ := List.mem_map.1 he
  exact ⟨by decide, nofun, trivial⟩

mutual

theorem wellNamed_plainElement : {s : Step} → s.Names (isValidName ·) (isValidName ·) →
    (plainElement s).WellNamed
  | ⟨kind, attributes, text, expression, slots⟩, ⟨valid, keys, expressionKeys, named⟩ => by
    have children := wellNamed_plainSlots named
    rw [plainElement]
    refine ⟨valid, keys, ?_⟩
    rw [contentsWellNamed_append]
    refine ⟨contentsWellNamed_texts _, ?_⟩
    rw [List.map_append, contentsWellNamed_append]
    refine ⟨?_, children⟩
    cases expression with
    | none => trivial
    | some e => exact ⟨wellNamed_expressionElement (expressionKeys e rfl), trivial⟩

theorem wellNamed_plainSlots : {ss : List Slot} → SlotsNames (isValidName ·) (isValidName ·) ss →
    ContentsWellNamed ((plainSlots ss).map .element)
  | [], _ => trivial
  | .nested _ :: _, ⟨step, rest⟩ => ⟨wellNamed_plainElement step, wellNamed_plainSlots rest⟩
  | .text _ _ :: _, ⟨valid, rest⟩ => ⟨⟨valid, nofun, trivial⟩, wellNamed_plainSlots rest⟩
  | .element _ _ :: _, ⟨_, step, rest⟩ => ⟨wellNamed_plainElement step, wellNamed_plainSlots rest⟩

end

mutual

theorem wellNamed_unwrap : {e : Element} → e.WellNamed → e.unwrap.WellNamed
  | ⟨_, _, _⟩, ⟨valid, keys, children⟩ => ⟨valid, keys, contentsWellNamed_unwrap children⟩

theorem contentsWellNamed_unwrap : {cs : List Content} → ContentsWellNamed cs →
    ContentsWellNamed (unwrapContents cs)
  | [], _ => trivial
  | .text _ :: rest, named => by
    have others : ContentsWellNamed (unwrapContents rest) := contentsWellNamed_unwrap named
    exact others
  | .element e :: _, ⟨here, rest⟩ => by
    have unwrapped := wellNamed_unwrap here
    rw [unwrapContents, contentsWellNamed_append]
    refine ⟨?_, contentsWellNamed_unwrap rest⟩
    split
    · obtain ⟨_, _, _⟩ := e
      exact unwrapped.2.2
    · exact ⟨unwrapped, trivial⟩

end

theorem wellNamed_beanElement {bean : Bean} (h : ∀ k ∈ bean.extra.keys, isValidName k) :
    (beanElement bean).WellNamed := by
  apply wellNamed_ofElements (by decide)
  · intro k hk
    simp only [mem_keys_insertAll, mem_keys_insertSome, mem_keys_single] at hk
    rcases hk with (((rfl | ⟨_, rfl⟩) | ⟨_, rfl⟩) | ⟨_, rfl⟩) | hk
    · decide
    · decide
    · decide
    · decide
    · exact h k hk
  · intro e he
    simp only [List.mem_append, List.mem_map] at he
    have valued : ∀ attributes value, (∀ k ∈ attributes.keys, isValidName k) →
        ∀ k ∈ (withValue attributes value).keys, isValidName k := by
      intro attributes value valid k hk
      cases value <;> rw [withValue, mem_keys_insert] at hk <;> rcases hk with hk | rfl
      · exact valid k hk
      · decide
      · exact valid k hk
      · decide
    rcases he with ⟨_, _, rfl⟩ | ⟨_, _, rfl⟩
    · exact wellNamed_leaf (by decide) (valued _ _ fun _ hk => absurd hk not_mem_keys_empty)
    · refine wellNamed_leaf (by decide) (valued _ _ fun k hk => ?_)
      cases mem_keys_single.1 hk
      decide

theorem wellNamed_referenceElement (r : Reference) : (referenceElement r).WellNamed := by
  apply wellNamed_leaf (by decide)
  intro k hk
  simp only [mem_keys_insertSome, mem_keys_insert, mem_keys_single] at hk
  rcases hk with (rfl | rfl) | ⟨_, rfl⟩
  · decide
  · decide
  · decide

theorem wellNamed_restConfigurationElement {c : RestConfiguration}
    (h : c.Names (isValidName ·) (isValidName ·)) : (restConfigurationElement c).WellNamed := by
  apply wellNamed_ofElements (by decide) h.1
  intro e he
  obtain ⟨list, hl, rfl⟩ := List.mem_map.1 he
  apply wellNamed_ofElements (by decide) fun _ hk => absurd hk not_mem_keys_empty
  intro f hf
  obtain ⟨properties, hp, rfl⟩ := List.mem_map.1 hf
  exact wellNamed_leaf (h.2 list hl).1 ((h.2 list hl).2 properties hp)

theorem wellNamed_operationElement {verb : HttpVerb} {operation : Operation}
    (h : ∀ k ∈ operation.attributes.keys, isValidName k) :
    (operationElement verb operation).WellNamed := by
  apply wellNamed_ofElements (by cases verb <;> decide) h
  intro e he
  rw [List.mem_append] at he
  rcases he with he | he
  · exact wellNamed_descriptionElements _ e he
  · obtain ⟨uri, _, rfl⟩ := List.mem_map.1 he
    refine wellNamed_leaf (by decide) fun k hk => ?_
    cases mem_keys_single.1 hk
    decide

theorem wellNamed_plainRestApi {api : RestApi} (h : api.Names (isValidName ·)) :
    (plainRestApi api).WellNamed := by
  apply wellNamed_ofElements (by decide)
  · intro k hk
    rcases mem_keys_insertTwo hk with rfl | rfl | hk
    · decide
    · decide
    · exact h.1 k hk
  · intro e he
    rw [List.mem_append] at he
    rcases he with he | he
    · exact wellNamed_descriptionElements _ e he
    · obtain ⟨p, hp, rfl⟩ := List.mem_map.1 he
      obtain ⟨list, hl, hp⟩ := List.mem_flatMap.1 hp
      obtain ⟨operation, ho, rfl⟩ := List.mem_map.1 hp
      exact wellNamed_operationElement (h.2 list hl operation ho)

theorem wellNamed_plainRoute {route : Route}
    (h : route.Names (isValidName ·) (isValidName ·)) : (plainRoute route).WellNamed := by
  apply wellNamed_ofElements (by decide)
  · intro k hk
    rcases mem_keys_insertTwo hk with rfl | rfl | hk
    · decide
    · decide
    · exact h.1 k hk
  · intro e he
    rw [List.mem_append, List.mem_cons, List.mem_map] at he
    rcases he with he | rfl | ⟨step, hs, rfl⟩
    · exact wellNamed_descriptionElements _ e he
    · refine wellNamed_leaf (by decide) fun k hk => ?_
      rw [mem_keys_insertAll, mem_keys_single] at hk
      rcases hk with rfl | hk
      · decide
      · exact h.2.1 k hk
    · exact wellNamed_plainElement (h.2.2 step hs)

/-- Names that are valid in the document are all that is needed of it. -/
theorem wellNamed_plainDocument (settings : Settings) {d : Document}
    (h : d.Names (isValidName ·) (isValidName ·)) : (plainDocument settings d).WellNamed := by
  have context : (plainContext settings.contextId d).WellNamed := by
    apply wellNamed_ofElements (by decide)
    · intro k hk
      change k ∈ ["id", "xmlns"] at hk
      revert k
      decide
    · intro e he
      simp only [List.mem_append, List.mem_map, Option.mem_toList] at he
      rcases he with (⟨c, hc, rfl⟩ | ⟨api, ha, rfl⟩) | ⟨route, hr, rfl⟩
      · exact wellNamed_unwrap (wellNamed_restConfigurationElement (h.configuration c hc))
      · exact wellNamed_plainRestApi (h.restApis api ha)
      · exact wellNamed_plainRoute (h.routes route hr)
  apply wellNamed_ofElements (by decide) (by decide)
  intro e he
  simp only [List.cons_append, List.mem_cons, List.mem_append, List.mem_map] at he
  rcases he with rfl | ⟨r, _, rfl⟩ | rfl | ⟨bean, hb, rfl⟩
  · refine wellNamed_leaf (by decide) fun k hk => ?_
    change k ∈ ["id", "persistent-id", "update-strategy"] at hk
    revert k
    decide
  · exact wellNamed_referenceElement r
  · exact context
  · exact wellNamed_beanElement (h.beans bean hb)

end Names
end RouteNotation.Blueprint
