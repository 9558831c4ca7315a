import RouteNotation.Proofs.Blueprint.DocumentMarkup
import RouteNotation.Proofs.Route.StepDepth
import RouteNotation.Proofs.Xml.TreeDepth

/-!
How high the markup of a document is. Only steps are not bounded by the shape of the document, so
the height comes down to theirs. Main statement: `height_plainDocument_le`.
-/

namespace RouteNotation.Blueprint

open Xml

theorem heightOfContents_texts (texts : List String) : heightOfContents (texts.map .text) = 0 := by
  induction texts with
  | nil => rfl
  | cons t texts ih => rw [List.map_cons, heightOfContents, ih]

theorem heightOfContents_elements_le {es : List Element} {n : Nat} (h : ∀ e ∈ es, e.height ≤ n) :
    heightOfContents (es.map .element) ≤ n := by
  induction es with
  | nil => exact Nat.zero_le n
  | cons e es ih =>
    simp only [List.mem_cons, forall_eq_or_imp] at h
    have := ih h.2
    simp only [List.map_cons, heightOfContents]
    omega

theorem height_ofElements_le {name : String} {attributes : Attributes} {es : List Element} {n : Nat}
    (h : ∀ e ∈ es, e.height ≤ n) : (Element.ofElements name attributes es).height ≤ n + 1 := by
  have := heightOfContents_elements_le h
  rw [Element.ofElements, Element.height]
  omega

theorem height_descriptionElements_le (description : Option String) :
    ∀ e ∈ descriptionElements description, e.height ≤ 1 := by
  intro e he
  obtain ⟨text, _, rfl⟩ := List.mem_map.1 he
  exact Nat.le_refl 1

mutual

theorem height_plainElement_le : (s : Step) → (plainElement s).height ≤ s.depth
  | ⟨kind, attributes, text, expression, slots⟩ => by
    have children := heightOfContents_plainSlots_le slots
    have first : heightOfContents ((expression.map expressionElement).toList.map .element) ≤
        expression.toList.length := by
      cases expression with
      | none => exact Nat.le_refl 0
      | some e =>
        simp [heightOfContents, expressionElement, Element.height, heightOfContents_texts]
    rw [plainElement, Element.height, Step.depth, heightOfContents_append, heightOfContents_texts,
      List.map_append, heightOfContents_append]
    omega

theorem heightOfContents_plainSlots_le : (ss : List Slot) →
    heightOfContents ((plainSlots ss).map .element) ≤ depthOfSlots ss
  | [] => Nat.le_refl 0
  | .nested step :: rest => by
    have here := height_plainElement_le step
    have others := heightOfContents_plainSlots_le rest
    simp only [plainSlots, List.map_cons, heightOfContents, depthOfSlots]
    omega
  | .text tag value :: rest => by
    have here : (Element.ofText tag .empty value).height = 1 := rfl
    have others := heightOfContents_plainSlots_le rest
    simp only [plainSlots, List.map_cons, heightOfContents, depthOfSlots]
    omega
  | .element _ step :: rest => by
    have here := height_plainElement_le step
    have others := heightOfContents_plainSlots_le rest
    simp only [plainSlots, List.map_cons, heightOfContents, depthOfSlots]
    omega

end

mutual

theorem height_unwrap_le : (e : Element) → e.unwrap.height ≤ e.height
  | ⟨_, _, children⟩ => by
    have := heightOfContents_unwrap_le children
    simp only [Element.unwrap, Element.height]
    omega

theorem heightOfContents_unwrap_le : (cs : List Content) →
    heightOfContents (unwrapContents cs) ≤ heightOfContents cs
  | [] => Nat.le_refl 0
  | .text _ :: rest => heightOfContents_unwrap_le rest
  | .element e :: rest => by
    have here := height_unwrap_le e
    have others := heightOfContents_unwrap_le rest
    rw [unwrapContents, heightOfContents_append, heightOfContents]
    split
    · obtain ⟨_, _, _⟩ := e
      simp only [Element.unwrap, Element.children, Element.height] at here ⊢
      omega
    · simp only [heightOfContents]
      omega

end

theorem height_beanElement_le (bean : Bean) : (beanElement bean).height ≤ 2 := by
  apply height_ofElements_le
  intro e he
  simp only [List.mem_append, List.mem_map] at he
  rcases he with ⟨_, _, rfl⟩ | ⟨_, _, rfl⟩
  · exact Nat.le_refl 1
  · exact Nat.le_refl 1

theorem height_restConfigurationElement_le (c : RestConfiguration) :
    (restConfigurationElement c).height ≤ 3 := by
  apply height_ofElements_le
  intro e he
  obtain ⟨list, _, rfl⟩ := List.mem_map.1 he
  apply height_ofElements_le
  intro f hf
  obtain ⟨properties, _, rfl⟩ := List.mem_map.1 hf
  exact Nat.le_refl 1

theorem height_plainRestApi_le (api : RestApi) : (plainRestApi api).height ≤ 3 := by
  apply height_ofElements_le
  intro e he
  rcases List.mem_append.1 he with he | he
  · have := height_descriptionElements_le _ e he
    omega
  · obtain ⟨p, _, rfl⟩ := List.mem_map.1 he
    apply height_ofElements_le
    intro f hf
    rcases List.mem_append.1 hf with hf | hf
    · exact height_descriptionElements_le _ f hf
    · obtain ⟨uri, _, rfl⟩ := List.mem_map.1 hf
      exact Nat.le_refl 1

theorem height_plainRoute_le {route : Route} {n : Nat} (pos : 0 < n)
    (h : ∀ step ∈ route.steps, step.depth ≤ n) : (plainRoute route).height ≤ n + 1 := by
  apply height_ofElements_le
  intro e he
  rw [List.mem_append, List.mem_cons, List.mem_map] at he
  rcases he with he | rfl | ⟨step, hs, rfl⟩
  · have := height_descriptionElements_le _ e he
    omega
  · exact pos
  · exact Nat.le_trans (height_plainElement_le step) (h step hs)

theorem height_plainDocument_le {settings : Settings} {d : Document} {n : Nat} (room : 1 < n)
    (h : ∀ route ∈ d.routes, ∀ step ∈ route.steps, step.depth ≤ n) :
    (plainDocument settings d).height ≤ n + 3 := by
  have context : (plainContext settings.contextId d).height ≤ n + 2 := by
    apply height_ofElements_le
    intro e he
    simp only [List.mem_append, List.mem_map] at he
    rcases he with (⟨c, _, rfl⟩ | ⟨api, _, rfl⟩) | ⟨route, hr, rfl⟩
    · have kept := height_unwrap_le (restConfigurationElement c)
      have := height_restConfigurationElement_le c
      omega
    · have := height_plainRestApi_le api
      omega
    · exact height_plainRoute_le (by omega) (h route hr)
  apply height_ofElements_le
  intro e he
  simp only [List.cons_append, List.mem_cons, List.mem_append, List.mem_map] at he
  rcases he with rfl | ⟨r, _, rfl⟩ | rfl | ⟨bean, _, rfl⟩
  · exact Nat.le_add_left 1 _
  · exact Nat.le_add_left 1 _
  · exact context
  · have := height_beanElement_le bean
    omega

end RouteNotation.Blueprint
