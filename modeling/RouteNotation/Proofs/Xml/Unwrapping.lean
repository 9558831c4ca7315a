import RouteNotation.Xml.Wrapper

/-!
What taking out the wrappers does to a list of content, piece by piece.
-/

namespace RouteNotation.Xml

theorem unwrapContents_append (cs ds : List Content) :
    unwrapContents (cs ++ ds) = unwrapContents cs ++ unwrapContents ds := by
  induction cs with
  | nil => rfl
  | cons c cs ih => cases c <;> simp [unwrapContents, ih]

/-- Elements that are no wrappers stay, one for one. -/
theorem unwrapContents_map {es : List Element} (h : ∀ e ∈ es, e.isWrapper = false) :
    unwrapContents (es.map .element) = es.map fun e => .element e.unwrap := by
  induction es with
  | nil => rfl
  | cons e es ih =>
    simp only [List.mem_cons, forall_eq_or_imp] at h
    simp [unwrapContents, h.1, ih h.2]

theorem unwrapContents_texts (texts : List String) :
    unwrapContents (texts.map .text) = texts.map .text := by
  induction texts with
  | nil => rfl
  | cons t texts ih => simp [unwrapContents, ih]

/-- A wrapper gives way to what it holds. -/
theorem unwrapContents_wrapper {name : String} {es : List Element} {rest : List Content}
    (hn : name ∈ [stepsTag, childrenTag, itemTag]) :
    unwrapContents (.element (.ofElements name .empty es) :: rest) =
      unwrapContents (es.map .element) ++ unwrapContents rest := by
  have wraps : (Element.ofElements name .empty es).isWrapper = true := by
    simp only [Element.isWrapper, Element.ofElements, Element.attributes, Element.name,
      List.contains_eq_mem, hn, decide_true, Bool.and_true]
    rfl
  rw [unwrapContents, if_pos wraps]
  rfl

theorem unwrapContents_element {e : Element} {rest : List Content} (h : e.isWrapper = false) :
    unwrapContents (.element e :: rest) = .element e.unwrap :: unwrapContents rest := by
  simp [unwrapContents, h]

@[simp] theorem unwrap_leaf (name : String) (attributes : Attributes) :
    (Element.leaf name attributes).unwrap = .leaf name attributes := by
  simp [Element.leaf, Element.unwrap, unwrapContents]

@[simp] theorem unwrap_ofText (name : String) (attributes : Attributes) (value : String) :
    (Element.ofText name attributes value).unwrap = .ofText name attributes value := by
  simp [Element.ofText, Element.unwrap, unwrapContents]

theorem unwrap_ofElements {name : String} {attributes : Attributes} {es : List Element}
    (h : ∀ e ∈ es, e.isWrapper = false) :
    (Element.ofElements name attributes es).unwrap =
      .ofElements name attributes (es.map Element.unwrap) := by
  simp [Element.ofElements, Element.unwrap, unwrapContents_map h]

theorem isWrapper_eq_false_of_name {e : Element} (h : e.name ∉ [stepsTag, childrenTag, itemTag]) :
    e.isWrapper = false := by
  simp [Element.isWrapper, h]

end RouteNotation.Xml
