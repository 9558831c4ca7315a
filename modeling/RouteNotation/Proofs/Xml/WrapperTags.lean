import RouteNotation.Proofs.Xml.Unwrapping

/-!
Elements as they are met in document order: an opening tag, what is inside, a closing tag. These
marks tell the element. Main statement: `unwrap_dropWrapperTags`, that taking out the wrappers takes
out their tags and nothing else.
-/

namespace RouteNotation.Xml

/-- What is met in a document that is read from its start to its end. -/
inductive Mark
  | opening (name : String) (attributes : Attributes)
  | text (value : String)
  | closing (name : String)
  deriving DecidableEq

mutual

def Element.marks : Element → List Mark
  | ⟨name, attributes, children⟩ =>
    .opening name attributes :: (contentsMarks children ++ [.closing name])

def contentsMarks : List Content → List Mark
  | [] => []
  | .element e :: rest => e.marks ++ contentsMarks rest
  | .text value :: rest => .text value :: contentsMarks rest

end

/-- Whether this is the opening tag of an element that only groups what it holds. -/
def isWrapperTag (name : String) (attributes : Attributes) : Bool :=
  attributes.isEmpty && ["steps", "children", "item"].contains name

/-- The marks without the tags of wrappers. For every open element, the innermost first, `dropped`
says whether its opening tag was left out, so that its closing tag is too. An element with no other
around it is kept. -/
def dropWrapperTags (dropped : List Bool) : List Mark → List Mark
  | [] => []
  | .text value :: rest => .text value :: dropWrapperTags dropped rest
  | .opening name attributes :: rest =>
    if dropped ≠ [] ∧ isWrapperTag name attributes then dropWrapperTags (true :: dropped) rest
    else .opening name attributes :: dropWrapperTags (false :: dropped) rest
  | .closing name :: rest =>
    if dropped.head? = some true then dropWrapperTags dropped.tail rest
    else .closing name :: dropWrapperTags dropped.tail rest

mutual

/-- The elements below an element, at every depth. -/
def Element.descendants : Element → List Element
  | ⟨_, _, children⟩ => elementsWithin children

def elementsWithin : List Content → List Element
  | [] => []
  | .element e :: rest => e :: (e.descendants ++ elementsWithin rest)
  | .text _ :: rest => elementsWithin rest

end

theorem elementsWithin_append (cs ds : List Content) :
    elementsWithin (cs ++ ds) = elementsWithin cs ++ elementsWithin ds := by
  induction cs with
  | nil => rfl
  | cons c cs ih => cases c <;> simp [elementsWithin, ih]

theorem contentsMarks_append (cs ds : List Content) :
    contentsMarks (cs ++ ds) = contentsMarks cs ++ contentsMarks ds := by
  induction cs with
  | nil => rfl
  | cons c cs ih => cases c <;> simp [contentsMarks, ih]

mutual

/-- An element can be cut off the front of a list of marks in one way only. -/
theorem marks_append_inj : {e f : Element} → {ms ns : List Mark} →
    e.marks ++ ms = f.marks ++ ns → e = f ∧ ms = ns
  | ⟨name, attributes, children⟩, ⟨_, _, _⟩, ms, ns, h => by
    simp only [Element.marks, List.cons_append, List.append_assoc, List.nil_append,
      List.cons.injEq, Mark.opening.injEq] at h
    obtain ⟨⟨rfl, rfl⟩, inner⟩ := h
    obtain ⟨rfl, -, rest⟩ := contentsMarks_closing_inj inner
    exact ⟨rfl, rest⟩

theorem contentsMarks_closing_inj : {cs ds : List Content} → {n m : String} →
    {ms ns : List Mark} →
    contentsMarks cs ++ .closing n :: ms = contentsMarks ds ++ .closing m :: ns →
      cs = ds ∧ n = m ∧ ms = ns
  | [], [], n, m, ms, ns, h => by
    cases h
    exact ⟨rfl, rfl, rfl⟩
  | .text s :: cs, .text t :: ds, n, m, ms, ns, h => by
    obtain ⟨same, rest⟩ := List.cons.inj h
    cases same
    obtain ⟨rfl, last⟩ := contentsMarks_closing_inj rest
    exact ⟨rfl, last⟩
  | .element e :: cs, .element f :: ds, n, m, ms, ns, h => by
    rw [contentsMarks, contentsMarks, List.append_assoc, List.append_assoc] at h
    obtain ⟨rfl, rest⟩ := marks_append_inj h
    obtain ⟨rfl, last⟩ := contentsMarks_closing_inj rest
    exact ⟨rfl, last⟩
  | [], .text _ :: _, _, _, _, _, h | .text _ :: _, [], _, _, _, _, h => by
    cases h
  | [], .element ⟨_, _, _⟩ :: _, _, _, _, _, h | .element ⟨_, _, _⟩ :: _, [], _, _, _, _, h => by
    cases h
  | .text _ :: _, .element ⟨_, _, _⟩ :: _, _, _, _, _, h
  | .element ⟨_, _, _⟩ :: _, .text _ :: _, _, _, _, _, h => by
    cases h

end

theorem marks_injective {e f : Element} (h : e.marks = f.marks) : e = f :=
  (marks_append_inj (congrArg (· ++ []) h)).1

mutual

/-- Inside another element the tags of an element go if it is a wrapper. -/
theorem dropWrapperTags_element (e : Element) (outer : Bool) (dropped : List Bool)
    (ms : List Mark) : dropWrapperTags (outer :: dropped) (e.marks ++ ms) =
      (if e.isWrapper then contentsMarks e.unwrap.children else e.unwrap.marks) ++
        dropWrapperTags (outer :: dropped) ms := by
  obtain ⟨name, attributes, children⟩ := e
  cases wrapper : Element.isWrapper ⟨name, attributes, children⟩ with
  | true =>
    have tag : isWrapperTag name attributes = true := wrapper
    have inner := dropWrapperTags_contents children true (outer :: dropped)
    simp [Element.marks, Element.unwrap, Element.children, dropWrapperTags, tag, inner]
  | false =>
    have tag : isWrapperTag name attributes = false := wrapper
    have inner := dropWrapperTags_contents children false (outer :: dropped)
    simp [Element.marks, Element.unwrap, dropWrapperTags, tag, inner]

theorem dropWrapperTags_contents (cs : List Content) (outer : Bool) (dropped : List Bool)
    (ms : List Mark) : dropWrapperTags (outer :: dropped) (contentsMarks cs ++ ms) =
      contentsMarks (unwrapContents cs) ++ dropWrapperTags (outer :: dropped) ms := by
  match cs with
  | [] => rfl
  | .text value :: rest =>
    rw [contentsMarks, List.cons_append, dropWrapperTags, dropWrapperTags_contents rest]
    rfl
  | .element e :: rest =>
    rw [contentsMarks, List.append_assoc, dropWrapperTags_element e,
      dropWrapperTags_contents rest, unwrapContents, contentsMarks_append]
    split <;> simp [contentsMarks]

end

/-- The tags that go are those of the wrappers below the root. -/
theorem marks_unwrap (e : Element) : e.unwrap.marks = dropWrapperTags [] e.marks := by
  obtain ⟨name, attributes, children⟩ := e
  have inner := dropWrapperTags_contents children false [] [.closing name]
  simp [Element.unwrap, Element.marks, dropWrapperTags, inner]

mutual

theorem unwrap_eq_self : {e : Element} → (∀ d ∈ e.descendants, d.isWrapper = false) → e.unwrap = e
  | ⟨name, attributes, children⟩, h => by
    rw [Element.unwrap, unwrapContents_eq_self h]

theorem unwrapContents_eq_self : {cs : List Content} →
    (∀ d ∈ elementsWithin cs, d.isWrapper = false) → unwrapContents cs = cs
  | [], _ => rfl
  | .text value :: rest, h => by
    rw [elementsWithin] at h
    rw [unwrapContents, unwrapContents_eq_self h]
  | .element e :: rest, h => by
    rw [elementsWithin, List.forall_mem_cons, List.forall_mem_append] at h
    obtain ⟨here, below, later⟩ := h
    rw [unwrapContents_element here, unwrap_eq_self below, unwrapContents_eq_self later]

end

mutual

theorem isWrapper_of_mem_unwrap : (e : Element) →
    ∀ d ∈ e.unwrap.descendants, d.isWrapper = false
  | ⟨_, _, children⟩ => isWrapper_of_mem_unwrapContents children

theorem isWrapper_of_mem_unwrapContents : (cs : List Content) →
    ∀ d ∈ elementsWithin (unwrapContents cs), d.isWrapper = false
  | [] => nofun
  | .text _ :: rest => isWrapper_of_mem_unwrapContents rest
  | .element e :: rest => by
    have inner := isWrapper_of_mem_unwrap e
    have later := isWrapper_of_mem_unwrapContents rest
    obtain ⟨name, attributes, children⟩ := e
    rw [unwrapContents, elementsWithin_append, List.forall_mem_append]
    refine ⟨?_, later⟩
    split
    · exact inner
    · rename_i other
      -- The element stays as it is named, so it is no wrapper afterwards either.
      rw [elementsWithin, List.forall_mem_cons, elementsWithin, List.append_nil]
      exact ⟨Bool.eq_false_iff.2 other, inner⟩

end

/-- Taking out the wrappers: the root stays, no element without attributes called `steps`,
`children` or `item` is left below it, and the result is the one element whose marks are the marks
from before without the tags of the wrappers below the root. So a second time there is nothing to
take out. -/
theorem unwrap_dropWrapperTags (e : Element) :
    e.unwrap.name = e.name ∧ e.unwrap.attributes = e.attributes ∧
      (∀ d ∈ e.unwrap.descendants,
        ¬ (d.attributes = .empty ∧ d.name ∈ ["steps", "children", "item"])) ∧
      (∀ f : Element, f.marks = dropWrapperTags [] e.marks ↔ f = e.unwrap) ∧
      e.unwrap.unwrap = e.unwrap := by
  have left := isWrapper_of_mem_unwrap e
  refine ⟨?_, ?_, ?_, ?_, unwrap_eq_self left⟩
  · obtain ⟨_, _, _⟩ := e
    rfl
  · obtain ⟨_, _, _⟩ := e
    rfl
  · rintro d hd ⟨none, named⟩
    have wrapper : d.isWrapper = true := by
      simp only [Element.isWrapper, none, List.contains_eq_mem]
      exact decide_eq_true named
    rw [left d hd] at wrapper
    cases wrapper
  · intro f
    rw [← marks_unwrap]
    exact ⟨marks_injective, fun same => by rw [same]⟩

/-- A wrapper in a wrapper with text, one with an attribute, and one at the root. -/
def wrappedElement : Element :=
  ⟨"steps", .empty, [.text "a", .element ⟨"children", .empty, [.text "b",
      .element ⟨"item", .empty, [.element (.leaf "log" .empty)]⟩, .text "c"]⟩,
    .element ⟨"item", .single "id" "i", [.element (.ofText "steps" .empty "d")]⟩]⟩

example : wrappedElement.unwrap =
    ⟨"steps", .empty, [.text "a", .text "b", .element (.leaf "log" .empty), .text "c",
      .element ⟨"item", .single "id" "i", [.text "d"]⟩]⟩ := by decide

end RouteNotation.Xml
