import RouteNotation.Proofs.Xml.PrintedTree

/-!
Printing and reading. Main statement: a printed tree is read back with its names, attributes and
elements and, where an element has none, with its text; and what is read can be printed again.
-/

namespace RouteNotation.Xml

mutual

/-- `f` has the name, the attributes and the elements of `e`, and so on below. Where no element is
in `e`, `f` holds its joined texts as one, or nothing when they are blank. -/
def Element.Kept : Element → Element → Prop
  | ⟨name, attributes, children⟩, f =>
    f.name = name ∧ f.attributes = attributes ∧ ElementsKept children f.elements ∧
      (Element.hasElements ⟨name, attributes, children⟩ = false →
        f.children = keptText (Element.characters ⟨name, attributes, children⟩))

def ElementsKept : List Content → List Element → Prop
  | [], fs => fs = []
  | .element e :: rest, fs => ∃ f more, fs = f :: more ∧ e.Kept f ∧ ElementsKept rest more
  | .text _ :: rest, fs => ElementsKept rest fs

end

@[simp] theorem filterMap_element?_keptText (s : String) :
    (keptText s).filterMap Content.element? = [] := by
  unfold keptText
  split <;> rfl

theorem isTextContent_iff (children : List Content) :
    isTextContent children ↔ children.filterMap Content.element? = [] := by
  simp [isTextContent, List.filterMap_eq_nil_iff]

/-- Layout around the elements changes nothing in them. -/
theorem elements_rereadContents (layout : Layout) (depth : Nat) (pending : String)
    (cs : List Content) : (rereadContents layout depth pending cs).filterMap Content.element? =
      (cs.filterMap Content.element?).map (·.reread layout (depth + 1)) := by
  induction cs generalizing pending with
  | nil => simp [rereadContents]
  | cons c cs ih =>
    cases c with
    | element e => simp [rereadContents, Content.element?, ih]
    | text value =>
      rw [rereadContents, ih]
      rfl

theorem name_reread (layout : Layout) (depth : Nat) (e : Element) :
    (e.reread layout depth).name = e.name := by
  obtain ⟨_, _, _⟩ := e
  rfl

theorem attributes_reread (layout : Layout) (depth : Nat) (e : Element) :
    (e.reread layout depth).attributes = e.attributes := by
  obtain ⟨_, _, _⟩ := e
  rfl

theorem elements_reread (layout : Layout) (depth : Nat) (e : Element) :
    (e.reread layout depth).elements = e.elements.map (·.reread layout (depth + 1)) := by
  obtain ⟨name, attributes, children⟩ := e
  simp only [Element.elements, Element.reread, Element.children]
  split
  · rename_i texts
    simp [(isTextContent_iff children).1 texts]
  · exact elements_rereadContents layout depth "\n" children

mutual

theorem kept_reread (layout : Layout) (depth : Nat) : (e : Element) → e.Kept (e.reread layout depth)
  | ⟨name, attributes, children⟩ => by
    refine ⟨rfl, rfl, ?_, ?_⟩
    · rw [elements_reread]
      exact elementsKept_reread layout (depth + 1) children
    · intro noElements
      have texts : isTextContent children :=
        (isTextContent_iff children).2 (by simpa [Element.hasElements, Element.elements,
          Element.children] using noElements)
      simp [Element.reread, Element.children, texts, joinedText, Element.characters]

theorem elementsKept_reread (layout : Layout) (depth : Nat) : (cs : List Content) →
    ElementsKept cs ((cs.filterMap Content.element?).map (·.reread layout depth))
  | [] => rfl
  | .element e :: rest =>
    ⟨e.reread layout depth, _, rfl, kept_reread layout depth e,
      elementsKept_reread layout depth rest⟩
  | .text _ :: rest => elementsKept_reread layout depth rest

end

/-- Without a depth limit every well-named tree is read back from its text, and every tree that is
read is well named. -/
theorem parse_render_kept :
    (∀ (layout : Layout) (root : Element), root.WellNamed →
      ∃ f, parse 0 (Utf8.encode (render layout root)) = .ok f ∧ root.Kept f) ∧
    (∀ (limit : Nat) (bytes : List UInt8) (e : Element), parse limit bytes = .ok e →
      e.WellNamed) :=
  ⟨fun layout root named => ⟨_, parse_render named (.inl rfl), kept_reread layout 0 root⟩,
    fun _ _ _ => wellNamed_of_parse⟩

/-- Mixed content, an empty text and a value with every kind of special character. -/
def mixedTree : Element :=
  ⟨"a:é", .single "k" "<&>\"'\n", [.text " x ", .element (.ofText "b" .empty " \t"), .text "",
    .element ⟨"c", .empty, [.text "", .text "]]>"]⟩]⟩

/-- A tag on its own. -/
def loneTag : List UInt8 := Utf8.encode "<b/>"

/-- The place behind so many of its bytes. -/
def inLoneTag (n : Nat) : Cursor := (Cursor.ofBytes loneTag).advanceBy n

theorem parse_loneTag : parse 1 loneTag = .ok (.leaf "b" .empty) := by
  have prolog : skipMisc (skipByteOrderMark (.ofBytes loneTag)) = .ok (inLoneTag 0) := by
    rw [skipMisc]
    rfl
  have opened : readByte 60 (inLoneTag 0) = .ok (inLoneTag 1) := rfl
  have name : readName (inLoneTag 1) = .ok ("b", inLoneTag 2) := rfl
  have attributes : readAttributes .empty (inLoneTag 2) = .ok (.empty, inLoneTag 2) := by
    rw [readAttributes]
    rfl
  have tag : readStartTag 1 1 (inLoneTag 0) = .ok (⟨"b", .empty, true⟩, inLoneTag 4) := by
    simp only [readStartTag, opened, name, attributes]
    rfl
  have epilog : skipMisc (inLoneTag 4) = .ok (inLoneTag 4) := by
    rw [skipMisc]
    rfl
  simp only [parse, prolog, readElement, tag, if_true, epilog]
  rfl

theorem parse_render_kept_mixedTree :
    mixedTree.WellNamed ∧
    (∃ f, parse 0 (Utf8.encode (render ⟨3, true⟩ mixedTree)) = .ok f ∧ mixedTree.Kept f) ∧
    parse 1 (Utf8.encode "<b/>") = .ok (.leaf "b" .empty) ∧ (Element.leaf "b" .empty).WellNamed := by
  have named : mixedTree.WellNamed := by decide
  have read := parse_loneTag
  exact ⟨named, parse_render_kept.1 _ _ named, read, parse_render_kept.2 _ _ _ read⟩

end RouteNotation.Xml
