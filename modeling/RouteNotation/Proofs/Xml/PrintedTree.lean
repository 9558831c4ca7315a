import RouteNotation.Proofs.Xml.PrintedTags
import RouteNotation.Xml.Printer

/-!
Trees as they are printed, read again. Beside elements a text is trimmed and takes a line, so what
is read back there is the layout around it; `Element.reread` is the tree that comes out. Main
statement: a well-named tree within the depth limit is read as `Element.reread` of itself.
-/

namespace RouteNotation.Xml

/-- A text that is read as content, unless nothing but blanks is in it. -/
def keptText (s : String) : List Content := if Text.isBlankText s then [] else [.text s]

def isTextContent (children : List Content) : Bool := children.all fun c => c.element?.isNone

/-- The texts of some content, joined. -/
def joinedText (children : List Content) : String :=
  String.join (children.filterMap Content.text?)

mutual

/-- The element that is read where this one was printed at a depth. -/
def Element.reread (layout : Layout) (depth : Nat) : Element → Element
  | ⟨name, attributes, children⟩ =>
    ⟨name, attributes,
      if isTextContent children then keptText (joinedText children)
      else rereadContents layout depth "\n" children⟩

/-- The content that is read within an element at this depth, `pending` being the characters since
the last tag. -/
def rereadContents (layout : Layout) (depth : Nat) (pending : String) :
    List Content → List Content
  | [] => keptText (pending ++ layout.margin depth)
  | .element e :: rest =>
    keptText (pending ++ layout.margin (depth + 1)) ++
      .element (e.reread layout (depth + 1)) :: rereadContents layout depth "\n" rest
  | .text value :: rest =>
    rereadContents layout depth
      (pending ++ layout.margin (depth + 1) ++ Text.trim value ++ "\n") rest

end

mutual

/-- How many elements stand in one another. -/
def Element.height : Element → Nat
  | ⟨_, _, children⟩ => heightOfContents children + 1

def heightOfContents : List Content → Nat
  | [] => 0
  | .element e :: rest => max e.height (heightOfContents rest)
  | .text _ :: rest => heightOfContents rest

end

/-- Elements `height` deep may stand within `open` others. -/
def Fits (limit opened height : Nat) : Prop := limit = 0 ∨ opened + height ≤ limit

theorem Fits.exceeds {limit opened height : Nat} (h : Fits limit opened height) (pos : 0 < height) :
    exceeds limit (opened + 1) = false := by
  unfold Xml.exceeds
  rcases h with rfl | h
  · rfl
  · simp only [Bool.and_eq_false_imp, decide_eq_true_eq, decide_eq_false_iff_not]
    omega

theorem Fits.mono {limit opened height less : Nat} (h : Fits limit opened height)
    (le : less ≤ height) : Fits limit opened less := by
  unfold Fits at h ⊢
  omega

def endTagBytes (name : String) : List UInt8 := 60 :: 47 :: (Utf8.encode name ++ [62])

/-- What is printed between the tags of an element. -/
def bodyBytes (layout : Layout) (depth : Nat) (children : List Content) : List UInt8 :=
  if isTextContent children then Utf8.encode (escapeText (joinedText children))
  else 10 :: (Utf8.encode (renderContents layout (depth + 1) children) ++
    Utf8.encode (layout.margin depth))

/-- What is printed of an element on its lines, without the margin of the first. -/
def Element.bytes (layout : Layout) (depth : Nat) (e : Element) : List UInt8 :=
  if e.children.isEmpty then startTagBytes ⟨e.name, e.attributes, true⟩
  else startTagBytes ⟨e.name, e.attributes, false⟩ ++
    (bodyBytes layout depth e.children ++ endTagBytes e.name)

theorem Element.bytes_cons (layout : Layout) (depth : Nat) (name : String)
    (attributes : Attributes) (child : Content) (children : List Content) :
    Element.bytes layout depth ⟨name, attributes, child :: children⟩ =
      startTagBytes ⟨name, attributes, false⟩ ++
        (bodyBytes layout depth (child :: children) ++ endTagBytes name) := rfl

theorem encode_endTag (name : String) : Utf8.encode (endTag name) = endTagBytes name ++ [10] := by
  have opened : Utf8.encode "</" = [60, 47] := rfl
  have closed : Utf8.encode ">\n" = [62, 10] := rfl
  simp [endTag, endTagBytes, Utf8.encode_append, toString, opened, closed]

theorem encode_render (layout : Layout) (depth : Nat) (e : Element) :
    Utf8.encode (e.render layout depth) =
      Utf8.encode (layout.margin depth) ++ (e.bytes layout depth ++ [10]) := by
  obtain ⟨name, attributes, children⟩ := e
  have opened : Utf8.encode "<" = [60] := rfl
  have angle : Utf8.encode ">" = [62] := rfl
  have stroke : Utf8.encode "/>\n" = [47, 62, 10] := rfl
  have line : Utf8.encode ">\n" = [62, 10] := rfl
  unfold Element.render Element.bytes
  by_cases empty : children.isEmpty
  · simp [empty, Element.children, Element.name, Element.attributes, Utf8.encode_append, toString,
      opened, stroke, encode_renderAttributes, startTagBytes, tagEnd]
  · by_cases texts : isTextContent children
    · have texts' := texts
      unfold isTextContent at texts'
      simp [empty, texts, texts', bodyBytes, joinedText, Element.children, Element.name,
        Element.attributes, Utf8.encode_append, toString, opened, angle, encode_endTag,
        encode_renderAttributes, startTagBytes, tagEnd]
    · have texts' := texts
      unfold isTextContent at texts'
      simp [empty, texts, texts', bodyBytes, Element.children, Element.name, Element.attributes,
        Utf8.encode_append, toString, opened, line, encode_endTag, encode_renderAttributes,
        startTagBytes, tagEnd]

/-- The open element with more content behind what it has. -/
def OpenElement.addAll (e : OpenElement) (cs : List Content) : OpenElement :=
  { e with content := cs.reverse ++ e.content }

section Reading
variable {limit : Nat} {top : OpenElement} {parents : List OpenElement} {c d : Cursor}
  {tail : List UInt8}

theorem readContent_error {e : Error}
    (h : readMarkup limit (parents.length + 2) top.name c = .error e) :
    readContent limit top parents c = .error e := by
  rw [readContent]
  split <;> rename_i found <;> cases found.symm.trans h
  rfl

theorem readContent_nothing (h : readMarkup limit (parents.length + 2) top.name c =
    .ok (.nothing, d)) : readContent limit top parents c = readContent limit top parents d := by
  rw [readContent]
  split <;> rename_i found <;> cases found.symm.trans h
  rfl

theorem readContent_text {text : String} (h : readMarkup limit (parents.length + 2) top.name c =
    .ok (.characters text, d)) :
    readContent limit top parents c = readContent limit (top.add (.text text)) parents d := by
  rw [readContent]
  split <;> rename_i found <;> cases found.symm.trans h
  rfl

theorem readContent_startTag {tag : StartTag} (h : readMarkup limit (parents.length + 2) top.name c
    = .ok (.startTag tag, d)) :
    readContent limit top parents c =
      if tag.closed then
        readContent limit (top.add (.element (.leaf tag.name tag.attributes))) parents d
      else readContent limit ⟨tag.name, tag.attributes, []⟩ (top :: parents) d := by
  rw [readContent]
  split <;> rename_i found <;> cases found.symm.trans h
  rfl

/-- What follows when an element is closed: it is the root, or goes into the next one. -/
def closed (limit : Nat) (e : Element) : List OpenElement → Cursor → Read Element
  | [], d => .ok (e, d)
  | parent :: parents, d => readContent limit (parent.add (.element e)) parents d

theorem readContent_endTag (h : readMarkup limit (parents.length + 2) top.name c =
    .ok (.endTag, d)) : readContent limit top parents c = closed limit top.close parents d := by
  rw [readContent]
  split <;> rename_i found <;> cases found.symm.trans h
  cases parents <;> rfl

theorem encode_escapeText_ne_nil {s : String} (h : s ≠ "") :
    ∃ b rest, Utf8.encode (escapeText s) = b :: rest ∧ b ≠ 60 := by
  cases bytes : Utf8.encode (escapeText s) with
  | nil =>
    have nothing : escapeText s = "" := by
      have := Utf8.decode?_encode (escapeText s)
      rw [bytes, ← Utf8.encode_empty, Utf8.decode?_encode] at this
      exact (Option.some.inj this).symm
    have back := decodeEntities_escapeText s
    rw [nothing] at back
    exact absurd (Except.ok.inj back).symm h
  | cons b rest =>
    refine ⟨b, rest, rfl, ?_⟩
    rintro rfl
    exact Utf8.not_mem_encode (c := '<') (by decide) (lt_not_mem_escapeText s) (by simp [bytes])

/-- Character data up to a tag become one text, or nothing when they are blank. -/
theorem readContent_keptText {s : String} {bytes : List UInt8} (h : c.rest = bytes ++ 60 :: tail)
    (first : bytes = [] ∧ s = "" ∨ ∃ b rest, bytes = b :: rest ∧ b ≠ 60)
    (data : readCharacters c =
      .ok (if Text.isBlankText s then .nothing else .characters s, c.past bytes)) :
    readContent limit top parents c =
      readContent limit (top.addAll (keptText s)) parents (c.past bytes) := by
  rcases first with ⟨rfl, rfl⟩ | ⟨b, rest, rfl, hb⟩
  · rfl
  · have read : readMarkup limit (parents.length + 2) top.name c = readCharacters c :=
      readMarkup_characters h hb
    rw [data] at read
    by_cases blank : Text.isBlankText s
    · rw [if_pos blank] at read
      simp only [readContent_nothing read, keptText, blank, if_true]
      rfl
    · rw [if_neg blank] at read
      simp only [readContent_text read, keptText, blank]
      rfl

theorem readContent_characters {s : String}
    (h : c.rest = Utf8.encode (escapeText s) ++ 60 :: tail) :
    readContent limit top parents c = readContent limit (top.addAll (keptText s)) parents
      (c.past (Utf8.encode (escapeText s))) := by
  refine readContent_keptText h ?_ (readCharacters_past h)
  by_cases empty : s = ""
  · exact .inl ⟨by rw [empty]; rfl, empty⟩
  · exact .inr (encode_escapeText_ne_nil empty)

end Reading

theorem escapeText_margin (layout : Layout) (depth : Nat) :
    escapeText (layout.margin depth) = layout.margin depth := by
  apply escapeText_of_plain
  intro c hc
  have : c = ' ' := by
    simp only [Layout.margin, String.toList_ofList] at hc
    exact List.eq_of_mem_replicate hc
  subst this
  rfl

theorem escapeText_line : escapeText "\n" = "\n" := rfl

/-- Reading from behind the start tag of `e` on gives `e` with its end tag. -/
def BodyReads (limit : Nat) (layout : Layout) (e : Element) : Prop :=
  ∀ {depth : Nat} {parents : List OpenElement} {c : Cursor} {tail : List UInt8},
    Fits limit (parents.length + 1) (heightOfContents e.children) →
    c.rest = bodyBytes layout depth e.children ++ (endTagBytes e.name ++ tail) →
    readContent limit ⟨e.name, e.attributes, []⟩ parents c =
      closed limit (e.reread layout depth) parents
        (c.past (bodyBytes layout depth e.children ++ endTagBytes e.name))

/-- Reading some content, with characters before it and the margin of the end tag behind it, adds
it to the open element. -/
def ContentsRead (limit : Nat) (layout : Layout) (cs : List Content) : Prop :=
  ∀ {depth : Nat} {pending : String} {top : OpenElement} {parents : List OpenElement} {c : Cursor}
    {tail : List UInt8}, Fits limit (parents.length + 1) (heightOfContents cs) →
    c.rest = Utf8.encode (escapeText pending) ++ (Utf8.encode (renderContents layout (depth + 1) cs)
      ++ (Utf8.encode (layout.margin depth) ++ 60 :: tail)) →
    readContent limit top parents c =
      readContent limit (top.addAll (rereadContents layout depth pending cs)) parents
        (c.past (Utf8.encode (escapeText pending) ++
          (Utf8.encode (renderContents layout (depth + 1) cs) ++
            Utf8.encode (layout.margin depth))))

section Steps
variable {limit : Nat} {layout : Layout}

/-- An element is its start tag and, unless that closes it, a body with an end tag. -/
theorem readContent_element {e : Element} (named : e.WellNamed) (body : BodyReads limit layout e)
    {depth : Nat} {top : OpenElement} {parents : List OpenElement} {c : Cursor}
    {tail : List UInt8} (fits : Fits limit (parents.length + 1) e.height)
    (h : c.rest = e.bytes layout depth ++ tail) :
    readContent limit top parents c =
      readContent limit (top.add (.element (e.reread layout depth))) parents
        (c.past (e.bytes layout depth)) := by
  obtain ⟨name, attributes, children⟩ := e
  have shallow := fits.exceeds (Nat.succ_pos _)
  have tagNamed : ∀ b, StartTag.WellNamed ⟨name, attributes, b⟩ := fun _ => ⟨named.1, named.2.1⟩
  cases children with
  | nil =>
    change c.rest = startTagBytes ⟨name, attributes, true⟩ ++ tail at h
    rw [readContent_startTag (readMarkup_startTag (tagNamed true) shallow h)]
    rfl
  | cons child children =>
    rw [Element.bytes_cons, List.append_assoc] at h
    have inner : Fits limit ((top :: parents).length + 1)
        (heightOfContents (child :: children)) := by
      unfold Fits Element.height at fits
      unfold Fits
      simp only [List.length_cons]
      omega
    rw [readContent_startTag (readMarkup_startTag (tagNamed false) shallow h),
      Element.bytes_cons, Cursor.past_append]
    exact body inner (by rw [Cursor.rest_past h, List.append_assoc]; rfl)

theorem contentsRead_nil : ContentsRead limit layout [] := by
  intro depth pending top parents c tail _ h
  have text : Utf8.encode (escapeText pending) ++ Utf8.encode (layout.margin depth) =
      Utf8.encode (escapeText (pending ++ layout.margin depth)) := by
    rw [escapeText_append, escapeText_margin, Utf8.encode_append]
  simp only [renderContents, Utf8.encode_empty, List.nil_append] at h ⊢
  rw [← List.append_assoc, text] at h
  rw [text]
  exact readContent_characters h

theorem contentsRead_text {value : String} {rest : List Content}
    (ih : ContentsRead limit layout rest) : ContentsRead limit layout (.text value :: rest) := by
  intro depth pending top parents c tail fits h
  -- The text and its line belong to the characters that are pending.
  have text : Utf8.encode (escapeText (pending ++ layout.margin (depth + 1) ++ Text.trim value ++
      "\n")) ++ Utf8.encode (renderContents layout (depth + 1) rest) =
      Utf8.encode (escapeText pending) ++
        Utf8.encode (renderContents layout (depth + 1) (.text value :: rest)) := by
    simp [renderContents, escapeText_append, escapeText_margin, escapeText_line,
      Utf8.encode_append, toString]
  have place : c.rest = Utf8.encode (escapeText (pending ++ layout.margin (depth + 1) ++
      Text.trim value ++ "\n")) ++ (Utf8.encode (renderContents layout (depth + 1) rest) ++
      (Utf8.encode (layout.margin depth) ++ 60 :: tail)) := by
    rw [h, ← List.append_assoc, ← text, List.append_assoc]
  rw [ih fits place, ← List.append_assoc, text, List.append_assoc]
  rfl

theorem contentsRead_element {e : Element} {rest : List Content} (named : e.WellNamed)
    (body : BodyReads limit layout e) (ih : ContentsRead limit layout rest) :
    ContentsRead limit layout (.element e :: rest) := by
  intro depth pending top parents c tail fits h
  have line : Utf8.encode "\n" = [10] := rfl
  have pieces : Utf8.encode (escapeText pending) ++
      Utf8.encode (renderContents layout (depth + 1) (.element e :: rest)) =
      Utf8.encode (escapeText (pending ++ layout.margin (depth + 1))) ++
        (e.bytes layout (depth + 1) ++
          (Utf8.encode (escapeText "\n") ++
            Utf8.encode (renderContents layout (depth + 1) rest))) := by
    simp [renderContents, escapeText_append, escapeText_margin, escapeText_line, encode_render,
      Utf8.encode_append, line]
  obtain ⟨more, bracket⟩ : ∃ more, e.bytes layout (depth + 1) = 60 :: more := by
    unfold Element.bytes
    split <;> exact ⟨_, rfl⟩
  have place : c.rest = Utf8.encode (escapeText (pending ++ layout.margin (depth + 1))) ++
      (e.bytes layout (depth + 1) ++ (Utf8.encode (escapeText "\n") ++
        (Utf8.encode (renderContents layout (depth + 1) rest) ++
          (Utf8.encode (layout.margin depth) ++ 60 :: tail)))) := by
    rw [h, ← List.append_assoc, pieces]
    simp
  have before := place
  rw [bracket, List.cons_append] at before
  have atTag := Cursor.rest_past place
  have behind := Cursor.rest_past atTag
  have fitsHere : Fits limit (parents.length + 1) e.height := fits.mono (Nat.le_max_left _ _)
  have fitsRest : Fits limit (parents.length + 1) (heightOfContents rest) :=
    fits.mono (Nat.le_max_right _ _)
  calc readContent limit top parents c
      = readContent limit (top.addAll (keptText (pending ++ layout.margin (depth + 1)))) parents
          (c.past (Utf8.encode (escapeText (pending ++ layout.margin (depth + 1))))) :=
        readContent_characters before
    _ = _ := readContent_element named body fitsHere atTag
    _ = _ := ih fitsRest behind
    _ = _ := by
        rw [← List.append_assoc (Utf8.encode (escapeText pending)), pieces,
          ← Cursor.past_append, ← Cursor.past_append]
        simp [rereadContents, OpenElement.addAll, OpenElement.add]

theorem bodyReads_of_contents {name : String} {attributes : Attributes} {children : List Content}
    (valid : isValidName name) (contents : ContentsRead limit layout children) :
    BodyReads limit layout ⟨name, attributes, children⟩ := by
  intro depth parents c tail fits h
  simp only [Element.children, Element.name, Element.attributes] at fits h ⊢
  have line : Utf8.encode "\n" = [10] := rfl
  -- Either way reading comes to the end tag, with the body in the open element.
  have body : readContent limit ⟨name, attributes, []⟩ parents c =
      readContent limit (OpenElement.addAll ⟨name, attributes, []⟩
        (if isTextContent children then keptText (joinedText children)
          else rereadContents layout depth "\n" children)) parents
        (c.past (bodyBytes layout depth children)) := by
    unfold bodyBytes at h ⊢
    split
    · rename_i texts
      rw [if_pos texts] at h
      exact readContent_characters h
    · rename_i mixed
      rw [if_neg mixed] at h
      have place : c.rest = Utf8.encode (escapeText "\n") ++
          (Utf8.encode (renderContents layout (depth + 1) children) ++
            (Utf8.encode (layout.margin depth) ++
              60 :: 47 :: (Utf8.encode name ++ 62 :: tail))) := by
        simpa [endTagBytes, escapeText_line, line] using h
      exact contents fits place
  have atEnd : (c.past (bodyBytes layout depth children)).rest =
      60 :: 47 :: (Utf8.encode name ++ 62 :: tail) := by
    rw [Cursor.rest_past h]
    simp [endTagBytes]
  have end_ : readMarkup limit (parents.length + 2) name _ = _ := readMarkup_endTag atEnd
  have behind : ((c.past (bodyBytes layout depth children)).past [60, 47]).rest =
      Utf8.encode name ++ 62 :: tail := Cursor.rest_past atEnd
  rw [readEndTag_past valid behind] at end_
  rw [body, readContent_endTag end_, ← Cursor.past_append, ← Cursor.past_append]
  simp [OpenElement.addAll, OpenElement.close, Element.reread, endTagBytes]

end Steps

mutual

theorem bodyReads {limit : Nat} {layout : Layout} :
    (e : Element) → e.WellNamed → BodyReads limit layout e
  | ⟨_, _, children⟩, named => bodyReads_of_contents named.1 (contentsRead children named.2.2)

theorem contentsRead {limit : Nat} {layout : Layout} :
    (cs : List Content) → ContentsWellNamed cs → ContentsRead limit layout cs
  | [], _ => contentsRead_nil
  | .element e :: rest, named =>
    contentsRead_element named.1 (bodyReads e named.1) (contentsRead rest named.2)
  | .text _ :: rest, named => contentsRead_text (contentsRead rest named)

end

/-- The root is read to its end. -/
theorem readElement_bytes {limit : Nat} {layout : Layout} {depth : Nat} {e : Element} {c : Cursor}
    {tail : List UInt8} (named : e.WellNamed) (fits : Fits limit 0 e.height)
    (h : c.rest = e.bytes layout depth ++ tail) :
    readElement limit c = .ok (e.reread layout depth, c.past (e.bytes layout depth)) := by
  have body : BodyReads limit layout e := bodyReads e named
  obtain ⟨name, attributes, children⟩ := e
  have shallow := fits.exceeds (Nat.succ_pos _)
  have tagNamed : ∀ b, StartTag.WellNamed ⟨name, attributes, b⟩ := fun _ => ⟨named.1, named.2.1⟩
  cases children with
  | nil =>
    change c.rest = startTagBytes ⟨name, attributes, true⟩ ++ tail at h
    simp only [readElement, readStartTag_past (tagNamed true) shallow h, if_true]
    rfl
  | cons child children =>
    rw [Element.bytes_cons, List.append_assoc] at h
    have inner : Fits limit (([] : List OpenElement).length + 1)
        (heightOfContents (child :: children)) := by
      unfold Fits Element.height at fits
      unfold Fits
      simp only [List.length_nil]
      omega
    have behind := Cursor.rest_past h
    rw [List.append_assoc] at behind
    simp only [readElement, readStartTag_past (tagNamed false) shallow h, Bool.false_eq_true,
      if_false]
    rw [Element.bytes_cons, Cursor.past_append]
    exact body inner behind

theorem skipMisc_startTag {c : Cursor} {tag : StartTag} {tail : List UInt8}
    (named : tag.WellNamed) (h : c.skipSpace.rest = startTagBytes tag ++ tail) :
    skipMisc c = .ok c.skipSpace := by
  obtain ⟨first, rest, bytes, starts, -⟩ := encode_of_isValidName named.1
  have place : c.skipSpace.rest = 60 :: first :: (rest ++ (attributesBytes tag.attributes ++
      tagEnd tag.closed) ++ tail) := by simpa [startTagBytes, bytes] using h
  obtain ⟨-, noComment, -, noInstruction, noDeclaration⟩ := startsWith_of_isNameStart place starts
  rw [skipMisc]
  simp [place, noComment, noInstruction, noDeclaration]

theorem skipMisc_end {c : Cursor} (h : c.skipSpace.rest = []) : skipMisc c = .ok c.skipSpace := by
  rw [skipMisc]
  simp [h]

/-- The XML declaration is an instruction, which is passed. -/
theorem skipMisc_declaration {c : Cursor} {tail : List UInt8}
    (h : c.rest = Utf8.encode declaration ++ tail) :
    ∃ d, skipMisc c = skipMisc d ∧ d.rest = 10 :: tail := by
  let inner := "xml version=\"1.0\" encoding=\"UTF-8\""
  have pieces : Utf8.encode declaration = 60 :: 63 :: (Utf8.encode inner ++ [63, 62] ++ [10]) := by
    decide
  have place : c.rest = 60 :: 63 :: (Utf8.encode inner ++ [63, 62] ++ (10 :: tail)) := by
    rw [h, pieces]
    simp
  have noSpace := Cursor.skipSpace_eq_self place (by decide)
  have starts : c.startsWith instructionStart := by
    simp [Cursor.startsWith, place, instructionStart_eq]
  have inside : (c.advanceBy 2).rest = Utf8.encode inner ++ [63, 62] ++ (10 :: tail) :=
    show (c.past [60, 63]).rest = _ from Cursor.rest_past place
  have ends : instructionEnd = [63, 62] := by decide
  have read : readSection instructionEnd (c.skipSpace.advanceBy 2) = .ok (inner,
      (c.advanceBy 2).past (Utf8.encode inner ++ [63, 62])) := by
    rw [noSpace, ends]
    exact readSection_past inside (Utf8.not_mem_encode (c := '?') (by decide) (by decide))
  refine ⟨_, ?_, Cursor.rest_past inside⟩
  rw [skipMisc]
  simp only [noSpace, starts, if_true]
  split
  · rename_i nothing
    simp [place] at nothing
  · split <;> rename_i found <;> cases found.symm.trans read
    rfl

/-- The bytes of an element begin with its start tag. -/
theorem bytes_startTag (layout : Layout) (depth : Nat) {e : Element} (named : e.WellNamed) :
    ∃ tag more, e.bytes layout depth = startTagBytes tag ++ more ∧ tag.WellNamed := by
  obtain ⟨name, attributes, children⟩ := e
  cases children with
  | nil =>
    refine ⟨⟨name, attributes, true⟩, [], ?_, named.1, named.2.1⟩
    rw [List.append_nil]
    rfl
  | cons child children => exact ⟨⟨name, attributes, false⟩, _, rfl, named.1, named.2.1⟩

theorem encode_render_root (layout : Layout) (root : Element) :
    Utf8.encode (render layout root) =
      (if layout.declaration then Utf8.encode declaration else []) ++
        (root.bytes layout 0 ++ [10]) := by
  have noMargin : Utf8.encode (layout.margin 0) = [] := by simp [Layout.margin]
  unfold render
  rw [Utf8.encode_append, encode_render, noMargin]
  split <;> rfl

/-- What stands before the root is passed. -/
theorem skipMisc_render (layout : Layout) {root : Element} (named : root.WellNamed) :
    ∃ c, skipMisc (skipByteOrderMark (.ofBytes (Utf8.encode (render layout root)))) = .ok c ∧
      c.rest = root.bytes layout 0 ++ [10] := by
  obtain ⟨tag, more, bytes, tagNamed⟩ := bytes_startTag layout 0 named
  have bracket : root.bytes layout 0 ++ [10] = 60 :: (Utf8.encode tag.name ++
      (attributesBytes tag.attributes ++ tagEnd tag.closed) ++ (more ++ [10])) := by
    rw [bytes, startTagBytes]
    simp
  have atRoot : ∀ {c : Cursor}, c.skipSpace.rest = root.bytes layout 0 ++ [10] →
      skipMisc c = .ok c.skipSpace := by
    intro c h
    rw [bytes, List.append_assoc] at h
    exact skipMisc_startTag tagNamed h
  rw [encode_render_root]
  by_cases declared : layout.declaration
  · rw [if_pos declared]
    have noMark : skipByteOrderMark (.ofBytes (Utf8.encode declaration ++
        (root.bytes layout 0 ++ [10]))) =
        .ofBytes (Utf8.encode declaration ++ (root.bytes layout 0 ++ [10])) := rfl
    obtain ⟨d, same, behind⟩ := skipMisc_declaration
      (c := .ofBytes (Utf8.encode declaration ++ (root.bytes layout 0 ++ [10]))) rfl
    have space : d.skipSpace.rest = root.bytes layout 0 ++ [10] := by
      rw [bracket] at behind ⊢
      simp [Cursor.skipSpace, behind, Cursor.rest_advanceBy, isSpace]
    exact ⟨_, by rw [noMark, same, atRoot space], space⟩
  · rw [if_neg declared, List.nil_append]
    have noMark : skipByteOrderMark (.ofBytes (root.bytes layout 0 ++ [10])) =
        .ofBytes (root.bytes layout 0 ++ [10]) := by
      simp [skipByteOrderMark, Cursor.startsWith, Cursor.ofBytes, bracket, byteOrderMark]
    have noSpace : Cursor.skipSpace (.ofBytes (root.bytes layout 0 ++ [10])) =
        .ofBytes (root.bytes layout 0 ++ [10]) :=
      Cursor.skipSpace_eq_self bracket (by decide)
    have space : Cursor.rest (Cursor.skipSpace (.ofBytes (root.bytes layout 0 ++ [10]))) =
        root.bytes layout 0 ++ [10] := by rw [noSpace]; rfl
    exact ⟨_, by rw [noMark, atRoot space], space⟩

/-- A printed tree is read, with the layout that now belongs to it. -/
theorem parse_render {limit : Nat} {layout : Layout} {root : Element} (named : root.WellNamed)
    (fits : Fits limit 0 root.height) :
    parse limit (Utf8.encode (render layout root)) = .ok (root.reread layout 0) := by
  obtain ⟨c, before, place⟩ := skipMisc_render layout named
  obtain ⟨tag, more, bytes, -⟩ := bytes_startTag layout 0 named
  have notEnd : c.atEnd = false := by
    simp [Cursor.atEnd, place, bytes, startTagBytes]
  have read := readElement_bytes named fits place
  have behind := Cursor.rest_past place
  have space : (c.past (root.bytes layout 0)).skipSpace.rest = [] := by
    simp [Cursor.skipSpace, behind, Cursor.rest_advanceBy, isSpace]
  have finished : (c.past (root.bytes layout 0)).skipSpace.atEnd := by
    simp [Cursor.atEnd, space]
  simp only [parse, before, notEnd, Bool.false_eq_true, if_false, read, skipMisc_end space,
    finished, if_true]

end RouteNotation.Xml
