import RouteNotation.Proofs.Xml.SettledTree
import RouteNotation.Proofs.Xml.SpelledTags
import RouteNotation.Proofs.Xml.TreeDepth

/-!
Trees read however they are spelled. Main statement: every spelling of a document is read as the
tree it spells, unless that is deeper than the limit.
-/

namespace RouteNotation.Xml

open Utf8

variable {limit : Nat} {top : OpenElement} {parents : List OpenElement} {c : Cursor}
  {tail : List UInt8}

section Layout
variable {start stop : String} {body : List Char}

theorem encode_layoutSections (known : (start, stop) ∈ layoutSections) :
    (encode start = commentStart ∧ encode stop = commentEnd) ∨
      (encode start = instructionStart ∧ encode stop = instructionEnd) := by
  simp only [layoutSections, List.mem_cons, Prod.mk.injEq, List.not_mem_nil, or_false] at known
  rcases known with ⟨rfl, rfl⟩ | ⟨rfl, rfl⟩
  · exact .inl ⟨rfl, rfl⟩
  · exact .inr ⟨rfl, rfl⟩

theorem toList_layoutSections (known : (start, stop) ∈ layoutSections) :
    ∃ mark last, stop.toList = mark ++ [last] ∧ last ∉ mark ∧
      ∀ m ∈ mark ++ [last], m.toNat < 128 := by
  simp only [layoutSections, List.mem_cons, Prod.mk.injEq, List.not_mem_nil, or_false] at known
  rcases known with ⟨-, rfl⟩ | ⟨-, rfl⟩
  · exact ⟨['-', '-'], '>', rfl, by decide, by simp⟩
  · exact ⟨['?'], '>', rfl, by decide, by simp⟩

theorem readSection_layout (known : (start, stop) ∈ layoutSections) (free : ¬ stop.toList <:+: body)
    (h : c.rest = encode start ++ (bytesOf body ++ (encode stop ++ tail))) :
    readSection (encode stop) (c.past (encode start)) =
      .ok (.ofList body, c.past (encode start ++ (bytesOf body ++ encode stop))) := by
  obtain ⟨mark, last, parts, once, ascii⟩ := toList_layoutSections known
  have inside := Cursor.rest_past h
  rw [parts] at free
  rw [← bytesOf_toList stop, parts] at inside ⊢
  rw [readSection_spelled ascii once free inside, Cursor.past_append c]

theorem readMarkup_layout {depth : Nat} {name : String} (known : (start, stop) ∈ layoutSections)
    (h : c.rest = encode start ++ tail) :
    readMarkup limit depth name c = skipSection (encode stop) (c.past (encode start)) := by
  rcases encode_layoutSections known with ⟨first, last⟩ | ⟨first, last⟩
  · rw [first, commentStart_eq] at h
    rw [first, last]
    simp [readMarkup, Cursor.atEnd, Cursor.startsWith, h, endTagStart_eq, commentStart_eq,
      Cursor.past]
  · rw [first, instructionStart_eq] at h
    rw [first, last]
    simp [readMarkup, Cursor.atEnd, Cursor.startsWith, h, endTagStart_eq, commentStart_eq,
      literalStart_eq, instructionStart_eq, Cursor.past]

theorem readContent_passed (known : (start, stop) ∈ layoutSections) (free : ¬ stop.toList <:+: body)
    (h : c.rest = encode start ++ (bytesOf body ++ (encode stop ++ tail))) :
    readContent limit top parents c =
      readContent limit top parents (c.past (encode start ++ (bytesOf body ++ encode stop))) := by
  apply readContent_nothing
  rw [readMarkup_layout known h, skipSection, readSection_layout known free h]

theorem skipMisc_passed (known : (start, stop) ∈ layoutSections) (free : ¬ stop.toList <:+: body)
    (h : c.skipSpace.rest = encode start ++ (bytesOf body ++ (encode stop ++ tail))) :
    skipMisc c = skipMisc (c.skipSpace.past (encode start ++ (bytesOf body ++ encode stop))) := by
  have whole := readSection_layout known free h
  have notEnd : c.skipSpace.rest ≠ [] := by
    rcases encode_layoutSections known with ⟨first, -⟩ | ⟨first, -⟩ <;> rw [h, first] <;> nofun
  rw [skipMisc]
  rcases encode_layoutSections known with ⟨first, last⟩ | ⟨first, last⟩
  · rw [first, last] at whole ⊢
    rw [first, commentStart_eq] at h
    have read : readSection commentEnd (c.skipSpace.advanceBy 4) = _ := whole
    have noInstruction : c.skipSpace.startsWith instructionStart = false := by
      simp [Cursor.startsWith, h, instructionStart_eq, List.isPrefixOf]
    have comment : c.skipSpace.startsWith commentStart := by
      simp [Cursor.startsWith, h, commentStart_eq]
    simp only [notEnd, noInstruction, comment, Bool.false_eq_true, ↓reduceDIte, if_true, if_false]
    split <;> rename_i found <;> cases found.symm.trans read
    rfl
  · rw [first, last] at whole ⊢
    rw [first, instructionStart_eq] at h
    have read : readSection instructionEnd (c.skipSpace.advanceBy 2) = _ := whole
    have instruction : c.skipSpace.startsWith instructionStart := by
      simp [Cursor.startsWith, h, instructionStart_eq]
    simp only [notEnd, instruction, ↓reduceDIte, if_true]
    split <;> rename_i found <;> cases found.symm.trans read
    rfl

theorem bracket_of_layoutSections (known : (start, stop) ∈ layoutSections) :
    ∃ rest, encode start = 60 :: rest := by
  rcases encode_layoutSections known with ⟨first, -⟩ | ⟨first, -⟩
  · exact ⟨_, first.trans commentStart_eq⟩
  · exact ⟨_, first.trans instructionStart_eq⟩

theorem bytesOf_passed (gap body rest : List Char) (start stop : String) :
    bytesOf (gap ++ (start.toList ++ (body ++ (stop.toList ++ rest)))) =
      bytesOf gap ++ ((encode start ++ (bytesOf body ++ encode stop)) ++ bytesOf rest) := by
  simp only [bytesOf_append, bytesOf_toList, List.append_assoc]

/-- Where a section stands: behind its gap, and before the rest of the layout. -/
theorem rest_of_passed {gap rest : List Char} (known : (start, stop) ∈ layoutSections)
    (h : c.rest = bytesOf (gap ++ (start.toList ++ (body ++ (stop.toList ++ rest)))) ++ tail) :
    (∃ more, c.rest = bytesOf gap ++ 60 :: more) ∧
    (c.past (bytesOf gap)).rest =
      encode start ++ (bytesOf body ++ (encode stop ++ (bytesOf rest ++ tail))) ∧
    ((c.past (bytesOf gap)).past (encode start ++ (bytesOf body ++ encode stop))).rest =
      bytesOf rest ++ tail := by
  rw [bytesOf_passed, List.append_assoc, List.append_assoc] at h
  obtain ⟨more, bracket⟩ := bracket_of_layoutSections known
  have here := Cursor.rest_past h
  refine ⟨?_, by simpa using here, Cursor.rest_past here⟩
  rw [h, bracket]
  exact ⟨_, rfl⟩

theorem past_passed (c : Cursor) (gap body rest : List Char) (start stop : String) :
    c.past (bytesOf (gap ++ (start.toList ++ (body ++ (stop.toList ++ rest))))) =
      ((c.past (bytesOf gap)).past (encode start ++ (bytesOf body ++ encode stop))).past
        (bytesOf rest) := by
  simp only [bytesOf_passed, Cursor.past_append]

end Layout

section Content
variable {text : String} {cs : List Char}

theorem readContent_data (decodes : Decodes text cs) (h : c.rest = bytesOf cs ++ 60 :: tail) :
    readContent limit top parents c =
      readContent limit (top.addAll (keptText text)) parents (c.past (bytesOf cs)) :=
  readContent_keptText h (nil_or_cons_of_decodes decodes) (readCharacters_of_decodes decodes h)

theorem readContent_spaces {gap : List Char} (spaces : Spaces gap)
    (h : c.rest = bytesOf gap ++ 60 :: tail) :
    readContent limit top parents c = readContent limit top parents (c.past (bytesOf gap)) := by
  obtain ⟨spelled, blank⟩ := text_of_spaces spaces
  rw [readContent_data (decodes_of_spelled spelled) h, keptText, if_pos blank]
  rfl

/-- Layout within an element is passed up to the tag behind it. -/
theorem readContent_layout (layout : LayoutSpelling cs) (h : c.rest = bytesOf cs ++ 60 :: tail) :
    readContent limit top parents c = readContent limit top parents (c.past (bytesOf cs)) := by
  -- A gap is blank text, and a section is one piece of markup that counts for nothing.
  induction layout generalizing c with
  | spaces spaces => exact readContent_spaces spaces h
  | @passed gap body rest start stop spaces known free _ ih =>
    obtain ⟨⟨more, first⟩, here, behind⟩ := rest_of_passed known h
    rw [readContent_spaces spaces first, readContent_passed known free here, ih behind,
      past_passed]

theorem skipMisc_congr {d : Cursor} (h : c.skipSpace = d.skipSpace) : skipMisc c = skipMisc d := by
  rw [skipMisc, skipMisc.eq_def d, h]

theorem skipMisc_spaces {gap : List Char} (spaces : Spaces gap) (h : c.rest = bytesOf gap ++ tail)
    (stop : ∀ b ∈ tail.head?, isSpace b = false) :
    skipMisc c = skipMisc (c.past (bytesOf gap)) := by
  have none : Spaces [] := nofun
  have behind : (c.past (bytesOf gap)).skipSpace = (c.past (bytesOf gap)).past [] :=
    skipSpace_spelled none (Cursor.rest_past h) stop
  apply skipMisc_congr
  rw [skipSpace_spelled spaces h stop, behind, Cursor.past_nil]

/-- Layout around the root is passed up to the tag or the end behind it. -/
theorem skipMisc_layout (layout : LayoutSpelling cs) (h : c.rest = bytesOf cs ++ tail)
    (stop : ∀ b ∈ tail.head?, isSpace b = false) : skipMisc c = skipMisc (c.past (bytesOf cs)) := by
  induction layout generalizing c with
  | spaces spaces => exact skipMisc_spaces spaces h stop
  | @passed gap body rest start stop spaces known free _ ih =>
    obtain ⟨⟨more, first⟩, here, behind⟩ := rest_of_passed known h
    have skipped : c.skipSpace = c.past (bytesOf gap) :=
      skipSpace_spelled spaces first (by simp [isSpace])
    rw [← skipped] at here behind
    rw [skipMisc_passed known free here, ih behind, skipped, past_passed]

end Content


section Elements
variable {name : String} {attributes : Attributes} {children : List Content}
  {tag gap cs : List Char}

theorem bytes_of_tag {as : List (String × String)} (spelled : TagSpelling name as tag)
    (named : isValidName name) : ∃ b more, bytesOf tag = b :: more ∧ isNameStart b := by
  obtain ⟨b, rest, bytes, starts, -⟩ := encode_of_isValidName named
  cases spelled with
  | name => exact ⟨b, rest, by rw [bytesOf_toList, bytes], starts⟩
  | spaced => exact ⟨b, _, by rw [bytesOf_append, bytesOf_toList, bytes, List.cons_append], starts⟩

/-- An element begins with a bracket and its name. -/
theorem bytes_of_element {e : Element} (spelled : ElementSpelling e cs) (named : e.WellNamed) :
    ∃ b more, bytesOf cs = 60 :: b :: more ∧ isNameStart b := by
  cases spelled with
  | empty tag | text tag | elements tag =>
    obtain ⟨b, more, bytes, starts⟩ := bytes_of_tag tag named.1
    rw [bytesOf_lt, bytesOf_append, bytes]
    exact ⟨b, _, rfl, starts⟩

/-- Reading an element from its start tag on, with these elements open around it. -/
def opened (limit : Nat) (parents : List OpenElement) (c : Cursor) : Read Element :=
  match readStartTag limit (parents.length + 1) c with
  | .error e => .error e
  | .ok (tag, d) =>
    if tag.closed then closed limit (.leaf tag.name tag.attributes) parents d
    else readContent limit ⟨tag.name, tag.attributes, []⟩ parents d

theorem readElement_eq_opened : readElement limit c = opened limit [] c := by
  unfold readElement opened
  rfl

theorem readContent_opened {b : UInt8} (h : c.rest = 60 :: b :: tail) (starts : isNameStart b) :
    readContent limit top parents c = opened limit (top :: parents) c := by
  obtain ⟨noEnd, noComment, noLiteral, noInstruction, -⟩ := startsWith_of_isNameStart h starts
  have more : c.atEnd = false := by simp [Cursor.atEnd, h]
  have bracket : c.current? = some 60 := by simp [Cursor.current?, h]
  unfold opened
  rw [List.length_cons]
  cases start : readStartTag limit (parents.length + 2) c with
  | error e =>
    have markup : readMarkup limit (parents.length + 2) top.name c = .error e := by
      simp only [readMarkup, more, noEnd, noComment, noLiteral, noInstruction, bracket,
        Bool.false_eq_true, if_false, if_true, start]
    exact readContent_error markup
  | ok read =>
    have markup : readMarkup limit (parents.length + 2) top.name c =
        .ok (.startTag read.1, read.2) := by
      simp only [readMarkup, more, noEnd, noComment, noLiteral, noInstruction, bracket,
        Bool.false_eq_true, if_false, if_true, start]
    exact readContent_startTag markup

/-- Reading an element, however many are open around it, comes to its end. -/
def ElementReads (limit : Nat) (e : Element) (cs : List Char) : Prop :=
  ∀ {parents : List OpenElement} {c : Cursor} {tail : List UInt8},
    exceeds limit (parents.length + e.height) = false → c.rest = bytesOf cs ++ tail →
    opened limit parents c = closed limit e parents (c.past (bytesOf cs))

/-- Reading some content up to the next tag adds it to the open element. -/
def ContentsReads (limit : Nat) (children : List Content) (cs : List Char) : Prop :=
  ∀ {top : OpenElement} {parents : List OpenElement} {c : Cursor} {tail : List UInt8},
    exceeds limit (parents.length + 1 + heightOfContents children) = false →
    c.rest = bytesOf cs ++ 60 :: tail →
    readContent limit top parents c =
      readContent limit (top.addAll children) parents (c.past (bytesOf cs))

theorem exceeds_of_height {e : Element}
    (fits : exceeds limit (parents.length + e.height) = false) :
    exceeds limit (parents.length + 1) = false := by
  obtain ⟨_, _, _⟩ := e
  exact exceeds_mono (by rw [Element.height]; omega) fits

theorem elementReads_empty (spelled : TagSpelling name attributes.entries tag)
    (named : isValidName name) (keys : ∀ key ∈ attributes.keys, isValidName key) :
    ElementReads limit ⟨name, attributes, []⟩ ('<' :: (tag ++ ['/', '>'])) := by
  intro parents c tail fits h
  have bytes : bytesOf ('<' :: (tag ++ ['/', '>'])) = 60 :: (bytesOf tag ++ tagEnd true) := by
    rw [bytesOf_lt, bytesOf_append]
    rfl
  have place : c.rest = 60 :: (bytesOf tag ++ (tagEnd true ++ tail)) := by
    rw [h, bytes, List.cons_append, List.append_assoc]
  have start := readStartTag_spelled spelled named keys (exceeds_of_height fits) true place
  rw [opened, start, bytes]
  rfl

/-- An element with tags of its own is read when what stands between them is. -/
theorem elementReads_body (spelled : TagSpelling name attributes.entries tag)
    (named : isValidName name) (keys : ∀ key ∈ attributes.keys, isValidName key)
    (spaces : Spaces gap) (contents : ContentsReads limit children cs) :
    ElementReads limit ⟨name, attributes, children⟩
      ('<' :: (tag ++ '>' :: (cs ++ endTagSpelling name gap))) := by
  intro parents c tail fits h
  -- The content is one element deeper than the element itself.
  have inner : exceeds limit (parents.length + 1 + heightOfContents children) = false :=
    exceeds_mono (by rw [Element.height]; omega) fits
  have bytes : bytesOf ('<' :: (tag ++ '>' :: (cs ++ endTagSpelling name gap))) =
      (60 :: (bytesOf tag ++ tagEnd false)) ++ (bytesOf cs ++ ([60, 47] ++
        (encode name ++ (bytesOf gap ++ [62])))) := by
    have opening : bytesOf "</".toList = [60, 47] := rfl
    have angle : bytesOf ['>'] = [62] := rfl
    simp only [endTagSpelling, bytesOf_lt, bytesOf_gt, bytesOf_append, bytesOf_toList, opening,
      angle, tagEnd]
    simp
  have place : c.rest = 60 :: (bytesOf tag ++ (tagEnd false ++ (bytesOf cs ++
      60 :: 47 :: (encode name ++ (bytesOf gap ++ 62 :: tail))))) := by
    rw [h, bytes]
    simp
  have start := readStartTag_spelled spelled named keys (exceeds_of_height fits) false place
  have behindTag : (c.past (60 :: (bytesOf tag ++ tagEnd false))).rest =
      bytesOf cs ++ 60 :: 47 :: (encode name ++ (bytesOf gap ++ 62 :: tail)) :=
    Cursor.rest_past (by simpa using place)
  have atEnd := Cursor.rest_past behindTag
  have end_ : readMarkup limit (parents.length + 2) name _ = _ := readMarkup_endTag atEnd
  have behind : (((c.past (60 :: (bytesOf tag ++ tagEnd false))).past (bytesOf cs)).past
      [60, 47]).rest = encode name ++ (bytesOf gap ++ 62 :: tail) := Cursor.rest_past atEnd
  rw [readEndTag_spelled named spaces behind] at end_
  rw [opened, start, bytes, Cursor.past_append, Cursor.past_append, Cursor.past_append]
  simp only [Bool.false_eq_true, if_false]
  rw [contents inner behindTag, readContent_endTag end_]
  simp [OpenElement.addAll, OpenElement.close]

theorem contentsReads_text {value : String} (spelled : TextSpelling value cs)
    (full : Text.isBlankText value = false) : ContentsReads limit [.text value] cs := by
  intro top parents c tail _ h
  rw [readContent_data (decodes_of_spelled spelled) h, keptText, if_neg (by simp [full])]

theorem contentsReads_nil (layout : LayoutSpelling cs) : ContentsReads limit [] cs := by
  intro top parents c tail _ h
  exact readContent_layout layout h

theorem contentsReads_cons {e : Element} {rest : List Content} {layout ds : List Char}
    (before : LayoutSpelling layout) (spelled : ElementSpelling e cs) (named : e.WellNamed)
    (element : ElementReads limit e cs) (more : ContentsReads limit rest ds) :
    ContentsReads limit (.element e :: rest) (layout ++ (cs ++ ds)) := by
  intro top parents c tail fits h
  obtain ⟨b, bytes, first, starts⟩ := bytes_of_element spelled named
  have place : c.rest = bytesOf layout ++ (bytesOf cs ++ (bytesOf ds ++ 60 :: tail)) := by
    rw [h, bytesOf_append, bytesOf_append]
    simp
  have atElement := Cursor.rest_past place
  have behind := Cursor.rest_past atElement
  have bracket := place
  have begins := atElement
  rw [first] at bracket begins
  have here : exceeds limit ((top :: parents).length + e.height) = false :=
    exceeds_mono (Nat.add_le_add_left (Nat.le_max_left _ _) _) fits
  have later : exceeds limit (parents.length + 1 + heightOfContents rest) = false :=
    exceeds_mono (Nat.add_le_add_left (Nat.le_max_right _ _) _) fits
  calc readContent limit top parents c
      = readContent limit top parents (c.past (bytesOf layout)) := readContent_layout before bracket
    _ = opened limit (top :: parents) (c.past (bytesOf layout)) := readContent_opened begins starts
    _ = _ := element here atElement
    _ = _ := more later behind
    _ = _ := by
        rw [bytesOf_append, bytesOf_append, Cursor.past_append, Cursor.past_append]
        simp [OpenElement.addAll, OpenElement.add]

end Elements

mutual

theorem elementReads {limit : Nat} : {e : Element} → {cs : List Char} → ElementSpelling e cs →
    e.WellNamed → ElementReads limit e cs
  | _, _, .empty tag, named => elementReads_empty tag named.1 named.2.1
  | _, _, .text tag full text spaces, named =>
    elementReads_body tag named.1 named.2.1 spaces (contentsReads_text text full)
  | _, _, .elements tag contents spaces, named =>
    elementReads_body tag named.1 named.2.1 spaces (contentsReads contents named.2.2)

theorem contentsReads {limit : Nat} : {children : List Content} → {cs : List Char} →
    ContentsSpelling children cs → ContentsWellNamed children → ContentsReads limit children cs
  | _, _, .nil layout, _ => contentsReads_nil layout
  | _, _, .cons before element rest, named =>
    contentsReads_cons before element named.1 (elementReads element named.1)
      (contentsReads rest named.2)

end

section Documents
variable {e : Element} {cs : List Char}

/-- Neither layout nor a tag begins like a byte order mark. -/
theorem layout_unmarked (layout : LayoutSpelling cs) (tail : List UInt8) :
    ∃ b rest, bytesOf cs ++ 60 :: tail = b :: rest ∧ b ≠ 0xEF := by
  have whole : ∀ {gap : List Char}, Spaces gap → ∀ tail, ∃ b rest,
      bytesOf gap ++ 60 :: tail = b :: rest ∧ b ≠ 0xEF := by
    intro gap spaces tail
    cases bytes : bytesOf gap with
    | nil => exact ⟨60, tail, rfl, by decide⟩
    | cons b rest =>
      have space := isSpace_of_spaces spaces b (by simp [bytes])
      refine ⟨b, rest ++ 60 :: tail, rfl, ?_⟩
      rintro rfl
      exact absurd space (by decide)
  cases layout with
  | spaces spaces => exact whole spaces tail
  | passed spaces known =>
    obtain ⟨more, bracket⟩ := bracket_of_layoutSections known
    rw [bytesOf_passed, bracket]
    simp only [List.append_assoc, List.cons_append]
    exact whole spaces _

theorem skipByteOrderMark_spelled {mark : List Char} (marked : mark ∈ [[], ['\uFEFF']])
    (layout : LayoutSpelling cs) :
    (skipByteOrderMark (.ofBytes (bytesOf mark ++ (bytesOf cs ++ 60 :: tail)))).rest =
      bytesOf cs ++ 60 :: tail := by
  simp only [List.mem_cons, List.not_mem_nil, or_false] at marked
  rcases marked with rfl | rfl
  · obtain ⟨b, rest, bytes, noMark⟩ := layout_unmarked layout tail
    rw [bytesOf_nil, List.nil_append, bytes]
    simp [skipByteOrderMark, Cursor.startsWith, Cursor.ofBytes, byteOrderMark, Ne.symm noMark]
  · have marks : bytesOf ['\uFEFF'] = byteOrderMark := by decide
    rw [marks]
    simp [skipByteOrderMark, Cursor.startsWith, Cursor.ofBytes, byteOrderMark,
      Cursor.rest_advanceBy]

theorem skipMisc_bracket {b : UInt8} (h : c.rest = 60 :: b :: tail) (starts : isNameStart b) :
    skipMisc c = .ok c := by
  obtain ⟨-, noComment, -, noInstruction, noDeclaration⟩ := startsWith_of_isNameStart h starts
  have noSpace : c.skipSpace = c := Cursor.skipSpace_eq_self h (by decide)
  rw [skipMisc]
  simp [noSpace, h, noComment, noInstruction, noDeclaration]

theorem skipMisc_nil (h : c.rest = []) : skipMisc c = .ok c := by
  have noSpace : c.skipSpace = c := by simp [Cursor.skipSpace, h]
  rw [skipMisc_end (by rw [noSpace, h]), noSpace]

theorem readElement_of_reads (reads : ElementReads limit e cs)
    (fits : exceeds limit e.height = false) (h : c.rest = bytesOf cs ++ tail) :
    readElement limit c = .ok (e, c.past (bytesOf cs)) := by
  have none : exceeds limit (([] : List OpenElement).length + e.height) = false := by
    rwa [List.length_nil, Nat.zero_add]
  rw [readElement_eq_opened, reads none h]
  rfl

/-- A document is read as its root is, whatever layout stands around it. -/
theorem parse_of_reads {mark before after : List Char} {b : UInt8} {more : List UInt8}
    (marked : mark ∈ [[], ['\uFEFF']]) (layout : LayoutSpelling before)
    (first : bytesOf cs = 60 :: b :: more) (starts : isNameStart b)
    (reads : ElementReads limit e cs) (fits : exceeds limit e.height = false)
    (rest : LayoutSpelling after) :
    parse limit (encode (.ofList (mark ++ (before ++ (cs ++ after))))) = .ok e := by
  have bytes : encode (.ofList (mark ++ (before ++ (cs ++ after)))) =
      bytesOf mark ++ (bytesOf before ++ 60 :: (b :: more ++ bytesOf after)) := by
    simp only [encode_ofList_eq, bytesOf_append, first, List.cons_append]
  have place := @skipByteOrderMark_spelled (b :: more ++ bytesOf after) _ _ marked layout
  rw [parse, bytes]
  -- From here on only what is left to read matters, not what was passed.
  generalize skipByteOrderMark (.ofBytes (bytesOf mark ++
    (bytesOf before ++ 60 :: (b :: more ++ bytesOf after)))) = c at place
  have bracket := Cursor.rest_past place
  have atRoot : (c.past (bytesOf before)).rest = bytesOf cs ++ bytesOf after := by
    rw [bracket, first]
    rfl
  have behind : ((c.past (bytesOf before)).past (bytesOf cs)).rest = bytesOf after ++ [] := by
    rw [Cursor.rest_past atRoot, List.append_nil]
  have atEnd := Cursor.rest_past behind
  have toRoot : skipMisc c = .ok (c.past (bytesOf before)) := by
    rw [skipMisc_layout layout place (by simp [isSpace]), skipMisc_bracket bracket starts]
  have toEnd : skipMisc ((c.past (bytesOf before)).past (bytesOf cs)) =
      .ok (((c.past (bytesOf before)).past (bytesOf cs)).past (bytesOf after)) := by
    rw [skipMisc_layout rest behind (by simp), skipMisc_nil atEnd]
  have notEnd : (c.past (bytesOf before)).atEnd = false := by simp [Cursor.atEnd, bracket]
  have finished : Cursor.atEnd (((c.past (bytesOf before)).past (bytesOf cs)).past
      (bytesOf after)) := by simp [Cursor.atEnd, atEnd]
  simp only [toRoot, notEnd, readElement_of_reads reads fits atRoot, toEnd, finished,
    Bool.false_eq_true, if_true, if_false]

theorem parse_of_spelling (named : e.WellNamed) (spelled : DocumentSpelling e cs)
    (fits : exceeds limit e.height = false) : parse limit (encode (.ofList cs)) = .ok e := by
  cases spelled with
  | document marked layout element rest =>
    obtain ⟨b, more, first, starts⟩ := bytes_of_element element named
    exact parse_of_reads marked layout first starts (elementReads element named) fits rest

/-- Whatever spelling of a tree is parsed, the tree comes out, unless the depth limit forbids it. -/
theorem parse_spelling {limit : Nat} {cs : List Char} (named : e.WellNamed)
    (spelled : DocumentSpelling e cs) :
    parse limit (encode (.ofList cs)) = .ok e ↔ exceeds limit e.height = false :=
  ⟨exceeds_of_parse, parse_of_spelling named spelled⟩

end Documents

section Example

/-- A tree in which text, a value and the content of elements need spelling. -/
def spelledTree : Element :=
  ⟨"a:b", .single "c" "<\"", [.element (.ofText "d" .empty " &é"),
    .element (.leaf "e" .empty), .element (.leaf "e" .empty)]⟩

/-- One of its spellings, with white space, layout, references and both kinds of tags. -/
def spelledText : String :=
  "\uFEFF<?x?>\n<a:b\tc = '&#x3C;\"' ><!-- - --><d> &amp;&#0233;</d\n><e ></e><e/></a:b>\n"

theorem valueSpelling_reference : ValueSpelling "<\"" "'&#x3C;\"'".toList := by
  have three : NumberSpelling 16 3 ['3'] := .digit (by decide)
  have sixty : NumberSpelling 16 60 ['3', 'C'] := three.more (d := 12) (by decide)
  exact ⟨'\'', by decide, "&#x3C;\"".toList,
    .cons (.hexadecimal (c := '<') sixty) (.cons (.plain (by decide)) .nil), rfl⟩

theorem textSpelling_references : TextSpelling " &é" " &amp;&#0233;".toList := by
  have zero : NumberSpelling 10 0 ['0'] := .digit (by decide)
  have two : NumberSpelling 10 2 ['0', '2'] := zero.more (d := 2) (by decide)
  have three : NumberSpelling 10 23 ['0', '2', '3'] := two.more (d := 3) (by decide)
  have letter : NumberSpelling 10 233 ['0', '2', '3', '3'] := three.more (d := 3) (by decide)
  have ampersand : ('&', "amp") ∈ predefinedEntities := by decide
  exact .cons (.plain (by decide)) (.cons (.entity ampersand)
    (.cons (.decimal (c := 'é') letter) .nil))

theorem tagSpelling_attribute :
    TagSpelling "a:b" spelledTree.attributes.entries "a:b\tc = '&#x3C;\"' ".toList := by
  have none : Spaces [] := nofun
  have space : Spaces [' '] := by decide
  have tab : Spaces ['\t'] := by decide
  exact .spaced tab (.cons none (.equals space space valueSpelling_reference) (.nil space))

theorem contentsSpelling_leaves :
    ContentsSpelling [.element (.leaf "e" .empty), .element (.leaf "e" .empty)]
      "<e ></e><e/>".toList := by
  have none : Spaces [] := nofun
  have space : Spaces [' '] := by decide
  have short : TagSpelling "e" (OrderedMap.empty : Attributes).entries "e".toList := .name
  have wide : TagSpelling "e" (OrderedMap.empty : Attributes).entries "e ".toList :=
    .spaced space (.nil none)
  have first : ElementSpelling (.leaf "e" .empty) "<e ></e>".toList :=
    .elements wide (.nil (.spaces none)) none
  have second : ElementSpelling (.leaf "e" .empty) "<e/>".toList := .empty short
  exact .cons (.spaces none) first (.cons (.spaces none) second (.nil (.spaces none)))

theorem contentsSpelling_spelledTree :
    ContentsSpelling spelledTree.children
      "<!-- - --><d> &amp;&#0233;</d\n><e ></e><e/>".toList := by
  have none : Spaces [] := nofun
  have line : Spaces ['\n'] := by decide
  have noMark : ¬ "-->".toList <:+: " - ".toList := by decide
  have comment : LayoutSpelling "<!-- - -->".toList :=
    .passed none List.mem_cons_self noMark (.spaces none)
  have tag : TagSpelling "d" (OrderedMap.empty : Attributes).entries "d".toList := .name
  have first : ElementSpelling (.ofText "d" .empty " &é") "<d> &amp;&#0233;</d\n>".toList :=
    .text tag (by decide) textSpelling_references line
  exact .cons comment first contentsSpelling_leaves

theorem documentSpelling_spelledTree : DocumentSpelling spelledTree spelledText.toList := by
  have none : Spaces [] := nofun
  have line : Spaces ['\n'] := by decide
  have noMark : ¬ "?>".toList <:+: "x".toList := by decide
  have instruction : LayoutSpelling "<?x?>\n".toList :=
    .passed none (List.mem_cons_of_mem _ List.mem_cons_self) noMark (.spaces line)
  have element := ElementSpelling.elements tagSpelling_attribute contentsSpelling_spelledTree none
  have mark : ['\uFEFF'] ∈ [[], ['\uFEFF']] := by decide
  refine cast (congrArg (DocumentSpelling spelledTree) ?_)
    (DocumentSpelling.document mark instruction element (.spaces line))
  decide

theorem parse_spelling_spelledTree :
    spelledTree.WellNamed ∧ DocumentSpelling spelledTree spelledText.toList ∧
    parse 2 (encode (.ofList spelledText.toList)) = .ok spelledTree ∧
    parse 1 (encode (.ofList spelledText.toList)) ≠ .ok spelledTree := by
  have named : spelledTree.WellNamed := by decide
  have spelled := documentSpelling_spelledTree
  have tooDeep : exceeds 1 spelledTree.height = true := by decide
  refine ⟨named, spelled, (parse_spelling named spelled).2 (by decide), fun read => ?_⟩
  rw [(parse_spelling named spelled).1 read] at tooDeep
  contradiction

end Example

section Settled

theorem exists_dataSpelling {plain : Char → Prop}
    (h : ∀ c, plain c ∨ ∃ name, (c, name) ∈ predefinedEntities) (text : List Char) :
    ∃ forms, DataSpelling plain text forms := by
  induction text with
  | nil => exact ⟨[], .nil⟩
  | cons c text ih =>
    obtain ⟨forms, more⟩ := ih
    rcases h c with here | ⟨name, known⟩
    · exact ⟨_, .cons (.plain here) more⟩
    · exact ⟨_, .cons (.entity known) more⟩

theorem plain_or_predefined {stop : Char} {name : String}
    (known : (stop, name) ∈ predefinedEntities) (c : Char) :
    (c ≠ '&' ∧ c ≠ stop) ∨ ∃ name, (c, name) ∈ predefinedEntities := by
  by_cases ampersand : c = '&'
  · exact .inr ⟨"amp", by simp [ampersand, predefinedEntities]⟩
  · by_cases here : c = stop
    · exact .inr ⟨name, by rwa [here]⟩
    · exact .inl ⟨ampersand, here⟩

theorem exists_attributesSpelling (es : List (String × String)) :
    ∃ ds, AttributesSpelling es ds := by
  have none : Spaces [] := nofun
  induction es with
  | nil => exact ⟨[], .nil none⟩
  | cons e es ih =>
    obtain ⟨ds, more⟩ := ih
    have quote : ('"', "quot") ∈ predefinedEntities := by decide
    obtain ⟨forms, data⟩ := exists_dataSpelling (plain_or_predefined quote) e.2.toList
    have value : ValueSpelling e.2 ('"' :: (forms ++ ['"'])) := ⟨'"', by decide, forms, data, rfl⟩
    exact ⟨_, .cons none (.equals none none value) more⟩

theorem exists_tagSpelling (name : String) (es : List (String × String)) :
    ∃ tag, TagSpelling name es tag := by
  obtain ⟨ds, spelled⟩ := exists_attributesSpelling es
  have space : Spaces [' '] := by decide
  exact ⟨_, .spaced space spelled⟩

mutual

theorem exists_elementSpelling : {e : Element} → e.Settled → ∃ cs, ElementSpelling e cs
  | ⟨name, attributes, children⟩, settled => by
    have none : Spaces [] := nofun
    obtain ⟨tag, start⟩ := exists_tagSpelling name attributes.entries
    rcases settled with ⟨value, rfl, full⟩ | elements
    · have bracket : ('<', "lt") ∈ predefinedEntities := by decide
      obtain ⟨forms, data⟩ := exists_dataSpelling (plain_or_predefined bracket) value.toList
      exact ⟨_, .text start full data none⟩
    · obtain ⟨ds, contents⟩ := exists_contentsSpelling elements
      exact ⟨_, .elements start contents none⟩

theorem exists_contentsSpelling : {cs : List Content} → ElementsSettled cs →
    ∃ ds, ContentsSpelling cs ds
  | [], _ => ⟨[], .nil (.spaces nofun)⟩
  | .element _ :: _, settled => by
    have none : LayoutSpelling [] := .spaces nofun
    obtain ⟨cs, first⟩ := exists_elementSpelling settled.1
    obtain ⟨ds, others⟩ := exists_contentsSpelling settled.2
    exact ⟨_, .cons none first others⟩
  | .text _ :: _, settled => False.elim settled

end

mutual

theorem settled_of_spelling : {e : Element} → {cs : List Char} → ElementSpelling e cs → e.Settled
  | _, _, .empty _ => .inr trivial
  | _, _, .text _ full _ _ => .inl ⟨_, rfl, full⟩
  | _, _, .elements _ contents _ => .inr (settled_of_contents contents)

theorem settled_of_contents : {children : List Content} → {cs : List Char} →
    ContentsSpelling children cs → ElementsSettled children
  | _, _, .nil _ => trivial
  | _, _, .cons _ element rest => ⟨settled_of_spelling element, settled_of_contents rest⟩

end

/-- The trees that can be spelled are those in which an element holds one text that is not blank,
or else elements only. -/
theorem exists_documentSpelling_iff {e : Element} :
    (∃ cs, DocumentSpelling e cs) ↔ e.Settled := by
  constructor
  · rintro ⟨_, _, _, element, _⟩
    exact settled_of_spelling element
  · intro settled
    obtain ⟨cs, element⟩ := exists_elementSpelling settled
    have none : LayoutSpelling [] := .spaces nofun
    exact ⟨_, .document List.mem_cons_self none element none⟩

end Settled

end RouteNotation.Xml
