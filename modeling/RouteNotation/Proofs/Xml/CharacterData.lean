import Mathlib.Data.List.Flatten
import RouteNotation.Proofs.Text.Trimming
import RouteNotation.Proofs.Xml.SpelledTree

/-!
Elements that hold character data only, cut into pieces by comments, instructions and literal
sections. Main statement: `parse_pieces`, the text of such an element is that of all pieces together
exactly if no blank run stands between pieces that are not blank, for the reader drops each blank
run by itself.
-/

namespace RouteNotation.Xml

open Utf8

/-- What stands between the tags of an element without child elements. -/
inductive Piece
  /-- Character data up to the next mark, with the references replaced. -/
  | run (text : String)
  /-- A literal section. -/
  | literal (text : String)
  /-- A comment or a processing instruction. -/
  | passed

namespace Piece

def text : Piece → String
  | .run text | .literal text => text
  | .passed => ""

def isRun : Piece → Bool
  | .run _ => true
  | .literal _ | .passed => false

/-- Whether the reader puts the piece into the element. It leaves out each run of blanks. -/
def isKept : Piece → Bool
  | .run text => !Text.isBlankText text
  | .literal _ => true
  | .passed => false

end Piece

/-- The content that is read of some pieces. -/
def pieceContents (ps : List Piece) : List Content :=
  (ps.filter Piece.isKept).map fun p => .text p.text

def piecedElement (name : String) (attributes : Attributes) (ps : List Piece) : Element :=
  ⟨name, attributes, pieceContents ps⟩

/-- Some blanks make a run of their own between pieces that are not blank. -/
def BlankBetween (ps : List Piece) : Prop :=
  ∃ before text after, ps = before ++ .run text :: after ∧ text ≠ "" ∧ Text.isBlankText text ∧
    (∃ p ∈ before, Text.isBlankText p.text = false) ∧
    ∃ p ∈ after, Text.isBlankText p.text = false

/-- A run ends where markup begins; each section ends at the first place where its mark stands. -/
inductive PieceSpelling : Piece → List Char → Prop
  | run {text : String} {form : List Char} : Decodes text form → PieceSpelling (.run text) form
  | literal {text : List Char} : ¬ "]]>".toList <:+: text →
      PieceSpelling (.literal (.ofList text)) ("<![CDATA[".toList ++ (text ++ "]]>".toList))
  | passed {body : List Char} {start stop : String} : (start, stop) ∈ layoutSections →
      ¬ stop.toList <:+: body → PieceSpelling .passed (start.toList ++ (body ++ stop.toList))

/-- Pieces in order. Two runs side by side would be one. -/
inductive PiecesSpelling : List Piece → List Char → Prop
  | nil : PiecesSpelling [] []
  | cons {p : Piece} {ps : List Piece} {form forms : List Char} : PieceSpelling p form →
      (p.isRun → ∀ q ∈ ps.head?, q.isRun = false) → PiecesSpelling ps forms →
      PiecesSpelling (p :: ps) (form ++ forms)

/-- Anything may follow a piece that is not a run. -/
theorem PiecesSpelling.cons_section {p : Piece} {ps : List Piece} {form forms : List Char}
    (spelled : PieceSpelling p form) (notRun : p.isRun = false) (more : PiecesSpelling ps forms) :
    PiecesSpelling (p :: ps) (form ++ forms) :=
  .cons spelled (fun run => absurd run (by simp [notRun])) more

inductive PiecedSpelling (name : String) (attributes : Attributes) : List Piece → List Char → Prop
  | empty {tag : List Char} : TagSpelling name attributes.entries tag →
      PiecedSpelling name attributes [] ('<' :: (tag ++ ['/', '>']))
  | pieces {tag cs gap : List Char} {ps : List Piece} : TagSpelling name attributes.entries tag →
      PiecesSpelling ps cs → Spaces gap →
      PiecedSpelling name attributes ps ('<' :: (tag ++ '>' :: (cs ++ endTagSpelling name gap)))

section Reading
variable {limit : Nat} {top : OpenElement} {parents : List OpenElement} {c : Cursor}
  {tail : List UInt8} {name : String} {attributes : Attributes} {p : Piece} {ps : List Piece}
  {cs form : List Char}

theorem readContent_literal {text : List Char} (free : ¬ "]]>".toList <:+: text)
    (h : c.rest = literalStart ++ (bytesOf text ++ (literalEnd ++ tail))) :
    readContent limit top parents c = readContent limit (top.add (.text (.ofList text))) parents
      (c.past (literalStart ++ (bytesOf text ++ literalEnd))) := by
  have mark : "]]>".toList = [']', ']'] ++ ['>'] := rfl
  have stop : literalEnd = bytesOf ([']', ']'] ++ ['>']) := rfl
  have inside := Cursor.rest_past h
  rw [mark] at free
  rw [stop] at inside
  have ascii : ∀ m ∈ [']', ']'] ++ ['>'], m.toNat < 128 := by simp
  have read := readSection_spelled ascii (by decide) free inside
  rw [← stop, ← Cursor.past_append] at read
  apply readContent_text
  rw [literalStart_eq] at h read ⊢
  have inner : readSection literalEnd (c.advanceBy 9) = _ := read
  simp [readMarkup, Cursor.atEnd, Cursor.startsWith, h, endTagStart_eq, commentStart_eq,
    literalStart_eq, inner]

theorem pieceContents_run (text : String) : pieceContents [.run text] = keptText text := by
  rw [keptText]
  by_cases blank : Text.isBlankText text <;> simp [pieceContents, Piece.isKept, Piece.text, blank]

theorem pieceContents_cons (p : Piece) (ps : List Piece) :
    pieceContents (p :: ps) = pieceContents [p] ++ pieceContents ps := by
  rw [pieceContents, ← List.singleton_append, List.filter_append, List.map_append]
  rfl

/-- One piece is read where it stands. A run must go up to the next tag. -/
theorem readContent_piece (spelled : PieceSpelling p form)
    (ends : p.isRun → ∃ more, tail = 60 :: more) (h : c.rest = bytesOf form ++ tail) :
    readContent limit top parents c =
      readContent limit (top.addAll (pieceContents [p])) parents (c.past (bytesOf form)) := by
  cases spelled with
  | run decodes =>
    obtain ⟨more, rfl⟩ := ends rfl
    rw [pieceContents_run]
    exact readContent_data decodes h
  | @literal text free =>
    have bytes : bytesOf ("<![CDATA[".toList ++ (text ++ "]]>".toList)) =
        literalStart ++ (bytesOf text ++ literalEnd) := by
      simp only [bytesOf_append, bytesOf_toList]
      rfl
    rw [bytes] at h ⊢
    exact readContent_literal free (by simpa using h)
  | @passed body start stop known free =>
    have bytes : bytesOf (start.toList ++ (body ++ stop.toList)) =
        encode start ++ (bytesOf body ++ encode stop) := by
      simp only [bytesOf_append, bytesOf_toList]
    rw [bytes] at h ⊢
    exact readContent_passed known free (by simpa using h)

theorem bracket_of_piece (spelled : PieceSpelling p form) (h : p.isRun = false) :
    ∃ more, bytesOf form = 60 :: more := by
  cases spelled with
  | run => cases h
  | literal => exact ⟨_, rfl⟩
  | @passed body start stop known =>
    obtain ⟨rest, first⟩ := bracket_of_layoutSections known
    rw [bytesOf_append, bytesOf_toList, first]
    exact ⟨_, rfl⟩

/-- Behind a run stands a tag or a section, so a bracket. -/
theorem bracket_of_pieces (spelled : PiecesSpelling ps cs)
    (h : ∀ q ∈ ps.head?, q.isRun = false) (tail : List UInt8) :
    ∃ more, bytesOf cs ++ 60 :: tail = 60 :: more := by
  cases spelled with
  | nil => exact ⟨tail, rfl⟩
  | cons first =>
    obtain ⟨more, bracket⟩ := bracket_of_piece first (h _ rfl)
    rw [bytesOf_append, bracket]
    exact ⟨_, rfl⟩

theorem contentsReads_pieces (spelled : PiecesSpelling ps cs) :
    ContentsReads limit (pieceContents ps) cs := by
  intro top parents c tail fits h
  clear fits
  induction spelled generalizing top c with
  | nil => rfl
  | @cons p ps form forms first apart rest ih =>
    have place : c.rest = bytesOf form ++ (bytesOf forms ++ 60 :: tail) := by
      rw [h, bytesOf_append, List.append_assoc]
    have ends : p.isRun → ∃ more, bytesOf forms ++ 60 :: tail = 60 :: more := fun run =>
      bracket_of_pieces rest (apart run) tail
    rw [readContent_piece first ends place, ih (Cursor.rest_past place), pieceContents_cons p ps,
      bytesOf_append, Cursor.past_append]
    simp [OpenElement.addAll]

theorem elementReads_pieces (spelled : PiecedSpelling name attributes ps cs)
    (named : isValidName name) (keys : ∀ key ∈ attributes.keys, isValidName key) :
    ElementReads limit (piecedElement name attributes ps) cs := by
  cases spelled with
  | empty tag => exact elementReads_empty tag named keys
  | pieces tag pieces spaces =>
    exact elementReads_body tag named keys spaces (contentsReads_pieces pieces)

end Reading

section Trimming
variable {ps qs : List Piece}

def pieceChars (ps : List Piece) : List Char := ps.flatMap fun p => p.text.toList

theorem isBlank_of_isBlankText {s : String} (h : Text.isBlankText s) :
    ∀ c ∈ s.toList, Text.isBlank c := List.all_eq_true.1 h

theorem isBlank_pieceChars (h : ¬ ∃ p ∈ ps, Text.isBlankText p.text = false) :
    ∀ c ∈ pieceChars ps, Text.isBlank c := by
  intro c hc
  obtain ⟨p, hp, here⟩ := List.mem_flatMap.1 hc
  have blank : Text.isBlankText p.text := by
    by_contra full
    exact h ⟨p, hp, Bool.eq_false_iff.2 full⟩
  exact isBlank_of_isBlankText blank c here

theorem not_isBlank_kept (h : ∃ p ∈ ps, Text.isBlankText p.text = false) :
    ¬ ∀ c ∈ pieceChars (ps.filter Piece.isKept), Text.isBlank c := by
  obtain ⟨p, hp, full⟩ := h
  have kept : p.isKept := by
    cases p with
    | run text =>
      have full : Text.isBlankText text = false := full
      simp [Piece.isKept, full]
    | literal text => rfl
    | passed => cases full
  intro blank
  have all : Text.isBlankText p.text := by
    apply List.all_eq_true.2
    intro c hc
    exact blank c (List.mem_flatMap.2 ⟨p, List.mem_filter.2 ⟨hp, kept⟩, hc⟩)
  rw [full] at all
  cases all

theorem pieceChars_append : pieceChars (ps ++ qs) = pieceChars ps ++ pieceChars qs :=
  List.flatMap_append

theorem pieceChars_cons (p : Piece) (ps : List Piece) :
    pieceChars (p :: ps) = p.text.toList ++ pieceChars ps := List.flatMap_cons

theorem pieceChars_singleton (p : Piece) : pieceChars [p] = p.text.toList :=
  List.flatMap_singleton _ _

theorem pieceChars_kept_sublist (ps : List Piece) :
    (pieceChars (ps.filter Piece.isKept)).Sublist (pieceChars ps) :=
  List.filter_sublist.flatMap _

theorem isBlankText_of_not_kept {p : Piece} (h : ¬ p.isKept) : Text.isBlankText p.text := by
  cases p with
  | run text =>
    have blank : Text.isBlankText text := by simpa [Piece.isKept] using h
    exact blank
  | literal text => exact absurd rfl h
  | passed => rfl

theorem blankBetween_of_not_kept {p : Piece} (h : ¬ p.isKept) (some : p.text ≠ "")
    (front : ∃ q ∈ ps, Text.isBlankText q.text = false)
    (back : ∃ q ∈ qs, Text.isBlankText q.text = false) : BlankBetween (ps ++ p :: qs) := by
  have blank := isBlankText_of_not_kept h
  cases p with
  | run text => exact ⟨ps, text, qs, rfl, some, blank, front, back⟩
  | literal text => exact absurd rfl h
  | passed => exact absurd rfl some

/-- Leaving out a blank run changes nothing where only blanks stand on one of its sides. -/
theorem trimChars_dropped {p : Piece} (h : ¬ BlankBetween (ps ++ p :: qs)) (dropped : ¬ p.isKept) :
    Text.trimChars (pieceChars (ps.filter Piece.isKept) ++ (p.text.toList ++ pieceChars qs)) =
      Text.trimChars (pieceChars (ps.filter Piece.isKept) ++ pieceChars qs) := by
  have blank := isBlank_of_isBlankText (isBlankText_of_not_kept dropped)
  by_cases front : ∃ q ∈ ps, Text.isBlankText q.text = false
  · by_cases back : ∃ q ∈ qs, Text.isBlankText q.text = false
    · have none : p.text = "" := by
        by_contra some
        exact h (blankBetween_of_not_kept dropped some front back)
      rw [none]
      rfl
    · have behind := isBlank_pieceChars back
      rw [Text.trimChars_append_blank (List.forall_mem_append.2 ⟨blank, behind⟩),
        Text.trimChars_append_blank behind]
  · have before : ∀ c ∈ pieceChars (ps.filter Piece.isKept), Text.isBlank c := fun c hc =>
      isBlank_pieceChars front c ((pieceChars_kept_sublist ps).subset hc)
    rw [Text.trimChars_blank_append before, Text.trimChars_blank_append before,
      Text.trimChars_blank_append blank]

theorem trimChars_kept (h : ¬ BlankBetween (ps ++ qs)) :
    Text.trimChars (pieceChars (ps.filter Piece.isKept) ++ pieceChars qs) =
      Text.trimChars (pieceChars (ps.filter Piece.isKept) ++
        pieceChars (qs.filter Piece.isKept)) := by
  -- Each step moves one piece to those before, of which only the kept ones are left.
  induction qs generalizing ps with
  | nil => rfl
  | cons p qs ih =>
    have next := @ih (ps ++ [p]) (by simpa using h)
    rw [pieceChars_cons]
    by_cases kept : p.isKept
    · have longer : (ps ++ [p]).filter Piece.isKept = ps.filter Piece.isKept ++ [p] := by
        simp [kept]
      rw [longer, pieceChars_append, pieceChars_singleton, List.append_assoc,
        List.append_assoc] at next
      rw [List.filter_cons_of_pos kept, pieceChars_cons]
      exact next
    · have same : (ps ++ [p]).filter Piece.isKept = ps.filter Piece.isKept := by
        simp [kept]
      rw [same] at next
      rw [List.filter_cons_of_neg kept, trimChars_dropped h kept]
      exact next

theorem trimChars_kept_ne (h : BlankBetween ps) :
    Text.trimChars (pieceChars (ps.filter Piece.isKept)) ≠ Text.trimChars (pieceChars ps) := by
  obtain ⟨before, text, after, rfl, some, blank, front, back⟩ := h
  have dropped : ¬ (Piece.run text).isKept := by simp [Piece.isKept, blank]
  have opens := not_isBlank_kept front
  have closes := not_isBlank_kept back
  have opens' : ¬ ∀ c ∈ pieceChars before, Text.isBlank c := fun all =>
    opens fun c hc => all c ((pieceChars_kept_sublist before).subset hc)
  have closes' : ¬ ∀ c ∈ pieceChars after, Text.isBlank c := fun all =>
    closes fun c hc => all c ((pieceChars_kept_sublist after).subset hc)
  have whole := @Text.trimChars_between _ _ text.toList opens' closes'
  have rest := @Text.trimChars_between _ _ [] opens closes
  have shorter := (Text.dropWhile_sublist Text.isBlank (pieceChars_kept_sublist before)).length_le
  have shorter' := (Text.rdropWhile_sublist Text.isBlank (pieceChars_kept_sublist after)).length_le
  have long : 0 < text.toList.length := by
    rw [List.length_pos_iff]
    intro none
    exact some (String.toList_eq_nil_iff.1 none)
  rw [List.append_nil] at rest
  rw [List.filter_append, List.filter_cons_of_neg dropped, pieceChars_append, pieceChars_append,
    pieceChars_cons, ← List.append_assoc]
  -- The ends are no longer than before, and the run between them is gone.
  intro same
  have lengths := congrArg List.length (rest.symm.trans (same.trans whole))
  simp only [List.length_append, List.length_nil] at lengths
  omega

end Trimming

section Text
variable {name : String} {attributes : Attributes} {ps : List Piece} {cs : List Char}

theorem text?_piecedElement (name : String) (attributes : Attributes) (ps : List Piece) :
    (piecedElement name attributes ps).text? =
      Text.trimmed? (String.join ((ps.filter Piece.isKept).map Piece.text)) := by
  have texts : (pieceContents ps).filterMap Content.text? =
      (ps.filter Piece.isKept).map Piece.text := by
    rw [pieceContents, List.filterMap_map]
    exact congrFun (@List.filterMap_eq_map _ _ Piece.text) _
  rw [← texts]
  rfl

theorem toList_join_pieces (ps : List Piece) :
    (String.join (ps.map Piece.text)).toList = pieceChars ps := by
  rw [String.toList_join, List.flatMap_map]
  rfl

theorem text?_piecedElement_iff (name : String) (attributes : Attributes) (ps : List Piece) :
    (piecedElement name attributes ps).text? =
      Text.trimmed? (String.join (ps.map Piece.text)) ↔ ¬ BlankBetween ps := by
  rw [text?_piecedElement, Text.trimmed?_eq_iff, toList_join_pieces, toList_join_pieces]
  constructor
  · intro same between
    exact trimChars_kept_ne between same
  · intro none
    exact (@trimChars_kept [] ps none).symm

/-- What is left out never makes the difference between some text and none. -/
theorem text?_piecedElement_eq_none (name : String) (attributes : Attributes) (ps : List Piece) :
    (piecedElement name attributes ps).text? = none ↔
      Text.trim (String.join (ps.map Piece.text)) = "" := by
  have empty : ∀ qs : List Piece, Text.trim (String.join (qs.map Piece.text)) = "" ↔
      ∀ c ∈ pieceChars qs, Text.isBlank c := by
    intro qs
    rw [Text.trim, String.ofList_eq_empty_iff, toList_join_pieces, Text.trimChars_eq_nil_iff]
  rw [text?_piecedElement, Text.trimmed?_eq_none, empty, empty]
  constructor
  · intro blank
    apply isBlank_pieceChars
    intro full
    exact not_isBlank_kept full blank
  · intro blank c hc
    exact blank c ((pieceChars_kept_sublist ps).subset hc)

theorem heightOfContents_pieceContents (ps : List Piece) :
    heightOfContents (pieceContents ps) = 0 := by
  rw [pieceContents]
  induction ps.filter Piece.isKept with
  | nil => rfl
  | cons p ps ih => exact ih

theorem bytes_of_pieced (spelled : PiecedSpelling name attributes ps cs)
    (named : isValidName name) : ∃ b more, bytesOf cs = 60 :: b :: more ∧ isNameStart b := by
  cases spelled with
  | empty tag | pieces tag =>
    obtain ⟨b, more, bytes, starts⟩ := bytes_of_tag tag named
    rw [bytesOf_lt, bytesOf_append, bytes]
    exact ⟨b, _, rfl, starts⟩

theorem height_piecedElement (name : String) (attributes : Attributes) (ps : List Piece) :
    (piecedElement name attributes ps).height = 1 := by
  rw [piecedElement, Element.height, heightOfContents_pieceContents]

theorem exceeds_one (limit : Nat) : exceeds limit 1 = false := by
  simp only [exceeds, Bool.and_eq_false_imp, decide_eq_true_eq, decide_eq_false_iff_not]
  omega

theorem parse_of_pieced (named : isValidName name) (keys : ∀ key ∈ attributes.keys, isValidName key)
    (spelled : PiecedSpelling name attributes ps cs) (limit : Nat) {mark before after : List Char}
    (marked : mark ∈ [[], ['\uFEFF']]) (layout : LayoutSpelling before)
    (rest : LayoutSpelling after) :
    parse limit (encode (.ofList (mark ++ (before ++ (cs ++ after))))) =
      .ok (piecedElement name attributes ps) := by
  obtain ⟨b, more, first, starts⟩ := bytes_of_pieced spelled named
  have fits : exceeds limit (piecedElement name attributes ps).height = false := by
    rw [height_piecedElement]
    exact exceeds_one limit
  exact parse_of_reads marked layout first starts (elementReads_pieces spelled named keys) fits rest

theorem readContent_pieced (named : isValidName name)
    (keys : ∀ key ∈ attributes.keys, isValidName key)
    (spelled : PiecedSpelling name attributes ps cs) {limit : Nat} {top : OpenElement}
    {parents : List OpenElement} {c : Cursor} {tail : List UInt8}
    (shallow : exceeds limit (parents.length + 2) = false) (h : c.rest = bytesOf cs ++ tail) :
    readContent limit top parents c = readContent limit
      (top.add (.element (piecedElement name attributes ps))) parents (c.past (bytesOf cs)) := by
  obtain ⟨b, more, first, starts⟩ := bytes_of_pieced spelled named
  have begins : c.rest = 60 :: b :: (more ++ tail) := by
    rw [h, first]
    rfl
  have fits : exceeds limit ((top :: parents).length + (piecedElement name attributes ps).height)
      = false := by
    rwa [height_piecedElement]
  rw [readContent_opened begins starts]
  exact elementReads_pieces spelled named keys fits h

/-- An element that holds character data in pieces, as the root or within other elements, is read
as the element of what is kept of them. It has no text exactly if all pieces are blank. Its text is
that of all pieces together, trimmed, exactly if no blank run stands between pieces that are not
blank. -/
theorem parse_pieces (named : isValidName name) (keys : ∀ key ∈ attributes.keys, isValidName key)
    (spelled : PiecedSpelling name attributes ps cs) :
    (∀ (limit : Nat) {mark before after : List Char}, mark ∈ [[], ['\uFEFF']] →
      LayoutSpelling before → LayoutSpelling after →
      parse limit (encode (.ofList (mark ++ (before ++ (cs ++ after))))) =
        .ok (piecedElement name attributes ps)) ∧
    (∀ {limit : Nat} {top : OpenElement} {parents : List OpenElement} {c : Cursor}
      {tail : List UInt8}, exceeds limit (parents.length + 2) = false →
      c.rest = bytesOf cs ++ tail →
      readContent limit top parents c = readContent limit
        (top.add (.element (piecedElement name attributes ps))) parents (c.past (bytesOf cs))) ∧
    ((piecedElement name attributes ps).text? = none ↔
      Text.trim (String.join (ps.map Piece.text)) = "") ∧
    ((piecedElement name attributes ps).text? = Text.trimmed? (String.join (ps.map Piece.text)) ↔
      ¬ BlankBetween ps) :=
  ⟨fun limit => parse_of_pieced named keys spelled limit, readContent_pieced named keys spelled,
    text?_piecedElement_eq_none name attributes ps, text?_piecedElement_iff name attributes ps⟩

end Text

section Example

/-- A text cut by an instruction, a literal section that is blank, and a comment. -/
def cutPieces : List Piece := [.run " a <", .passed, .run " b", .literal " ", .passed, .run "c "]

def cutText : String := "<s k='v'> a &lt;<?p?> b<![CDATA[ ]]><!-- -->c </s\n>"

theorem piecesSpelling_cutPieces :
    PiecesSpelling cutPieces " a &lt;<?p?> b<![CDATA[ ]]><!-- -->c ".toList := by
  have one : PieceSpelling (.run " a <") " a &lt;".toList := .run ⟨by decide, rfl⟩
  have two : PieceSpelling .passed "<?p?>".toList :=
    @PieceSpelling.passed ['p'] "<?" "?>" (by decide) (by decide)
  have three : PieceSpelling (.run " b") " b".toList := .run ⟨by decide, rfl⟩
  have four : PieceSpelling (.literal " ") "<![CDATA[ ]]>".toList :=
    @PieceSpelling.literal [' '] (by decide)
  have five : PieceSpelling .passed "<!-- -->".toList :=
    @PieceSpelling.passed [' '] "<!--" "-->" (by decide) (by decide)
  have six : PieceSpelling (.run "c ") "c ".toList := .run ⟨by decide, rfl⟩
  exact .cons one (by simp [Piece.isRun]) <| .cons_section two rfl <|
    .cons three (by simp [Piece.isRun]) <| .cons_section four rfl <| .cons_section five rfl <|
      .cons six (by simp) .nil

theorem parse_pieces_cutText :
    isValidName "s" ∧ PiecedSpelling "s" (.single "k" "v") cutPieces cutText.toList ∧
      parse 1 (encode (.ofList cutText.toList)) =
        .ok (piecedElement "s" (.single "k" "v") cutPieces) ∧
      (piecedElement "s" (.single "k" "v") cutPieces).text? = some "a < b c" ∧
      ¬ BlankBetween cutPieces := by
  have named : isValidName "s" := by decide
  have keys : ∀ key ∈ (OrderedMap.single "k" "v" : Attributes).keys, isValidName key := by decide
  have none : Spaces [] := by decide
  have space : Spaces [' '] := by decide
  have line : Spaces ['\n'] := by decide
  have value : ValueSpelling "v" "'v'".toList :=
    ⟨'\'', by decide, ['v'], .cons (.plain (by decide)) .nil, rfl⟩
  have tag : TagSpelling "s" (OrderedMap.single "k" "v" : Attributes).entries "s k='v'".toList :=
    .spaced space (.cons none (.equals none none value) (.nil none))
  have spelled : PiecedSpelling "s" (.single "k" "v") cutPieces cutText.toList :=
    .pieces tag piecesSpelling_cutPieces line
  obtain ⟨whole, -, -, exact_⟩ := parse_pieces named keys spelled
  have layout : LayoutSpelling [] := .spaces none
  have read := whole 1 List.mem_cons_self layout layout
  rw [List.append_nil, List.nil_append, List.nil_append] at read
  have text : (piecedElement "s" (.single "k" "v") cutPieces).text? = some "a < b c" := by
    decide +kernel
  have joined : Text.trimmed? (String.join (cutPieces.map Piece.text)) = some "a < b c" := by
    decide +kernel
  exact ⟨named, spelled, read, text, exact_.1 (text.trans joined.symm)⟩

/-- A blank run between two comments: it is lost, though its neighbours are not blank. -/
def splitPieces : List Piece := [.run "x", .passed, .run " ", .passed, .run "y"]

theorem parse_splitText :
    parse 0 (encode "<a>x<!----> <!---->y</a>") = .ok (piecedElement "a" .empty splitPieces) ∧
      (piecedElement "a" .empty splitPieces).text? = some "xy" ∧
      Text.trimmed? (String.join (splitPieces.map Piece.text)) = some "x y" := by
  have none : Spaces [] := by decide
  have front : PieceSpelling (.run "x") "x".toList := .run ⟨by decide, rfl⟩
  have blank : PieceSpelling (.run " ") " ".toList := .run ⟨by decide, rfl⟩
  have back : PieceSpelling (.run "y") "y".toList := .run ⟨by decide, rfl⟩
  have comment : PieceSpelling .passed "<!---->".toList :=
    @PieceSpelling.passed [] "<!--" "-->" (by decide) (by decide)
  have pieces : PiecesSpelling splitPieces "x<!----> <!---->y".toList :=
    .cons front (by simp [Piece.isRun]) <| .cons_section comment rfl <|
      .cons blank (by simp [Piece.isRun]) <| .cons_section comment rfl <|
        .cons back (by simp) .nil
  have tag : TagSpelling "a" (OrderedMap.empty : Attributes).entries "a".toList := .name
  have spelled : PiecedSpelling "a" .empty splitPieces "<a>x<!----> <!---->y</a>".toList :=
    .pieces tag pieces none
  have layout : LayoutSpelling [] := .spaces none
  have keys : ∀ key ∈ (OrderedMap.empty : Attributes).keys, isValidName key := by decide
  have read := parse_of_pieced (by decide) keys spelled 0 List.mem_cons_self layout layout
  rw [List.append_nil, List.nil_append, List.nil_append, String.ofList_toList] at read
  exact ⟨read, by decide +kernel, by decide +kernel⟩

end Example

end RouteNotation.Xml
