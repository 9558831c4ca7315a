import Mathlib.Data.List.TakeWhile
import RouteNotation.Xml.Parser

/-!
Where an error is reported. A cursor carries the offset, the line and the column of its place, and
they stay right however it is moved, as far as words of 32 bits can count. Main statement:
`parse_error_placed`, every error of the parser is at a place of the input, apart from bytes that
are no text, which have none. The input has to be so short that words can count its lines and
columns; with one byte more its last line can be one that they cannot.
-/

namespace RouteNotation.Xml

/-- The line of the place behind so many bytes: one more than the line feeds before it. -/
def lineAt (bytes : List UInt8) (offset : Nat) : Nat := 1 + (bytes.take offset).count 10

/-- The column of the place behind so many bytes: one more than the bytes behind the last line feed
before it. -/
def columnAt (bytes : List UInt8) (offset : Nat) : Nat :=
  1 + ((bytes.take offset).reverse.takeWhile (· ≠ 10)).length

section Numbers
variable (bytes : List UInt8) (offset : Nat)

theorem lineAt_le : lineAt bytes offset ≤ bytes.length + 1 := by
  have feeds : (bytes.take offset).count 10 ≤ (bytes.take offset).length := List.count_le_length
  have before : (bytes.take offset).length ≤ bytes.length := List.length_take_le' _ _
  rw [lineAt]
  omega

theorem columnAt_le : columnAt bytes offset ≤ bytes.length + 1 := by
  have last := (List.takeWhile_prefix (l := (bytes.take offset).reverse) (· ≠ 10)).length_le
  have before : (bytes.take offset).length ≤ bytes.length := List.length_take_le' _ _
  rw [List.length_reverse] at last
  rw [columnAt]
  omega

end Numbers

/-- A place in some bytes, with its line and its column. -/
structure PlaceIn (bytes : List UInt8) (p : Position) : Prop where
  offset_le : p.offset ≤ bytes.length
  line_eq : p.line.toNat = lineAt bytes p.offset
  column_eq : p.column.toNat = columnAt bytes p.offset

/-- A place in some bytes, with its line and its column as words count them. -/
structure CountedIn (bytes : List UInt8) (p : Position) : Prop where
  offset_le : p.offset ≤ bytes.length
  line_eq : p.line = .ofNat (lineAt bytes p.offset)
  column_eq : p.column = .ofNat (columnAt bytes p.offset)

/-- In an input whose lines and columns fit into words, these count right. -/
theorem CountedIn.placeIn {bytes : List UInt8} {p : Position} (h : CountedIn bytes p)
    (short : bytes.length + 1 < UInt32.size) : PlaceIn bytes p where
  offset_le := h.offset_le
  line_eq := by
    have fits := Nat.lt_of_le_of_lt (lineAt_le bytes p.offset) short
    rw [h.line_eq, UInt32.toNat_ofNat_of_lt' fits]
  column_eq := by
    have fits := Nat.lt_of_le_of_lt (columnAt_le bytes p.offset) short
    rw [h.column_eq, UInt32.toNat_ofNat_of_lt' fits]

namespace Cursor

/-- The cursor stands in these bytes, and its position is that of its place. -/
structure In (bytes : List UInt8) (c : Cursor) : Prop where
  whole : c.passed.reverse ++ c.rest = bytes
  offset : c.position.offset = c.passed.length
  line : c.position.line = .ofNat (1 + c.passed.count 10)
  column : c.position.column = .ofNat (1 + (c.passed.takeWhile (· ≠ 10)).length)

namespace In
variable {bytes : List UInt8} {c d : Cursor}

theorem ofBytes (bytes : List UInt8) : (Cursor.ofBytes bytes).In bytes := ⟨rfl, rfl, rfl, rfl⟩

theorem next {passed rest : List UInt8} {p : Position} {b : UInt8}
    (h : Cursor.In bytes ⟨passed, b :: rest, p⟩) :
    Cursor.In bytes ⟨b :: passed, rest, p.next b⟩ := by
  obtain ⟨whole, offset, line, column⟩ := h
  dsimp only at whole offset line column
  refine ⟨by simp [← whole], ?_, ?_, ?_⟩
  · by_cases feed : b = 10 <;> simp [Position.next, feed, offset]
  · by_cases feed : b = 10
    · simp [Position.next, feed, line, UInt32.ofNat_add, UInt32.add_assoc]
    · simp [Position.next, feed, line]
  · by_cases feed : b = 10
    · simp [Position.next, feed]
    · simp [Position.next, feed, column, UInt32.ofNat_add, UInt32.add_assoc]

theorem advanceBy (h : c.In bytes) (n : Nat) : (c.advanceBy n).In bytes := by
  induction n generalizing c with
  | zero => simpa using h
  | succ n ih =>
    obtain ⟨passed, rest, p⟩ := c
    cases rest with
    -- At the end the cursor stays where it is.
    | nil => simpa using h
    | cons b rest => exact ih h.next

theorem reached (h : c.In bytes) : c.Reaches d → d.In bytes
  | ⟨n, same⟩ => same ▸ h.advanceBy n

theorem counted (h : c.In bytes) : CountedIn bytes c.position := by
  obtain ⟨whole, offset, line, column⟩ := h
  -- What was passed, turned round, is the input up to the offset.
  have before : bytes.take c.position.offset = c.passed.reverse := by
    rw [← whole, offset, ← List.length_reverse, List.take_left]
  refine ⟨?_, ?_, ?_⟩
  · rw [offset, ← whole, List.length_append, List.length_reverse]
    omega
  · rw [lineAt, before, line, List.count_reverse]
  · rw [columnAt, before, column, List.reverse_reverse]

theorem offset_of_end (h : c.In bytes) (done : c.rest = []) :
    c.position.offset = bytes.length := by
  rw [h.offset, ← h.whole, done, List.append_nil, List.length_reverse]

end In

/-- What moves a cursor. -/
inductive Move
  | advance
  | advanceBy (n : Nat)
  | skipSpace
  /-- Passes the byte if it comes next. -/
  | consume (b : UInt8)

def move (c : Cursor) : Move → Cursor
  | .advance => c.advance
  | .advanceBy n => c.advanceBy n
  | .skipSpace => c.skipSpace
  | .consume b => (c.consume? b).getD c

theorem reaches_move (c : Cursor) (m : Move) : c.Reaches (c.move m) := by
  cases m with
  | advance => exact .advance c
  | advanceBy n => exact .advanceBy c n
  | skipSpace => exact .skipSpace c
  | consume b =>
    rw [move]
    cases found : c.consume? b with
    | none => exact .refl c
    | some d => exact (of_consume? found).1

theorem reaches_moves (c : Cursor) (ms : List Move) : c.Reaches (ms.foldl move c) := by
  induction ms generalizing c with
  | nil => exact .refl c
  | cons m ms ih => exact (reaches_move c m).trans (ih (c.move m))

end Cursor

/-- An error at a place of the input, or about bytes that are no text. -/
inductive Located (bytes : List UInt8) : Error → Prop
  | notText : Located bytes Fault.notText
  | counted {fault : Fault} {p : Position} : fault.kind ≠ .invalidUtf8 → CountedIn bytes p →
      Located bytes (fault.errorAt p)

section Markup
variable {bytes : List UInt8} {c : Cursor} {e : Error}

theorem Cursor.In.located (h : c.In bytes) {fault : Fault} (text : fault.kind ≠ .invalidUtf8) :
    Located bytes (fault.errorAt c.position) := .counted text h.counted

theorem located_decodeText {bs : List UInt8} (h : decodeText bs c = .error e) :
    Located bytes e := by
  unfold decodeText at h
  split at h
  · contradiction
  · cases h
    exact .notText

theorem located_decodeData {bs : List UInt8} {start : Position} (counted : CountedIn bytes start)
    (h : decodeData bs start c = .error e) : Located bytes e := by
  unfold decodeData at h
  split at h
  · rename_i notText
    cases h
    exact located_decodeText notText
  · split at h
    · contradiction
    · cases h
      exact .counted nofun counted

theorem located_readByte (here : c.In bytes) {b : UInt8} (h : readByte b c = .error e) :
    Located bytes e := by
  unfold readByte at h
  split at h
  · contradiction
  · cases h
    exact here.located nofun

theorem located_map_readByte (here : c.In bytes) {α : Type} {b : UInt8} {f : Cursor → α}
    (h : (readByte b c).map f = .error e) : Located bytes e := by
  cases found : readByte b c with
  | error f =>
    rw [found] at h
    cases h
    exact located_readByte here found
  | ok d =>
    rw [found] at h
    contradiction

theorem located_readName (here : c.In bytes) (h : readName c = .error e) : Located bytes e := by
  unfold readName at h
  split at h
  · exact located_decodeText h
  · cases h
    exact here.located nofun

theorem located_readSection (here : c.In bytes) {mark : List UInt8}
    (h : readSection mark c = .error e) : Located bytes e := by
  unfold readSection at h
  split at h
  · exact located_decodeText h
  · cases h
    exact (here.advanceBy _).located nofun

theorem located_skipSection (here : c.In bytes) {mark : List UInt8}
    (h : skipSection mark c = .error e) : Located bytes e := by
  unfold skipSection at h
  split at h
  · rename_i unclosed
    cases h
    exact located_readSection here unclosed
  · contradiction

theorem located_skipDeclaration (here : c.In bytes) (h : skipDeclaration c = .error e) :
    Located bytes e := by
  unfold skipDeclaration at h
  split at h
  · contradiction
  · cases h
    exact (here.advanceBy _).located nofun

theorem located_quoted (here : c.In bytes) {quote : UInt8} {inside : Cursor}
    (behind : c.consume? quote = some inside) (h : readValue.quoted c quote inside = .error e) :
    Located bytes e := by
  unfold readValue.quoted at h
  split at h
  · exact located_decodeData here.counted h
  · cases h
    exact ((here.reached (Cursor.of_consume? behind).1).advanceBy _).located nofun

theorem located_readValue (here : c.In bytes) (h : readValue c = .error e) : Located bytes e := by
  unfold readValue at h
  split at h
  · rename_i double
    exact located_quoted here double h
  · rename_i single
    exact located_quoted here single h
  · cases h
    exact here.located nofun

theorem located_readAttribute (here : c.In bytes) (h : readAttribute c = .error e) :
    Located bytes e := by
  unfold readAttribute at h
  split at h
  · rename_i unnamed
    cases h
    exact located_readName here unnamed
  · rename_i name
    have behindName := (here.reached (of_readName name).1).reached (.skipSpace _)
    split at h
    · rename_i noSign
      cases h
      exact located_readByte behindName noSign
    · rename_i sign
      have behindSign := (behindName.reached (of_readByte sign).1).reached (.skipSpace _)
      split at h
      · rename_i noValue
        cases h
        exact located_readValue behindSign noValue
      · contradiction

theorem located_readAttributes (here : c.In bytes) {attributes : Attributes}
    (h : readAttributes attributes c = .error e) : Located bytes e := by
  fun_induction readAttributes attributes c with
  | case1 =>
    cases h
    exact (here.reached (.skipSpace _)).located (by simp [Fault.kind])
  | case2 => contradiction
  | case3 _ _ _ _ _ _ wrong =>
    cases h
    exact located_readAttribute (here.reached (.skipSpace _)) wrong
  | case4 _ _ _ _ _ _ _ _ read =>
    cases h
    have behind := (here.reached (.skipSpace _)).reached (of_readAttribute read).1
    exact behind.located (by simp [Fault.kind])
  | case5 _ _ _ _ _ _ _ _ read _ ih =>
    exact ih ((here.reached (.skipSpace _)).reached (of_readAttribute read).1) h

theorem located_readStartTag (here : c.In bytes) {limit depth : Nat}
    (h : readStartTag limit depth c = .error e) : Located bytes e := by
  unfold readStartTag at h
  split at h
  · rename_i noTag
    cases h
    exact located_readByte here noTag
  · rename_i opened
    have inside := here.reached (of_readByte opened).1
    split at h
    · cases h
      exact inside.located nofun
    · split at h
      · rename_i unnamed
        cases h
        exact located_readName inside unnamed
      · rename_i name
        have behindName := inside.reached (of_readName name).1
        split at h
        · rename_i wrong
          cases h
          exact located_readAttributes behindName wrong
        · rename_i attributes
          have behind := behindName.reached (of_readAttributes attributes)
          split at h
          · rename_i slash
            exact located_map_readByte (behind.reached (Cursor.of_consume? slash).1) h
          · exact located_map_readByte behind h

theorem located_readEndTag (here : c.In bytes) {name : String}
    (h : readEndTag name c = .error e) : Located bytes e := by
  unfold readEndTag at h
  split at h
  · rename_i unnamed
    cases h
    exact located_readName here unnamed
  · rename_i found
    have behind := here.reached (of_readName found).1
    split at h
    · exact located_map_readByte (behind.reached (.skipSpace _)) h
    · cases h
      exact behind.located nofun

theorem located_readCharacters (here : c.In bytes) (h : readCharacters c = .error e) :
    Located bytes e := by
  unfold readCharacters at h
  dsimp only at h
  split at h
  · rename_i wrong
    cases h
    exact located_decodeData here.counted wrong
  · contradiction

theorem located_readMarkup (here : c.In bytes) {limit depth : Nat} {name : String}
    (h : readMarkup limit depth name c = .error e) : Located bytes e := by
  unfold readMarkup at h
  split at h
  · cases h
    exact here.located nofun
  · split at h
    · exact located_readEndTag (here.advanceBy 2) h
    · split at h
      · exact located_skipSection (here.advanceBy 4) h
      · split at h
        · split at h
          · rename_i unclosed
            cases h
            exact located_readSection (here.advanceBy 9) unclosed
          · contradiction
        · split at h
          · exact located_skipSection (here.advanceBy 2) h
          · split at h
            · split at h
              · rename_i wrong
                cases h
                exact located_readStartTag here wrong
              · contradiction
            · exact located_readCharacters here h

/-- Each piece of markup leaves the cursor in the input, so the first that is wrong is located. -/
theorem located_readContent (here : c.In bytes) {limit : Nat} {top : OpenElement}
    {parents : List OpenElement} (h : readContent limit top parents c = .error e) :
    Located bytes e := by
  fun_induction readContent limit top parents c with
  | case1 _ _ _ _ wrong =>
    cases h
    exact located_readMarkup here wrong
  | case2 _ _ _ _ read ih => exact ih (here.reached (of_readMarkup read).1) h
  | case3 _ _ _ _ _ read ih => exact ih (here.reached (of_readMarkup read).1) h
  | case4 _ _ _ _ _ read _ ih => exact ih (here.reached (of_readMarkup read).1) h
  | case5 _ _ _ _ _ read _ ih => exact ih (here.reached (of_readMarkup read).1) h
  | case6 => contradiction
  | case7 _ _ _ _ _ _ read ih => exact ih (here.reached (of_readMarkup read).1) h

theorem located_readElement (here : c.In bytes) {limit : Nat}
    (h : readElement limit c = .error e) : Located bytes e := by
  unfold readElement at h
  split at h
  · rename_i wrong
    cases h
    exact located_readStartTag here wrong
  · rename_i tag
    split at h
    · contradiction
    · exact located_readContent (here.reached (of_readStartTag tag).1) h

theorem of_readContent {limit : Nat} {top : OpenElement} {parents : List OpenElement} {d : Cursor}
    {root : Element} (h : readContent limit top parents c = .ok (root, d)) : c.Reaches d := by
  fun_induction readContent limit top parents c with
  | case1 => contradiction
  | case2 _ _ _ _ read ih => exact (of_readMarkup read).1.trans (ih h)
  | case3 _ _ _ _ _ read ih => exact (of_readMarkup read).1.trans (ih h)
  | case4 _ _ _ _ _ read _ ih => exact (of_readMarkup read).1.trans (ih h)
  | case5 _ _ _ _ _ read _ ih => exact (of_readMarkup read).1.trans (ih h)
  | case6 _ _ _ read =>
    cases h
    exact (of_readMarkup read).1
  | case7 _ _ _ _ _ _ read ih => exact (of_readMarkup read).1.trans (ih h)

theorem of_readElement {limit : Nat} {d : Cursor} {root : Element}
    (h : readElement limit c = .ok (root, d)) : c.Reaches d := by
  unfold readElement at h
  split at h
  · contradiction
  · rename_i tag
    split at h
    · cases h
      exact (of_readStartTag tag).1
    · exact (of_readStartTag tag).1.trans (of_readContent h)

theorem of_skipMisc {d : Cursor} (h : skipMisc c = .ok d) : c.Reaches d := by
  fun_induction skipMisc c with
  | case1 | case8 => exact Except.ok.inj h ▸ .skipSpace _
  | case2 | case4 | case6 => contradiction
  | case3 c start _ _ _ _ read ih =>
    exact ((Cursor.Reaches.skipSpace c).trans (.advanceBy _ 2)).trans
      ((of_readSection read).trans (ih h))
  | case5 c start _ _ _ _ _ read ih =>
    exact ((Cursor.Reaches.skipSpace c).trans (.advanceBy _ 4)).trans
      ((of_readSection read).trans (ih h))
  | case7 c start _ _ _ _ _ read ih =>
    exact (Cursor.Reaches.skipSpace c).trans ((of_skipDeclaration read).1.trans (ih h))

theorem located_skipMisc (here : c.In bytes) (h : skipMisc c = .error e) : Located bytes e := by
  fun_induction skipMisc c with
  | case1 | case8 => contradiction
  | case2 _ _ _ _ _ unclosed =>
    cases h
    exact located_readSection ((here.reached (.skipSpace _)).advanceBy 2) unclosed
  | case3 _ _ _ _ _ _ read ih =>
    exact ih (((here.reached (.skipSpace _)).advanceBy 2).reached (of_readSection read)) h
  | case4 _ _ _ _ _ _ unclosed =>
    cases h
    exact located_readSection ((here.reached (.skipSpace _)).advanceBy 4) unclosed
  | case5 _ _ _ _ _ _ _ read ih =>
    exact ih (((here.reached (.skipSpace _)).advanceBy 4).reached (of_readSection read)) h
  | case6 _ _ _ _ _ _ _ unclosed =>
    cases h
    exact located_skipDeclaration (here.reached (.skipSpace _)) unclosed
  | case7 _ _ _ _ _ _ _ read ih =>
    exact ih ((here.reached (.skipSpace _)).reached (of_skipDeclaration read).1) h

theorem located_parse {limit : Nat} (h : parse limit bytes = .error e) : Located bytes e := by
  have start : (skipByteOrderMark (.ofBytes bytes)).In bytes := by
    unfold skipByteOrderMark
    split
    · exact (Cursor.In.ofBytes bytes).advanceBy 3
    · exact .ofBytes bytes
  unfold parse at h
  split at h
  · rename_i wrong
    cases h
    exact located_skipMisc start wrong
  · rename_i prolog
    have root := start.reached (of_skipMisc prolog)
    split at h
    · cases h
      exact root.located nofun
    · split at h
      · rename_i wrong
        cases h
        exact located_readElement root wrong
      · rename_i read
        have behind := root.reached (of_readElement read)
        split at h
        · rename_i wrong
          cases h
          exact located_skipMisc behind wrong
        · rename_i epilog
          split at h
          · contradiction
          · cases h
            exact (behind.reached (of_skipMisc epilog)).located nofun

end Markup

/-- An error of the parser is about bytes that are no text, and has no place, or it is at a place of
the input. So is a cursor over the input, however it is moved. -/
theorem parse_error_placed (limit : Nat) {bytes : List UInt8}
    (short : bytes.length + 1 < UInt32.size) :
    (∀ e, parse limit bytes = .error e →
      e.kind = .invalidUtf8 ∧ e.position = .nowhere ∨
        e.kind ≠ .invalidUtf8 ∧ PlaceIn bytes e.position) ∧
    ∀ ms : List Cursor.Move, PlaceIn bytes (ms.foldl Cursor.move (.ofBytes bytes)).position := by
  refine ⟨fun e wrong => ?_, fun ms => ?_⟩
  · cases located_parse wrong with
    | notText => exact .inl ⟨rfl, rfl⟩
    | counted text counted => exact .inr ⟨text, counted.placeIn short⟩
  · have moved := (Cursor.In.ofBytes bytes).reached (Cursor.reaches_moves _ ms)
    exact moved.counted.placeIn short

/-- An unknown entity in a value of the second line. -/
def strayEntity : List UInt8 := Utf8.encode "\n<a b='&x;'/>"

/-- The place behind so many of its bytes. -/
def behind (n : Nat) : Cursor := (Cursor.ofBytes strayEntity).advanceBy n

theorem parse_strayEntity :
    parse 0 strayEntity = .error ((Fault.unknownEntity "x").errorAt ⟨6, 2, 6⟩) := by
  have prolog : skipMisc (skipByteOrderMark (.ofBytes strayEntity)) = .ok (behind 1) := by
    rw [skipMisc]
    rfl
  have opened : readByte 60 (behind 1) = .ok (behind 2) := rfl
  have name : readName (behind 2) = .ok ("a", behind 3) := rfl
  have attributes : readAttributes .empty (behind 3) =
      .error ((Fault.unknownEntity "x").errorAt ⟨6, 2, 6⟩) := by
    rw [readAttributes]
    rfl
  have tag : readStartTag 0 1 (behind 1) =
      .error ((Fault.unknownEntity "x").errorAt ⟨6, 2, 6⟩) := by
    simp only [readStartTag, opened, name, attributes]
    rfl
  simp only [parse, prolog, readElement, tag]
  rfl

theorem parse_error_placed_strayEntity :
    strayEntity.length + 1 < UInt32.size ∧
      parse 0 strayEntity = .error ((Fault.unknownEntity "x").errorAt ⟨6, 2, 6⟩) ∧
      PlaceIn strayEntity ⟨6, 2, 6⟩ := by
  have short : strayEntity.length + 1 < UInt32.size := by decide
  refine ⟨short, parse_strayEntity, ?_⟩
  rcases (parse_error_placed 0 short).1 _ parse_strayEntity with ⟨notText, -⟩ | ⟨-, placed⟩
  · contradiction
  · exact placed

section Spaces
variable {bytes : List UInt8}

theorem skipSpace_of_spaces (spaces : ∀ b ∈ bytes, isSpace b) :
    (Cursor.ofBytes bytes).skipSpace = (Cursor.ofBytes bytes).toEnd := by
  have all : (Cursor.ofBytes bytes).rest.takeWhile isSpace = (Cursor.ofBytes bytes).rest :=
    List.takeWhile_eq_self_iff.2 spaces
  rw [Cursor.skipSpace, all, Cursor.toEnd]

theorem skipByteOrderMark_of_spaces (spaces : ∀ b ∈ bytes, isSpace b) :
    skipByteOrderMark (.ofBytes bytes) = .ofBytes bytes := by
  refine if_neg fun marked => ?_
  cases bytes with
  | nil => cases marked
  | cons b rest =>
    have first : b = 0xEF := by
      simp only [Cursor.startsWith, Cursor.ofBytes, byteOrderMark, List.isPrefixOf,
        Bool.and_eq_true, beq_iff_eq] at marked
      exact marked.1.symm
    have space := spaces b List.mem_cons_self
    rw [first] at space
    contradiction

/-- Nothing but white space has no root, which is noticed at its end. -/
theorem parse_of_spaces (limit : Nat) (spaces : ∀ b ∈ bytes, isSpace b) : parse limit bytes =
    .error (Fault.missingRoot.errorAt (Cursor.ofBytes bytes).toEnd.position) := by
  have prolog : skipMisc (.ofBytes bytes) = .ok (Cursor.ofBytes bytes).toEnd := by
    rw [skipMisc, skipSpace_of_spaces spaces]
    exact dif_pos (Cursor.rest_toEnd _)
  have done : (Cursor.ofBytes bytes).toEnd.atEnd := by
    rw [Cursor.atEnd, Cursor.rest_toEnd]
    rfl
  simp only [parse, skipByteOrderMark_of_spaces spaces, prolog, done, if_true]

end Spaces

/-- So many empty lines. -/
def emptyLines (n : Nat) : List UInt8 := .replicate n 10

theorem lineAt_emptyLines (n : Nat) : lineAt (emptyLines n) n = 1 + n := by
  simp [lineAt, emptyLines]

theorem columnAt_emptyLines (n : Nat) : columnAt (emptyLines n) n = 1 := by
  simp [columnAt, emptyLines]

theorem position_emptyLines (n : Nat) :
    (Cursor.ofBytes (emptyLines n)).toEnd.position = ⟨n, .ofNat (1 + n), 1⟩ := by
  have stands : (Cursor.ofBytes (emptyLines n)).toEnd.In (emptyLines n) :=
    (Cursor.In.ofBytes _).advanceBy _
  have offset := (stands.offset_of_end (Cursor.rest_toEnd _)).trans List.length_replicate
  obtain ⟨-, line, column⟩ := stands.counted
  rw [offset, lineAt_emptyLines] at line
  rw [offset, columnAt_emptyLines] at column
  exact Position.ext offset line column

theorem spaces_emptyLines (n : Nat) : ∀ b ∈ emptyLines n, isSpace b := by
  intro b hb
  rw [List.eq_of_mem_replicate hb]
  rfl

theorem parse_emptyLines (limit n : Nat) : parse limit (emptyLines n) =
    .error (Fault.missingRoot.errorAt ⟨n, .ofNat (1 + n), 1⟩) := by
  rw [parse_of_spaces limit (spaces_emptyLines n), position_emptyLines]

theorem skipSpace_emptyLines (n : Nat) :
    (Cursor.ofBytes (emptyLines n)).skipSpace.position = ⟨n, .ofNat (1 + n), 1⟩ := by
  rw [skipSpace_of_spaces (spaces_emptyLines n), position_emptyLines]

/-- Words cannot count the line behind so many: there it is zero, in the error and in the position
of a cursor. -/
theorem parse_emptyLines_unplaced :
    (emptyLines (UInt32.size - 1)).length < UInt32.size ∧
      parse 0 (emptyLines (UInt32.size - 1)) =
        .error (Fault.missingRoot.errorAt ⟨UInt32.size - 1, 0, 1⟩) ∧
      Fault.missingRoot.kind ≠ .invalidUtf8 ∧
      (Cursor.ofBytes (emptyLines (UInt32.size - 1))).skipSpace.position =
        ⟨UInt32.size - 1, 0, 1⟩ ∧
      ¬ PlaceIn (emptyLines (UInt32.size - 1)) ⟨UInt32.size - 1, 0, 1⟩ := by
  refine ⟨?_, parse_emptyLines 0 _, nofun, skipSpace_emptyLines _, fun placed => ?_⟩
  · rw [emptyLines, List.length_replicate]
    decide
  · have line : 0 = 1 + (UInt32.size - 1) := placed.line_eq.trans (lineAt_emptyLines _)
    contradiction

end RouteNotation.Xml
