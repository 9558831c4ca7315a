import RouteNotation.Proofs.Text.Bytes
import RouteNotation.Proofs.Xml.PrintedTags
import RouteNotation.Proofs.Xml.Spelling

/-!
Tags, text and layout read however they are spelled. Each theorem says what a reader gives at a
place where a spelling stands, and that it stops behind it.
-/

namespace RouteNotation.Xml

open Utf8

variable {c : Cursor} {tail : List UInt8}

section Bytes

theorem bytesOf_lt (cs : List Char) : bytesOf ('<' :: cs) = 60 :: bytesOf cs := rfl
theorem bytesOf_gt (cs : List Char) : bytesOf ('>' :: cs) = 62 :: bytesOf cs := rfl
theorem bytesOf_equals (cs : List Char) : bytesOf ('=' :: cs) = 61 :: bytesOf cs := rfl

end Bytes

section Gaps
variable {gap : List Char}

theorem space_of_spaces (h : Spaces gap) {s : Char} (hs : s ∈ gap) :
    s.toNat < 128 ∧ isSpace (UInt8.ofNat s.toNat) = true ∧ (s ≠ '&' ∧ s ≠ '<') ∧
      Text.isBlank s = true := by
  have known := h s hs
  simp only [List.mem_cons, List.not_mem_nil, or_false] at known
  rcases known with rfl | rfl | rfl | rfl <;> decide

theorem isSpace_of_spaces (h : Spaces gap) : ∀ b ∈ bytesOf gap, isSpace b = true := by
  intro b hb
  obtain ⟨s, hs, here⟩ := List.mem_flatMap.1 hb
  obtain ⟨ascii, space, -⟩ := space_of_spaces h hs
  rw [utf8EncodeChar_of_ascii ascii, List.mem_singleton] at here
  rw [here]
  exact space

theorem isNameByte_of_isSpace {b : UInt8} (h : isSpace b = true) : isNameByte b = false := by
  simp only [isSpace, Bool.or_eq_true, beq_iff_eq] at h
  rcases h with ((rfl | rfl) | rfl) | rfl <;> decide

theorem skipSpace_spelled (spaces : Spaces gap) (h : c.rest = bytesOf gap ++ tail)
    (stop : ∀ b ∈ tail.head?, isSpace b = false) : c.skipSpace = c.past (bytesOf gap) := by
  have whole : c.rest.takeWhile isSpace = bytesOf gap := by
    rw [h, List.takeWhile_append_of_pos (isSpace_of_spaces spaces)]
    cases tail with
    | nil => exact List.append_nil _
    | cons b rest =>
      have first : isSpace b = false := stop b rfl
      rw [List.takeWhile_cons_of_neg (by simp [first]), List.append_nil]
  rw [Cursor.skipSpace, whole]
  rfl

/-- What stands behind a name ends it, with white space in between or not. -/
theorem spaces_end_name (spaces : Spaces gap) {b : UInt8} (hb : isNameByte b = false)
    (tail : List UInt8) :
    ∃ d rest, bytesOf gap ++ b :: tail = d :: rest ∧ isNameByte d = false := by
  cases bytes : bytesOf gap with
  | nil => exact ⟨b, tail, rfl, hb⟩
  | cons d rest =>
    refine ⟨d, rest ++ b :: tail, rfl, isNameByte_of_isSpace ?_⟩
    exact isSpace_of_spaces spaces d (by simp [bytes])

end Gaps

section Data
variable {plain : Char → Prop} {text : String} {form : List Char}

theorem decodeData_of_decoded (h : decodeEntities (.ofList form) = .ok text) (start : Position)
    (behind : Cursor) : decodeData (bytesOf form) start behind = .ok (text, behind) := by
  rw [decodeData, decodeText, ← encode_ofList_eq, decode?_encode]
  simp only [h]

theorem decodeEntities_spelled (h : DataSpelling plain text.toList form) (free : ¬ plain '&') :
    decodeEntities (.ofList form) = .ok text := by
  rw [decodeEntities, String.toList_ofList, replaceEntities_data h free]
  exact congrArg Except.ok String.ofList_toList

theorem decodeData_spelled (h : DataSpelling plain text.toList form) (free : ¬ plain '&')
    (start : Position) (behind : Cursor) :
    decodeData (bytesOf form) start behind = .ok (text, behind) :=
  decodeData_of_decoded (decodeEntities_spelled h free) start behind

theorem readValue_spelled {value : String} {cs : List Char} (h : ValueSpelling value cs)
    (place : c.rest = bytesOf cs ++ tail) : readValue c = .ok (value, c.past (bytesOf cs)) := by
  obtain ⟨quote, known, form, data, rfl⟩ := h
  simp only [List.mem_cons, List.not_mem_nil, or_false] at known
  obtain ⟨ascii, letter, mark, single⟩ : quote.toNat < 128 ∧ quote.isAlphanum = false ∧
      quote ∉ ['&', '#', ';'] ∧ bytesOf [quote] = [UInt8.ofNat quote.toNat] := by
    rcases known with rfl | rfl <;> decide
  have bytes : bytesOf (quote :: (form ++ [quote])) =
      UInt8.ofNat quote.toNat :: (bytesOf form ++ [UInt8.ofNat quote.toNat]) := by
    rw [bytesOf_cons_of_ascii ascii, bytesOf_append, single]
  have absent : UInt8.ofNat quote.toNat ∉ bytesOf form :=
    not_mem_bytesOf ascii (not_mem_data data (fun plain => plain.2 rfl) letter mark)
  rw [bytes, List.cons_append] at place
  have opened := Cursor.consume?_past place
  have inside := Cursor.rest_past_cons place
  have closed : before? [UInt8.ofNat quote.toNat] (c.past [UInt8.ofNat quote.toNat]).rest =
      some (bytesOf form) := by
    rw [inside]
    exact before?_append absent
  have read : readValue.quoted c (UInt8.ofNat quote.toNat) (c.past [UInt8.ofNat quote.toNat]) =
      .ok (value, c.past (bytesOf (quote :: (form ++ [quote])))) := by
    simp only [readValue.quoted, closed, decodeData_spelled data (fun plain => plain.1 rfl), bytes]
    simp only [Cursor.past, ← Cursor.advanceBy_add]
    simp [Nat.add_comm]
  -- The double quote is tried first.
  rcases known with rfl | rfl
  · have first : c.consume? 34 = some (c.past [34]) := opened
    rw [readValue, first]
    exact read
  · have first : c.consume? 34 = none := Cursor.consume?_of_ne place (by decide)
    have second : c.consume? 39 = some (c.past [39]) := opened
    rw [readValue, first, second]
    exact read

end Data

section Attributes
variable {a : String × String} {cs : List Char}

theorem quote_of_value {value : String} (h : ValueSpelling value cs) :
    ∃ b rest, bytesOf cs = b :: rest ∧ isSpace b = false := by
  obtain ⟨quote, known, form, _, rfl⟩ := h
  simp only [List.mem_cons, List.not_mem_nil, or_false] at known
  rcases known with rfl | rfl
  · exact ⟨34, bytesOf (form ++ ['"']), rfl, by decide⟩
  · exact ⟨39, bytesOf (form ++ ['\'']), rfl, by decide⟩

theorem readAttribute_spelled (spelled : AttributeSpelling a cs) (valid : isValidName a.1)
    (h : c.rest = bytesOf cs ++ tail) : readAttribute c = .ok (a, c.past (bytesOf cs)) := by
  cases spelled with
  | @equals name value before after cs spaces more quoted =>
    obtain ⟨b, rest, quote, notSpace⟩ := quote_of_value quoted
    have bytes : bytesOf (name.toList ++ (before ++ '=' :: (after ++ cs))) =
        encode name ++ (bytesOf before ++ 61 :: (bytesOf after ++ bytesOf cs)) := by
      simp only [bytesOf_append, bytesOf_toList, bytesOf_equals]
    have place : c.rest = encode name ++ (bytesOf before ++ 61 ::
        (bytesOf after ++ (bytesOf cs ++ tail))) := by
      rw [h, bytes]
      simp
    obtain ⟨d, more', ends, notName⟩ := spaces_end_name spaces (b := 61) (by decide)
      (bytesOf after ++ (bytesOf cs ++ tail))
    have nameThere : c.rest = encode name ++ d :: more' := by rw [place, ends]
    have behindName := Cursor.rest_past place
    have toEquals : (c.past (encode name)).skipSpace =
        (c.past (encode name)).past (bytesOf before) :=
      skipSpace_spelled spaces behindName (by simp [isSpace])
    have equals := Cursor.rest_past behindName
    have behindEquals := Cursor.rest_past_cons equals
    have toValue := skipSpace_spelled more behindEquals (by simp [quote, notSpace])
    have valueThere := Cursor.rest_past behindEquals
    simp only [readAttribute, readName_past valid nameThere notName, toEquals, readByte_past equals,
      toValue, readValue_spelled quoted valueThere]
    rw [bytes]
    simp only [← Cursor.past_append]
    simp

/-- What follows when the attributes are over, with white space before it or not. -/
theorem readAttributes_gap {m : Attributes} {gap : List Char} {b : UInt8} (spaces : Spaces gap)
    (h : c.rest = bytesOf gap ++ b :: tail) (hb : b = 47 ∨ b = 62) :
    readAttributes m c = .ok (m, c.past (bytesOf gap)) := by
  have notSpace : isSpace b = false := by
    rcases hb with rfl | rfl <;> decide
  have skipped := skipSpace_spelled spaces h (by simp [notSpace])
  have here := Cursor.rest_past h
  rw [readAttributes]
  rcases hb with rfl | rfl <;> simp [skipped, Cursor.atEnd, atTagEnd, Cursor.current?, here]

/-- The attributes `es` are put behind those of `m`, which stand before them in `all`. -/
theorem readAttributes_spelled {all m : Attributes} {es : List (String × String)} {ds : List Char}
    (spelled : AttributesSpelling es ds) (split : all.entries = m.entries ++ es)
    (valid : ∀ e ∈ es, isValidName e.1) {b : UInt8} (h : c.rest = bytesOf ds ++ b :: tail)
    (hb : b = 47 ∨ b = 62) : readAttributes m c = .ok (all, c.past (bytesOf ds)) := by
  induction spelled generalizing m c with
  | nil spaces =>
    have same : m = all := OrderedMap.ext (by simpa using split.symm)
    rw [readAttributes_gap spaces h hb, same]
  | @cons e es gap cs ds spaces written _ ih =>
    obtain ⟨named, others⟩ := List.forall_mem_cons.1 valid
    obtain ⟨first, rest, bytes, starts, -⟩ := encode_of_isValidName named
    have begins : ∃ more, bytesOf cs = first :: more := by
      cases written with
      | equals =>
        rw [bytesOf_append, bytesOf_toList, bytes]
        exact ⟨_, rfl⟩
    obtain ⟨more, here⟩ := begins
    have place : c.rest = bytesOf gap ++ (bytesOf cs ++ (bytesOf ds ++ b :: tail)) := by
      rw [h, bytesOf_append, bytesOf_append]
      simp
    have skipped : c.skipSpace = c.past (bytesOf gap) :=
      skipSpace_spelled spaces place (by simp [here, isSpace_of_isNameStart starts])
    have there := Cursor.rest_past place
    have read := readAttribute_spelled written named there
    have fresh := not_mem_keys_of_split split
    rw [readAttributes_next (a := e) (d := (c.past (bytesOf gap)).past (bytesOf cs))]
    · rw [ih (by rw [OrderedMap.entries_insert_of_not_mem fresh, split]; simp) others
        (Cursor.rest_past there)]
      simp [bytesOf_append, ← Cursor.past_append]
    · simp [skipped, Cursor.atEnd, there, here]
    · have ne : first ≠ 47 ∧ first ≠ 62 := by
        constructor <;> rintro rfl <;> exact absurd starts (by decide)
      simp [skipped, atTagEnd, Cursor.current?, there, here, ne]
    · rw [skipped]
      exact read
    · simpa [OrderedMap.contains] using fresh

end Attributes

theorem attributes_behind_space {es : List (String × String)} {space : Char} {ds : List Char}
    (blank : Spaces [space]) (h : AttributesSpelling es ds) :
    AttributesSpelling es (space :: ds) := by
  cases h with
  | nil spaces => exact .nil (List.forall_mem_append.2 ⟨blank, spaces⟩)
  | cons spaces written more =>
    rw [← List.cons_append]
    exact .cons (List.forall_mem_append.2 ⟨blank, spaces⟩) written more

section Tags
variable {name : String} {attributes : Attributes} {tag : List Char}

/-- A tag without its brackets, and what ends it. -/
theorem readTag_spelled (spelled : TagSpelling name attributes.entries tag)
    (named : isValidName name) (keys : ∀ key ∈ attributes.keys, isValidName key) {b : UInt8}
    (h : c.rest = bytesOf tag ++ b :: tail) (hb : b = 47 ∨ b = 62) :
    ∃ d, readName c = .ok (name, d) ∧
      readAttributes .empty d = .ok (attributes, c.past (bytesOf tag)) := by
  have valid : ∀ e ∈ attributes.entries, isValidName e.1 := fun e he =>
    keys e.1 (List.mem_map_of_mem he)
  generalize entries : attributes.entries = es at spelled valid
  cases spelled with
  | name =>
    rw [bytesOf_toList] at h ⊢
    have notName : isNameByte b = false := by
      rcases hb with rfl | rfl <;> decide
    refine ⟨_, readName_past named h notName, ?_⟩
    rw [readAttributes_end (Cursor.rest_past h) hb]
    exact congrArg (fun m => Except.ok (m, _)) (OrderedMap.ext entries.symm)
  | @spaced _ space ds blank more =>
    have bytes : bytesOf (name.toList ++ space :: ds) = encode name ++ bytesOf (space :: ds) := by
      rw [bytesOf_append, bytesOf_toList]
    rw [bytes, List.append_assoc] at h
    obtain ⟨ascii, isBlank, -⟩ := space_of_spaces blank List.mem_cons_self
    have nameThere : c.rest = encode name ++
        UInt8.ofNat space.toNat :: (bytesOf ds ++ b :: tail) := by
      rw [h, bytesOf_cons_of_ascii ascii, List.cons_append]
    have notName := isNameByte_of_isSpace isBlank
    refine ⟨_, readName_past named nameThere notName, ?_⟩
    rw [readAttributes_spelled (attributes_behind_space blank more) (m := .empty) entries valid
      (Cursor.rest_past h) hb, bytes, Cursor.past_append]

theorem readStartTag_spelled {limit depth : Nat} (spelled : TagSpelling name attributes.entries tag)
    (named : isValidName name) (keys : ∀ key ∈ attributes.keys, isValidName key)
    (fits : exceeds limit depth = false) (closed : Bool)
    (h : c.rest = 60 :: (bytesOf tag ++ (tagEnd closed ++ tail))) :
    readStartTag limit depth c =
      .ok (⟨name, attributes, closed⟩, c.past (60 :: (bytesOf tag ++ tagEnd closed))) := by
  have place := Cursor.rest_past_cons h
  have whole : c.past (60 :: (bytesOf tag ++ tagEnd closed)) =
      ((c.past [60]).past (bytesOf tag)).past (tagEnd closed) := by
    rw [← Cursor.past_append, ← Cursor.past_append]
    rfl
  rw [whole]
  cases closed with
  | true =>
    have place : (c.past [60]).rest = bytesOf tag ++ 47 :: 62 :: tail := place
    obtain ⟨d, readName, readAll⟩ := readTag_spelled spelled named keys place (.inl rfl)
    have close : ((c.past [60]).past (bytesOf tag)).rest = 47 :: 62 :: tail :=
      Cursor.rest_past place
    have stroke := Cursor.consume?_past close
    have angle := readByte_past (Cursor.rest_past_cons close)
    simp only [readStartTag, readByte_past h, fits, Bool.false_eq_true, if_false, readName, readAll,
      stroke, angle, Except.map]
    rw [← Cursor.past_append]
    rfl
  | false =>
    have place : (c.past [60]).rest = bytesOf tag ++ 62 :: tail := place
    obtain ⟨d, readName, readAll⟩ := readTag_spelled spelled named keys place (.inr rfl)
    have close : ((c.past [60]).past (bytesOf tag)).rest = 62 :: tail := Cursor.rest_past place
    have noStroke := Cursor.consume?_of_ne (b := 47) close (by decide)
    simp only [readStartTag, readByte_past h, fits, Bool.false_eq_true, if_false, readName, readAll,
      noStroke, readByte_past close, Except.map]
    rfl

theorem readEndTag_spelled {gap : List Char} (named : isValidName name) (spaces : Spaces gap)
    (h : c.rest = encode name ++ (bytesOf gap ++ 62 :: tail)) :
    readEndTag name c = .ok (.endTag, c.past (encode name ++ (bytesOf gap ++ [62]))) := by
  obtain ⟨d, rest, next, notName⟩ := spaces_end_name spaces (b := 62) (by decide) tail
  have nameThere : c.rest = encode name ++ d :: rest := by rw [h, next]
  have behind := Cursor.rest_past h
  have skipped := skipSpace_spelled spaces behind (by simp [isSpace])
  simp only [readEndTag, readName_past named nameThere notName, if_true, skipped,
    readByte_past (Cursor.rest_past behind), Except.map, Cursor.past_append]

end Tags

/-- Characters before the next tag that stand for a text. -/
def Decodes (text : String) (form : List Char) : Prop :=
  '<' ∉ form ∧ decodeEntities (.ofList form) = .ok text

section Characters
variable {text : String} {form : List Char}

theorem decodes_of_spelled (spelled : TextSpelling text form) : Decodes text form :=
  ⟨not_mem_data spelled (fun plain => plain.2 rfl) (by decide) (by decide),
    decodeEntities_spelled spelled fun plain => plain.1 rfl⟩

theorem lt_not_mem_of_decodes (decodes : Decodes text form) : (60 : UInt8) ∉ bytesOf form :=
  not_mem_bytesOf (c := '<') (by decide) decodes.1

theorem readCharacters_of_decodes (decodes : Decodes text form)
    (h : c.rest = bytesOf form ++ 60 :: tail) :
    readCharacters c = .ok (if Text.isBlankText text then .nothing else .characters text,
      c.past (bytesOf form)) := by
  have whole : c.rest.takeWhile (· ≠ 60) = bytesOf form := by
    rw [h, List.takeWhile_append_of_pos, List.takeWhile_cons_of_neg (by simp), List.append_nil]
    intro b hb
    have other : b ≠ 60 := by
      rintro rfl
      exact lt_not_mem_of_decodes decodes hb
    simpa using other
  simp only [readCharacters, whole, decodeData_of_decoded decodes.2]
  rfl

theorem nil_or_cons_of_decodes (decodes : Decodes text form) :
    bytesOf form = [] ∧ text = "" ∨ ∃ b rest, bytesOf form = b :: rest ∧ b ≠ 60 := by
  cases bytes : bytesOf form with
  | nil =>
    have data := decodeData_of_decoded decodes.2 .start (.ofBytes [])
    rw [bytes] at data
    exact .inl ⟨rfl, (Prod.mk.inj (Except.ok.inj data)).1.symm⟩
  | cons b rest =>
    refine .inr ⟨b, rest, rfl, ?_⟩
    rintro rfl
    exact lt_not_mem_of_decodes decodes (by simp [bytes])

theorem text_of_spaces {gap : List Char} (spaces : Spaces gap) :
    TextSpelling (.ofList gap) gap ∧ Text.isBlankText (.ofList gap) = true := by
  constructor
  · rw [TextSpelling, String.toList_ofList]
    exact data_of_plain fun s hs => (space_of_spaces spaces hs).2.2.1
  · rw [Text.isBlankText, String.toList_ofList, List.all_eq_true]
    exact fun s hs => (space_of_spaces spaces hs).2.2.2

end Characters

section Sections
variable {init bytes : List UInt8} {last : UInt8}

/-- A mark whose last byte comes only once in it does not begin shortly before itself. -/
theorem not_prefix_append (once : last ∉ init) (some : bytes ≠ [])
    (free : ¬ init ++ [last] <+: bytes) :
    ¬ init ++ [last] <+: bytes ++ (init ++ [last] ++ tail) := by
  intro there
  rcases List.prefix_or_prefix_of_prefix there (List.prefix_append _ _) with whole | ⟨ends, same⟩
  · exact free whole
  · -- The mark is `bytes` and some of itself, which ends in its last byte.
    rcases List.eq_nil_or_concat ends with rfl | ⟨before, x, rfl⟩
    · rw [List.append_nil] at same
      exact free (same ▸ List.prefix_refl _)
    · rw [List.concat_eq_append, ← List.append_assoc] at same
      obtain ⟨parts, single⟩ := List.append_inj' same rfl
      cases single
      rw [← parts, List.append_assoc, List.prefix_append_right_inj] at there
      have again : before ++ [last] <+: init ++ ([last] ++ tail) := by simpa [← parts] using there
      have short : (before ++ [last]).length ≤ init.length := by
        have := List.length_pos_iff.2 some
        rw [← parts, List.length_append, List.length_append, List.length_singleton]
        omega
      have within := List.prefix_of_prefix_length_le again (List.prefix_append _ _) short
      exact once (within.subset (by simp))

theorem before?_of_infix (once : last ∉ init) (free : ¬ init ++ [last] <:+: bytes) :
    before? (init ++ [last]) (bytes ++ (init ++ [last] ++ tail)) = some bytes := by
  induction bytes with
  | nil =>
    cases init with
    | nil => simp [before?]
    | cons b init => simp [before?]
  | cons b bytes ih =>
    have noPrefix :
        (init ++ [last]).isPrefixOf (b :: (bytes ++ (init ++ [last] ++ tail))) = false := by
      rw [Bool.eq_false_iff, ne_eq, List.isPrefixOf_iff_prefix]
      exact not_prefix_append once (List.cons_ne_nil b bytes) fun here => free here.isInfix
    have later := ih fun here => free (here.trans (List.suffix_cons b bytes).isInfix)
    rw [List.cons_append, before?, noPrefix, later]
    rfl

/-- A section ends at the first place where its mark stands. -/
theorem readSection_spelled {mark body : List Char} {last : Char}
    (ascii : ∀ m ∈ mark ++ [last], m.toNat < 128) (once : last ∉ mark)
    (free : ¬ mark ++ [last] <:+: body)
    (h : c.rest = bytesOf body ++ (bytesOf (mark ++ [last]) ++ tail)) :
    readSection (bytesOf (mark ++ [last])) c =
      .ok (.ofList body, c.past (bytesOf body ++ bytesOf (mark ++ [last]))) := by
  have lastAscii := ascii last (by simp)
  have single : bytesOf [last] = [UInt8.ofNat last.toNat] := bytesOf_cons_of_ascii lastAscii []
  have absent : ¬ bytesOf mark ++ [UInt8.ofNat last.toNat] <:+: bytesOf body := by
    intro there
    rw [← single, ← bytesOf_append] at there
    apply free
    cases mark with
    | nil => exact infix_of_bytesOf ascii there
    | cons m mark => exact infix_of_bytesOf ascii there
  have found : before? (bytesOf (mark ++ [last])) c.rest = some (bytesOf body) := by
    rw [h, bytesOf_append, single]
    exact before?_of_infix (not_mem_bytesOf lastAscii once) absent
  simp only [readSection, found, decodeText, ← encode_ofList_eq body, decode?_encode]
  simp [Cursor.past]

end Sections

end RouteNotation.Xml
