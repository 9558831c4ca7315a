import RouteNotation.Proofs.Text.Ascii
import RouteNotation.Proofs.Xml.Escaping
import RouteNotation.Proofs.Xml.NamedTree
import RouteNotation.Xml.Printer

/-!
Tags as they are printed, read again. Each theorem says what a reader gives at a place where a
printed piece stands, and that it stops behind the piece.
-/

namespace RouteNotation.Xml

namespace Cursor

/-- The cursor behind some bytes. -/
def past (c : Cursor) (bytes : List UInt8) : Cursor := c.advanceBy bytes.length

@[simp] theorem past_nil (c : Cursor) : c.past [] = c := by simp [past]

theorem past_append (c : Cursor) (bytes more : List UInt8) :
    c.past (bytes ++ more) = (c.past bytes).past more := by
  simp [past, advanceBy_add]

theorem rest_past {c : Cursor} {bytes tail : List UInt8} (h : c.rest = bytes ++ tail) :
    (c.past bytes).rest = tail := by
  simp [past, rest_advanceBy, h]

theorem rest_past_cons {c : Cursor} {b : UInt8} {tail : List UInt8} (h : c.rest = b :: tail) :
    (c.past [b]).rest = tail :=
  rest_past h

theorem consume?_past {c : Cursor} {b : UInt8} {tail : List UInt8} (h : c.rest = b :: tail) :
    c.consume? b = some (c.past [b]) := by
  simp [consume?, current?, h, past, advance]

theorem consume?_of_ne {c : Cursor} {b d : UInt8} {tail : List UInt8} (h : c.rest = d :: tail)
    (ne : d ≠ b) : c.consume? b = none := by
  simp [consume?, current?, h, ne]

theorem skipSpace_eq_self {c : Cursor} {b : UInt8} {tail : List UInt8} (h : c.rest = b :: tail)
    (hb : isSpace b = false) : c.skipSpace = c := by
  simp [skipSpace, h, hb]

theorem skipSpace_past {c : Cursor} {b : UInt8} {tail : List UInt8} (h : c.rest = 32 :: b :: tail)
    (hb : isSpace b = false) : c.skipSpace = c.past [32] := by
  have blank : isSpace 32 = true := by decide
  simp [skipSpace, h, hb, blank, past]

end Cursor

variable {c : Cursor} {tail : List UInt8}

theorem readByte_past {b : UInt8} (h : c.rest = b :: tail) : readByte b c = .ok (c.past [b]) := by
  simp [readByte, Cursor.consume?_past h]

theorem isSpace_of_isNameStart {b : UInt8} (h : isNameStart b) : isSpace b = false := by
  cases space : isSpace b with
  | false => rfl
  | true =>
    simp only [isSpace, Bool.or_eq_true, beq_iff_eq] at space
    rcases space with ((rfl | rfl) | rfl) | rfl <;> revert h <;> decide

/-- A valid name is a first byte and further ones. -/
theorem encode_of_isValidName {name : String} (valid : isValidName name) :
    ∃ b rest, Utf8.encode name = b :: rest ∧ isNameStart b ∧ ∀ x ∈ b :: rest, isNameByte x := by
  unfold isValidName at valid
  split at valid
  · cases valid
  · rename_i b rest hb
    simp only [Bool.and_eq_true, List.all_eq_true] at valid
    refine ⟨b, rest, hb, valid.1, ?_⟩
    intro x hx
    rcases List.mem_cons.1 hx with rfl | hx
    · simp [isNameByte, valid.1]
    · exact valid.2 x hx

theorem readName_past {name : String} {b : UInt8} (valid : isValidName name)
    (h : c.rest = Utf8.encode name ++ b :: tail) (hb : isNameByte b = false) :
    readName c = .ok (name, c.past (Utf8.encode name)) := by
  obtain ⟨first, rest, bytes, starts, all⟩ := encode_of_isValidName valid
  have whole : c.rest.takeWhile isNameByte = Utf8.encode name := by
    rw [h, bytes, List.takeWhile_append_of_pos all, List.takeWhile_cons_of_neg (by simp [hb]),
      List.append_nil]
  have here : startsName c := by simp [startsName, Cursor.current?, h, bytes, starts]
  simp only [readName, here, if_true, whole, decodeText, Utf8.decode?_encode]
  rfl

theorem before?_append {m : UInt8} {ms bytes : List UInt8} (h : m ∉ bytes) :
    before? (m :: ms) (bytes ++ (m :: ms) ++ tail) = some bytes := by
  induction bytes with
  | nil => simp [before?]
  | cons b bytes ih =>
    simp only [List.mem_cons, not_or] at h
    have differs : (m == b) = false := by simpa using h.1
    have further := ih h.2
    simp only [List.cons_append, List.append_assoc] at further ⊢
    simp [before?, List.isPrefixOf, differs, further]

theorem readSection_past {m : UInt8} {ms : List UInt8} {text : String}
    (h : c.rest = Utf8.encode text ++ (m :: ms) ++ tail) (absent : m ∉ Utf8.encode text) :
    readSection (m :: ms) c = .ok (text, c.past (Utf8.encode text ++ (m :: ms))) := by
  simp only [readSection, h, before?_append absent, decodeText, Utf8.decode?_encode, Cursor.past,
    List.length_append]

theorem readValue_past {value : String}
    (h : c.rest = 34 :: Utf8.encode (escapeAttribute value) ++ 34 :: tail) :
    readValue c = .ok (value, c.past (34 :: Utf8.encode (escapeAttribute value) ++ [34])) := by
  have opened := Cursor.consume?_past (c := c) (b := 34) h
  have inside : (c.past [34]).rest = Utf8.encode (escapeAttribute value) ++ [34] ++ tail := by
    rw [Cursor.rest_past_cons h]
    simp
  have closed : before? [34] (c.past [34]).rest = some (Utf8.encode (escapeAttribute value)) := by
    rw [inside]
    exact before?_append (Utf8.not_mem_encode (c := '"') (by decide)
      (quote_not_mem_escapeAttribute value))
  have data := decodeEntities_escapeAttribute value
  simp only [readValue, opened, readValue.quoted, closed, decodeData, decodeText,
    Utf8.decode?_encode, data]
  simp only [List.cons_append, Cursor.past, ← Cursor.advanceBy_add]
  simp [Nat.add_comm]

/-- An attribute without the space that divides it from what stands before. -/
def attributeBytes (a : String × String) : List UInt8 :=
  Utf8.encode a.1 ++ 61 :: (34 :: Utf8.encode (escapeAttribute a.2) ++ [34])

theorem encode_renderAttribute (a : String × String) :
    Utf8.encode (renderAttribute a) = 32 :: attributeBytes a := by
  have space : Utf8.encode " " = [32] := rfl
  have equals : Utf8.encode "=\"" = [61, 34] := rfl
  have quote : Utf8.encode "\"" = [34] := rfl
  simp [renderAttribute, attributeBytes, Utf8.encode_append, toString, space, equals, quote]

theorem readAttribute_past {a : String × String} (valid : isValidName a.1)
    (h : c.rest = attributeBytes a ++ tail) :
    readAttribute c = .ok (a, c.past (attributeBytes a)) := by
  simp only [attributeBytes, List.append_assoc, List.cons_append, List.nil_append] at h
  have name := readName_past valid h (by decide)
  have equals := Cursor.rest_past h
  have noSpace := Cursor.skipSpace_eq_self equals (by decide)
  have value := Cursor.rest_past_cons equals
  have noSpace' := Cursor.skipSpace_eq_self value (by decide)
  simp only [readAttribute, name, noSpace, readByte_past equals, noSpace', readValue_past value]
  rw [← Cursor.past_append, ← Cursor.past_append]
  simp [attributeBytes]

theorem readAttributes_end {m : Attributes} {b : UInt8} (h : c.rest = b :: tail)
    (hb : b = 47 ∨ b = 62) : readAttributes m c = .ok (m, c) := by
  have noSpace : c.skipSpace = c := by
    rcases hb with rfl | rfl <;> exact Cursor.skipSpace_eq_self h (by decide)
  rw [readAttributes]
  rcases hb with rfl | rfl <;> simp [noSpace, Cursor.atEnd, atTagEnd, Cursor.current?, h]

theorem readAttributes_next {m : Attributes} {a : String × String} {d : Cursor}
    (more : c.skipSpace.atEnd = false) (inside : atTagEnd c.skipSpace = false)
    (h : readAttribute c.skipSpace = .ok (a, d)) (new : m.contains a.1 = false) :
    readAttributes m c = readAttributes (m.insert a.1 a.2) d := by
  rw [readAttributes]
  simp only [more, inside, Bool.false_eq_true, if_false]
  split
  · rename_i he
    cases he.symm.trans h
  · rename_i ha
    cases ha.symm.trans h
    simp only [new, Bool.false_eq_true, if_false]

/-- The next attribute has a name of its own, when they are all attributes of one tag. -/
theorem not_mem_keys_of_split {all m : Attributes} {e : String × String}
    {es : List (String × String)} (split : all.entries = m.entries ++ e :: es) :
    e.1 ∉ m.keys := by
  have nodup := all.nodup
  simp only [split, List.map_append, List.map_cons] at nodup
  have apart := (List.nodup_append.1 nodup).2.2
  exact fun member => apart e.1 member e.1 List.mem_cons_self rfl

/-- The attributes `es` are put behind those of `m`, which stand before them in `all`. -/
theorem readAttributes_past {all m : Attributes} {es : List (String × String)} {b : UInt8}
    (split : all.entries = m.entries ++ es) (valid : ∀ e ∈ es, isValidName e.1)
    (h : c.rest = es.flatMap (fun e => 32 :: attributeBytes e) ++ b :: tail)
    (hb : b = 47 ∨ b = 62) :
    readAttributes m c = .ok (all, c.past (es.flatMap fun e => 32 :: attributeBytes e)) := by
  induction es generalizing m c with
  | nil =>
    have : m = all := OrderedMap.ext (by simpa using split.symm)
    rw [readAttributes_end h hb, this]
    rfl
  | cons e es ih =>
    obtain ⟨first, rest, bytes, starts, -⟩ := encode_of_isValidName (valid e (by simp))
    have behind : c.rest = 32 :: (attributeBytes e ++
        (es.flatMap (fun e => 32 :: attributeBytes e) ++ b :: tail)) := by simpa using h
    have next : c.rest = 32 :: first :: (rest ++ 61 :: (34 :: Utf8.encode (escapeAttribute e.2) ++
        [34]) ++ (es.flatMap (fun e => 32 :: attributeBytes e) ++ b :: tail)) := by
      rw [behind]
      simp only [attributeBytes, bytes, List.cons_append]
    have space := Cursor.skipSpace_past next (isSpace_of_isNameStart starts)
    have here := Cursor.rest_past_cons next
    have place := Cursor.rest_past_cons behind
    have read := readAttribute_past (valid e (by simp)) place
    have fresh := not_mem_keys_of_split split
    have new : m.contains e.1 = false := by simpa [OrderedMap.contains] using fresh
    rw [readAttributes_next (a := e) (d := (c.past [32]).past (attributeBytes e))]
    · rw [ih (by rw [OrderedMap.entries_insert_of_not_mem fresh, split]; simp)
        (fun x hx => valid x (by simp [hx])) (Cursor.rest_past place)]
      simp [← Cursor.past_append]
    · simp [space, Cursor.atEnd, here]
    · have ne : first ≠ 47 ∧ first ≠ 62 := by
        constructor <;> rintro rfl <;> exact absurd starts (by decide)
      simp [space, atTagEnd, Cursor.current?, here, ne]
    · rw [space]; exact read
    · exact new

/-- The attributes of a tag, each behind a space. -/
def attributesBytes (attributes : Attributes) : List UInt8 :=
  attributes.entries.flatMap fun e => 32 :: attributeBytes e

theorem encode_renderAttributes (attributes : Attributes) :
    Utf8.encode (renderAttributes attributes) = attributesBytes attributes := by
  unfold renderAttributes attributesBytes
  induction attributes.entries with
  | nil => rfl
  | cons e es ih =>
    simp [Utf8.encode_append, encode_renderAttribute, ih]

theorem readAttributes_whole {attributes : Attributes} {b : UInt8}
    (valid : ∀ key ∈ attributes.keys, isValidName key)
    (h : c.rest = attributesBytes attributes ++ b :: tail) (hb : b = 47 ∨ b = 62) :
    readAttributes .empty c = .ok (attributes, c.past (attributesBytes attributes)) :=
  readAttributes_past rfl (fun e he => valid e.1 (List.mem_map_of_mem he)) h hb

/-- What closes a tag: with a stroke, the element too. -/
def tagEnd (closed : Bool) : List UInt8 := if closed then [47, 62] else [62]

def startTagBytes (tag : StartTag) : List UInt8 :=
  60 :: (Utf8.encode tag.name ++ (attributesBytes tag.attributes ++ tagEnd tag.closed))

/-- Behind a name stands a space or the end of the tag. -/
theorem attributesBytes_append (attributes : Attributes) {b : UInt8} (hb : b = 47 ∨ b = 62)
    (tail : List UInt8) : ∃ d rest, attributesBytes attributes ++ b :: tail = d :: rest ∧
      isNameByte d = false := by
  unfold attributesBytes
  cases attributes.entries with
  | nil => exact ⟨b, tail, rfl, by rcases hb with rfl | rfl <;> decide⟩
  | cons e es => exact ⟨32, _, rfl, by decide⟩

theorem readStartTag_past {limit depth : Nat} {tag : StartTag} (named : tag.WellNamed)
    (fits : exceeds limit depth = false) (h : c.rest = startTagBytes tag ++ tail) :
    readStartTag limit depth c = .ok (tag, c.past (startTagBytes tag)) := by
  obtain ⟨name, attributes, closed⟩ := tag
  have ends : ∃ b more, tagEnd closed = b :: more ∧ (b = 47 ∨ b = 62) := by
    cases closed
    · exact ⟨62, [], rfl, .inr rfl⟩
    · exact ⟨47, [62], rfl, .inl rfl⟩
  obtain ⟨b, more, hends, hb⟩ := ends
  have bracket : c.rest = 60 :: (Utf8.encode name ++ (attributesBytes attributes ++
      b :: (more ++ tail))) := by simpa [startTagBytes, hends] using h
  have place := Cursor.rest_past_cons bracket
  obtain ⟨d, rest, hd, notName⟩ := attributesBytes_append attributes hb (more ++ tail)
  have nameThere : (c.past [60]).rest = Utf8.encode name ++ d :: rest := by rw [place, hd]
  have readName := readName_past named.1 nameThere notName
  have behind := Cursor.rest_past place
  have readAll := readAttributes_whole named.2 behind hb
  have close := Cursor.rest_past behind
  simp only [readStartTag, readByte_past bracket, fits, Bool.false_eq_true, if_false, readName,
    readAll]
  cases closed with
  | true =>
    cases hends
    have slash := Cursor.consume?_past close
    have angle := readByte_past (Cursor.rest_past_cons close)
    simp only [slash, angle, Except.map]
    simp [← Cursor.past_append, startTagBytes, tagEnd]
  | false =>
    cases hends
    have noSlash := Cursor.consume?_of_ne (b := 47) close (by decide)
    simp only [noSlash, readByte_past close, Except.map]
    simp [← Cursor.past_append, startTagBytes, tagEnd]

theorem readEndTag_past {name : String} (valid : isValidName name)
    (h : c.rest = Utf8.encode name ++ 62 :: tail) :
    readEndTag name c = .ok (.endTag, c.past (Utf8.encode name ++ [62])) := by
  have close := Cursor.rest_past h
  have noSpace := Cursor.skipSpace_eq_self close (by decide)
  simp only [readEndTag, readName_past valid h (by decide), if_true, noSpace, readByte_past close,
    Except.map, Cursor.past_append]

theorem readCharacters_past {s : String}
    (h : c.rest = Utf8.encode (escapeText s) ++ 60 :: tail) :
    readCharacters c = .ok (if Text.isBlankText s then .nothing else .characters s,
      c.past (Utf8.encode (escapeText s))) := by
  have absent : (60 : UInt8) ∉ Utf8.encode (escapeText s) :=
    Utf8.not_mem_encode (c := '<') (by decide) (lt_not_mem_escapeText s)
  have whole : c.rest.takeWhile (· ≠ 60) = Utf8.encode (escapeText s) := by
    rw [h, List.takeWhile_append_of_pos, List.takeWhile_cons_of_neg (by simp), List.append_nil]
    intro b hb
    have : b ≠ 60 := by rintro rfl; exact absent hb
    simpa using this
  simp only [readCharacters, whole, decodeData, decodeText, Utf8.decode?_encode,
    decodeEntities_escapeText]
  rfl

section Dispatch
variable {limit depth : Nat} {name : String}

theorem commentStart_eq : commentStart = [60, 33, 45, 45] := by decide
theorem instructionStart_eq : instructionStart = [60, 63] := by decide
theorem literalStart_eq : literalStart = [60, 33, 91, 67, 68, 65, 84, 65, 91] := by decide
theorem endTagStart_eq : endTagStart = [60, 47] := by decide
theorem declarationStart_eq : declarationStart = [60, 33] := by decide

theorem readMarkup_endTag (h : c.rest = 60 :: 47 :: tail) :
    readMarkup limit depth name c = readEndTag name (c.past [60, 47]) := by
  simp [readMarkup, Cursor.atEnd, Cursor.startsWith, h, endTagStart_eq, Cursor.past]

/-- No other markup begins with a bracket and the first byte of a name. -/
theorem startsWith_of_isNameStart {b : UInt8} (h : c.rest = 60 :: b :: tail)
    (starts : isNameStart b) : c.startsWith endTagStart = false ∧
      c.startsWith commentStart = false ∧ c.startsWith literalStart = false ∧
      c.startsWith instructionStart = false ∧ c.startsWith declarationStart = false := by
  have ne : b ≠ 47 ∧ b ≠ 33 ∧ b ≠ 63 := by
    refine ⟨?_, ?_, ?_⟩ <;> rintro rfl <;> exact absurd starts (by decide)
  simp [Cursor.startsWith, h, endTagStart_eq, commentStart_eq, literalStart_eq,
    instructionStart_eq, declarationStart_eq, List.isPrefixOf, Ne.symm ne.1, Ne.symm ne.2.1,
    Ne.symm ne.2.2]

theorem readMarkup_startTag {tag : StartTag} (named : tag.WellNamed)
    (fits : exceeds limit depth = false) (h : c.rest = startTagBytes tag ++ tail) :
    readMarkup limit depth name c = .ok (.startTag tag, c.past (startTagBytes tag)) := by
  obtain ⟨first, rest, bytes, starts, -⟩ := encode_of_isValidName named.1
  have place : c.rest = 60 :: first :: (rest ++ (attributesBytes tag.attributes ++
      tagEnd tag.closed) ++ tail) := by simpa [startTagBytes, bytes] using h
  obtain ⟨noEnd, noComment, noLiteral, noInstruction, -⟩ := startsWith_of_isNameStart place starts
  have more : c.atEnd = false := by simp [Cursor.atEnd, place]
  have bracket : c.current? = some 60 := by simp [Cursor.current?, place]
  simp only [readMarkup, more, noEnd, noComment, noLiteral, noInstruction, bracket,
    Bool.false_eq_true, if_false, if_true, readStartTag_past named fits h]

theorem readMarkup_characters {b : UInt8} (h : c.rest = b :: tail) (hb : b ≠ 60) :
    readMarkup limit depth name c = readCharacters c := by
  simp [readMarkup, Cursor.atEnd, Cursor.startsWith, Cursor.current?, h, endTagStart_eq,
    commentStart_eq, literalStart_eq, instructionStart_eq, List.isPrefixOf, hb, Ne.symm hb]

end Dispatch
end RouteNotation.Xml
