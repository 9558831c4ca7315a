import RouteNotation.OrderedMap
import RouteNotation.Text.Blank
import RouteNotation.Text.Utf8
import RouteNotation.Xml.Cursor
import RouteNotation.Xml.Entity
import RouteNotation.Xml.Fault
import RouteNotation.Xml.Name

/-!
Readers for the pieces of markup: names, attributes, tags, character data and sections. Each takes a
cursor and gives what it read with the cursor behind it. A theorem `of_...` beside a reader says
that this cursor is reached from the first and, where a loop needs it, that something was passed.
-/

namespace RouteNotation.Xml

abbrev Read (α : Type) := Except Error (α × Cursor)

/-- The text of some bytes, with the cursor behind them. -/
def decodeText (bytes : List UInt8) (behind : Cursor) : Read String :=
  match Utf8.decode? bytes with
  | some text => .ok (text, behind)
  | none => .error Fault.notText

theorem of_decodeText {bytes : List UInt8} {c d : Cursor} {s : String}
    (h : decodeText bytes c = .ok (s, d)) : d = c := by
  simp only [decodeText] at h
  split at h <;> cases h
  rfl

/-- The text that character data stand for. A wrong entity is reported where the data begin. -/
def decodeData (bytes : List UInt8) (start : Position) (behind : Cursor) : Read String :=
  match decodeText bytes behind with
  | .error e => .error e
  | .ok (text, d) => match decodeEntities text with
    | .ok data => .ok (data, d)
    | .error entity => .error ((Fault.unknownEntity entity).errorAt start)

theorem of_decodeData {bytes : List UInt8} {start : Position} {c d : Cursor} {s : String}
    (h : decodeData bytes start c = .ok (s, d)) : d = c := by
  simp only [decodeData] at h
  split at h
  · cases h
  · rename_i ht
    split at h <;> cases h
    exact of_decodeText ht

def readByte (expected : UInt8) (c : Cursor) : Except Error Cursor :=
  match c.consume? expected with
  | some d => .ok d
  | none => .error ((Fault.expectedByte expected c.current?).errorAt c.position)

theorem of_readByte {b : UInt8} {c d : Cursor} (h : readByte b c = .ok d) :
    c.Reaches d ∧ d.rest.length < c.rest.length := by
  simp only [readByte] at h
  split at h
  · rename_i hc
    cases h
    exact Cursor.of_consume? hc
  · cases h

def startsName (c : Cursor) : Bool := c.current?.any isNameStart

def readName (c : Cursor) : Read String :=
  if startsName c then
    let bytes := c.rest.takeWhile isNameByte
    decodeText bytes (c.advanceBy bytes.length)
  else .error (Fault.expectedName.errorAt c.position)

theorem of_readName {c d : Cursor} {s : String} (h : readName c = .ok (s, d)) :
    c.Reaches d ∧ d.rest.length < c.rest.length := by
  simp only [readName] at h
  split at h
  · rename_i hs
    rw [of_decodeText h]
    refine ⟨.advanceBy _ _, ?_⟩
    cases hr : c.rest with
    | nil => simp [startsName, Cursor.current?, hr] at hs
    | cons b rest =>
      simp only [startsName, Cursor.current?, hr, List.head?_cons, Option.any_some] at hs
      rw [← hr]
      refine Cursor.length_advanceBy_lt ?_ (by simp [hr])
      simp [hr, isNameByte, hs]
  · cases h

/-- The bytes before the first place where `mark` stands. -/
def before? (mark : List UInt8) : List UInt8 → Option (List UInt8)
  | [] => none
  | b :: rest =>
    if mark.isPrefixOf (b :: rest) then some [] else (before? mark rest).map (b :: ·)

/-- A section up to its closing mark, and the mark. -/
def readSection (mark : List UInt8) (c : Cursor) : Read String :=
  match before? mark c.rest with
  | some bytes => decodeText bytes (c.advanceBy (bytes.length + mark.length))
  | none => .error (Fault.unclosedSection.errorAt c.toEnd.position)

theorem of_readSection {mark : List UInt8} {c d : Cursor} {s : String}
    (h : readSection mark c = .ok (s, d)) : c.Reaches d := by
  simp only [readSection] at h
  split at h
  · rw [of_decodeText h]
    exact .advanceBy _ _
  · cases h

/-- The length of a declaration, whose brackets may hold further markup. -/
def declarationLength? (depth : Nat) : List UInt8 → Option Nat
  | [] => none
  | b :: rest =>
    if b = 91 then (declarationLength? (depth + 1) rest).map (· + 1)
    else if b = 93 then (declarationLength? (depth - 1) rest).map (· + 1)
    else if b = 62 ∧ depth = 0 then some 1
    else (declarationLength? depth rest).map (· + 1)

def skipDeclaration (c : Cursor) : Except Error Cursor :=
  match declarationLength? 0 c.rest with
  | some n => .ok (c.advanceBy n)
  | none => .error (Fault.unclosedDeclaration.errorAt c.toEnd.position)

theorem declarationLength?_pos {depth n : Nat} {bytes : List UInt8}
    (h : declarationLength? depth bytes = some n) : 0 < n ∧ bytes ≠ [] := by
  cases bytes with
  | nil => simp [declarationLength?] at h
  | cons b rest =>
    refine ⟨?_, by simp⟩
    simp only [declarationLength?] at h
    split at h
    · obtain ⟨m, _, rfl⟩ := Option.map_eq_some_iff.1 h; omega
    · split at h
      · obtain ⟨m, _, rfl⟩ := Option.map_eq_some_iff.1 h; omega
      · split at h
        · cases h; omega
        · obtain ⟨m, _, rfl⟩ := Option.map_eq_some_iff.1 h; omega

theorem of_skipDeclaration {c d : Cursor} (h : skipDeclaration c = .ok d) :
    c.Reaches d ∧ d.rest.length < c.rest.length := by
  simp only [skipDeclaration] at h
  split at h
  · rename_i n hn
    cases h
    have := declarationLength?_pos hn
    exact ⟨.advanceBy _ _, Cursor.length_advanceBy_lt this.1 this.2⟩
  · cases h

/-- A value in single or double quotes. -/
def readValue (c : Cursor) : Read String :=
  match c.consume? 34, c.consume? 39 with
  | some inside, _ => quoted 34 inside
  | none, some inside => quoted 39 inside
  | none, none => .error (Fault.expectedQuote.errorAt c.position)
where
  quoted (quote : UInt8) (inside : Cursor) : Read String :=
    match before? [quote] inside.rest with
    | some bytes => decodeData bytes c.position (inside.advanceBy (bytes.length + 1))
    | none => .error (Fault.unclosedValue.errorAt inside.toEnd.position)

theorem of_readValue_quoted {c inside d : Cursor} {quote : UInt8} {s : String}
    (h : readValue.quoted c quote inside = .ok (s, d)) : inside.Reaches d := by
  simp only [readValue.quoted] at h
  split at h
  · rw [of_decodeData h]
    exact .advanceBy _ _
  · cases h

theorem of_readValue {c d : Cursor} {s : String} (h : readValue c = .ok (s, d)) : c.Reaches d := by
  simp only [readValue] at h
  split at h
  · rename_i hc
    exact (Cursor.of_consume? hc).1.trans (of_readValue_quoted h)
  · rename_i hc
    exact (Cursor.of_consume? hc).1.trans (of_readValue_quoted h)
  · cases h

/-- A name, an equals sign and a value. -/
def readAttribute (c : Cursor) : Read (String × String) :=
  match readName c with
  | .error e => .error e
  | .ok (name, c) => match readByte 61 c.skipSpace with
    | .error e => .error e
    | .ok c => match readValue c.skipSpace with
      | .error e => .error e
      | .ok (value, c) => .ok ((name, value), c)

theorem of_readAttribute {c d : Cursor} {a : String × String} (h : readAttribute c = .ok (a, d)) :
    c.Reaches d ∧ d.rest.length < c.rest.length := by
  simp only [readAttribute] at h
  split at h
  · cases h
  · rename_i hn
    split at h
    · cases h
    · rename_i he
      split at h
      · cases h
      · rename_i hv
        cases h
        have hn := of_readName hn
        have tail := ((Cursor.Reaches.skipSpace _).trans (of_readByte he).1).trans
          ((Cursor.Reaches.skipSpace _).trans (of_readValue hv))
        exact ⟨hn.1.trans tail, Nat.lt_of_le_of_lt tail.length_le hn.2⟩

/-- Whether the attributes of a tag are over. -/
def atTagEnd (c : Cursor) : Bool := c.current? = some 47 || c.current? = some 62

/-- The attributes of a tag, up to its end and without it. A second attribute of one name is
reported behind its value. -/
def readAttributes (attributes : Attributes) (c : Cursor) : Read Attributes :=
  let start := c.skipSpace
  if start.atEnd then .error (Fault.unclosedTag.errorAt start.position)
  else if atTagEnd start then .ok (attributes, start)
  else match _h : readAttribute start with
    | .error e => .error e
    | .ok ((name, value), d) =>
      if attributes.contains name then
        .error ((Fault.duplicateAttribute name).errorAt d.position)
      else readAttributes (attributes.insert name value) d
termination_by c.rest.length
decreasing_by
  exact Nat.lt_of_lt_of_le (of_readAttribute _h).2 (Cursor.Reaches.skipSpace c).length_le

theorem of_readAttributes {attributes result : Attributes} {c d : Cursor}
    (h : readAttributes attributes c = .ok (result, d)) : c.Reaches d := by
  fun_induction readAttributes attributes c with
  | case1 => cases h
  | case2 =>
    simp only [Except.ok.injEq, Prod.mk.injEq] at h
    exact h.2 ▸ .skipSpace _
  | case3 => cases h
  | case4 => cases h
  | case5 attributes c start _ _ name value e ha _ ih =>
    exact (Cursor.Reaches.skipSpace c).trans ((of_readAttribute ha).1.trans (ih h))

/-- The tag that opens an element. -/
structure StartTag where
  name : String
  attributes : Attributes
  /-- Whether the tag closes the element too. -/
  closed : Bool

/-- A piece of the content of an element. -/
inductive Markup
  | startTag (tag : StartTag)
  | endTag
  | characters (text : String)
  /-- A comment, a processing instruction, or blanks alone. -/
  | nothing

/-- Elements can be `limit` deep; zero is no limit. Depth is counted up to 65535, so that a limit
of that size never strikes. -/
def exceeds (limit depth : Nat) : Bool := 0 < limit && limit < min depth 65535

/-- A tag that opens an element at this depth. -/
def readStartTag (limit depth : Nat) (c : Cursor) : Read StartTag :=
  match readByte 60 c with
  | .error e => .error e
  | .ok c =>
    if exceeds limit depth then .error ((Fault.tooDeep limit).errorAt c.position)
    else match readName c with
      | .error e => .error e
      | .ok (name, c) => match readAttributes .empty c with
        | .error e => .error e
        | .ok (attributes, c) => match c.consume? 47 with
          | some c => (readByte 62 c).map fun c => (⟨name, attributes, true⟩, c)
          | none => (readByte 62 c).map fun c => (⟨name, attributes, false⟩, c)

theorem of_map_readByte {α : Type} {b : UInt8} {c d : Cursor} {m n : α}
    (h : (readByte b c).map (fun c => (m, c)) = .ok (n, d)) : c.Reaches d := by
  cases hr : readByte b c with
  | error => simp [hr, Except.map] at h
  | ok e =>
    simp only [hr, Except.map, Except.ok.injEq, Prod.mk.injEq] at h
    exact h.2 ▸ (of_readByte hr).1

theorem of_readStartTag {limit depth : Nat} {c d : Cursor} {t : StartTag}
    (h : readStartTag limit depth c = .ok (t, d)) :
    c.Reaches d ∧ d.rest.length < c.rest.length := by
  simp only [readStartTag] at h
  split at h
  · cases h
  · rename_i hl
    split at h
    · cases h
    · split at h
      · cases h
      · rename_i hn
        split at h
        · cases h
        · rename_i behind ha
          have hl := of_readByte hl
          have inner := (of_readName hn).1.trans (of_readAttributes ha)
          have tail : behind.Reaches d := by
            split at h
            · rename_i hc
              exact (Cursor.of_consume? hc).1.trans (of_map_readByte h)
            · exact of_map_readByte h
          exact ⟨hl.1.trans (inner.trans tail),
            Nat.lt_of_le_of_lt (inner.trans tail).length_le hl.2⟩

/-- The end tag of the element `name`, from behind its `</`. -/
def readEndTag (name : String) (c : Cursor) : Read Markup :=
  match readName c with
  | .error e => .error e
  | .ok (found, c) =>
    if found = name then (readByte 62 c.skipSpace).map fun c => (.endTag, c)
    else .error ((Fault.mismatchedTag name found).errorAt c.position)

theorem of_readEndTag {name : String} {c d : Cursor} {m : Markup}
    (h : readEndTag name c = .ok (m, d)) : c.Reaches d := by
  simp only [readEndTag] at h
  split at h
  · cases h
  · rename_i hn
    split at h
    · exact (of_readName hn).1.trans ((Cursor.Reaches.skipSpace _).trans (of_map_readByte h))
    · cases h

/-- Character data up to the next tag; data that are blank count for nothing. -/
def readCharacters (c : Cursor) : Read Markup :=
  let bytes := c.rest.takeWhile (· ≠ 60)
  match decodeData bytes c.position (c.advanceBy bytes.length) with
  | .error e => .error e
  | .ok (text, c) => .ok (if Text.isBlankText text then .nothing else .characters text, c)

theorem of_readCharacters {c d : Cursor} {m : Markup} (h : readCharacters c = .ok (m, d)) :
    c.Reaches d ∧ (c.current?.any (· ≠ 60) → d.rest.length < c.rest.length) := by
  simp only [readCharacters] at h
  split at h
  · cases h
  · rename_i hd
    cases h
    rw [of_decodeData hd]
    refine ⟨.advanceBy _ _, fun hc => ?_⟩
    cases hr : c.rest with
    | nil => simp [Cursor.current?, hr] at hc
    | cons b rest =>
      have hb : b ≠ 60 := by simpa [Cursor.current?, hr] using hc
      rw [← hr]
      refine Cursor.length_advanceBy_lt ?_ (by simp [hr])
      simp [hr, hb]

def commentStart : List UInt8 := Utf8.encode "<!--"
def commentEnd : List UInt8 := Utf8.encode "-->"
def instructionStart : List UInt8 := Utf8.encode "<?"
def instructionEnd : List UInt8 := Utf8.encode "?>"
def literalStart : List UInt8 := Utf8.encode "<![CDATA["
def literalEnd : List UInt8 := Utf8.encode "]]>"
def endTagStart : List UInt8 := Utf8.encode "</"
def declarationStart : List UInt8 := Utf8.encode "<!"

def skipSection (mark : List UInt8) (c : Cursor) : Read Markup :=
  match readSection mark c with
  | .error e => .error e
  | .ok (_, c) => .ok (.nothing, c)

/-- The next piece in the content of the open element `name`, whose child elements have this
depth. A literal section counts even if it is blank. -/
def readMarkup (limit depth : Nat) (name : String) (c : Cursor) : Read Markup :=
  if c.atEnd then .error ((Fault.unclosedElement name).errorAt c.position)
  else if c.startsWith endTagStart then readEndTag name (c.advanceBy 2)
  else if c.startsWith commentStart then skipSection commentEnd (c.advanceBy 4)
  else if c.startsWith literalStart then
    match readSection literalEnd (c.advanceBy 9) with
    | .error e => .error e
    | .ok (text, c) => .ok (.characters text, c)
  else if c.startsWith instructionStart then skipSection instructionEnd (c.advanceBy 2)
  else if c.current? = some 60 then
    match readStartTag limit depth c with
    | .error e => .error e
    | .ok (tag, c) => .ok (.startTag tag, c)
  else readCharacters c

end RouteNotation.Xml
