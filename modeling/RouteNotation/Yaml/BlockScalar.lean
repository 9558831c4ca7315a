import RouteNotation.Yaml.Fault
import RouteNotation.Yaml.Token

/-!
Scalars in block style. Their lines are indented; in folded style a single break between two lines
of text is a space.
-/

namespace RouteNotation.Yaml

/-- What is kept of the line breaks at the end. -/
inductive Chomping
  | strip
  | clip
  | keep
  deriving DecidableEq, Repr

structure BlockHeader where
  chomping : Chomping
  /-- The indentation beyond that of the parent; zero when the text tells it. -/
  indent : Nat

def chomping? : List Char → Option (Chomping × List Char)
  | '+' :: rest => some (.keep, rest)
  | '-' :: rest => some (.strip, rest)
  | _ => none

/-- A digit other than zero. -/
def indentDigit? : List Char → Option (Nat × List Char)
  | c :: rest => if c.isDigit && c != '0' then some (c.toNat - '0'.toNat, rest) else none
  | [] => none

/-- The parts of a header in either order, and what follows. -/
def readHeader (cs : List Char) : BlockHeader × List Char :=
  match chomping? cs with
  | some (chomping, cs) => match indentDigit? cs with
    | some (n, cs) => (⟨chomping, n⟩, cs)
    | none => (⟨chomping, 0⟩, cs)
  | none => match indentDigit? cs with
    | none => (⟨.clip, 0⟩, cs)
    | some (n, cs) => match chomping? cs with
      | some (chomping, cs) => (⟨chomping, n⟩, cs)
      | none => (⟨.clip, n⟩, cs)

/-- Reads the header behind the indicator, to the end of its line. -/
def scanHeader (p : Place) : Except Fault (BlockHeader × Place) :=
  let (header, rest) := readHeader p.rest
  let p := (p.skip (p.rest.length - rest.length)).skipToLineEnd
  if atLineEnd p.rest then .ok (header, p.skipBreak) else .error .badBlockHeader

/-- What was read of a block. -/
structure BlockText where
  /-- The text, the last character first. -/
  text : List Char
  /-- The break behind the last line of text. -/
  lineBreak : List Char
  /-- The breaks of the empty lines since then, the last first. -/
  emptyLines : List Char
  /-- Whether the last line of text begins with a blank, so that it is not folded. -/
  blank : Bool
  /-- The indentation; zero until a line of text tells it. -/
  indent : Nat
  /-- The longest indentation of the lines without text at the start. -/
  longest : Nat

namespace BlockText

def start (indent : Nat) : BlockText := ⟨[], [], [], false, indent, 0⟩

/-- Whether the column belongs to the indentation. -/
def isIndentation (b : BlockText) (column : Nat) : Bool := b.indent == 0 || column < b.indent

/-- The indentation that the first line of text tells, which is deeper than that of the parent. -/
def settle (b : BlockText) (least column : Nat) : BlockText :=
  if b.indent = 0 then { b with indent := max (max b.longest column) least } else b

/-- Begins a line of text with `c`. -/
def beginLine (b : BlockText) (folded : Bool) (c : Char) : BlockText :=
  let blank := isSpaceOrTab c
  let text :=
    if folded && b.lineBreak == ['\n'] && !b.blank && !blank then
      if b.emptyLines.isEmpty then ' ' :: b.text else b.text
    else b.lineBreak ++ b.text
  { b with text := c :: (b.emptyLines ++ text), lineBreak := [], emptyLines := [], blank }

def finish (b : BlockText) (chomping : Chomping) : String :=
  .ofList (match chomping with
    | .strip => b.text
    | .clip => b.lineBreak ++ b.text
    | .keep => b.emptyLines ++ b.lineBreak ++ b.text).reverse

end BlockText

/-- Reads on from `p`, whose text is the list. Within the line of text when `inside`, and else in
the indentation of a line. -/
def scanBlockLines (folded : Bool) (least : Nat) (inside : Bool) (b : BlockText) (p : Place) :
    List Char → Except Fault (BlockText × Place)
  | [] => .ok (b, p)
  | c :: rest =>
    if isBreak c then
      let b := if inside then { b with lineBreak := [c] }
        else { b with emptyLines := c :: b.emptyLines, longest := max b.longest p.column }
      scanBlockLines folded least false b (p.behindBreak c rest) rest
    else if inside then
      scanBlockLines folded least true { b with text := c :: b.text } (p.behind c rest) rest
    else if b.isIndentation p.column && c == ' ' then
      scanBlockLines folded least false b (p.behind c rest) rest
    else if b.isIndentation p.column && c == '\t' then .error .tabInIndentation
    else
      let b := b.settle least p.column
      if p.column = b.indent then
        scanBlockLines folded least true (b.beginLine folded c) (p.behind c rest) rest
      else .ok (b, p)

/-- Reads a block from behind its indicator, below a parent with this indentation. -/
def scanBlock (folded : Bool) (parent : Int) (p : Place) : Except Fault (String × Place) := do
  let (header, p) ← scanHeader p
  let indent := if header.indent = 0 then 0 else (max parent 0).toNat + header.indent
  let least := max (parent + 1) 1
  let (b, p) ← scanBlockLines folded least.toNat false (.start indent) p p.rest
  return (b.finish header.chomping, p)

end RouteNotation.Yaml
