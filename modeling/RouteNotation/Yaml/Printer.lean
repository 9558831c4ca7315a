import RouteNotation.Yaml.Style
import RouteNotation.Yaml.Tag

/-!
Value trees as text in block style. Each level is two columns deeper, except that a sequence below a
key is not. Not every tree has a text: tags do not nest, and some mappings of one entry look like
tags.
-/

namespace RouteNotation.Yaml

def hexDigits (width n : Nat) : List Char :=
  let digits := (Nat.toDigits 16 n).map Char.toUpper
  List.replicate (width - digits.length) '0' ++ digits

/-- A character in double quotes. -/
def escapeChar (c : Char) : List Char :=
  let n := c.toNat
  if c = '"' ∨ c = '\\' then ['\\', c]
  else if isPrintable c && !isBreak c then [c]
  else match n with
    | 0x00 => ['\\', '0']
    | 0x07 => ['\\', 'a']
    | 0x08 => ['\\', 'b']
    | 0x09 => ['\\', 't']
    | 0x0A => ['\\', 'n']
    | 0x0B => ['\\', 'v']
    | 0x0C => ['\\', 'f']
    | 0x0D => ['\\', 'r']
    | 0x1B => ['\\', 'e']
    | 0x85 => ['\\', 'N']
    | 0xA0 => ['\\', '_']
    | 0x2028 => ['\\', 'L']
    | 0x2029 => ['\\', 'P']
    | _ =>
      if n ≤ 0xFF then '\\' :: 'x' :: hexDigits 2 n
      else if n ≤ 0xFFFF then '\\' :: 'u' :: hexDigits 4 n
      else '\\' :: 'U' :: hexDigits 8 n

def margin (n : Nat) : List Char := List.replicate n ' '

/-- The characters of a text, those of a new line behind a margin. -/
def indentLines (n : Nat) (fresh : Bool) : List Char → List Char
  | [] => []
  | c :: rest =>
    if isBreak c then c :: indentLines n true rest
    else (if fresh then margin n else []) ++ c :: indentLines n false rest

def singleQuoted (n : Nat) (cs : List Char) : List Char :=
  let body := indentLines n false (cs.flatMap fun c => if c = '\'' then ['\'', '\''] else [c])
  '\'' :: body ++ (if cs.getLast?.any isBreak then margin n else []) ++ ['\'']

/-- What a literal block keeps of the breaks at its end. -/
def chompingMark (cs : List Char) : List Char :=
  match cs.reverse with
  | [] => ['-']
  | last :: rest =>
    if !isBreak last then ['-']
    else if rest.head?.all isBreak then ['+']
    else []

/-- A literal block. Its indentation is told if the text begins with white space. -/
def literalBlock (n : Nat) (cs : List Char) : List Char :=
  let hint := if cs.head?.any fun c => isSpace c || isBreak c then ['2'] else []
  '|' :: hint ++ chompingMark cs ++ '\n' :: indentLines n true cs

/-- A string, whose further lines have a margin of `n`. -/
def stringChars (n : Nat) (s : String) : List Char :=
  let cs := s.toList
  match stringStyle s with
  | .plain => cs
  | .singleQuoted => singleQuoted n cs
  | .doubleQuoted => '"' :: cs.flatMap escapeChar ++ ['"']
  | .literal => literalBlock n cs

/-- A scalar or an empty collection. -/
def shortChars? (n : Nat) : Value → Option (List Char)
  | .null => some "null".toList
  | .string s => some (stringChars n s)
  | .sequence [] => some "[]".toList
  | .mapping [] => some "\x7b\x7d".toList
  | .sequence _ | .mapping _ | .tagged _ _ => none
  | v => v.scalarText?.map String.toList

/-- Whether a byte of a tag is written as it is. -/
def isTagByte (b : UInt8) : Bool :=
  b < 128 && (isWordChar (Char.ofNat b.toNat) ||
    ";/?:@&=+$,_.~*'()[]".toList.contains (Char.ofNat b.toNat))

def tagByteChars (b : UInt8) : List Char :=
  if isTagByte b then [Char.ofNat b.toNat] else '%' :: hexDigits 2 b.toNat

/-- A tag by its name. One that is no more than its mark is written in full. -/
def tagChars (name : String) : List Char :=
  match Tag.ofName name with
  | _ :: b :: rest => '!' :: (b :: rest).flatMap tagByteChars
  | tag => '!' :: '<' :: tag.flatMap tagByteChars ++ ['>']

/-- The longest key that takes no mark, in bytes. -/
def keyLimit : Nat := 128

/-- How many bytes a key of one line takes up, if it can be one. Only scalars count by their
text. -/
def keyLength? : Value → Option Nat
  | .string s => if s.toList.any isAnyBreak then none else some s.utf8ByteSize
  | .sequence [] | .mapping [] => some 0
  | .sequence _ | .mapping _ => none
  | .tagged tag v => (keyLength? v).map ((Tag.ofName tag).length + ·)
  | .null => some 4
  | v => v.scalarText?.map String.utf8ByteSize

def isShortKey (key : Value) : Bool := (keyLength? key).any (· ≤ keyLimit)

/-- A key of one line. -/
def keyChars : Value → List Char
  | .tagged tag v => tagChars tag ++ ' ' :: keyChars v
  | v => (shortChars? 0 v).getD []

/-- Where a node is written. -/
structure Site where
  /-- The margin of the block around it, if there is one. -/
  outer : Option Nat
  /-- What separates it from what stands before it on the line. -/
  lead : List Char
  /-- Whether a block may begin on this line. -/
  inline : Bool
  /-- Whether it stands in a mapping. -/
  inMapping : Bool

namespace Site

def root : Site := ⟨none, [], true, false⟩

/-- An item of a sequence with this margin. -/
def item (n : Nat) : Site := ⟨some n, [' '], true, false⟩

/-- A key or a value behind a mark of its own. -/
def marked (n : Nat) : Site := ⟨some n, [' '], true, true⟩

/-- A value behind a key of one line. -/
def value (n : Nat) : Site := ⟨some n, [' '], false, true⟩

def behindTag (s : Site) : Site := { s with lead := [' '], inline := false }

def nested (s : Site) : Nat :=
  match s.outer with
  | some n => n + 2
  | none => 0

/-- The margin of a sequence here. -/
def sequenceMargin (s : Site) : Nat :=
  match s.outer with
  | some n => if s.inMapping && !s.inline then n else n + 2
  | none => 0

/-- The margin of the further lines of a scalar here. -/
def scalarMargin (s : Site) : Nat :=
  match s.outer with
  | some n => n + 2
  | none => 2

/-- What comes before the first line of a block with margin `n`. -/
def opening (s : Site) (n : Nat) : List Char := if s.inline then s.lead else '\n' :: margin n

end Site

/-- The text with the end of its last line, which a block has already. -/
def endLine (cs : List Char) : List Char := if cs.getLast?.any isBreak then cs else cs ++ ['\n']

def shortNode (s : Site) (v : Value) : List Char :=
  s.lead ++ endLine ((shortChars? s.scalarMargin v).getD [])

mutual

/-- A node with the end of its last line. -/
def nodeChars (s : Site) : Value → List Char
  | .sequence (item :: items) =>
    let n := s.sequenceMargin
    s.opening n ++ itemChars n true (item :: items)
  | .mapping (e :: entries) =>
    let n := s.nested
    s.opening n ++ entryChars n true (e :: entries)
  | .tagged tag v => s.lead ++ tagChars tag ++ nodeChars s.behindTag v
  | v => shortNode s v

def itemChars (n : Nat) (first : Bool) : List Value → List Char
  | [] => []
  | v :: rest =>
    (if first then [] else margin n) ++ '-' :: nodeChars (.item n) v ++ itemChars n false rest

/-- The entries of a mapping. A key that is no short line takes a mark, and so does its value. -/
def entryChars (n : Nat) (first : Bool) : List (Value × Value) → List Char
  | [] => []
  | (k, v) :: rest =>
    (if first then [] else margin n) ++
      (if isShortKey k then keyChars k ++ ':' :: nodeChars (.value n) v
        else '?' :: nodeChars (.marked n) k ++ margin n ++ ':' :: nodeChars (.marked n) v) ++
      entryChars n false rest

end

/-- Whether a value is written as a mapping of one entry or as a tag, which cannot be told apart
when it comes first in such a mapping. -/
def isSingle : Value → Bool
  | .mapping [_] | .tagged _ _ => true
  | _ => false

mutual

/-- Whether a value has a text. `tagged` tells whether it stands under a tag. -/
def hasText (tagged : Bool) : Value → Bool
  | .sequence items => itemsHaveText items
  | .mapping entries =>
    (tagged || !(entries.length == 1 && entries.any fun e => isSingle e.1)) &&
      entriesHaveText entries
  | .tagged _ v => !tagged && hasText true v
  | _ => true

def itemsHaveText : List Value → Bool
  | [] => true
  | v :: rest => hasText false v && itemsHaveText rest

def entriesHaveText : List (Value × Value) → Bool
  | [] => true
  | (k, v) :: rest => hasText false k && hasText false v && entriesHaveText rest

end

/-- The text of a value, if it has one. -/
def print? (v : Value) : Option String :=
  if hasText false v then some (.ofList (nodeChars .root v)) else none

end RouteNotation.Yaml
