import RouteNotation.Yaml.Character

/-!
Tokens of YAML text, and the place in the text up to which it is divided into tokens.
-/

namespace RouteNotation.Yaml

inductive Token
  | versionDirective (major minor : Nat)
  | tagDirective (handle : String) (start : List UInt8)
  | documentStart
  | documentEnd
  | blockSequenceStart
  | blockMappingStart
  | blockEnd
  | flowSequenceStart
  | flowSequenceEnd
  | flowMappingStart
  | flowMappingEnd
  | blockEntry
  | flowEntry
  | key
  | value
  | alias (name : String)
  | anchor (name : String)
  | tag (handle : String) (suffix : List UInt8)
  | scalar (text : String) (plain : Bool)
  deriving DecidableEq, Repr

/-- The text from a place on, with the count of bytes before it, its line, and its column, which is
counted in characters. -/
structure Place where
  rest : List Char
  offset : Nat
  line : Nat
  column : Nat
  deriving Repr

namespace Place

def start (cs : List Char) : Place := ⟨cs, 0, 0, 0⟩

/-- The place behind a character that ends no line; `rest` is the text there. -/
def behind (p : Place) (c : Char) (rest : List Char) : Place :=
  ⟨rest, p.offset + c.utf8Size, p.line, p.column + 1⟩

/-- The place behind a line break. -/
def behindBreak (p : Place) (c : Char) (rest : List Char) : Place :=
  ⟨rest, p.offset + c.utf8Size, p.line + 1, 0⟩

/-- The place `n` characters further on the same line. -/
def skip : Nat → Place → Place
  | n + 1, ⟨c :: rest, offset, line, column⟩ =>
    skip n ⟨rest, offset + c.utf8Size, line, column + 1⟩
  | _, p => p

/-- The place behind all characters of a class that holds no line break. -/
def skipWhile (p : Place) (f : Char → Bool) : Place := p.skip (p.rest.takeWhile f).length

/-- The place behind blanks and a comment, if one follows. -/
def skipToLineEnd (p : Place) : Place :=
  let p := p.skipWhile isSpaceOrTab
  if p.rest.head? = some '#' then p.skipWhile fun c => !isBreak c else p

/-- The place behind a line break, if one stands here. -/
def skipBreak (p : Place) : Place :=
  match p.rest with
  | c :: rest => if isBreak c then p.behindBreak c rest else p
  | [] => p

end Place
end RouteNotation.Yaml
