import RouteNotation.Yaml.Character
import RouteNotation.Yaml.Scalar

/-!
How a scalar is written: plain, in quotes or as a literal block. A string is written plain if that
reads back as the same string.
-/

namespace RouteNotation.Yaml

inductive Style
  | plain
  | singleQuoted
  | doubleQuoted
  | literal
  deriving DecidableEq, Repr

/-- Characters that are written as they are; no tab and no mark of the byte order. -/
def isPrintable (c : Char) : Bool :=
  let n := c.toNat
  n == 0x0A || (0x20 ≤ n && n ≤ 0x7E) || (0xA0 ≤ n && n ≤ 0xD7FF) ||
    (0xE000 ≤ n && n ≤ 0xFFFD && n != 0xFEFF) || 0x10000 ≤ n

/-- Line breaks of every kind, also those of control characters. -/
def isAnyBreak (c : Char) : Bool := isBreak c || c == '\r' || c == '\u0085'

/-- White space and line breaks, which end an indicator. -/
def isGapChar (c : Char) : Bool := isSpaceOrTab c || isAnyBreak c || c == '\x00'

/-- Whether the first character is an indicator, given what follows. -/
def startsAsIndicator (cs : List Char) : Bool :=
  match cs with
  | [] => false
  | c :: rest =>
    let blank := rest.head?.all isGapChar
    "#,[]\x7b\x7d&*!|>'\"%@`".toList.contains c || ("?:-".toList.contains c && blank)

/-- Whether a colon before white space, or a number sign behind it, stands in the text after the
character `before`. -/
def hasInnerIndicator (before : Char) : List Char → Bool
  | [] => false
  | c :: rest =>
    (c == ':' && rest.head?.all isGapChar) || (c == '#' && isGapChar before) ||
      hasInnerIndicator c rest

/-- Whether a block cannot hold the text as a plain scalar, since it would be read as something
else. -/
def hasIndicator (cs : List Char) : Bool :=
  ['-', '-', '-'].isPrefixOf cs || ['.', '.', '.'].isPrefixOf cs || startsAsIndicator cs ||
    match cs with
    | [] => false
    | c :: rest => hasInnerIndicator c rest

/-- Whether a character of the first class stands directly before one of the second. -/
def hasPair (f g : Char → Bool) : List Char → Bool
  | a :: b :: rest => (f a && g b) || hasPair f g (b :: rest)
  | _ => false

def isSpace (c : Char) : Bool := c == ' '

/-- Spaces before a break, and characters that are not written as they are, survive only as
escapes or within double quotes. -/
def needsEscapes (cs : List Char) : Bool :=
  hasPair isSpace isBreak cs || !cs.all isPrintable

/-- Whether the text can be a plain scalar in a block. -/
def plainAllowed (cs : List Char) : Bool :=
  !hasIndicator cs && !needsEscapes cs && !cs.any isBreak &&
    !(cs.head?.any isSpace) && !(cs.getLast?.any isSpace)

/-- Whether the text can stand in single quotes, which fold its breaks. -/
def singleAllowed (cs : List Char) : Bool := !needsEscapes cs && !hasPair isBreak isSpace cs

/-- Whether the text can be a literal block. -/
def literalAllowed (cs : List Char) : Bool := !needsEscapes cs && !(cs.getLast?.any isSpace)

def singleStyle (cs : List Char) : Style :=
  if singleAllowed cs then .singleQuoted else .doubleQuoted

def plainStyle (cs : List Char) : Style := if plainAllowed cs then .plain else singleStyle cs

/-- The style of a string. -/
def stringStyle (s : String) : Style :=
  let cs := s.toList
  if cs.contains '\n' then if literalAllowed cs then .literal else .doubleQuoted
  else if Scalar.isAmbiguous s then singleStyle cs
  else plainStyle cs

end RouteNotation.Yaml
