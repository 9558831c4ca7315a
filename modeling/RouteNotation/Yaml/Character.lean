/-!
Classes of characters in YAML text.
-/

namespace RouteNotation.Yaml

/-- Characters that text may hold: no control characters but tab and the line breaks. -/
def isAllowed (c : Char) : Bool :=
  let n := c.toNat
  n == 0x09 || n == 0x0A || n == 0x0D || (0x20 ≤ n && n ≤ 0x7E) || n == 0x85 ||
    (0xA0 ≤ n && n ≤ 0xD7FF) || (0xE000 ≤ n && n ≤ 0xFFFD) || 0x10000 ≤ n

def byteOrderMark : Char := '\uFEFF'

/-- Line breaks, once those of one or two control characters are line feeds. -/
def isBreak (c : Char) : Bool := c == '\n' || c == '\u2028' || c == '\u2029'

def isSpaceOrTab (c : Char) : Bool := c == ' ' || c == '\t'

/-- Whether the text ends here, or a blank or a line break is next. -/
def atBlank : List Char → Bool
  | [] => true
  | c :: _ => isSpaceOrTab c || isBreak c

/-- Whether the line ends here. -/
def atLineEnd : List Char → Bool
  | [] => true
  | c :: _ => isBreak c

/-- Characters of names: letters, digits, hyphen and underscore. -/
def isWordChar (c : Char) : Bool := c.isAlphanum || c == '-' || c == '_'

/-- Indicators of flow style, which end a plain scalar there. -/
def isFlowIndicator (c : Char) : Bool := [',', '[', ']', '{', '}'].contains c

/-- Characters that begin no plain scalar, unless it is a hyphen, a question mark or a colon and no
blank follows. -/
def isIndicator (c : Char) : Bool := "-?:,[]\x7b\x7d#&*!|>'\"%@`".toList.contains c

/-- A marker that begins or ends a document stands here. -/
def atMarker (c : Char) (cs : List Char) : Bool := [c, c, c].isPrefixOf cs && atBlank (cs.drop 3)

def atAnyMarker (cs : List Char) : Bool := atMarker '-' cs || atMarker '.' cs

/-- Writes line breaks of control characters as one line feed each. -/
def normalizeBreaks : List Char → List Char
  | '\r' :: '\n' :: rest => '\n' :: normalizeBreaks rest
  | c :: rest => (if c = '\r' || c = '\u0085' then '\n' else c) :: normalizeBreaks rest
  | [] => []

end RouteNotation.Yaml
