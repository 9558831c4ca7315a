import RouteNotation.Yaml.BlockScalar
import RouteNotation.Yaml.PlainScalar
import RouteNotation.Yaml.Property
import RouteNotation.Yaml.QuotedScalar

/-!
Text as tokens. Two things are not seen from the characters alone. Indentation opens and closes
blocks. And a token may turn out to be the first of a key when a colon follows on its line, in which
case the tokens that open the key are put in front of it.
-/

namespace RouteNotation.Yaml

/-- A place where a key may have begun. -/
structure KeyStart where
  /-- The number of tokens before it. -/
  tokens : Nat
  offset : Nat
  line : Nat
  column : Nat
  /-- Whether nothing but a key can stand there. -/
  required : Bool
  deriving Repr

structure Lexer where
  place : Place
  /-- The tokens so far, the last first. -/
  tokens : List Token
  count : Nat
  /-- The indentation of the innermost block; less than zero outside all blocks. -/
  indent : Int
  outerIndents : List Int
  /-- Where a key may have begun, in the innermost flow collection or outside all of them. -/
  key : Option KeyStart
  /-- The same for what lies around each open flow collection, the innermost first. -/
  outerKeys : List (Option KeyStart)
  /-- Whether a key may begin here. -/
  keyAllowed : Bool

namespace Lexer

def start (cs : List Char) : Lexer := ⟨.start cs, [], 0, -1, [], none, [], true⟩

def inFlow (l : Lexer) : Bool := !l.outerKeys.isEmpty

def push (l : Lexer) (t : Token) : Lexer := { l with tokens := t :: l.tokens, count := l.count + 1 }

/-- Puts a token in front of those from the given number on. -/
def insertAt (l : Lexer) (n : Nat) (t : Token) : Lexer :=
  let later := l.count - n
  { l with tokens := l.tokens.take later ++ t :: l.tokens.drop later, count := l.count + 1 }

/-- How far behind its start the colon of a key may be, in bytes. -/
def keyLimit : Nat := 1024

/-- Whether what began at `k` can no longer be a key: it is on an earlier line or too far back. -/
def isStale (l : Lexer) (k : KeyStart) : Bool :=
  k.line < l.place.line || k.offset + keyLimit < l.place.offset

/-- Gives up the innermost key. -/
def dropKey (l : Lexer) : Except Fault Lexer :=
  match l.key with
  | some k => if k.required then .error .keyWithoutColon else .ok { l with key := none }
  | none => .ok l

/-- Gives up the innermost key if no colon came for it in time. Those around it can wait until they
are innermost, since what is stale stays so. -/
def expireKey (l : Lexer) : Except Fault Lexer := if l.key.any l.isStale then l.dropKey else .ok l

/-- Notes that a key may begin here. -/
def noteKey (l : Lexer) : Except Fault Lexer :=
  if l.keyAllowed then do
    let l ← l.dropKey
    let p := l.place
    let required := !l.inFlow && l.indent = p.column
    return { l with key := some ⟨l.count, p.offset, p.line, p.column, required⟩ }
  else .ok l

/-- Opens a block at a deeper column; its first token goes in front of those from `n` on. -/
def openBlock (l : Lexer) (column n : Nat) (t : Token) : Lexer :=
  if !l.inFlow && l.indent < column then
    { l.insertAt n t with indent := column, outerIndents := l.indent :: l.outerIndents }
  else l

/-- Closes the blocks that are deeper than a column. -/
def closeBlocksIn (column : Int) (l : Lexer) : List Int → Lexer
  | [] => { l with outerIndents := [] }
  | outer :: rest =>
    if column < l.indent then closeBlocksIn column { l.push .blockEnd with indent := outer } rest
    else { l with outerIndents := outer :: rest }

def closeBlocks (l : Lexer) (column : Int) : Lexer :=
  if l.inFlow then l else closeBlocksIn column l l.outerIndents

/-- The token `t` is the next character. -/
def pushChar (l : Lexer) (t : Token) : Lexer := { l.push t with place := l.place.skip 1 }

/-- Goes on behind a token. -/
def pushTo (l : Lexer) (t : Token) (p : Place) : Lexer := { l.push t with place := p }

/-- Leaves all blocks, for what stands between documents. -/
def leaveBlocks (l : Lexer) : Except Fault Lexer := do
  let l ← (l.closeBlocks (-1)).dropKey
  return { l with keyAllowed := false }

def readDirective (l : Lexer) : Except Fault Lexer := do
  let l ← l.leaveBlocks
  let (token, p) ← scanDirective (l.place.skip 1)
  return l.pushTo token p

def readMarker (l : Lexer) (t : Token) : Except Fault Lexer := do
  let l ← l.leaveBlocks
  return l.pushTo t (l.place.skip 3)

def openFlow (l : Lexer) (t : Token) : Except Fault Lexer := do
  let l ← l.noteKey
  return { l.pushChar t with key := none, outerKeys := l.key :: l.outerKeys, keyAllowed := true }

def closeFlow (l : Lexer) (t : Token) : Except Fault Lexer := do
  let l ← l.dropKey
  let l := l.pushChar t
  match l.outerKeys with
  | key :: outerKeys => return { l with key, outerKeys, keyAllowed := false }
  | [] => return { l with keyAllowed := false }

def readFlowEntry (l : Lexer) : Except Fault Lexer := do
  let l ← l.dropKey
  return { l.pushChar .flowEntry with keyAllowed := true }

/-- Opens a block for an indicator that may stand only where a key may begin. -/
def openBlockHere (l : Lexer) (t : Token) : Except Fault Lexer :=
  if l.inFlow then .ok l
  else if l.keyAllowed then .ok (l.openBlock l.place.column l.count t)
  else .error .misplacedIndicator

def readBlockEntry (l : Lexer) : Except Fault Lexer := do
  let l ← (← l.openBlockHere .blockSequenceStart).dropKey
  return { l.pushChar .blockEntry with keyAllowed := true }

def readKey (l : Lexer) : Except Fault Lexer := do
  let l ← (← l.openBlockHere .blockMappingStart).dropKey
  return { l.pushChar .key with keyAllowed := !l.inFlow }

/-- A colon. If a key may have begun, it did. -/
def readValue (l : Lexer) : Except Fault Lexer :=
  match l.key with
  | some k =>
    let l := (l.insertAt k.tokens .key).openBlock k.column k.tokens .blockMappingStart
    .ok { l.pushChar .value with key := none, keyAllowed := false }
  | none => do
    let l ← l.openBlockHere .blockMappingStart
    return { l.pushChar .value with keyAllowed := !l.inFlow }

/-- A token that may begin a key, read by `scan`. -/
def readWord (l : Lexer) (scan : Place → Except Fault (Token × Place)) : Except Fault Lexer := do
  let l ← l.noteKey
  let (token, p) ← scan l.place
  return { l.pushTo token p with keyAllowed := false }

def readName (l : Lexer) (token : String → Token) : Except Fault Lexer :=
  l.readWord fun p => do
    let (name, p) ← scanAnchor (p.skip 1)
    return (token name, p)

def readQuoted (l : Lexer) (single : Bool) : Except Fault Lexer :=
  l.readWord fun p => do
    let p := p.skip 1
    let (text, p) ← scanQuoted single .text [] .none p p.rest
    return (.scalar text false, p)

def readBlock (l : Lexer) (folded : Bool) : Except Fault Lexer := do
  let l ← l.dropKey
  let (text, p) ← scanBlock folded l.indent (l.place.skip 1)
  return { l.pushTo (.scalar text false) p with keyAllowed := true }

/-- A plain scalar; a key may begin behind it if a line ends there. -/
def readPlain (l : Lexer) : Except Fault Lexer := do
  let l ← l.noteKey
  let s ← scanPlain l.inFlow (l.indent + 1).toNat [] .none l.place l.place.rest
  return { l.pushTo (.scalar s.text true) s.behind with keyAllowed := s.broken }

/-- Goes over white space and comments. In block style a tab may not stand where a key may begin,
and a key may begin on a new line. A byte order mark may begin a line. -/
def skipSpace (flow keyAllowed comment : Bool) (p : Place) : List Char → Place × Bool
  | [] => (p, keyAllowed)
  | c :: rest =>
    if isBreak c then skipSpace flow (keyAllowed || !flow) false (p.behindBreak c rest) rest
    else if comment || c == ' ' || ((flow || !keyAllowed) && c == '\t') ||
        (p.column == 0 && c == byteOrderMark) then
      skipSpace flow keyAllowed comment (p.behind c rest) rest
    else if c == '#' then skipSpace flow keyAllowed true (p.behind c rest) rest
    else (p, keyAllowed)

/-- Reads the token that begins with `c`, and those that its column opens or closes. -/
def readToken (l : Lexer) (c : Char) (rest : List Char) : Except Fault Lexer :=
  let flow := l.inFlow
  let cs := c :: rest
  if l.place.column = 0 ∧ c = '%' then l.readDirective
  else if l.place.column = 0 ∧ atMarker '-' cs then l.readMarker .documentStart
  else if l.place.column = 0 ∧ atMarker '.' cs then l.readMarker .documentEnd
  else if c = '[' then l.openFlow .flowSequenceStart
  else if c = '\x7b' then l.openFlow .flowMappingStart
  else if c = ']' then l.closeFlow .flowSequenceEnd
  else if c = '\x7d' then l.closeFlow .flowMappingEnd
  else if c = ',' then l.readFlowEntry
  else if c = '-' && atBlank rest then l.readBlockEntry
  else if c = '?' && (flow || atBlank rest) then l.readKey
  else if c = ':' && (flow || atBlank rest) then l.readValue
  else if c = '*' then l.readName .alias
  else if c = '&' then l.readName .anchor
  else if c = '!' then l.readWord (scanTag flow)
  else if c = '|' && !flow then l.readBlock false
  else if c = '>' && !flow then l.readBlock true
  else if c = '\'' then l.readQuoted true
  else if c = '"' then l.readQuoted false
  else if !isSpaceOrTab c && (!isIndicator c || c = '-' || (!flow && (c = '?' || c = ':'))) then
    l.readPlain
  else .error .unexpectedCharacter

/-- The end of the text closes all blocks. -/
def finish (l : Lexer) : Except Fault (List Token) := do
  let l ← (l.closeBlocks (-1)).dropKey
  return l.tokens.reverse

/-- Reads tokens to the end of the text. Each takes at least one character, so that the length of
the text is fuel enough. -/
def run : Nat → Lexer → Except Fault (List Token)
  | 0, _ => .error .unexpectedCharacter
  | fuel + 1, l => do
    let (place, keyAllowed) := skipSpace l.inFlow l.keyAllowed false l.place l.place.rest
    let l ← { l with place, keyAllowed }.expireKey
    let l := l.closeBlocks place.column
    match place.rest with
    | [] => l.finish
    | c :: rest => run fuel (← l.readToken c rest)

end Lexer

/-- The characters of a text, with the line breaks of control characters as line feeds. -/
def prepare (s : String) : Except Fault (List Char) :=
  if s.toList.all isAllowed then .ok (normalizeBreaks s.toList) else .error .forbiddenCharacter

/-- The tokens of a text. -/
def tokens (s : String) : Except Fault (List Token) := do
  let cs ← prepare s
  Lexer.run (cs.length + 1) (.start cs)

end RouteNotation.Yaml
