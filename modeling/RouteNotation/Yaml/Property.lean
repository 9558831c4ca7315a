import RouteNotation.Text.Numeral
import RouteNotation.Yaml.Fault
import RouteNotation.Yaml.Tag
import RouteNotation.Yaml.Token

/-!
What stands beside the content of nodes and documents: anchors, tags and directives.
-/

namespace RouteNotation.Yaml

/-- Characters that may follow the name of an anchor directly. -/
def endsAnchor (cs : List Char) : Bool :=
  atBlank cs || (cs.head?.any fun c => "?:,]\x7d%@`".toList.contains c)

/-- The name of an anchor or an alias, from behind its indicator. -/
def scanAnchor (p : Place) : Except Fault (String × Place) :=
  let name := p.rest.takeWhile isWordChar
  let p := p.skip name.length
  if name.isEmpty || !endsAnchor p.rest then .error .badAnchor else .ok (.ofList name, p)

/-- Characters of a tag; a verbatim tag and a directive may hold some flow indicators too. -/
def isUriChar (verbatim : Bool) (c : Char) : Bool :=
  isWordChar c || ";/?:@&=+$.%!~*'()".toList.contains c || (verbatim && ",[]".toList.contains c)

/-- How many bytes follow one that is escaped where no character is begun, as its look tells. -/
def trailingBytes? (lead : UInt8) : Option Nat :=
  if lead < 0x80 then some 0
  else if lead < 0xC0 then none
  else if lead < 0xE0 then some 1
  else if lead < 0xF0 then some 2
  else if lead < 0xF8 then some 3
  else none

/-- How many bytes of the character are to come behind an escaped byte, if it fits. -/
def pendingBehind? (pending : Nat) (byte : UInt8) : Option Nat :=
  if pending = 0 then trailingBytes? byte
  else if 0x80 ≤ byte && byte < 0xC0 then some (pending - 1)
  else none

/-- The bytes of a tag, where an escape is a percent sign and two digits of base sixteen. The bytes
of one character are all escaped; `pending` of them are to come. -/
def unescapeBytes? (pending : Nat) : List Char → Option (List UInt8)
  | [] => if pending = 0 then some [] else none
  | '%' :: a :: b :: rest => do
    let byte := (← Numeral.digits? 16 [a, b] 0).toUInt8
    return byte :: (← unescapeBytes? (← pendingBehind? pending byte) rest)
  | '%' :: _ => none
  | c :: rest =>
    if pending = 0 then (unescapeBytes? 0 rest).map (c.toNat.toUInt8 :: ·) else none

/-- A part of a tag or of a directive, with its escapes replaced. -/
def scanUri (verbatim : Bool) (p : Place) : Except Fault (List UInt8 × Place) :=
  let cs := p.rest.takeWhile (isUriChar verbatim)
  match unescapeBytes? 0 cs with
  | some bytes => .ok (Tag.untilZero bytes, p.skip cs.length)
  | none => .error .badTag

/-- A URI of at least one character. -/
def scanSomeUri (verbatim : Bool) (p : Place) : Except Fault (List UInt8 × Place) :=
  if p.rest.head?.any (isUriChar verbatim) then scanUri verbatim p else .error .badTag

/-- The first word of a tag, with its exclamation marks: a handle if a second one ends it. -/
def handleChars (cs : List Char) : List Char :=
  match cs with
  | '!' :: rest =>
    let word := rest.takeWhile isWordChar
    '!' :: word ++ (if (rest.drop word.length).head? = some '!' then ['!'] else [])
  | _ => []

/-- Whether the first word of a tag is a handle by itself. -/
def isHandle (cs : List Char) : Bool := 1 < cs.length && cs.getLast? = some '!'

/-- The handle and the suffix of a tag. A lone exclamation mark is a suffix without a handle. -/
def scanTagParts (p : Place) : Except Fault (String × List UInt8 × Place) := do
  if p.rest[1]? = some '<' then
    let (uri, p) ← scanSomeUri true (p.skip 2)
    if p.rest.head? = some '>' then return ("", uri, p.skip 1) else throw .badTag
  else
    let handle := handleChars p.rest
    if isHandle handle then
      let (suffix, p) ← scanSomeUri false (p.skip handle.length)
      return (.ofList handle, suffix, p)
    else
      let (suffix, p) ← scanUri false (p.skip 1)
      return if suffix.isEmpty then ("", [Tag.mark], p) else ("!", suffix, p)

/-- A tag; a blank follows it or, in flow style, a comma. -/
def scanTag (flow : Bool) (p : Place) : Except Fault (Token × Place) := do
  let (handle, suffix, p) ← scanTagParts p
  if atBlank p.rest || (flow && p.rest.head? = some ',') then return (.tag handle suffix, p)
  else throw .badTag

/-- A number of at most nine digits. -/
def scanVersionNumber (p : Place) : Except Fault (Nat × Place) :=
  let digits := p.rest.takeWhile Char.isDigit
  match Numeral.read? 10 digits with
  | some n => if digits.length ≤ 9 then .ok (n, p.skip digits.length) else .error .badDirective
  | none => .error .badDirective

/-- Two numbers with a point between them. -/
def scanVersion (p : Place) : Except Fault (Token × Place) := do
  let (major, p) ← scanVersionNumber p
  if p.rest.head? = some '.' then
    let (minor, p) ← scanVersionNumber (p.skip 1)
    return (.versionDirective major minor, p)
  else throw .badDirective

/-- A handle and the text that it stands for. -/
def scanTagDirective (p : Place) : Except Fault (Token × Place) := do
  let handle := handleChars p.rest
  if handle ≠ ['!'] ∧ !isHandle handle then throw .badDirective
  let p := p.skip handle.length
  if !(p.rest.head?.any isSpaceOrTab) then throw .badDirective
  let (uri, p) ← scanSomeUri true (p.skipWhile isSpaceOrTab)
  if atBlank p.rest then return (.tagDirective (.ofList handle) uri, p) else throw .badDirective

/-- A directive from behind its percent sign, with the rest of its line. -/
def scanDirective (p : Place) : Except Fault (Token × Place) := do
  let name := p.rest.takeWhile isWordChar
  let p := p.skip name.length
  if !atBlank p.rest then throw .badDirective
  let p := p.skipWhile isSpaceOrTab
  let (token, p) ←
    if name = "YAML".toList then scanVersion p
    else if name = "TAG".toList then scanTagDirective p
    else throw .badDirective
  let p := p.skipToLineEnd
  if atLineEnd p.rest then return (token, p.skipBreak) else throw .badDirective

end RouteNotation.Yaml
