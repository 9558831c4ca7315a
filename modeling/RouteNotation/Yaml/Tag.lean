import RouteNotation.Text.Utf8

/-!
Tags of nodes. A tag is a row of bytes, since escapes make any byte, and a zero byte ends it. Local
tags begin with an exclamation mark; the value tree keeps them by name.
-/

namespace RouteNotation.Yaml.Tag

/-- The exclamation mark. -/
def mark : UInt8 := 33

/-- The bytes of a tag that count. -/
def untilZero (bytes : List UInt8) : List UInt8 := bytes.takeWhile (· ≠ 0)

def isLocal (tag : List UInt8) : Bool := tag.head? = some mark

/-- The name without an exclamation mark in front; the mark alone is a name. -/
def withoutMark (name : String) : String :=
  match name.toList with
  | '!' :: c :: rest => .ofList (c :: rest)
  | _ => name

/-- The name of a local tag whose bytes are text. A second mark in front does not count either. -/
def localName? (tag : List UInt8) : Option String :=
  match tag with
  | [] => none
  | b :: rest =>
    if b ≠ mark then none
    else if rest.isEmpty then some "!"
    else (Utf8.decode? rest).map withoutMark

/-- The tag that is written for a name. -/
def ofName (name : String) : List UInt8 :=
  let bytes := Utf8.encode name
  untilZero (if isLocal bytes then bytes else mark :: bytes)

/-- A tag of the core types. -/
def core (name : String) : List UInt8 := Utf8.encode s!"tag:yaml.org,2002:{name}"

end RouteNotation.Yaml.Tag
