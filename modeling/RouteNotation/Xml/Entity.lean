import RouteNotation.Text.Cut
import RouteNotation.Text.Numeral

/-!
Entity references: the five predefined ones, and characters by number in base ten or, behind an
`x`, in base sixteen.
-/

namespace RouteNotation.Xml

/-- The character that an entity stands for, given what is between the ampersand and the
semicolon. -/
def entityChar? : List Char → Option Char
  | '#' :: 'x' :: digits => (Numeral.readBelow? 16 UInt32.size digits).bind Numeral.char?
  | '#' :: digits => (Numeral.readBelow? 10 UInt32.size digits).bind Numeral.char?
  | name =>
    if name = "amp".toList then some '&'
    else if name = "lt".toList then some '<'
    else if name = "gt".toList then some '>'
    else if name = "quot".toList then some '"'
    else if name = "apos".toList then some '\''
    else none

/-- Character data with its entities replaced. `pending` is the entity that is being read, the last
character first. What has no meaning, or no end, is the error. -/
def replaceEntities (pending : Option (List Char)) : List Char → Except String (List Char)
  | [] => match pending with
    | none => .ok []
    | some entity => .error (.ofList entity.reverse)
  | c :: rest => match pending with
    | none =>
      if c = '&' then replaceEntities (some []) rest
      else do return c :: (← replaceEntities none rest)
    | some entity =>
      if c = ';' then
        match entityChar? entity.reverse with
        | some d => do return d :: (← replaceEntities none rest)
        | none => .error (.ofList entity.reverse)
      else replaceEntities (some (c :: entity)) rest

/-- The text that character data stand for, or the entity that stands for nothing. -/
def decodeEntities (s : String) : Except String String := do
  return .ofList (← replaceEntities none s.toList)

end RouteNotation.Xml
