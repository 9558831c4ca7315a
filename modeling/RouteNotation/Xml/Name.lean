import RouteNotation.Text.Cut
import RouteNotation.Text.Utf8

/-!
Names of elements and attributes, judged byte by byte: every byte of a character outside ASCII may
stand anywhere in a name.
-/

namespace RouteNotation.Xml

def isNameStart (b : UInt8) : Bool :=
  (65 ≤ b && b ≤ 90) || (97 ≤ b && b ≤ 122) || b == 95 || b == 58 || 128 ≤ b

def isNameByte (b : UInt8) : Bool :=
  isNameStart b || (48 ≤ b && b ≤ 57) || b == 45 || b == 46

/-- Whether the text can stand as the name of an element or an attribute. -/
def isValidName (name : String) : Bool :=
  match Utf8.encode name with
  | [] => false
  | b :: rest => isNameStart b && rest.all isNameByte

/-- The name without its namespace, which ends at the last colon. -/
def localName (name : String) : String := Text.afterLast ':' name

end RouteNotation.Xml
