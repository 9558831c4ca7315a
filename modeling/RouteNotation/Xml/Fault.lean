import RouteNotation.Error

/-!
What can be wrong with an XML document, and how that is reported.
-/

namespace RouteNotation.Xml

inductive Fault
  | missingRoot
  | contentAfterRoot
  | expectedName
  | expectedQuote
  /-- Another byte than `expected`, or the end of the input. -/
  | expectedByte (expected : UInt8) (found : Option UInt8)
  /-- The input ends within a tag. -/
  | unclosedTag
  | unclosedValue
  | unclosedElement (name : String)
  /-- A comment, a processing instruction or a CDATA section without an end. -/
  | unclosedSection
  | unclosedDeclaration
  | mismatchedTag (expected found : String)
  | duplicateAttribute (name : String)
  | unknownEntity (entity : String)
  | notUtf8
  | tooDeep (limit : Nat)
  deriving DecidableEq, Repr

namespace Fault

def kind : Fault → ErrorKind
  | missingRoot | contentAfterRoot | expectedName | expectedQuote | expectedByte _ _ =>
    .unexpectedToken
  | unclosedTag | unclosedValue | unclosedElement _ | unclosedSection | unclosedDeclaration =>
    .unterminatedMarkup
  | mismatchedTag expected found => .mismatchedTag expected found
  | duplicateAttribute name => .duplicateAttribute name
  | unknownEntity entity => .invalidEntity entity
  | notUtf8 => .invalidUtf8
  | tooDeep limit => .maxDepthExceeded limit

/-- A byte as the character with its number. -/
def showByte (b : UInt8) : String := s!"`{Char.ofNat b.toNat}`"

def message : Fault → String
  | missingRoot => "missing root element"
  | contentAfterRoot => "unexpected content after root element"
  | expectedName => "expected name"
  | expectedQuote => "expected quoted attribute value"
  | expectedByte expected (some found) =>
    s!"expected {showByte expected}, found {showByte found}"
  | expectedByte expected none => s!"expected {showByte expected}, found end of input"
  | unclosedTag => "unexpected end of input"
  | unclosedValue => "unterminated attribute value"
  | unclosedElement name => s!"element <{name}> is never closed"
  | unclosedSection => "unterminated markup"
  | unclosedDeclaration => "unterminated declaration"
  | fault => fault.kind.describe

/-- The fault at a place. -/
def errorAt (fault : Fault) (position : Position) : Error := ⟨fault.kind, position, fault.message⟩

/-- Bytes that are no text have no place. -/
def notText : Error := notUtf8.errorAt .nowhere

end Fault
end RouteNotation.Xml
