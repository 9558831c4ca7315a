/-!
Errors: input that cannot be read at all, or a tree that cannot be written. Anything less is a
diagnostic.
-/

namespace RouteNotation

/-- A place in a text: bytes before it, and line and column counted from one. Lines and columns are
counted in words of 32 bits, in which zero comes behind the largest number. -/
@[ext]
structure Position where
  offset : Nat
  line : UInt32
  column : UInt32
  deriving DecidableEq, Repr

namespace Position

/-- The place of an error that has none. -/
def nowhere : Position := ⟨0, 0, 0⟩

def start : Position := ⟨0, 1, 1⟩

/-- The place behind one byte; a line feed ends a line. -/
def next (p : Position) (b : UInt8) : Position :=
  if b = 10 then ⟨p.offset + 1, p.line + 1, 1⟩ else ⟨p.offset + 1, p.line, p.column + 1⟩

def describe (p : Position) : String := s!"{p.line}:{p.column}"

end Position

inductive ErrorKind
  /-- Markup that does not fit at this place. -/
  | unexpectedToken
  | mismatchedTag (expected found : String)
  /-- Markup that is opened and never closed. -/
  | unterminatedMarkup
  | invalidEntity (entity : String)
  | duplicateAttribute (name : String)
  | invalidUtf8
  | maxDepthExceeded (max : Nat)
  | yaml
  /-- YAML whose root is neither null nor a sequence of sections. -/
  | unexpectedRoot (found : String)
  /-- A tree that has no YAML text. -/
  | serialize
  deriving DecidableEq, Repr

def ErrorKind.describe : ErrorKind → String
  | .unexpectedToken => "unexpected token"
  | .mismatchedTag expected found => s!"expected closing tag </{expected}>, found </{found}>"
  | .unterminatedMarkup => "unterminated markup"
  | .invalidEntity entity => s!"invalid entity: &{entity};"
  | .duplicateAttribute name => s!"duplicate attribute: {name}"
  | .invalidUtf8 => "invalid utf-8"
  | .maxDepthExceeded max => s!"max depth exceeded: {max}"
  | .yaml => "invalid yaml"
  | .unexpectedRoot found => s!"expected a sequence of sections at the root, found {found}"
  | .serialize => "failed to serialize output"

structure Error where
  kind : ErrorKind
  position : Position
  message : String
  deriving DecidableEq, Repr

namespace Error

/-- An error whose message says no more than its kind. -/
def ofKind (kind : ErrorKind) (position : Position) : Error := ⟨kind, position, kind.describe⟩

def describe (e : Error) : String :=
  if e.position = .nowhere then s!"error: {e.message}"
  else s!"error at {e.position.describe}: {e.message}"

end Error
end RouteNotation
