import RouteNotation.Error

/-!
What can be wrong with YAML text.
-/

namespace RouteNotation.Yaml

inductive Fault
  /-- A character that no text may hold. -/
  | forbiddenCharacter
  /-- A character that begins nothing. -/
  | unexpectedCharacter
  /-- A key in block style that no colon follows. -/
  | keyWithoutColon
  /-- An entry, a key or a value of a block where none may begin. -/
  | misplacedIndicator
  | badDirective
  | badTag
  | badAnchor
  | badBlockHeader
  /-- A tab where spaces must stand. -/
  | tabInIndentation
  | badEscape
  | unclosedQuote
  /-- A document marker within quotes. -/
  | markerInQuotes
  /-- A colon that a flow indicator follows. -/
  | colonInFlow
  /-- A part of a node where another is expected. -/
  | unexpectedToken
  | unknownTagHandle
  | unknownAlias
  | secondDocument
  | duplicateKey
  | tooDeep
  | tooManyAliases
  /-- A scalar that is not what its tag says. -/
  | scalarTagMismatch
  /-- An integer beyond 64 bits that fits in 128. -/
  | wideInteger
  deriving DecidableEq, Repr

/-- How a fault is reported; all of them are of one kind. -/
def Fault.toError (_ : Fault) : Error := .ofKind .yaml .nowhere

end RouteNotation.Yaml
