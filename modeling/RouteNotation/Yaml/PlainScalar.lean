import RouteNotation.Yaml.Fault
import RouteNotation.Yaml.Folding
import RouteNotation.Yaml.Token

/-!
Scalars without quotes.
-/

namespace RouteNotation.Yaml

/-- A scalar with the place behind it and the white space that follows. -/
structure PlainScalar where
  text : String
  /-- Whether a line ends in that white space. -/
  broken : Bool
  behind : Place

/-- Whether the scalar ends before `c`, given what follows. In flow style `c` may be an indicator;
behind a gap it may also be a comment, a document marker or outside the indentation. -/
def endsPlain (flow : Bool) (indent : Nat) (g : Gap) (column : Nat) (c : Char)
    (rest : List Char) : Bool :=
  (!g.isEmpty && ((!flow && column < indent) || c == '#' ||
    (column == 0 && atAnyMarker (c :: rest)))) ||
  (c == ':' && atBlank rest) || (flow && isFlowIndicator c)

/-- A colon in flow style that an indicator follows. -/
def isBadColon (flow : Bool) (c : Char) (rest : List Char) : Bool :=
  flow && c == ':' && (rest.head?.any fun d => d == '?' || isFlowIndicator d)

/-- Reads on from `p`, whose text is the list; `text` holds what was read, the last first. -/
def scanPlain (flow : Bool) (indent : Nat) (text : List Char) (g : Gap) (p : Place) :
    List Char → Except Fault PlainScalar
  | [] => .ok ⟨.ofList text.reverse, g.hasBreak, p⟩
  | c :: rest =>
    if isSpaceOrTab c then
      if g.hasBreak && p.column < indent && c == '\t' then .error .tabInIndentation
      else scanPlain flow indent text (g.addBlank c) (p.behind c rest) rest
    else if isBreak c then scanPlain flow indent text (g.addBreak c) (p.behindBreak c rest) rest
    else if endsPlain flow indent g p.column c rest then
      .ok ⟨.ofList text.reverse, g.hasBreak, p⟩
    else if isBadColon flow c rest then .error .colonInFlow
    else scanPlain flow indent (c :: g.close text) .none (p.behind c rest) rest

end RouteNotation.Yaml
