/-!
White space within a scalar that spans lines. A single line break is a space when more text follows,
and of several breaks the first is left out.
-/

namespace RouteNotation.Yaml

/-- The white space since the last character of text. -/
structure Gap where
  /-- Blanks before any line break, the last first. -/
  blanks : List Char
  /-- The first line break; a break that is escaped is empty. -/
  first : Option (List Char)
  /-- The further line breaks, the last first. -/
  breaks : List Char

namespace Gap

def none : Gap := ⟨[], .none, []⟩

/-- Whether a line ends in the gap. -/
def hasBreak (g : Gap) : Bool := g.first.isSome

def isEmpty (g : Gap) : Bool := g.blanks.isEmpty && !g.hasBreak

/-- Blanks behind a line break are indentation and count for nothing. -/
def addBlank (g : Gap) (c : Char) : Gap :=
  if g.hasBreak then g else { g with blanks := c :: g.blanks }

/-- Blanks before a line break count for nothing. -/
def addBreak (g : Gap) (c : Char) : Gap :=
  if g.hasBreak then { g with breaks := c :: g.breaks } else ⟨[], some [c], []⟩

/-- The text with the gap put behind it; both are kept with the last character first. -/
def close (g : Gap) (text : List Char) : List Char :=
  match g.first with
  | .none => g.blanks ++ text
  | some ['\n'] => if g.breaks.isEmpty then ' ' :: text else g.breaks ++ text
  | some first => g.breaks ++ first ++ text

end Gap
end RouteNotation.Yaml
