import RouteNotation.Yaml.Value

/-!
Visual editors give every node an id such as `to-3f9a`. Such ids mean nothing and can be dropped.
-/

namespace RouteNotation.GeneratedId

open Yaml

def isHexDigit (c : Char) : Bool := c.isDigit || ('a' ≤ c && c ≤ 'f')

/-- Whether the id ends in a hyphen and four digits of base sixteen, in lower case. -/
def isGenerated (id : String) : Bool :=
  match id.toList.reverse with
  | a :: b :: c :: d :: '-' :: _ => [a, b, c, d].all isHexDigit
  | _ => false

/-- An entry for an id that an editor made. -/
def isGeneratedEntry (key value : Value) : Bool :=
  key.string? = some "id" && value.string?.any isGenerated

mutual

/-- The tree without generated ids, down to where a tag begins. -/
def strip : Value → Value
  | .sequence items => .sequence (stripItems items)
  | .mapping entries => .mapping (stripEntries entries)
  | v => v

def stripItems : List Value → List Value
  | [] => []
  | v :: rest => strip v :: stripItems rest

def stripEntries : List (Value × Value) → List (Value × Value)
  | [] => []
  | (k, v) :: rest =>
    if isGeneratedEntry k v then stripEntries rest else (k, strip v) :: stripEntries rest

end
end RouteNotation.GeneratedId
