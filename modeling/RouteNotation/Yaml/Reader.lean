import RouteNotation.Text.Blank
import RouteNotation.Yaml.Lexer
import RouteNotation.Yaml.Node
import RouteNotation.Yaml.Scalar

/-!
Text as a value tree: the nodes of its document with scalars resolved, and with aliases replaced by
what they stand for.
-/

namespace RouteNotation.Yaml

/-- What aliases stand for, and how many may be replaced. -/
structure Aliases where
  anchors : List (Nat × Node)
  limit : Nat

namespace Aliases

/-- The last node with this number. -/
def find? (a : Aliases) (id : Nat) : Option Node := a.anchors.reverse.lookup id

def of (root : Node) : Aliases := ⟨root.anchors, 100 * root.events⟩

end Aliases

/-- A value, with the number of aliases replaced so far. -/
abbrev Composing := StateT Nat (Except Fault)

/-- The node itself: behind its anchor, or what it is an alias of. -/
def target (a : Aliases) (node : Node) : Composing Node :=
  match node with
  | .anchored _ node => return node
  | .alias id => do
    let count := (← get) + 1
    set count
    if a.limit < count then throw .tooManyAliases
    match a.find? id with
    | some node => return node
    | none => throw .unknownAlias
  | node => return node

/-- A value under its tag. Only a local tag stays. -/
def underTag (tag : Option (List UInt8)) (v : Value) : Value :=
  match tag.bind Tag.localName? with
  | some name => .tagged name v
  | none => v

/-- The value of a scalar. Quotes and tags of the core types come before its look. -/
def scalarValue (tag : Option (List UInt8)) (text : String) (plain : Bool) :
    Except Fault Value :=
  let own : Except Fault Value := if plain then Scalar.resolve text else .ok (.string text)
  match tag with
  | none => own
  | some tag => if Tag.isLocal tag then own else Scalar.resolveTagged tag text

/-- The entries with one more in front, unless its key is there already. -/
def composeEntry (inner : Node → Composing Value) (entries : List Entry) (e : Node × Node) :
    Composing (List Entry) := do
  let k ← inner e.1
  if entries.any fun e => e.1.same k then throw .duplicateKey
  return (k, ← inner e.2) :: entries

/-- The value of a node. `inner` makes the values in a collection, if there may be one here. -/
def composeNode (a : Aliases) (inner : Option (Node → Composing Value)) (node : Node) :
    Composing Value := do
  match ← target a node, inner with
  | .scalar tag text plain, _ => return underTag tag (← scalarValue tag text plain)
  | .sequence tag items, some inner => return underTag tag (.sequence (← items.mapM inner))
  | .mapping tag entries, some inner =>
    let entries ← entries.foldlM (composeEntry inner) []
    return underTag tag (.mapping entries.reverse)
  | .sequence _ _, none | .mapping _ _, none => throw .tooDeep
  | .alias _, _ | .anchored _ _, _ => throw .unknownAlias

/-- The value of a node whose collections are at most so deep. -/
def compose (a : Aliases) : Nat → Node → Composing Value
  | 0 => composeNode a none
  | depth + 1 => composeNode a (some (compose a depth))

/-- How deep collections may be. -/
def depthLimit : Nat := 128

/-- The value that a text is; a text without any node is null. -/
def read (s : String) : Except Fault Value :=
  if Text.isBlankText s then .ok .null
  else do
    match ← parseStream (← tokens s) with
    | none => return .null
    | some root => (compose (.of root) depthLimit root).run' 0

end RouteNotation.Yaml
