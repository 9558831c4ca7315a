import RouteNotation.Yaml.Fault
import RouteNotation.Yaml.Tag
import RouteNotation.Yaml.Token

/-!
Nodes: the tree of a document as it is written, with aliases not yet replaced and scalars not yet
resolved.
-/

namespace RouteNotation.Yaml

inductive Node
  /-- Another node, by the number of its anchor. -/
  | alias (id : Nat)
  | scalar (tag : Option (List UInt8)) (text : String) (plain : Bool)
  | sequence (tag : Option (List UInt8)) (items : List Node)
  | mapping (tag : Option (List UInt8)) (entries : List (Node × Node))
  /-- A node that aliases can stand for. -/
  | anchored (id : Nat) (node : Node)

namespace Node

/-- A node of which nothing is written. -/
def empty : Node := .scalar none "" true

mutual

/-- The number of events by which the node would be told: one for a scalar or an alias, and one for
each end of a collection. -/
def events : Node → Nat
  | .alias _ | .scalar _ _ _ => 1
  | .sequence _ items => 2 + eventsOfItems items
  | .mapping _ entries => 2 + eventsOfEntries entries
  | .anchored _ node => node.events

def eventsOfItems : List Node → Nat
  | [] => 0
  | node :: rest => node.events + eventsOfItems rest

def eventsOfEntries : List (Node × Node) → Nat
  | [] => 0
  | (k, v) :: rest => k.events + v.events + eventsOfEntries rest

end

mutual

/-- The nodes that aliases can stand for, by number, in document order. -/
def anchors : Node → List (Nat × Node)
  | .alias _ | .scalar _ _ _ => []
  | .sequence _ items => anchorsOfItems items
  | .mapping _ entries => anchorsOfEntries entries
  | .anchored id node => (id, node) :: node.anchors

def anchorsOfItems : List Node → List (Nat × Node)
  | [] => []
  | node :: rest => node.anchors ++ anchorsOfItems rest

def anchorsOfEntries : List (Node × Node) → List (Nat × Node)
  | [] => []
  | (k, v) :: rest => k.anchors ++ v.anchors ++ anchorsOfEntries rest

end

end Node

/-- The tokens that are left, with what was declared before them. -/
structure TokenStream where
  tokens : List Token
  /-- Tag handles and what they stand for. -/
  handles : List (String × List UInt8)
  /-- The names of anchors so far, each with the number of the node it names now. -/
  names : List (String × Nat)

namespace TokenStream

def next? (s : TokenStream) : Option Token := s.tokens.head?

def drop (s : TokenStream) : TokenStream := { s with tokens := s.tokens.drop 1 }

def nextIs (s : TokenStream) (ts : List Token) : Bool :=
  match s.tokens with
  | t :: _ => ts.contains t
  | [] => false

/-- Names a node. Its number is the count of names before it, so that a name that is given again may
take a number that another node has too; then the later node has it. -/
def name (s : TokenStream) (name : String) : Nat × TokenStream :=
  let id := s.names.length
  let names :=
    if s.names.any fun n => n.1 = name then
      s.names.map fun n => if n.1 = name then (name, id) else n
    else s.names ++ [(name, id)]
  (id, { s with names })

def find? (s : TokenStream) (name : String) : Option Nat := s.names.lookup name

/-- A whole tag. Without a handle the suffix is all of it. -/
def tag (s : TokenStream) (handle : String) (suffix : List UInt8) :
    Except Fault (List UInt8) :=
  if handle.isEmpty then .ok suffix
  else match s.handles.lookup handle with
    | some start => .ok (start ++ suffix)
    | none => .error .unknownTagHandle

end TokenStream

/-- What stands before the content of a node. -/
structure Properties where
  anchor : Option String
  tag : Option (List UInt8)

namespace Properties

def isEmpty (p : Properties) : Bool := p.anchor.isNone && p.tag.isNone

end Properties

/-- Reading takes tokens from the front of a stream. -/
abbrev Parsing := StateT TokenStream (Except Fault)

/-- A token that does not belong where it stands. -/
def unexpected {α : Type} : Parsing α := throw .unexpectedToken

def dropToken : Parsing Unit := modify TokenStream.drop

/-- Whether one of these tokens comes next. -/
def nextIs (ts : List Token) : Parsing Bool := do return (← get).nextIs ts

/-- An anchor and a tag in either order, each at most once. -/
def parseProperties : Parsing Properties := do
  let s ← get
  match s.tokens with
  | .anchor name :: .tag handle suffix :: _ | .tag handle suffix :: .anchor name :: _ =>
    let tag ← s.tag handle suffix
    set s.drop.drop
    return ⟨some name, tag⟩
  | .anchor name :: _ =>
    set s.drop
    return ⟨some name, none⟩
  | .tag handle suffix :: _ =>
    let tag ← s.tag handle suffix
    set s.drop
    return ⟨none, tag⟩
  | _ => return ⟨none, none⟩

/-- The number of the node to come, if it has an anchor. -/
def nameNode (anchor : Option String) : Parsing (Option Nat) :=
  match anchor with
  | some name => modifyGet fun s => let (id, s) := s.name name; (some id, s)
  | none => return none

/-- Puts the number of its anchor to a node. -/
def anchorNode (id : Option Nat) (node : Node) : Node :=
  match id with
  | some id => .anchored id node
  | none => node

/-- Where a node stands. -/
inductive NodePlace
  /-- In flow style. -/
  | flow
  /-- In a block sequence, or at the root. -/
  | block
  /-- In a block mapping, where a sequence need not be indented. -/
  | entry
  deriving DecidableEq, Repr

/-- Content that is not written, which only a node with properties can do without. -/
def parseMissing (properties : Properties) : Parsing Node :=
  if properties.isEmpty then unexpected else return .scalar properties.tag "" true

/-- The comma before all items but the first. -/
def parseComma (first : Bool) : Parsing Unit := do
  if !first then
    if ← nextIs [.flowEntry] then dropToken else unexpected

mutual

/-- A node. Every call below takes a token or is made by one that does, so that fuel of a few units
for each token is enough. -/
def parseNode (place : NodePlace) : Nat → Parsing Node
  | 0 => unexpected
  | fuel + 1 => do
    let s ← get
    match s.next? with
    | some (.alias name) =>
      match s.find? name with
      | some id =>
        dropToken
        return .alias id
      | none => throw .unknownAlias
    | _ =>
      let properties ← parseProperties
      let id ← nameNode properties.anchor
      let node ← parseContent place properties fuel
      return anchorNode id node

/-- The content of a node. -/
def parseContent (place : NodePlace) (properties : Properties) : Nat → Parsing Node
  | 0 => unexpected
  | fuel + 1 => do
    let tag := properties.tag
    match (← get).next?, place with
    | some (.scalar text plain), _ =>
      dropToken
      return .scalar tag text plain
    | some .flowSequenceStart, _ =>
      dropToken
      return .sequence tag (← parseFlowItems true fuel)
    | some .flowMappingStart, _ =>
      dropToken
      return .mapping tag (← parseFlowEntries true fuel)
    | some .blockEntry, .entry => return .sequence tag (← parseBlockItems true fuel)
    | some .blockSequenceStart, .block | some .blockSequenceStart, .entry =>
      dropToken
      return .sequence tag (← parseBlockItems false fuel)
    | some .blockMappingStart, .block | some .blockMappingStart, .entry =>
      dropToken
      return .mapping tag (← parseBlockEntries fuel)
    | _, _ => parseMissing properties

/-- A node, or nothing if one of these tokens comes next. -/
def parseUnless (ends : List Token) (place : NodePlace) : Nat → Parsing Node
  | 0 => unexpected
  | fuel + 1 => do if ← nextIs ends then return .empty else parseNode place fuel

/-- The value of an entry, if there is one. -/
def parseValue (ends : List Token) (place : NodePlace) : Nat → Parsing Node
  | 0 => unexpected
  | fuel + 1 => do
    if ← nextIs [.value] then
      dropToken
      parseUnless ends place fuel
    else return .empty

/-- The items of a block sequence. One that is not indented ends where no further item begins. -/
def parseBlockItems (indentless : Bool) : Nat → Parsing (List Node)
  | 0 => unexpected
  | fuel + 1 => do
    if ← nextIs [.blockEntry] then
      dropToken
      let node ← parseUnless
        (if indentless then [.blockEntry, .key, .value, .blockEnd] else [.blockEntry, .blockEnd])
        .block fuel
      return node :: (← parseBlockItems indentless fuel)
    else if indentless then return []
    else if ← nextIs [.blockEnd] then
      dropToken
      return []
    else unexpected

/-- The entries of a block mapping. -/
def parseBlockEntries : Nat → Parsing (List (Node × Node))
  | 0 => unexpected
  | fuel + 1 => do
    if ← nextIs [.key] then
      dropToken
      let k ← parseUnless [.key, .value, .blockEnd] .entry fuel
      let v ← parseValue [.key, .value, .blockEnd] .entry fuel
      return (k, v) :: (← parseBlockEntries fuel)
    else if ← nextIs [.blockEnd] then
      dropToken
      return []
    else unexpected

/-- The items of a flow sequence. -/
def parseFlowItems (first : Bool) : Nat → Parsing (List Node)
  | 0 => unexpected
  | fuel + 1 => do
    if ← nextIs [.flowSequenceEnd] then
      dropToken
      return []
    else
      parseComma first
      if ← nextIs [.flowSequenceEnd] then
        dropToken
        return []
      else if ← nextIs [.key] then
        dropToken
        let pair ← parsePair fuel
        return pair :: (← parseFlowItems false fuel)
      else
        let node ← parseNode .flow fuel
        return node :: (← parseFlowItems false fuel)

/-- A mapping of one entry that stands in a flow sequence without braces. A key that is not written
takes the next token with it. -/
def parsePair : Nat → Parsing Node
  | 0 => unexpected
  | fuel + 1 => do
    if ← nextIs [.value, .flowEntry, .flowSequenceEnd] then
      dropToken
      let v ← parseValue [.flowEntry, .flowSequenceEnd] .flow fuel
      return .mapping none [(.empty, v)]
    else
      let k ← parseNode .flow fuel
      let v ← parseValue [.flowEntry, .flowSequenceEnd] .flow fuel
      return .mapping none [(k, v)]

/-- The entries of a flow mapping. -/
def parseFlowEntries (first : Bool) : Nat → Parsing (List (Node × Node))
  | 0 => unexpected
  | fuel + 1 => do
    if ← nextIs [.flowMappingEnd] then
      dropToken
      return []
    else
      parseComma first
      if ← nextIs [.flowMappingEnd] then
        dropToken
        return []
      else
        let entry ← parseFlowEntry fuel
        return entry :: (← parseFlowEntries false fuel)

/-- One entry of a flow mapping. Without a mark for a key it is a key alone. -/
def parseFlowEntry : Nat → Parsing (Node × Node)
  | 0 => unexpected
  | fuel + 1 => do
    if ← nextIs [.key] then
      dropToken
      let k ← parseUnless [.value, .flowEntry, .flowMappingEnd] .flow fuel
      return (k, ← parseValue [.flowEntry, .flowMappingEnd] .flow fuel)
    else return (← parseNode .flow fuel, .empty)

end

/-- Units of fuel for each token. -/
def fuelPerToken : Nat := 6

def TokenStream.fuel (s : TokenStream) : Nat := fuelPerToken * s.tokens.length + fuelPerToken

/-- What the directives before a document declare. -/
structure Directives where
  version : Bool
  handles : List (String × List UInt8)

def isSupported (major minor : Nat) : Bool := major = 1 && (minor = 1 || minor = 2)

/-- Reads directives; each may come once, for one version or for one handle. -/
def parseDirectives (d : Directives) : List Token → Except Fault (Directives × List Token)
  | .versionDirective major minor :: rest =>
    if d.version || !isSupported major minor then .error .badDirective
    else parseDirectives { d with version := true } rest
  | .tagDirective handle start :: rest =>
    if d.handles.any fun h => h.1 = handle then .error .badDirective
    else parseDirectives { d with handles := d.handles ++ [(handle, start)] } rest
  | tokens => .ok (d, tokens)

/-- The handles that need no declaration. -/
def defaultHandles : List (String × List UInt8) := [("!", [Tag.mark]), ("!!", Tag.core "")]

/-- Whether a document with a start marker is empty. -/
def atDocumentEnd : List Token → Bool
  | [] | .versionDirective _ _ :: _ | .tagDirective _ _ :: _ => true
  | .documentStart :: _ | .documentEnd :: _ => true
  | _ => false

/-- A document. Directives need a start marker behind them, and without one it is not empty. -/
def parseDocument (tokens : List Token) : Except Fault (Node × TokenStream) := do
  let (d, rest) ← parseDirectives ⟨false, []⟩ tokens
  let s : TokenStream := ⟨rest, d.handles ++ defaultHandles, []⟩
  match rest with
  | .documentStart :: rest =>
    if atDocumentEnd rest then return (.empty, s.drop)
    else (parseNode .block s.fuel).run s.drop
  | _ =>
    if rest.length = tokens.length then (parseNode .block s.fuel).run s
    else throw .unexpectedToken

/-- The only document of a stream, if there is one. -/
def parseStream (tokens : List Token) : Except Fault (Option Node) :=
  match tokens with
  | [] => .ok none
  | _ => do
    let (node, s) ← parseDocument tokens
    if s.tokens.all (· = .documentEnd) then return some node else throw .secondDocument

end RouteNotation.Yaml
