import RouteNotation.Decimal.Shortest

/-!
Value trees. Mappings keep their entries in order, and any tree can be a key. A tag is looked
through where a text, a sequence or a mapping is asked for; it is not when a key is compared.
-/

namespace RouteNotation.Yaml

inductive Value
  | null
  | bool (b : Bool)
  | int (i : Int)
  | float (x : Binary64)
  | string (s : String)
  | sequence (items : List Value)
  | mapping (entries : List (Value × Value))
  /-- A value under a local tag, whose exclamation mark is left out. -/
  | tagged (tag : String) (value : Value)

abbrev Entry := Value × Value

namespace Value

instance : Inhabited Value := ⟨.null⟩

/-- What kind of value this is, for messages. -/
def describe : Value → String
  | .null => "null"
  | .bool _ => "a boolean"
  | .int _ | .float _ => "a number"
  | .string _ => "a string"
  | .sequence _ => "a sequence"
  | .mapping _ => "a mapping"
  | .tagged _ _ => "a tagged value"

/-- The value under all its tags. -/
def untagged : Value → Value
  | .tagged _ v => v.untagged
  | v => v

def string? (v : Value) : Option String :=
  match v.untagged with
  | .string s => some s
  | _ => none

def sequence? (v : Value) : Option (List Value) :=
  match v.untagged with
  | .sequence items => some items
  | _ => none

def mapping? (v : Value) : Option (List Entry) :=
  match v.untagged with
  | .mapping entries => some entries
  | _ => none

/-- Floats are positional while the point falls within sixteen digits, or up to four zeros after
it. -/
def floatLayout : DecimalLayout := ⟨-5, 16⟩

def floatText : Binary64 → String
  | .nan => ".nan"
  | .infinite negative => if negative then "-.inf" else ".inf"
  | .finite negative significand exponent =>
    let d : Decimal := if significand = 0 then ⟨0, 0⟩ else Binary64.shortest significand exponent
    (if negative then "-" else "") ++ floatLayout.render d

/-- The text of a string, a number or a truth value. -/
def scalarText? : Value → Option String
  | .string s => some s
  | .int i => some (toString i)
  | .float x => some (floatText x)
  | .bool b => some (if b then "true" else "false")
  | .tagged _ v => v.scalarText?
  | .null | .sequence _ | .mapping _ => none

def isScalar (v : Value) : Bool := v.scalarText?.isSome

mutual

/-- Whether two values are the same key. The order of entries does not count. -/
def same : Value → Value → Bool
  | .null, .null => true
  | .bool a, .bool b => a = b
  | .int i, .int j => i = j
  | .float x, .float y => x.same y
  | .string s, .string t => s = t
  | .sequence items, .sequence others => sameItems items others
  | .mapping entries, .mapping others =>
    entries.length = others.length && sameEntries entries others
  | .tagged a v, .tagged b w => a = b && v.same w
  | _, _ => false

def sameItems : List Value → List Value → Bool
  | [], [] => true
  | v :: vs, w :: ws => v.same w && sameItems vs ws
  | _, _ => false

/-- Whether each entry stands among the others. -/
def sameEntries : List (Value × Value) → List (Value × Value) → Bool
  | [], _ => true
  | (k, v) :: rest, others =>
    others.any (fun e => k.same e.1 && v.same e.2) && sameEntries rest others

end

end Value

/-- Puts a value under a key, in place of what stood there or else at the end. -/
def insertEntry (k v : Value) : List Entry → List Entry
  | [] => [(k, v)]
  | (k', v') :: rest =>
    if k'.same k then (k', v) :: rest else (k', v') :: insertEntry k v rest

/-- The entries put in one after another. -/
def entriesOf (es : List Entry) : List Entry :=
  es.foldl (fun entries e => insertEntry e.1 e.2 entries) []

/-- The value under a key that is exactly this string. -/
def lookup? (key : String) : List Entry → Option Value
  | [] => none
  | (k, v) :: rest =>
    match k with
    | .string s => if s = key then some v else lookup? key rest
    | _ => lookup? key rest

def hasKey (key : String) (es : List Entry) : Bool := (lookup? key es).isSome

/-- The scalar under a key, as text. -/
def scalarUnder? (key : String) (es : List Entry) : Option String :=
  (lookup? key es).bind Value.scalarText?

/-- The first entry, if its key is a scalar. -/
def firstEntry? : List Entry → Option (String × Value)
  | [] => none
  | (k, v) :: _ => k.scalarText?.map fun key => (key, v)

/-- An entry under a string. -/
def entry (key : String) (v : Value) : Entry := (.string key, v)

/-- An entry under a string whose value is a string. -/
def textEntry (key text : String) : Entry := (.string key, .string text)

/-- The mapping with this one entry. -/
def Value.ofEntry (key : String) (v : Value) : Value := .mapping [entry key v]

end RouteNotation.Yaml
