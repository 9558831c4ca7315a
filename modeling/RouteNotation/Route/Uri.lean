import RouteNotation.OrderedMap
import RouteNotation.Text.Cut
import RouteNotation.Yaml.Value

/-!
Endpoint URIs. Markup writes an endpoint as one string `scheme:primary?k=v&...`; the other notation
may also write the scheme and a map of parameters, in which the primary segment stands under a key
that depends on the scheme. A URI is taken apart only if it can be put together again.
-/

namespace RouteNotation.Uri

open Yaml

def uriKey : String := "uri"
def parametersKey : String := "parameters"

/-- The parameter that names the segment between the scheme and the query. -/
def primaryKey (scheme : String) : String :=
  match scheme with
  | "minio" => "bucketName"
  | "timer" => "timerName"
  | "jdbc" => "dataSourceName"
  | _ => "name"

/-- Every key that can hold a primary segment, the most general one first. -/
def primaryKeys : List String := ["name", "bucketName", "timerName", "dataSourceName"]

def isSchemeStart (c : Char) : Bool := c.isAlpha

def isSchemeChar (c : Char) : Bool := c.isAlphanum || c == '+' || c == '.' || c == '-'

def isScheme (s : String) : Bool :=
  match s.toList with
  | [] => false
  | c :: rest => isSchemeStart c && rest.all isSchemeChar

/-- Adds the parameters of a query; none may lack a value, have no key or come again. -/
def addParameters? (parameters : Attributes) : List String → Option Attributes
  | [] => some parameters
  | pair :: rest =>
    match Text.cut? '=' pair with
    | none => none
    | some (key, value) =>
      if key.isEmpty || parameters.contains key then none
      else addParameters? (parameters.insert key value) rest

/-- The scheme and the parameters, with the primary segment before those of the query. -/
def unpack? (uri : String) : Option (String × Attributes) := do
  let (base, query) ← Text.cut? '?' uri
  let (scheme, primary) ← Text.cut? ':' base
  if !isScheme scheme || primary.isEmpty || query.isEmpty then none
  else
    let start := OrderedMap.empty.insert (primaryKey scheme) primary
    return (scheme, ← addParameters? start (Text.pieces '&' query))

/-- Adds one parameter at the end of a URI. -/
def addParameter (uri : String) (p : String × String) : String :=
  let mark := if Text.contains '?' uri then "&" else "?"
  s!"{uri}{mark}{p.1}={p.2}"

/-- The key that holds the primary segment among the parameters: the one of the scheme, or else the
first of all such keys that is there. -/
def primaryKeyIn? (scheme : String) (parameters : Attributes) : Option String :=
  (primaryKey scheme :: primaryKeys).find? parameters.contains

/-- A bare scheme with its primary segment, before the query if it has one. -/
def addPrimary (uri primary : String) : String :=
  match Text.cut? '?' uri with
  | some (scheme, query) => s!"{scheme}:{primary}?{query}"
  | none => s!"{uri}:{primary}"

/-- The URI with its primary segment, and the parameters that are left for the query. -/
def takePrimary (uri : String) (parameters : Attributes) : String × Attributes :=
  if Text.contains ':' uri then (uri, parameters)
  else
    let scheme := match Text.cut? '?' uri with
      | some (scheme, _) => scheme
      | none => uri
    match primaryKeyIn? scheme parameters with
    | some key => (addPrimary uri ((parameters.get? key).getD ""), parameters.erase key)
    | none => (uri, parameters)

/-- A URI and its parameters as one string. -/
def pack (uri : String) (parameters : Attributes) : String :=
  let (uri, parameters) := takePrimary uri parameters
  parameters.entries.foldl addParameter uri

/-- The entries as parameters, if keys and values are all scalars. -/
def scalarEntries? : List Entry → Option (List (String × String))
  | [] => some []
  | (k, v) :: rest => do
    let key ← k.scalarText?
    let value ← v.scalarText?
    return (key, value) :: (← scalarEntries? rest)

def parameters? (v : Value) : Option Attributes :=
  (v.mapping?.bind scalarEntries?).map .ofList

/-- The string for an endpoint that is written as a URI and parameters. -/
def packed? (es : List Entry) : Option String := do
  let uri ← (← lookup? uriKey es).string?
  let parameters ← parameters? (← lookup? parametersKey es)
  return pack uri parameters

mutual

/-- Joins each URI in the tree with the parameters beside it, down to where a tag begins. -/
def packTree : Value → Value
  | .sequence items => .sequence (packItems items)
  | .mapping entries => .mapping (packEntries (packed? entries) entries)
  | v => v

def packItems : List Value → List Value
  | [] => []
  | v :: rest => packTree v :: packItems rest

def packEntries (packed : Option String) : List (Value × Value) → List (Value × Value)
  | [] => []
  | (k, v) :: rest =>
    match packed with
    | none => (k, packTree v) :: packEntries packed rest
    | some uri =>
      if k.string? = some uriKey then (k, .string uri) :: packEntries packed rest
      else if k.string? = some parametersKey then packEntries packed rest
      else (k, packTree v) :: packEntries packed rest

end

def parametersEntry (parameters : Attributes) : Entry :=
  entry parametersKey (.mapping (parameters.entries.map fun p => textEntry p.1 p.2))

/-- The scheme, and the entry that goes behind it, of an endpoint that is written as one string and
can be taken apart. -/
def unpacked? (es : List Entry) : Option (String × List Entry) :=
  if hasKey parametersKey es then none
  else
    ((lookup? uriKey es).bind fun v => v.string?.bind unpack?).map fun p =>
      (p.1, [parametersEntry p.2])

mutual

/-- Takes apart each URI in the tree that can be put together again, down to where a tag begins. -/
def unpackTree : Value → Value
  | .sequence items => .sequence (unpackItems items)
  | .mapping entries => .mapping (unpackEntries (unpacked? entries) entries)
  | v => v

def unpackItems : List Value → List Value
  | [] => []
  | v :: rest => unpackTree v :: unpackItems rest

/-- The parameters are added once, behind the first URI. -/
def unpackEntries (parts : Option (String × List Entry)) :
    List (Value × Value) → List (Value × Value)
  | [] => []
  | (k, v) :: rest =>
    match parts with
    | none => (k, unpackTree v) :: unpackEntries parts rest
    | some (scheme, added) =>
      if k.string? = some uriKey then
        (k, .string scheme) :: (added ++ unpackEntries (some (scheme, [])) rest)
      else (k, unpackTree v) :: unpackEntries parts rest

end
end RouteNotation.Uri
