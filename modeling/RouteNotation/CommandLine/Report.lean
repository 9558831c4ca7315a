import RouteNotation.CommandLine.Arguments

/-!
What the command line tells: diagnostics as lines of text or as a JSON list, failures with their
cause, and the help.
-/

namespace RouteNotation.CommandLine

/-- A character in a JSON string. -/
def jsonChar (c : Char) : List Char :=
  match c with
  | '"' => ['\\', '"']
  | '\\' => ['\\', '\\']
  | '\x08' => ['\\', 'b']
  | '\t' => ['\\', 't']
  | '\n' => ['\\', 'n']
  | '\x0C' => ['\\', 'f']
  | '\r' => ['\\', 'r']
  | c =>
    if c.toNat < 0x20 then
      let digits := Nat.toDigits 16 c.toNat
      '\\' :: 'u' :: List.replicate (4 - digits.length) '0' ++ digits
    else [c]

def jsonString (s : String) : String := .ofList ('"' :: s.toList.flatMap jsonChar ++ ['"'])

/-- The name of a kind, for programs. -/
def kindName : DiagnosticKind → String
  | .unknownShape => "unknown_shape"
  | .missingRequiredField => "missing_required_field"

def jsonField (name value : String) : String := s!"    {jsonString name}: {jsonString value}"

def jsonObject (d : Diagnostic) : String :=
  let fields := [jsonField "kind" (kindName d.kind), jsonField "path" d.path,
    jsonField "message" d.message]
  "  \x7b\n" ++ String.intercalate ",\n" fields ++ "\n  \x7d"

/-- The diagnostics; nothing when there are none. -/
def report (style : ReportStyle) (ds : List Diagnostic) : String :=
  match style, ds with
  | _, [] => ""
  | .text, ds => String.join (ds.map fun d => s!"warning: {d.describe}\n")
  | .json, ds => "[\n" ++ String.intercalate ",\n" (ds.map jsonObject) ++ "\n]\n"

/-- What went wrong, without a cause. -/
def failure (message : String) : String := s!"Error: {message}\n"

/-- What went wrong and why; each line of the cause is indented. -/
def failureBy (message cause : String) : String :=
  let lines := (Text.pieces '\n' cause).map fun line => s!"    {line}\n"
  s!"Error: {message}\n\nCaused by:\n" ++ String.join lines

def versionText : String := "routeconv 0.1.0\n"

def usage : String := "Usage: routeconv [OPTIONS] [INPUT]\n"

/-- A line of the help on switches, with the names in a column. -/
def switchHelp (names text : String) : String :=
  let space := String.ofList (List.replicate (33 - names.length) ' ')
  s!"  {names}{space}{text}\n"

def formatChoice : String := "[possible values: xml, yaml]"

def styleChoice : String := "[default: text] [possible values: text, json]"

def switchesHelp : String := String.join [
  switchHelp "-f, --from <FROM>"
    s!"Input format (xml, yaml); inferred from the input extension {formatChoice}",
  switchHelp "-t, --to <TO>" ("Output format (xml, yaml); inferred from the output extension or " ++
    s!"taken as the opposite of the input format {formatChoice}"),
  switchHelp "-o, --output <OUTPUT>" "Output file (defaults to stdout)",
  switchHelp "    --keep-generated-ids" "Keep editor-generated ids such as `route-3f2a`",
  switchHelp "    --no-unpack-uris"
    "Write endpoint URIs as one string instead of `uri` + `parameters`",
  switchHelp "    --diagnostics <DIAGNOSTICS>" s!"How to print diagnostics on stderr {styleChoice}",
  switchHelp "-h, --help" "Print help",
  switchHelp "-V, --version" "Print version"]

def helpText : String :=
  "Convert integration routes between blueprint XML and the YAML DSL\n\n" ++ usage ++
    "\nArguments:\n  [INPUT]  Input file (defaults to stdin)\n\nOptions:\n" ++ switchesHelp

end RouteNotation.CommandLine
