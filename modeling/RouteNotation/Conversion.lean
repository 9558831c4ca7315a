import RouteNotation.Blueprint.Printer
import RouteNotation.Blueprint.Reader
import RouteNotation.Dsl.Printer
import RouteNotation.Dsl.Reader
import RouteNotation.Route.GeneratedId
import RouteNotation.Xml.Parser
import RouteNotation.Xml.Printer
import RouteNotation.Yaml.Printer
import RouteNotation.Yaml.Reader

/-!
Texts in the two notations, and from one to the other by way of the document.
-/

namespace RouteNotation

structure Options where
  /-- How deep the elements of markup may be; zero is no limit. -/
  depthLimit : Nat
  layout : Xml.Layout
  settings : Blueprint.Settings
  /-- Whether ids that an editor made are dropped from value trees. -/
  stripGeneratedIds : Bool
  /-- Whether endpoint URIs are taken apart in value trees. -/
  unpackUris : Bool
  deriving DecidableEq, Repr

def Options.default : Options := ⟨Xml.defaultLimit, ⟨2, true⟩, .default, true, true⟩

/-- The value tree of a text. -/
def parseYaml (input : String) : Except Error Yaml.Value :=
  match Yaml.read input with
  | .ok v => .ok v
  | .error fault => .error fault.toError

def printYaml (v : Yaml.Value) : Except Error String :=
  match Yaml.print? v with
  | some output => .ok output
  | none => .error (.ofKind .serialize .nowhere)

def readXml (options : Options) (input : String) : Except Error (Noted Document) := do
  return Blueprint.readDocument (← Xml.parse options.depthLimit (Utf8.encode input))

/-- The tree that a document is read from: with endpoint URIs joined, and without generated ids if
the options say so. -/
def preparedTree (options : Options) (v : Yaml.Value) : Yaml.Value :=
  let packed := Uri.packTree v
  if options.stripGeneratedIds then GeneratedId.strip packed else packed

def readYaml (options : Options) (input : String) : Except Error (Noted Document) := do
  Dsl.readDocument (preparedTree options (← parseYaml input))

def writeXml (options : Options) (d : Document) : String :=
  Xml.render options.layout (Blueprint.documentElement options.settings d).unwrap

/-- The tree that a document is written as. -/
def writtenTree (options : Options) (d : Document) : Noted Yaml.Value := do
  let v ← Dsl.documentValue d
  return if options.unpackUris then Uri.unpackTree v else v

def writeYaml (options : Options) (d : Document) : Except Error (Noted String) :=
  let tree := writtenTree options d
  (printYaml tree.value).map (⟨·, tree.notes⟩)

def xmlToYaml (options : Options) (input : String) : Except Error (Noted String) := do
  let d ← readXml options input
  let output ← writeYaml options d.value
  return ⟨output.value, d.notes ++ output.notes⟩

def yamlToXml (options : Options) (input : String) : Except Error (Noted String) := do
  return writeXml options <$> (← readYaml options input)

inductive Format
  | xml
  | yaml
  deriving DecidableEq, Repr

namespace Format

/-- The format of a file with this extension, in capitals or not. -/
def ofExtension? (extension : String) : Option Format :=
  match extension.toLower with
  | "xml" => some .xml
  | "yaml" | "yml" => some .yaml
  | _ => none

/-- The last component of a path that is no dot. -/
def fileName? (path : String) : Option String :=
  match (Text.pieces '/' path).filter fun piece => !piece.isEmpty && piece != "." with
  | [] => none
  | pieces => pieces.getLast?.filter (· ≠ "..")

/-- What follows the last dot of a name, provided that something stands before it. -/
def extension? (name : String) : Option String :=
  let extension := Text.afterLast '.' name
  if extension.length + 1 < name.length then some extension else none

def ofPath? (path : String) : Option Format :=
  ((fileName? path).bind extension?).bind ofExtension?

def other : Format → Format
  | .xml => .yaml
  | .yaml => .xml

end Format

/-- From one format to another; text that is to stay in its format is not looked at. -/
def convert (options : Options) (source target : Format) (input : String) :
    Except Error (Noted String) :=
  match source, target with
  | .xml, .yaml => xmlToYaml options input
  | .yaml, .xml => yamlToXml options input
  | .xml, .xml | .yaml, .yaml => .ok ⟨input, []⟩

end RouteNotation
