import RouteNotation.Conversion

/-!
Arguments of the command line. They are read from the left, and the first one that decides what
happens ends the reading: a misuse, or a question for help or for the version.
-/

namespace RouteNotation.CommandLine

/-- How diagnostics are told. -/
inductive ReportStyle
  | text
  | json
  deriving DecidableEq, Repr

/-- What is to be converted, and how. -/
structure Command where
  /-- The file to read; standard input if there is none. -/
  input : Option String
  source : Option Format
  target : Option Format
  /-- The file to write; standard output if there is none. -/
  output : Option String
  keepGeneratedIds : Bool
  keepUrisJoined : Bool
  reportStyle : Option ReportStyle
  deriving DecidableEq, Repr

def Command.empty : Command := ⟨none, none, none, none, false, false, none⟩

inductive Request
  | run (command : Command)
  | help
  | version
  /-- Arguments that make no sense. -/
  | misuse
  deriving DecidableEq, Repr

inductive Switch
  | source
  | target
  | output
  | diagnostics
  | keepGeneratedIds
  | keepUrisJoined
  | help
  | version
  deriving DecidableEq, Repr

namespace Switch

def ofLong? : String → Option Switch
  | "from" => some .source
  | "to" => some .target
  | "output" => some .output
  | "diagnostics" => some .diagnostics
  | "keep-generated-ids" => some .keepGeneratedIds
  | "no-unpack-uris" => some .keepUrisJoined
  | "help" => some .help
  | "version" => some .version
  | _ => none

def ofShort? : Char → Option Switch
  | 'f' => some .source
  | 't' => some .target
  | 'o' => some .output
  | 'h' => some .help
  | 'V' => some .version
  | _ => none

def takesValue : Switch → Bool
  | .source | .target | .output | .diagnostics => true
  | .keepGeneratedIds | .keepUrisJoined | .help | .version => false

end Switch

def formatNamed? : String → Option Format
  | "xml" => some .xml
  | "yaml" | "yml" => some .yaml
  | _ => none

def styleNamed? : String → Option ReportStyle
  | "text" => some .text
  | "json" => some .json
  | _ => none

/-- Sets a field that has no value yet; neither a second value nor a missing one makes sense. -/
def setOnce {α : Type} (old new : Option α) : Except Request (Option α) :=
  match old, new with
  | none, some a => .ok (some a)
  | _, _ => .error .misuse

/-- The name of a file, which is not empty. -/
def fileNamed? (name : String) : Option String := if name.isEmpty then none else some name

namespace Command

def setInput (c : Command) (name : String) : Except Request Command := do
  return { c with input := ← setOnce c.input (fileNamed? name) }

def setValue (c : Command) (s : Switch) (value : String) : Except Request Command := do
  match s with
  | .source => return { c with source := ← setOnce c.source (formatNamed? value) }
  | .target => return { c with target := ← setOnce c.target (formatNamed? value) }
  | .output => return { c with output := ← setOnce c.output (fileNamed? value) }
  | .diagnostics => return { c with reportStyle := ← setOnce c.reportStyle (styleNamed? value) }
  | _ => throw .misuse

/-- Turns on a switch without a value. -/
def turnOn (c : Command) : Switch → Except Request Command
  | .keepGeneratedIds =>
    if c.keepGeneratedIds then .error .misuse else .ok { c with keepGeneratedIds := true }
  | .keepUrisJoined =>
    if c.keepUrisJoined then .error .misuse else .ok { c with keepUrisJoined := true }
  | .help => .error .help
  | .version => .error .version
  | _ => .error .misuse

end Command

/-- The arguments read so far. -/
structure Reading where
  command : Command
  /-- A switch whose value is to come. -/
  pending : Option Switch
  /-- Whether only names of files may follow. -/
  namesOnly : Bool

namespace Reading

def start : Reading := ⟨.empty, none, false⟩

def setValue (r : Reading) (s : Switch) (value : String) : Except Request Reading := do
  return { r with command := ← r.command.setValue s value, pending := none }

def setInput (r : Reading) (name : String) : Except Request Reading := do
  return { r with command := ← r.command.setInput name }

def turnOn (r : Reading) (s : Switch) : Except Request Reading := do
  return { r with command := ← r.command.turnOn s }

/-- A long switch, whose value may stand behind an equals sign. -/
def readLong (r : Reading) (word : String) : Except Request Reading :=
  let (name, value) := match Text.cut? '=' word with
    | some (name, value) => (name, some value)
    | none => (word, none)
  match Switch.ofLong? name, value with
  | none, _ => .error .misuse
  | some s, some value => r.setValue s value
  | some s, none => if s.takesValue then .ok { r with pending := some s } else r.turnOn s

/-- Short switches in a row; what stands behind one that takes a value is its value. -/
def readShort (r : Reading) : List Char → Except Request Reading
  | [] => .ok r
  | c :: rest => match Switch.ofShort? c with
    | none => .error .misuse
    | some s =>
      if s.takesValue then match rest with
        | [] => .ok { r with pending := some s }
        | '=' :: value => r.setValue s (.ofList value)
        | value => r.setValue s (.ofList value)
      else do readShort (← r.turnOn s) rest

/-- Takes in one more argument. A lone hyphen is the name of a file. -/
def add (r : Reading) (word : String) : Except Request Reading :=
  if r.namesOnly then r.setInput word
  else match word.toList, r.pending with
    | '-' :: _ :: _, some _ => .error .misuse
    | ['-', '-'], none => .ok { r with namesOnly := true }
    | '-' :: '-' :: long, none => r.readLong (.ofList long)
    | '-' :: c :: more, none => r.readShort (c :: more)
    | _, some s => r.setValue s word
    | _, none => r.setInput word

def finish (r : Reading) : Request := if r.pending.isSome then .misuse else .run r.command

end Reading

/-- What the arguments ask for. -/
def Request.ofArguments (words : List String) : Request :=
  match words.foldlM Reading.add .start with
  | .ok r => r.finish
  | .error request => request

end RouteNotation.CommandLine
