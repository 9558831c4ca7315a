import RouteNotation.CommandLine.Report

/-!
A run of the command line, given what it can do to its surroundings. The format is settled before
the input is read, and diagnostics are told before the output is written.
-/

namespace RouteNotation.CommandLine

/-- What a run can do. What cannot be read or written gives the reason. -/
structure Surroundings (m : Type → Type) where
  readInput : m (Except String String)
  load (path : String) : m (Except String String)
  save (path text : String) : m (Except String Unit)
  /-- Writes to standard output. -/
  print (text : String) : m Unit
  /-- Writes to standard error. -/
  warn (text : String) : m Unit

/-- How a run ends. -/
inductive Outcome
  | success
  | failure
  | misuse
  deriving DecidableEq, Repr

def Outcome.exitCode : Outcome → UInt32
  | .success => 0
  | .failure => 1
  | .misuse => 2

namespace Command

/-- The format of the input: the one that is asked for, or that of the file. -/
def sourceFormat? (c : Command) : Option Format := c.source.or (c.input.bind Format.ofPath?)

/-- The format of the output: the one that is asked for, that of the file, or the other one. -/
def targetFormat (c : Command) (source : Format) : Format :=
  (c.target.or (c.output.bind Format.ofPath?)).getD source.other

def options (c : Command) : Options :=
  { Options.default with
    stripGeneratedIds := !c.keepGeneratedIds
    unpackUris := !c.keepUrisJoined }

end Command

variable {m : Type → Type} [Monad m]

/-- Ends a run that failed. -/
def fail (world : Surroundings m) (text : String) : m Outcome := do
  world.warn text
  return .failure

/-- The text to convert, or the failure to get one. Standard input may not be blank. -/
def fetch (world : Surroundings m) (c : Command) : m (Except String String) := do
  match c.input with
  | some path => match ← world.load path with
    | .ok text => return .ok text
    | .error reason => return .error (failureBy s!"failed to read input file {path}" reason)
  | none => match ← world.readInput with
    | .ok text =>
      if Text.isBlankText text then return .error (failure "no input provided on stdin")
      else return .ok text
    | .error reason => return .error (failureBy "failed to read stdin" reason)

def deliver (world : Surroundings m) (c : Command) (text : String) : m Outcome := do
  match c.output with
  | none =>
    world.print text
    return .success
  | some path => match ← world.save path text with
    | .ok () => return .success
    | .error reason => fail world (failureBy s!"failed to write output file {path}" reason)

def convertText (world : Surroundings m) (c : Command) (source : Format) (text : String) :
    m Outcome := do
  match convert c.options source (c.targetFormat source) text with
  | .error e => fail world (failureBy "conversion failed" e.describe)
  | .ok result =>
    world.warn (report (c.reportStyle.getD .text) result.notes)
    deliver world c result.value

def unknownFormat : String :=
  "could not infer input format; pass --from or provide an input file with extension"

def runCommand (world : Surroundings m) (c : Command) : m Outcome := do
  match c.sourceFormat? with
  | none => fail world (failure unknownFormat)
  | some source => match ← fetch world c with
    | .error text => fail world text
    | .ok text => convertText world c source text

/-- Does what the arguments ask for. -/
def run (world : Surroundings m) (words : List String) : m Outcome := do
  match Request.ofArguments words with
  | .run c => runCommand world c
  | .help =>
    world.print helpText
    return .success
  | .version =>
    world.print versionText
    return .success
  | .misuse =>
    world.warn usage
    return .misuse

end RouteNotation.CommandLine
