import RouteNotation.CommandLine.Run

/-!
The program on the files and streams of the system.
-/

namespace RouteNotation.CommandLine

/-- What an action gives, or the reason why it failed. -/
def attempt {α : Type} (action : IO α) : IO (Except String α) := do
  try
    return .ok (← action)
  catch e => return .error e.toString

def system : Surroundings IO where
  readInput := attempt do
    let stream ← IO.getStdin
    stream.readToEnd
  load path := attempt (IO.FS.readFile path)
  save path text := attempt (IO.FS.writeFile path text)
  print text := do
    let stream ← IO.getStdout
    stream.putStr text
    stream.flush
  warn text := IO.eprint text

end RouteNotation.CommandLine

def main (words : List String) : IO UInt32 := do
  let outcome ← RouteNotation.CommandLine.run RouteNotation.CommandLine.system words
  return outcome.exitCode
