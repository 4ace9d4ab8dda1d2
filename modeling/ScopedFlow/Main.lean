import ScopedFlow.Command.Run

/-!
# The command line
-/

namespace ScopedFlow.CommandLine

def hostError : IO.Error → HostError
  | .noFileOrDirectory .. | .noSuchThing .. => .notFound
  | .alreadyExists .. => .alreadyThere
  | .inappropriateType .. => .isDirectory
  | e => .other (toString e)

def attempt {α : Type} (act : IO α) : IO (Except HostError α) := do
  try return .ok (← act)
  catch e => return .error (hostError e)

/-- The files of the machine, and a way to start its programs. -/
def host (start : String → List String → IO (Except HostError Outcome)) : Host IO where
  has path := do
    match ← attempt (IO.FS.readFile path) with
    | .ok _ => return true
    | .error e => return e ≠ .notFound
  read path := attempt (IO.FS.readFile path)
  write path text := attempt (IO.FS.writeFile path text)
  makeDirectory path := attempt (IO.FS.createDirAll path)
  start := start

def run (start : String → List String → IO (Except HostError Outcome)) (args : List String) :
    IO UInt32 := do
  let unwanted := ((← IO.getEnv "NO_COLOR").getD "") ≠ ""
  let colored := Display.isColored unwanted (← (← IO.getStderr).isTty)
  let first ← IO.rand 0 (Nat.pow 2 47)
  let ended ← Command.program (host start) colored ⟨first⟩ args
  (← IO.getStdout).putStr ended.output.stdout
  (← IO.getStderr).putStr ended.output.stderr
  return ended.code.toUInt32

end ScopedFlow.CommandLine
