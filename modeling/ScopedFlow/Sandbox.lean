import ScopedFlow.Host.Basic
import ScopedFlow.Text.Blank
import ScopedFlow.Text.Utf8

/-!
# Running source

Source is run through an interpreter, and what it wrote is collected.
-/

namespace ScopedFlow

structure Execution where
  stdout : String
  /-- Why the source failed, if it did. -/
  error : Option String
  deriving DecidableEq, Repr

namespace Execution

def succeeded (e : Execution) : Bool := e.error.isNone

def exitNumber : Exit → String
  | .code n => toString n
  | .signal => "-1"

/-- A failed program is told by its complaints, or by its exit code if it made none. -/
def ofOutcome (o : Outcome) : Execution where
  stdout := Text.decodeUtf8 o.stdout
  error :=
    if o.exit = .code 0 then none
    else
      let complaints := Text.trim (Text.decodeUtf8 o.stderr)
      some (if complaints = "" then "exit code " ++ exitNumber o.exit else complaints)

end Execution

namespace Sandbox

def startFailure (interpreter : String) (e : HostError) : String :=
  "Sandbox error: failed to start `" ++ interpreter ++ "`: " ++ e.message

variable {m : Type → Type} [Monad m]

def execute (h : Host m) (interpreter source : String) : m (Except HostError Execution) := do
  return (← h.start interpreter ["-c", source]).map Execution.ofOutcome

def isAvailable (h : Host m) (interpreter : String) : m Bool := do
  match ← h.start interpreter ["--version"] with
  | .ok o => return o.exit = .code 0
  | .error _ => return false

end Sandbox

end ScopedFlow
