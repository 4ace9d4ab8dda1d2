import ScopedFlow.Host.Basic
import ScopedFlow.Settings.Basic

/-!
# The file of settings
-/

namespace ScopedFlow.Settings

def defaultPath : String := "worldgraph.toml"

inductive FileError where
  | unreadable (e : HostError)
  | malformed
  | alreadyThere (path : String)
  | unwritable (e : HostError)
  | tooLarge
  deriving DecidableEq, Repr

def FileError.message : FileError → String
  | .unreadable e => e.message
  | .malformed => "malformed settings"
  | .alreadyThere path => "config already exists at " ++ path ++ " (use --force to overwrite)"
  | .unwritable e => e.message
  | .tooLarge => "number out of range"

variable {m : Type → Type} [Monad m]

/-- Reads the settings of a file; none if there is no file. -/
def load (h : Host m) (path : String) : ExceptT FileError m (Option Settings) := do
  if ← h.has path then
    match ← h.read path with
    | .error e => throw (.unreadable e)
    | .ok text =>
      match parse text with
      | some s => return some s
      | none => throw .malformed
  else return none

/-- Writes settings to a file. An existing one is replaced only by force. -/
def save (h : Host m) (path : String) (s : Settings) (force : Bool) : ExceptT FileError m Unit := do
  if (← h.has path) && !force then throw (.alreadyThere path)
  let upper := Path.parent path
  if upper ≠ "" && !(← h.has upper) then
    if let .error e ← h.makeDirectory upper then throw (.unwritable e)
  if !s.isPrintable then throw .tooLarge
  if let .error e ← h.write path s.print then throw (.unwritable e)

end ScopedFlow.Settings
