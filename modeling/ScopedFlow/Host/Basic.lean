import ScopedFlow.Host.Files
import ScopedFlow.Host.Outcome

/-!
# The outside

Commands see files, and programs that can be started.
-/

namespace ScopedFlow

structure Host (m : Type → Type) where
  has : String → m Bool
  read : String → m (Except HostError String)
  write : String → String → m (Except HostError Unit)
  /-- Makes a directory and those above it. -/
  makeDirectory : String → m (Except HostError Unit)
  start : String → List String → m (Except HostError Outcome)

namespace Host

/-- A change of files that may fail; then nothing changes. -/
def change (f : Files → Except HostError Files) : StateM Files (Except HostError Unit) := fun files =>
  match f files with
  | .ok files => (.ok (), files)
  | .error e => (.error e, files)

/-- A host whose files are a value, with the programs that it can start. -/
def ofFiles (start : String → List String → Except HostError Outcome) : Host (StateM Files) where
  has path := return (← get).has path
  read path := return (← get).read path
  write path text := change fun files => files.write path text
  makeDirectory path := change fun files => files.makeDirectory path
  start program args := return start program args

end Host

end ScopedFlow
