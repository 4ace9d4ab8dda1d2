import ScopedFlow.Inject
import ScopedFlow.Sandbox
import ScopedFlow.Settings.File

/-!
# Why a command fails

Every failure has a text that says so.
-/

namespace ScopedFlow.Command

inductive LoadError where
  | file (e : HostError)
  | malformed
  deriving DecidableEq, Repr

inductive Failure where
  | settings (e : Settings.FileError)
  | unreadable (path : String) (e : HostError)
  | unloadable (path : String) (e : LoadError)
  | unsaved (e : HostError)
  | source (path : String) (d : Diagnostic)
  | name (e : NameError)
  | injection (e : InjectError)
  | unknownWorld (w : World)
  | unknownNode (id : NodeId)
  /-- A body contains itself, so that its text has no end. -/
  | endless
  | notStarted (interpreter : String) (e : HostError)
  | programFailed
  deriving DecidableEq, Repr

namespace Failure

def fileReport (e : HostError) : String := "IO error: " ++ e.message

/-- What failed, and behind it the causes, each the reason of the one before. -/
def chain : Failure → String × List String
  | .settings e => (e.message, [])
  | .unreadable path e => ("failed to read " ++ path, [e.message])
  | .unloadable path (.file e) =>
    ("failed to load graph from " ++ path, [fileReport e, e.message])
  | .unloadable path .malformed => ("failed to load graph from " ++ path, ["JSON error: malformed"])
  | .unsaved e => (fileReport e, [e.message])
  | .source path d => (path ++ ": " ++ d.shown, [])
  | .name e => (e.message, [])
  | .injection (.unreadable d) => (d.report, [d.shown])
  | .injection e => (e.message, [])
  | .unknownWorld w => ("unknown world " ++ w.text, [])
  | .unknownNode id => ("unknown node " ++ id.text, [])
  | .endless => ("a body contains itself", [])
  | .notStarted interpreter e => (Sandbox.startFailure interpreter e, [])
  | .programFailed => ("program exited with an error", [])

/-- Several causes are numbered. -/
def causeLines : List String → List String
  | [] => []
  | [cause] => ["", "Caused by:", "    " ++ cause]
  | causes => "" :: "Caused by:" :: causes.zipIdx.map fun c => "    " ++ toString c.2 ++ ": " ++ c.1

def report (f : Failure) : String :=
  let (outer, causes) := f.chain
  String.join ((("Error: " ++ outer) :: causeLines causes).map (· ++ "\n"))

end Failure

end ScopedFlow.Command
