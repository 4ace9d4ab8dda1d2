import ScopedFlow.Command.Arguments
import ScopedFlow.Command.Failure
import ScopedFlow.Display.Grid
import ScopedFlow.Display.Style
import ScopedFlow.Graph.Codec
import ScopedFlow.Synthesis.Source

/-!
# The commands

Program text goes to the output and remarks go beside it, so that the output can be used by other
programs; as JSON, a command has one object for output and no remarks.
-/

namespace ScopedFlow.Command

structure Output where
  stdout : String
  stderr : String
  deriving DecidableEq, Repr

/-- What a command leaves: what it wrote, a failure that came after, and the ids not yet used. -/
structure Done where
  output : Output
  failure : Option Failure
  supply : Supply

structure Setting where
  settings : Settings
  json : Bool
  colored : Bool

namespace Remark

def line (text : String) : String := text ++ "\n"

def header (colored : Bool) (text : String) : String :=
  line ("🚀 " ++ Display.styled colored .header text)

def success (colored : Bool) (text : String) : String :=
  line ("✅ " ++ Display.styled colored .success text)

def error (colored : Bool) (text : String) : String :=
  line ("❌ " ++ Display.styled colored .error text)

def warning (colored : Bool) (text : String) : String :=
  line ("⚠️ " ++ Display.styled colored .warn text)

def info (colored : Bool) (label value : String) : String :=
  line (Display.styled colored .info "ℹ️" ++ " " ++ Display.styled colored .dim label ++ ": " ++
    value)

def row (colored : Bool) (label value : String) : String :=
  line ("  " ++ Display.styled colored .dim label ++ " " ++ value)

/-- A line for each node that could not be completed. -/
def incomplete (colored : Bool) (defects : List Defect) : String :=
  if defects.isEmpty then ""
  else
    warning colored (toString defects.length ++ " incomplete node(s)") ++
      String.join (defects.map fun d =>
        line ("  " ++ Display.styled colored .id d.node.text ++ " " ++ d.label ++ " " ++
          Display.styled colored .missing d.reason.text))

end Remark

def Defect.json (d : Defect) : Json :=
  .obj [("node", d.node.toJson), ("label", .str d.label), ("reason", .str d.reason.text)]

def defectsJson (ds : List Defect) : Json := .arr (ds.map Defect.json)

def envelope (command : String) (data : List (String × Json)) : Output :=
  let whole : Json :=
    .obj [("ok", .bool true), ("command", .str command), ("data", .obj data)]
  ⟨whole.sortFields.pretty ++ "\n", ""⟩

variable {m : Type → Type} [Monad m]

def loadGraph (h : Host m) (path : String) : ExceptT Failure m Graph := do
  match ← h.read path with
  | .error e => throw (.unloadable path (.file e))
  | .ok text =>
    match Graph.parse text with
    | some g => return g
    | none => throw (.unloadable path .malformed)

def saveGraph (h : Host m) (path : String) (g : Graph) : ExceptT Failure m Unit := do
  let upper := Path.parent path
  if upper ≠ "" then
    if let .error e ← h.makeDirectory upper then throw (.unsaved e)
  if let .error e ← h.write path g.print then throw (.unsaved e)

def readSource (h : Host m) (path : String) : ExceptT Failure m String := do
  match ← h.read path with
  | .error e => throw (.unreadable path e)
  | .ok text => return text

def Setting.graphPath (c : Setting) (given : Option String) : String :=
  given.getD c.settings.graphPath

def Setting.style (c : Setting) : CodeStyle := .withIndent c.settings.indentWidth

def worldOf (text : String) : Except Failure World :=
  match World.parse text with
  | .ok w => .ok w
  | .error e => .error (.name e)

def synthesized (c : Setting) (g : Graph) (part : Part) : Except Failure Synthesis :=
  match g.synthesize c.style part with
  | some s => .ok s
  | none => .error .endless

def parse (h : Host m) (c : Setting) (supply : Supply) (source : String)
    (output : Option String) : ExceptT Failure m Done := do
  let text ← readSource h source
  match Graph.ofSourceLinked supply text with
  | .error d => throw (.source source d)
  | .ok (g, supply) =>
    let path := c.graphPath output
    saveGraph h path g
    let stats := g.stats
    let out : Output :=
      if c.json then
        envelope "parse" [("graph", .str path), ("nodes", .nat stats.nodes),
          ("edges", .nat stats.edges), ("worlds", .nat stats.worlds)]
      else
        ⟨"", Remark.header c.colored ("📄 Parsed " ++ source) ++
          Remark.row c.colored "Nodes:" (toString stats.nodes) ++
          Remark.row c.colored "Edges:" (toString stats.edges) ++
          Remark.row c.colored "Worlds:" (toString stats.worlds) ++
          Remark.success c.colored ("Graph saved to " ++ path)⟩
    return ⟨out, none, supply⟩

def partOf (g : Graph) (world node : Option String) : Except Failure Part :=
  match world, node with
  | some text, _ => do
    let w ← worldOf text
    if g.hasWorld w then .ok (.world w) else .error (.unknownWorld w)
  | none, some text => if g.contains ⟨text⟩ then .ok (.node ⟨text⟩) else .error (.unknownNode ⟨text⟩)
  | none, none => .ok .whole

def synth (h : Host m) (c : Setting) (supply : Supply) (graph world node : Option String) :
    ExceptT Failure m Done := do
  let g ← loadGraph h (c.graphPath graph)
  let part ← ExceptT.mk (pure (partOf g world node))
  let s ← ExceptT.mk (pure (synthesized c g part))
  let out : Output :=
    if c.json then
      envelope "synth" [("source", .str s.source), ("incomplete", defectsJson s.incomplete)]
    else ⟨s.source, Remark.incomplete c.colored s.incomplete⟩
  return ⟨out, none, supply⟩

def inject (h : Host m) (c : Setting) (supply : Supply) (snippet : String)
    (graph : Option String) (world : String) : ExceptT Failure m Done := do
  let text ← readSource h snippet
  let path := c.graphPath graph
  let g ← loadGraph h path
  let w ← ExceptT.mk (pure (worldOf world))
  match g.inject supply text w with
  | .error e => throw (.injection e)
  | .ok (merged, added, supply) =>
    saveGraph h path merged
    let out : Output :=
      if c.json then
        envelope "inject" [("graph", .str path), ("world", w.toJson), ("added", .nat added)]
      else
        ⟨"", Remark.success c.colored ("✨ Injected " ++ toString added ++ " node(s) into " ++
          Display.styled c.colored .info w.text)⟩
    return ⟨out, none, supply⟩

def run (h : Host m) (c : Setting) (supply : Supply) (graph : Option String) :
    ExceptT Failure m Done := do
  let g ← loadGraph h (c.graphPath graph)
  let s ← ExceptT.mk (pure (synthesized c g .whole))
  let interpreter := c.settings.interpreterName
  match ← ExceptT.lift (Sandbox.execute h interpreter s.source) with
  | .error e => throw (.notStarted interpreter e)
  | .ok e =>
    if c.json then
      return ⟨envelope "run" [("source", .str s.source), ("incomplete", defectsJson s.incomplete),
        ("stdout", .str e.stdout), ("error", Json.ofOption .str e.error)], none, supply⟩
    else
      let remarks := Remark.incomplete c.colored s.incomplete
      match e.error with
      | none => return ⟨⟨e.stdout, remarks⟩, none, supply⟩
      | some error =>
        return ⟨⟨e.stdout, remarks ++ Remark.error c.colored "▶️ Program failed" ++
          Remark.line error⟩, some .programFailed, supply⟩

def stats (h : Host m) (c : Setting) (supply : Supply) (graph : Option String) :
    ExceptT Failure m Done := do
  let path := c.graphPath graph
  let s := (← loadGraph h path).stats
  let out : Output :=
    if c.json then
      match s.toJson with
      | .obj fields => envelope "stats" fields
      | _ => envelope "stats" []
    else
      ⟨Display.statsGrid s ++ "\n",
        Remark.header c.colored ("📊 Worldgraph Statistics (" ++ path ++ ")")⟩
  return ⟨out, none, supply⟩

def init (h : Host m) (json colored : Bool) (supply : Supply) (path : String) (force : Bool) :
    ExceptT Failure m Done := do
  match ← (Settings.save h path .defaults force).run with
  | .error e => throw (.settings e)
  | .ok () =>
    let out : Output :=
      if json then envelope "init" [("config", .str path)]
      else
        ⟨"", Remark.success colored ("⚙️ Wrote " ++ path) ++
          Remark.info colored "graph" Settings.defaultGraph ++
          Remark.info colored "interpreter" Settings.defaultInterpreter⟩
    return ⟨out, none, supply⟩

/-- Runs an invocation. Settings are read first, except where they are about to be written. -/
def perform (h : Host m) (colored : Bool) (supply : Supply) (i : Invocation) :
    ExceptT Failure m Done := do
  let path := i.config.getD Settings.defaultPath
  match i.request with
  | .init force => init h i.json colored supply path force
  | request =>
    match ← (Settings.load h path).run with
    | .error e => throw (.settings e)
    | .ok found =>
      let c : Setting := ⟨found.getD .empty, i.json, colored⟩
      match request with
      | .parse source output => parse h c supply source output
      | .synth graph world node => synth h c supply graph world node
      | .inject snippet graph world => inject h c supply snippet graph world
      | .run graph => run h c supply graph
      | .stats graph => stats h c supply graph
      | .init force => init h i.json colored supply path force

def versionText : String := "worldgraph 0.0.1\n"

def usageText : String :=
  "Scoped dataflow graphs for Python source\n\nUsage: worldgraph [OPTIONS] <COMMAND>\n\n" ++
  "Commands:\n" ++
  "  parse   Parse a Python file into a graph\n" ++
  "  synth   Print source synthesized from a graph\n" ++
  "  inject  Parse a snippet into an existing world of a graph\n" ++
  "  run     Synthesize a graph and execute it\n" ++
  "  stats   Show statistics about a graph\n" ++
  "  init    Write a default config file\n"

structure Ended where
  code : Nat
  output : Output
  failure : Option Failure
  supply : Supply

/-- Runs the program on its arguments: wrong arguments end it with code 2, a failure with 1. -/
def program (h : Host m) (colored : Bool) (supply : Supply) (args : List String) : m Ended := do
  match Invocation.ofArguments args with
  | .error .wrong => return ⟨2, ⟨"", usageText⟩, none, supply⟩
  | .error .help => return ⟨0, ⟨usageText, ""⟩, none, supply⟩
  | .error .version => return ⟨0, ⟨versionText, ""⟩, none, supply⟩
  | .ok i =>
    match ← (perform h colored supply i).run with
    | .error f => return ⟨1, ⟨"", f.report⟩, some f, supply⟩
    | .ok d =>
      match d.failure with
      | none => return ⟨0, d.output, none, d.supply⟩
      | some f => return ⟨1, ⟨d.output.stdout, d.output.stderr ++ f.report⟩, some f, d.supply⟩

end ScopedFlow.Command
