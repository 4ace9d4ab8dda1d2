import ScopedFlow.Synthesis.Statement

/-!
# Source text of a graph or of a part of it
-/

namespace ScopedFlow

inductive Part where
  /-- The imports, then the module. -/
  | whole
  | world (w : World)
  /-- One node: a statement with its bodies, or an expression. -/
  | node (id : NodeId)
  deriving DecidableEq, Repr

structure Synthesis where
  source : String
  incomplete : List Defect
  deriving DecidableEq, Repr

def Synthesis.isComplete (s : Synthesis) : Bool := s.incomplete.isEmpty

namespace Graph

def importCode (g : Graph) : Code :=
  ⟨(g.nodesIn .imports).map fun n => ⟨0, n.label⟩, []⟩

def partCode (g : Graph) (style : CodeStyle) : Part → Option Code
  | .whole => (g.worldCode style (g.bodyCode style []) .root).map g.importCode.append
  | .world w => g.worldCode style (g.bodyCode style []) w
  | .node id =>
    match g.lookup id with
    | some n => g.nodeCode style n
    | none => some .empty

/-- Lines as text. A text that is not empty ends with a line end. -/
def printLines (style : CodeStyle) (ls : List CodeLine) : String :=
  let text := "\n".intercalate (ls.map (·.print style))
  if text = "" then "" else text ++ "\n"

/-- Writes a part of a graph as source, with a report of what was missing. There is no text if a
body would contain itself. -/
def synthesize (g : Graph) (style : CodeStyle) (part : Part) : Option Synthesis :=
  (g.partCode style part).map fun code =>
    ⟨printLines style code.lines, Defect.reportAll code.defects⟩

end Graph

end ScopedFlow
