import ScopedFlow.Node.Kind

/-!
# Why a node could not be written completely
-/

namespace ScopedFlow

inductive Reason where
  /-- An edge leads to no node. -/
  | missingNode
  | cyclic
  | noValue (kind : NodeKind)
  | missingOperand (index : Nat)
  | missingAccessedValue
  | missingAccessKey
  | missingOwner
  | missingReceiver
  | missingArgument (name : String)
  | missingTarget
  /-- The expression that a header needs, by the words before it. -/
  | missingExpression (words : String)
  /-- A clause that no block leads to. -/
  | strayClause
  deriving DecidableEq, Repr

def Reason.text : Reason → String
  | missingNode => "edge to a missing node"
  | cyclic => "cyclic expression"
  | noValue kind => kind.name ++ " has no value"
  | missingOperand index => "missing operand " ++ toString index
  | missingAccessedValue => "missing accessed value"
  | missingAccessKey => "missing access key"
  | missingOwner => "missing attribute owner"
  | missingReceiver => "missing method receiver"
  | missingArgument name => "missing argument `" ++ name ++ "`"
  | missingTarget => "missing loop target"
  | missingExpression words => "missing `" ++ words ++ "` expression"
  | strayClause => "clause without a preceding block"

structure Defect where
  node : NodeId
  label : String
  reason : Reason
  deriving DecidableEq, Repr

namespace Defect

def shown (d : Defect) : String := d.node.text ++ " (" ++ d.label ++ "): " ++ d.reason.text

/-- Adds a defect to a report. An edge to nowhere is reported every time, all else once. -/
def report (found : List Defect) (d : Defect) : List Defect :=
  if d.reason ≠ .missingNode ∧ d ∈ found then found else found ++ [d]

/-- The report of defects in the order in which they were met. -/
def reportAll (ds : List Defect) : List Defect := ds.foldl report []

end Defect

end ScopedFlow
