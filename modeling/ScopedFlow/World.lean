import ScopedFlow.Text.Blank

/-!
# Node ids and worlds

A world is a lexical scope: the module, the place where imports are kept, or the body that a node
owns.
-/

namespace ScopedFlow

/-- The identity of a node, an arbitrary text. -/
structure NodeId where
  text : String
  deriving DecidableEq, Repr

inductive World where
  | root
  | imports
  | body (owner : NodeId)
  deriving DecidableEq, Repr

inductive NameError where
  | emptyWorld
  | unknownKind (text : String)
  deriving DecidableEq, Repr

def NameError.message : NameError → String
  | .emptyWorld => "Invalid id: empty world id"
  | .unknownKind text => "Invalid id: Unknown node kind: " ++ text

namespace World

def rootText : String := "root"

def importsText : String := "world_imports"

def text : World → String
  | .root => rootText
  | .imports => importsText
  | .body owner => owner.text

/-- Blanks around the text do not count; every text but the two reserved ones names an owner. -/
def parse (s : String) : Except NameError World :=
  let name := Text.trim s
  if name = "" then .error .emptyWorld
  else if name = rootText then .ok .root
  else if name = importsText then .ok .imports
  else .ok (.body ⟨name⟩)

def owner? : World → Option NodeId
  | .body owner => some owner
  | _ => none

def isRoot : World → Bool
  | .root => true
  | _ => false

end World

end ScopedFlow
