import ScopedFlow.Node.Kind
import ScopedFlow.Node.Param
import ScopedFlow.Node.Override

/-!
# Nodes

A node has an identity, a label, the world it lives in, and what its kind asks for.
-/

namespace ScopedFlow

/-- How a variable came to be: bound by a header, written by an assignment, or standing in for a
node of an enclosing world. -/
inductive VariableMode where
  | param
  | write
  | closureRead (origin : NodeId) (originWorld : World)
  deriving DecidableEq, Repr

structure Variable where
  mode : VariableMode
  version : Nat
  optional : Bool
  deriving DecidableEq, Repr

namespace Variable

def param (version : Nat) (optional : Bool) : Variable := ⟨.param, version, optional⟩

def write (version : Nat) : Variable := ⟨.write, version, false⟩

def closureRead (origin : NodeId) (originWorld : World) : Variable :=
  ⟨.closureRead origin originWorld, 0, false⟩

def isWrite (v : Variable) : Bool :=
  match v.mode with
  | .write => true
  | _ => false

end Variable

structure CallSite where
  isMethod : Bool
  /-- World of the definition that the call enters. -/
  target : Option World
  params : List Param
  overrides : Overrides
  deriving DecidableEq, Repr

namespace CallSite

def function : CallSite := ⟨false, none, [], .empty⟩

def method : CallSite := ⟨true, none, [], .empty⟩

end CallSite

inductive Payload where
  | functionDef (params : List Param)
  | classDef (bases : List String)
  | variable (v : Variable)
  | call (site : CallSite)
  | literal
  | operator (unary : Bool)
  | returnStmt
  | importStmt (bindings : List String)
  | ifBlock
  | elifBlock
  | elseBlock
  | forBlock (target : String)
  | whileBlock
  | tryBlock
  | exceptBlock (exception binding : Option String)
  | listDisplay
  | dictDisplay
  | accessor
  | attribute
  deriving DecidableEq, Repr

namespace Payload

def kind : Payload → NodeKind
  | functionDef _ => .functionDef
  | classDef _ => .classDef
  | .variable _ => .variable
  | call _ => .call
  | literal => .literal
  | operator _ => .operator
  | returnStmt => .returnStmt
  | importStmt _ => .importStmt
  | ifBlock => .ifBlock
  | elifBlock => .elifBlock
  | elseBlock => .elseBlock
  | forBlock _ => .forBlock
  | whileBlock => .whileBlock
  | tryBlock => .tryBlock
  | exceptBlock _ _ => .exceptBlock
  | listDisplay => .listDisplay
  | dictDisplay => .dictDisplay
  | accessor => .accessor
  | .attribute => .attribute

def default : NodeKind → Payload
  | .functionDef => functionDef []
  | .classDef => classDef []
  | .variable => .variable (.write 1)
  | .call => call .function
  | .literal => literal
  | .operator => operator false
  | .returnStmt => returnStmt
  | .importStmt => importStmt []
  | .ifBlock => ifBlock
  | .elifBlock => elifBlock
  | .elseBlock => elseBlock
  | .forBlock => forBlock ""
  | .whileBlock => whileBlock
  | .tryBlock => tryBlock
  | .exceptBlock => exceptBlock none none
  | .listDisplay => listDisplay
  | .dictDisplay => dictDisplay
  | .accessor => accessor
  | .attribute => .attribute

theorem kind_default (k : NodeKind) : (default k).kind = k := by cases k <;> rfl

end Payload

structure Node where
  id : NodeId
  label : String
  world : World
  payload : Payload
  deriving DecidableEq, Repr

namespace Node

def kind (n : Node) : NodeKind := n.payload.kind

def asVariable? (n : Node) : Option Variable :=
  match n.payload with
  | .variable v => some v
  | _ => none

def site? (n : Node) : Option CallSite :=
  match n.payload with
  | .call site => some site
  | _ => none

def params (n : Node) : List Param :=
  match n.payload with
  | .functionDef params => params
  | .call site => site.params
  | _ => []

def ownWorld? (n : Node) : Option World :=
  if n.kind.ownsWorld then some (.body n.id) else none

def mapSite (f : CallSite → CallSite) (n : Node) : Node :=
  match n.payload with
  | .call site => { n with payload := .call (f site) }
  | _ => n

end Node

end ScopedFlow
