import ScopedFlow.Graph.Basic
import ScopedFlow.Scope.Symbols
import ScopedFlow.Source.Tree
import ScopedFlow.Supply

/-!
# Graphs of syntax trees

The builder walks a tree in the order of the text. Beside the graph it keeps the names in scope, the
stand-ins that each world has for nodes of other worlds, and the supply of ids. A finished
expression is wired into the slot it was read for.
-/

namespace ScopedFlow

/-- The edge that a finished expression is wired into. -/
structure Slot where
  target : NodeId
  kind : EdgeKind
  deriving DecidableEq, Repr

structure Builder where
  graph : Graph
  symbols : Symbols
  proxies : Proxies
  supply : Supply
  deriving Repr

namespace Builder

def start (supply : Supply) : Builder := ⟨.empty, .empty, .empty, supply⟩

/-- The id that the next node gets if it is of the given kind. -/
def fresh (b : Builder) (kind : NodeKind) : NodeId := (b.supply.mint kind).1

def add (b : Builder) (payload : Payload) (label : String) (w : World) : Builder :=
  { b with
    graph := b.graph.addNode ⟨b.fresh payload.kind, label, w, payload⟩
    supply := (b.supply.mint payload.kind).2 }

def wire (b : Builder) (source target : NodeId) (kind : EdgeKind) : Builder :=
  { b with graph := b.graph.addEdge ⟨source, target, kind⟩ }

def connect (b : Builder) (source : NodeId) : Option Slot → Builder
  | some slot => b.wire source slot.target slot.kind
  | none => b

def place (b : Builder) (payload : Payload) (label : String) (w : World) (slot : Option Slot) :
    Builder := (b.add payload label w).connect (b.fresh payload.kind) slot

def define (b : Builder) (name : String) (node : NodeId) (w : World) : Builder :=
  { b with symbols := b.symbols.write name node w }

def enter (b : Builder) : Builder := { b with symbols := b.symbols.enter }

def leave (b : Builder) : Builder := { b with symbols := b.symbols.leave }

def bindParam (b : Builder) (name : String) (optional : Bool) (w : World) : Builder :=
  (b.add (.variable (.param (b.symbols.nextVersion name) optional)) name w).define name
    (b.fresh .variable) w

/-- Reads a name: the node itself if it lives in the world of the reader, and otherwise the one
node that stands in for it there. A name without a binding is external and leaves nothing. -/
def read (b : Builder) (name : String) (w : World) (slot : Slot) : Builder :=
  match b.symbols.read name with
  | none => b
  | some binding =>
    if binding.world = w then b.connect binding.node slot
    else
      match b.proxies.get? (w, binding.node) with
      | some proxy => b.connect proxy slot
      | none =>
        let proxy := b.fresh .variable
        let b := b.add (.variable (.closureRead binding.node binding.world)) name w
        let b := b.wire binding.node proxy .closureOf
        let b := { b with proxies := b.proxies.insert (w, binding.node) proxy }
        b.connect proxy slot

mutual
/-- Builds an expression and wires it into a slot. Only a call can stand without one. -/
def expr (w : World) (slot : Option Slot) : Expr → Builder → Builder
  | .name id, b =>
    match slot with
    | some slot => b.read id w slot
    | none => b
  | .literal text, b => if slot.isSome then b.place .literal text w slot else b
  | .unary op operand, b =>
    let id := b.fresh .operator
    expr w (some ⟨id, .operand 0⟩) operand (b.place (.operator true) op w slot)
  | .binary op left right, b =>
    let id := b.fresh .operator
    let b := expr w (some ⟨id, .operand 0⟩) left (b.place (.operator false) op w slot)
    expr w (some ⟨id, .operand 1⟩) right b
  | .call callee args, b =>
    let id := b.fresh .call
    arguments w id 0 args (b.place (.call .function) callee w slot)
  | .methodCall receiver method args, b =>
    let id := b.fresh .call
    let b := b.place (.call .method) method w slot
    arguments w id 0 args (expr w (some ⟨id, .attributeValue⟩) receiver b)
  | .attribute object name, b =>
    let id := b.fresh .attribute
    expr w (some ⟨id, .attributeValue⟩) object (b.place .attribute name w slot)
  | .subscript value key, b =>
    let id := b.fresh .accessor
    let b := expr w (some ⟨id, .accessValue⟩) value (b.place .accessor "[]" w slot)
    expr w (some ⟨id, .accessKey⟩) key b
  | .list items, b =>
    let id := b.fresh .listDisplay
    elements w id 0 items (b.place .listDisplay "[]" w slot)
  | .dict entries, b =>
    let id := b.fresh .dictDisplay
    pairs w id 0 entries (b.place .dictDisplay "\x7b\x7d" w slot)
  | .unsupported, b => b

/-- The arguments of a call, counted by position from `index`. -/
def arguments (w : World) (id : NodeId) : (index : Nat) → List Arg → Builder → Builder
  | _, [], b => b
  | index, .positional value :: args, b =>
    arguments w id (index + 1) args (expr w (some ⟨id, .positional index⟩) value b)
  | index, .keyword name value :: args, b =>
    arguments w id index args (expr w (some ⟨id, .keyword name⟩) value b)
  | index, .unpacked :: args, b => arguments w id index args b

def elements (w : World) (id : NodeId) : (index : Nat) → List Expr → Builder → Builder
  | _, [], b => b
  | index, item :: items, b =>
    elements w id (index + 1) items (expr w (some ⟨id, .listElement index⟩) item b)

def pairs (w : World) (id : NodeId) : (index : Nat) → List Pair → Builder → Builder
  | _, [], b => b
  | index, .mk key value :: rest, b =>
    let b := expr w (some ⟨id, .dictKey index⟩) key b
    pairs w id (index + 1) rest (expr w (some ⟨id, .dictValue index⟩) value b)
end

/-- A clause with a condition, which stands in its label too. -/
def guard (b : Builder) (payload : Payload) (keyword : String) (test : Phrase) (w : World) :
    Builder :=
  expr w (some ⟨b.fresh payload.kind, .input⟩) test.expr
    (b.add payload (keyword ++ " " ++ test.text) w)

def handlerLabel (exception : Option Phrase) (binding : Option String) : String :=
  "except" ++ (match exception with | some e => " " ++ e.text | none => "") ++
    (match binding with | some name => " as " ++ name | none => "")

/-- Binds the parameters of a function; separators bind nothing. -/
def bindParams (b : Builder) (params : List Param) (w : World) : Builder :=
  (params.filter fun p => !p.isSeparator).foldl (fun b p => b.bindParam p.name p.optional w) b

def bindNames (b : Builder) (names : List String) (w : World) : Builder :=
  names.foldl (fun b name => b.bindParam name false w) b

mutual
def statement (w : World) : Stmt → Builder → Builder
  | .assign name value, b =>
    let id := b.fresh .variable
    let version := b.symbols.nextVersion name
    let b := expr w (some ⟨id, .writesTo⟩) value (b.add (.variable (.write version)) name w)
    b.define name id w
  | .augment name op value, b =>
    let id := b.fresh .variable
    let version := b.symbols.nextVersion name
    let b := b.add (.variable (.write version)) name w
    let operator := b.fresh .operator
    let b := b.place (.operator false) op w (some ⟨id, .writesTo⟩)
    let b := b.read name w ⟨operator, .operand 0⟩
    (expr w (some ⟨operator, .operand 1⟩) value b).define name id w
  | .eval e, b => if e.isCall then expr w none e b else b
  | .ret value, b =>
    let id := b.fresh .returnStmt
    let b := b.add .returnStmt "return" w
    match value with
    | some e => expr w (some ⟨id, .input⟩) e b
    | none => b
  | .function name params body, b =>
    let id := b.fresh .functionDef
    let b := ((b.add (.functionDef params) name w).define name id w).enter
    (statements (.body id) body (b.bindParams params (.body id))).leave
  | .class name bases body, b =>
    let id := b.fresh .classDef
    let b := ((b.add (.classDef bases) name w).define name id w).enter
    (statements (.body id) body b).leave
  | .branch test body rest, b =>
    let id := b.fresh .ifBlock
    let b := (b.guard .ifBlock "if" test w).enter
    alternatives w id rest (statements (.body id) body b).leave
  | .each target source body, b =>
    let id := b.fresh .forBlock
    let b := b.add (.forBlock target.text) ("for " ++ target.text ++ " in " ++ source.text) w
    let b := (expr w (some ⟨id, .iteratesOn⟩) source.expr b).enter
    (statements (.body id) body (b.bindNames target.names (.body id))).leave
  | .while test body, b =>
    let id := b.fresh .whileBlock
    let b := (b.guard .whileBlock "while" test w).enter
    (statements (.body id) body b).leave
  | .attempt body clauses, b =>
    let id := b.fresh .tryBlock
    let b := (b.add .tryBlock "try" w).enter
    handlers w id 0 clauses (statements (.body id) body b).leave
  | .import text names, b =>
    let id := b.fresh .importStmt
    names.foldl (fun b name => b.define name id .imports)
      (b.add (.importStmt names) text .imports)
  | .skip, b => b

def statements (w : World) : List Stmt → Builder → Builder
  | [], b => b
  | stmt :: rest, b => statements w rest (statement w stmt b)

/-- The clauses behind the body of `previous`, each joined to the one before it. -/
def alternatives (w : World) (previous : NodeId) : Alternatives → Builder → Builder
  | .done, b => b
  | .elif test body rest, b =>
    let id := b.fresh .elifBlock
    let b := (b.guard .elifBlock "elif" test w).enter
    let b := (statements (.body id) body b).leave
    alternatives w id rest (b.wire previous id (.nextClause none))
  | .otherwise body, b =>
    let id := b.fresh .elseBlock
    let b := (b.add .elseBlock "else" w).enter
    ((statements (.body id) body b).leave).wire previous id (.nextClause none)

def handlers (w : World) (owner : NodeId) : (index : Nat) → List Handler → Builder → Builder
  | _, [], b => b
  | index, .mk exception binding body :: rest, b =>
    let id := b.fresh .exceptBlock
    let payload := .exceptBlock (exception.map (·.text)) binding
    let b := b.add payload (handlerLabel exception binding) w
    let b := b.wire owner id (.nextClause (some index))
    let b :=
      match exception with
      | some e => expr w (some ⟨id, .input⟩) e.expr b
      | none => b
    let b := b.enter.bindNames binding.toList (.body id)
    handlers w owner (index + 1) rest (statements (.body id) body b).leave
end

end Builder

/-- The graph of a module before its calls are linked. -/
def build (supply : Supply) (module : List Stmt) : Graph × Supply :=
  let b := Builder.statements .root module (.start supply)
  (b.graph, b.supply)

end ScopedFlow
