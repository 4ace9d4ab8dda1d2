import ScopedFlow.Build

/-!
# Syntax trees as lists of steps

The steps come in the order of the text. The nodes that the tree asks for are numbered from zero in
that order, and a body is known by the number of the node that owns it. Nothing here looks a name
up: a read only says where it stands, and a binding which body makes it.
-/

namespace ScopedFlow

inductive Place where
  | root
  | imports
  | body (owner : Nat)
  deriving DecidableEq, Repr

/-- What a new node holds. The version of a variable is left open, and a call comes with its
arguments as they are written. -/
inductive Content where
  | plain (payload : Payload)
  | param (optional : Bool)
  | write
  | call (isMethod : Bool) (args : List Arg)
  deriving Repr

def Content.payload (version : Nat) : Content → Payload
  | .plain payload => payload
  | .param optional => .variable (.param version optional)
  | .write => .variable (.write version)
  | .call isMethod _ => .call (if isMethod then .method else .function)

structure Sketch where
  home : Place
  label : String
  content : Content
  deriving Repr

/-- The edge that a finished expression is wired into, by the number of its consumer. -/
structure Port where
  target : Nat
  kind : EdgeKind
  deriving DecidableEq, Repr

inductive Step where
  /-- The next number goes to a new node. -/
  | node (sketch : Sketch)
  | wire (source : Nat) (port : Port)
  /-- A name is read in `world`, inside the worlds `outer`, the innermost first. -/
  | read (name : String) (world : Place) (outer : List Place) (port : Port)
  /-- The body `body` binds a name to a node that lives at `home`. -/
  | bind (name : String) (body : Place) (node : Nat) (home : Place)
  | enter (body : Place)
  | leave
  deriving Repr

namespace Steps

def sketch? : Step → Option Sketch
  | .node sketch => some sketch
  | _ => none

/-- The nodes that a list of steps asks for, by number. -/
def sketches (ss : List Step) : List Sketch := ss.filterMap sketch?

def count (ss : List Step) : Nat := (sketches ss).length

@[simp] theorem sketches_nil : sketches [] = [] := rfl

@[simp] theorem sketches_append (ss ts : List Step) :
    sketches (ss ++ ts) = sketches ss ++ sketches ts := List.filterMap_append

@[simp] theorem sketches_cons (s : Step) (ss : List Step) :
    sketches (s :: ss) = (sketch? s).toList ++ sketches ss := by
  cases s <;> rfl

@[simp] theorem count_nil : count [] = 0 := rfl

@[simp] theorem count_append (ss ts : List Step) : count (ss ++ ts) = count ss + count ts := by
  simp [count]

@[simp] theorem count_cons (s : Step) (ss : List Step) :
    count (s :: ss) = (sketch? s).toList.length + count ss := by
  simp [count]

/-- A node with the given number, wired into a port if there is one. -/
def place (w : Place) (label : String) (content : Content) (k : Nat) : Option Port → List Step
  | some port => [.node ⟨w, label, content⟩, .wire k port]
  | none => [.node ⟨w, label, content⟩]

mutual
def expr (w : Place) (outer : List Place) (port : Option Port) (k : Nat) : Expr → List Step
  | .name id =>
    match port with
    | some port => [.read id w outer port]
    | none => []
  | .literal text => if port.isSome then place w text (.plain .literal) k port else []
  | .unary op operand =>
    place w op (.plain (.operator true)) k port ++ expr w outer (some ⟨k, .operand 0⟩) (k + 1) operand
  | .binary op left right =>
    let first := expr w outer (some ⟨k, .operand 0⟩) (k + 1) left
    place w op (.plain (.operator false)) k port ++ first ++
      expr w outer (some ⟨k, .operand 1⟩) (k + 1 + count first) right
  | .call callee args =>
    place w callee (.call false args) k port ++ arguments w outer k 0 (k + 1) args
  | .methodCall receiver method args =>
    let first := expr w outer (some ⟨k, .attributeValue⟩) (k + 1) receiver
    place w method (.call true args) k port ++ first ++
      arguments w outer k 0 (k + 1 + count first) args
  | .attribute object name =>
    place w name (.plain .attribute) k port ++ expr w outer (some ⟨k, .attributeValue⟩) (k + 1) object
  | .subscript value key =>
    let first := expr w outer (some ⟨k, .accessValue⟩) (k + 1) value
    place w "[]" (.plain .accessor) k port ++ first ++
      expr w outer (some ⟨k, .accessKey⟩) (k + 1 + count first) key
  | .list items => place w "[]" (.plain .listDisplay) k port ++ elements w outer k 0 (k + 1) items
  | .dict entries =>
    place w "\x7b\x7d" (.plain .dictDisplay) k port ++ pairs w outer k 0 (k + 1) entries
  | .unsupported => []

/-- The arguments of the call with the number `owner`, counted by position from `index`. -/
def arguments (w : Place) (outer : List Place) (owner : Nat) :
    (index k : Nat) → List Arg → List Step
  | _, _, [] => []
  | index, k, .positional value :: args =>
    let first := expr w outer (some ⟨owner, .positional index⟩) k value
    first ++ arguments w outer owner (index + 1) (k + count first) args
  | index, k, .keyword name value :: args =>
    let first := expr w outer (some ⟨owner, .keyword name⟩) k value
    first ++ arguments w outer owner index (k + count first) args
  | index, k, .unpacked :: args => arguments w outer owner index k args

def elements (w : Place) (outer : List Place) (owner : Nat) :
    (index k : Nat) → List Expr → List Step
  | _, _, [] => []
  | index, k, item :: items =>
    let first := expr w outer (some ⟨owner, .listElement index⟩) k item
    first ++ elements w outer owner (index + 1) (k + count first) items

def pairs (w : Place) (outer : List Place) (owner : Nat) :
    (index k : Nat) → List Pair → List Step
  | _, _, [] => []
  | index, k, .mk key value :: rest =>
    let first := expr w outer (some ⟨owner, .dictKey index⟩) k key
    let second := expr w outer (some ⟨owner, .dictValue index⟩) (k + count first) value
    first ++ second ++ pairs w outer owner (index + 1) (k + count first + count second) rest
end

/-- Variables that a header binds, with whether they are optional. -/
def header (w : Place) : (k : Nat) → List (String × Bool) → List Step
  | _, [] => []
  | k, (name, optional) :: rest =>
    [.node ⟨w, name, .param optional⟩, .bind name w k w] ++ header w (k + 1) rest

/-- What the parameters of a function bind; separators bind nothing. -/
def paramNames (params : List Param) : List (String × Bool) :=
  (params.filter fun p => !p.isSeparator).map fun p => (p.name, p.optional)

def loopNames (names : List String) : List (String × Bool) := names.map fun name => (name, false)

/-- The steps of the body that the node with the number `k` owns. -/
def enclosed (k : Nat) (inner : List Step) : List Step := [.enter (.body k)] ++ inner ++ [.leave]

@[simp] theorem count_enclosed (k : Nat) (inner : List Step) :
    count (enclosed k inner) = count inner := by
  simp [enclosed, sketch?]

def guarded (w : Place) (outer : List Place) (k : Nat) (payload : Payload) (keyword : String)
    (test : Phrase) : List Step :=
  [.node ⟨w, keyword ++ " " ++ test.text, .plain payload⟩] ++
    expr w outer (some ⟨k, .input⟩) (k + 1) test.expr

def looped (w : Place) (outer : List Place) (k : Nat) (target : Target) (source : Phrase) :
    List Step :=
  [.node ⟨w, "for " ++ target.text ++ " in " ++ source.text, .plain (.forBlock target.text)⟩] ++
    expr w outer (some ⟨k, .iteratesOn⟩) (k + 1) source.expr

def exception (w : Place) (outer : List Place) (k : Nat) : Option Phrase → List Step
  | some e => expr w outer (some ⟨k, .input⟩) (k + 1) e.expr
  | none => []

def handled (w : Place) (outer : List Place) (owner index k : Nat) (caught : Option Phrase)
    (binding : Option String) : List Step :=
  [.node ⟨w, Builder.handlerLabel caught binding,
      .plain (.exceptBlock (caught.map (·.text)) binding)⟩] ++
    [.wire owner ⟨k, .nextClause (some index)⟩] ++ exception w outer k caught

mutual
def statement (w : Place) (outer : List Place) (k : Nat) : Stmt → List Step
  | .assign name value =>
    [.node ⟨w, name, .write⟩] ++ expr w outer (some ⟨k, .writesTo⟩) (k + 1) value ++
      [.bind name w k w]
  | .augment name op value =>
    [.node ⟨w, name, .write⟩] ++ place w op (.plain (.operator false)) (k + 1) (some ⟨k, .writesTo⟩) ++
      [.read name w outer ⟨k + 1, .operand 0⟩] ++
      expr w outer (some ⟨k + 1, .operand 1⟩) (k + 2) value ++ [.bind name w k w]
  | .eval e => if e.isCall then expr w outer none k e else []
  | .ret value =>
    [.node ⟨w, "return", .plain .returnStmt⟩] ++
      match value with
      | some e => expr w outer (some ⟨k, .input⟩) (k + 1) e
      | none => []
  | .function name params body =>
    let head := header (.body k) (k + 1) (paramNames params)
    [.node ⟨w, name, .plain (.functionDef params)⟩, .bind name w k w] ++
      enclosed k (head ++ statements (.body k) (w :: outer) (k + 1 + count head) body)
  | .class name bases body =>
    [.node ⟨w, name, .plain (.classDef bases)⟩, .bind name w k w] ++
      enclosed k (statements (.body k) (w :: outer) (k + 1) body)
  | .branch test body rest =>
    let head := guarded w outer k .ifBlock "if" test
    let inner := enclosed k (statements (.body k) (w :: outer) (k + count head) body)
    head ++ inner ++ alternatives w outer k (k + count head + count inner) rest
  | .each target source body =>
    let head := looped w outer k target source
    let names := header (.body k) (k + count head) (loopNames target.names)
    head ++ enclosed k
      (names ++ statements (.body k) (w :: outer) (k + count head + count names) body)
  | .while test body =>
    let head := guarded w outer k .whileBlock "while" test
    head ++ enclosed k (statements (.body k) (w :: outer) (k + count head) body)
  | .attempt body clauses =>
    let inner := enclosed k (statements (.body k) (w :: outer) (k + 1) body)
    [.node ⟨w, "try", .plain .tryBlock⟩] ++ inner ++
      handlers w outer k 0 (k + 1 + count inner) clauses
  | .import text names =>
    [.node ⟨.imports, text, .plain (.importStmt names)⟩] ++
      names.map fun name => .bind name w k .imports
  | .skip => []

def statements (w : Place) (outer : List Place) : (k : Nat) → List Stmt → List Step
  | _, [] => []
  | k, stmt :: rest =>
    let first := statement w outer k stmt
    first ++ statements w outer (k + count first) rest

def alternatives (w : Place) (outer : List Place) (previous : Nat) :
    (k : Nat) → Alternatives → List Step
  | _, .done => []
  | k, .elif test body rest =>
    let head := guarded w outer k .elifBlock "elif" test
    let inner := enclosed k (statements (.body k) (w :: outer) (k + count head) body)
    head ++ inner ++ [.wire previous ⟨k, .nextClause none⟩] ++
      alternatives w outer k (k + count head + count inner) rest
  | k, .otherwise body =>
    [.node ⟨w, "else", .plain .elseBlock⟩] ++
      enclosed k (statements (.body k) (w :: outer) (k + 1) body) ++
      [.wire previous ⟨k, .nextClause none⟩]

def handlers (w : Place) (outer : List Place) (owner : Nat) :
    (index k : Nat) → List Handler → List Step
  | _, _, [] => []
  | index, k, .mk caught binding body :: rest =>
    let head := handled w outer owner index k caught binding
    let names := header (.body k) (k + count head) (loopNames binding.toList)
    let inner := enclosed k
      (names ++ statements (.body k) (w :: outer) (k + count head + count names) body)
    head ++ inner ++ handlers w outer owner (index + 1) (k + count head + count inner) rest
end

def ofModule (module : List Stmt) : List Step := statements .root [] 0 module

end Steps

end ScopedFlow
