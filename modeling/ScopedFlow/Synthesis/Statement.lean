import ScopedFlow.Synthesis.Expression

/-!
# Lines of statements

Each world is written as one statement for each node that is one, in node order; expressions are
written where they are used. A clause is written behind the block that leads to it. Bodies nest, and
a body that would contain itself has no text.
-/

namespace ScopedFlow

structure CodeLine where
  depth : Nat
  text : String
  deriving DecidableEq, Repr

def CodeLine.print (style : CodeStyle) (l : CodeLine) : String :=
  String.ofList (List.replicate (l.depth * style.indent) ' ') ++ l.text

/-- Lines with the defects met while they were written. -/
structure Code where
  lines : List CodeLine
  defects : List Defect
  deriving DecidableEq, Repr

namespace Code

def empty : Code := ⟨[], []⟩

def line (r : Rendered) : Code := ⟨[⟨0, r.text⟩], r.defects⟩

def append (c d : Code) : Code := ⟨c.lines ++ d.lines, c.defects ++ d.defects⟩

def nest (c : Code) : Code := ⟨c.lines.map fun l => { l with depth := l.depth + 1 }, c.defects⟩

/-- A body is never empty. -/
def orPass (c : Code) : Code :=
  if c.lines.isEmpty then { c with lines := [⟨0, "pass"⟩] } else c

/-- Pieces of code in their order; without a text if one of them has none. -/
def concat : List (Option Code) → Option Code
  | [] => some empty
  | none :: _ => none
  | some c :: rest => (concat rest).map c.append

def block (header : Rendered) (body : Option Code) : Option Code :=
  body.map fun b => (line header).append b.nest

end Code

namespace Graph

def value (g : Graph) (style : CodeStyle) (id : NodeId) : Rendered := g.resolve style [] id

def behindWords (words label : String) : Option String :=
  if words.toList.isPrefixOf label.toList then
    let rest := Text.trim (String.ofList (label.toList.drop words.length))
    if rest = "" then none else some rest
  else none

/-- An expression that the label holds behind some words. -/
def labelFallback (style : CodeStyle) (n : Node) (words : String) : Rendered :=
  match behindWords words n.label with
  | some text => .plain text
  | none => lacking style n (.missingExpression words)

/-- The expression of a header: the wired one, or else the one in the label. -/
def headerValue (g : Graph) (style : CodeStyle) (n : Node) (kind : EdgeKind) (words : String) :
    Rendered :=
  match g.input n.id fun k => k = kind with
  | some source => g.value style source
  | none => labelFallback style n words

def testHeader (g : Graph) (style : CodeStyle) (n : Node) (keyword : String) : Rendered :=
  (g.headerValue style n .input keyword).map fun test => keyword ++ " " ++ test ++ ":"

def loopHeader (g : Graph) (style : CodeStyle) (n : Node) (target : String) : Rendered :=
  let source := g.headerValue style n .iteratesOn ("for " ++ target ++ " in")
  let name := if target = "" then lacking style n .missingTarget else .plain target
  source.both (fun source name => "for " ++ name ++ " in " ++ source ++ ":") name

def handlerHeader (g : Graph) (style : CodeStyle) (n : Node) (exception binding : Option String) :
    Rendered :=
  let named (text : String) :=
    text ++ (match binding with | some name => " as " ++ name | none => "") ++ ":"
  match g.input n.id fun k => k = .input with
  | some source => (g.value style source).map fun value => named ("except " ++ value)
  | none =>
    match exception with
    | some text => .plain (named ("except " ++ text))
    | none => .plain (named "except")

def functionHeader (n : Node) (params : List Param) : String :=
  "def " ++ n.label ++ "(" ++ ", ".intercalate (params.map Param.header) ++ "):"

def classHeader (n : Node) (bases : List String) : String :=
  if bases.isEmpty then "class " ++ n.label ++ ":"
  else "class " ++ n.label ++ "(" ++ ", ".intercalate bases ++ "):"

/-- Whether some block leads to a clause. -/
def hasHead (g : Graph) (id : NodeId) : Bool :=
  (g.edgesTo id).any fun e => match e.kind with | .nextClause _ => true | _ => false

def feeds (g : Graph) (id : NodeId) : Bool := (g.edgesFrom id).any fun e => e.kind.isData

def nextClause (g : Graph) (id : NodeId) : Option Node :=
  (((g.edgesFrom id).filter fun e => e.kind = .nextClause none).filterMap fun e =>
    g.lookup e.target).find? fun n => n.kind = .elifBlock || n.kind = .elseBlock

theorem id_eq_of_lookup {g : Graph} {id : NodeId} {n : Node} (h : g.lookup id = some n) :
    n.id = id := by
  simpa using List.find?_some h

theorem mem_ids_of_nextClause {g : Graph} {id : NodeId} {n : Node}
    (h : g.nextClause id = some n) : n.id ∈ g.ids := by
  obtain ⟨e, -, he⟩ := List.mem_filterMap.1 (List.mem_of_find?_eq_some h)
  rw [id_eq_of_lookup he]
  exact mem_ids_of_lookup he

/-- The clauses behind a clause, up to an `else` or to one that was seen. -/
def clausesFrom (g : Graph) (seen : List NodeId) (id : NodeId) : List Node :=
  match h : g.nextClause id with
  | none => []
  | some n =>
    if hs : n.id ∈ seen then []
    else if n.kind = .elseBlock then [n]
    else
      have := remaining_cons_lt (mem_ids_of_nextClause h) hs
      n :: g.clausesFrom (n.id :: seen) n.id
termination_by remaining g.ids seen

def handlersOf (g : Graph) (id : NodeId) : List Node :=
  let numbered := (g.edgesFrom id).filterMap fun e =>
    match e.kind with
    | .nextClause (some index) =>
      match g.lookup e.target with
      | some n => if n.kind = .exceptBlock then some (index, n) else none
      | none => none
    | _ => none
  (numbered.mergeSort fun a b => a.1 ≤ b.1).map (·.2)

/-- A clause with its body; other nodes have none. -/
def clauseCode (g : Graph) (style : CodeStyle) (body : NodeId → Option Code) (n : Node) :
    Option Code :=
  match n.payload with
  | .elifBlock => Code.block (g.testHeader style n "elif") (body n.id)
  | .elseBlock => Code.block (.plain "else:") (body n.id)
  | .exceptBlock exception binding =>
    Code.block (g.handlerHeader style n exception binding) (body n.id)
  | _ => some .empty

/-- A `try` without handlers is closed by an empty `finally`. -/
def handlersCode (g : Graph) (style : CodeStyle) (body : NodeId → Option Code) (n : Node) :
    Option Code :=
  match g.handlersOf n.id with
  | [] => Code.block (.plain "finally:") (some (.line (.plain "pass")))
  | clauses => Code.concat (clauses.map (g.clauseCode style body))

/-- The statement that a node is, where `body` gives the body that a node owns. -/
def statementCode (g : Graph) (style : CodeStyle) (body : NodeId → Option Code) (n : Node) :
    Option Code :=
  match n.payload with
  | .functionDef params => Code.block (.plain (functionHeader n params)) (body n.id)
  | .classDef bases => Code.block (.plain (classHeader n bases)) (body n.id)
  | .variable v =>
    if v.isWrite then
      match g.input n.id fun k => k = .writesTo with
      | some source => some (.line ((g.value style source).map fun t => n.label ++ " = " ++ t))
      | none => some .empty
    else some .empty
  | .call _ => some (if g.feeds n.id then .empty else .line (g.value style n.id))
  | .returnStmt =>
    match g.input n.id fun k => k = .input with
    | some source => some (.line ((g.value style source).map fun t => "return " ++ t))
    | none => some (.line (.plain "return"))
  | .ifBlock =>
    Code.concat (Code.block (g.testHeader style n "if") (body n.id) ::
      (g.clausesFrom [n.id] n.id).map (g.clauseCode style body))
  | .forBlock target => Code.block (g.loopHeader style n target) (body n.id)
  | .whileBlock => Code.block (g.testHeader style n "while") (body n.id)
  | .tryBlock =>
    Code.concat [Code.block (.plain "try:") (body n.id), g.handlersCode style body n]
  | .elifBlock | .elseBlock | .exceptBlock _ _ =>
    some (if g.hasHead n.id then .empty else ⟨[], [⟨n.id, n.label, .strayClause⟩]⟩)
  | .importStmt _ => some (.line (.plain n.label))
  | _ => some .empty

def worldCode (g : Graph) (style : CodeStyle) (body : NodeId → Option Code) (w : World) :
    Option Code :=
  Code.concat ((g.nodesIn w).map (g.statementCode style body))

/-- The body that a node owns, within the bodies that are open. -/
def bodyCode (g : Graph) (style : CodeStyle) (opened : List NodeId) (owner : NodeId) : Option Code :=
  if h : owner ∈ g.ids ∧ owner ∉ opened then
    have := remaining_cons_lt h.1 h.2
    (g.worldCode style (fun id => g.bodyCode style (owner :: opened) id) (.body owner)).map
      Code.orPass
  else none
termination_by remaining g.ids opened

/-- A node on its own: a statement with its bodies, a clause, or an expression. -/
def nodeCode (g : Graph) (style : CodeStyle) (n : Node) : Option Code :=
  let body := g.bodyCode style []
  match n.payload with
  | .elifBlock | .elseBlock | .exceptBlock _ _ => g.clauseCode style body n
  | .variable v =>
    if v.isWrite then g.statementCode style body n else some (.line (.plain n.label))
  | .functionDef _ | .classDef _ | .ifBlock | .forBlock _ | .whileBlock | .tryBlock
  | .returnStmt | .importStmt _ => g.statementCode style body n
  | _ => some (.line (g.value style n.id))

end Graph

end ScopedFlow
