import ScopedFlow.Proofs.Execution

/-!
# How the builder wires what it builds

A node is open while expressions are built for it. Each of them is wired into the open node first
and then open itself, while a name that is read is wired at once. Statements open their nodes one
after another, never one inside another; a clause is joined to a clause that was finished before.
The calls that a text writes are kept along.
-/

namespace ScopedFlow

/-- A call as it is written: the name that is called, and whether the call is a statement of its
own. -/
structure WrittenCall where
  callee : String
  alone : Bool
  deriving DecidableEq, Repr

/-- Kinds of nodes whose text stands where their value is used. -/
def NodeKind.isExpression : NodeKind → Bool
  | .call | .literal | .operator | .listDisplay | .dictDisplay | .accessor | .attribute => true
  | _ => false

namespace Payload

variable {payload : Payload}

/-- Whether a node of this sort is a statement that binds no name. A call has no target yet. -/
def isPlain : Payload → Bool
  | .call site => site.target.isNone
  | .returnStmt | .ifBlock | .elifBlock | .elseBlock | .forBlock _ | .whileBlock | .tryBlock
  | .exceptBlock _ _ => true
  | _ => false

/-- Whether a node of this sort is an expression, a call again without a target. -/
def isExpression : Payload → Bool
  | .call site => site.target.isNone
  | .literal | .operator _ | .listDisplay | .dictDisplay | .accessor | .attribute => true
  | _ => false

def written (label : String) (alone : Bool) : Payload → List WrittenCall
  | .call _ => [⟨label, alone⟩]
  | _ => []

theorem kind_isExpression (h : payload.isExpression = true) : payload.kind.isExpression = true := by
  cases payload with
  | call _ | literal | operator _ | listDisplay | dictDisplay | accessor | «attribute» => rfl
  | _ => cases h

theorem call_of_isPlain (h : payload.isPlain = true) (he : payload.kind.isExpression = true) :
    payload.kind = .call := by
  cases payload with
  | call site => rfl
  | literal | operator _ | listDisplay | dictDisplay | accessor | «attribute» => cases h
  | _ => cases he

theorem not_isExpression {version : Nat} (h : payload.Introduces version) :
    payload.kind.isExpression = false := by
  cases payload with
  | «variable» _ | functionDef _ | classDef _ => rfl
  | _ => cases h

theorem nameless_of_isExpression (h : payload.isExpression = true) : payload.isNameless = true := by
  cases payload with
  | «variable» _ | functionDef _ | classDef _ | importStmt _ => cases h
  | _ => rfl

theorem nameless_of_isPlain (h : payload.isPlain = true) : payload.isNameless = true := by
  cases payload with
  | «variable» _ | functionDef _ | classDef _ | importStmt _ => cases h
  | _ => rfl

theorem written_of_kind (h : payload.kind ≠ .call) (label : String) (alone : Bool) :
    payload.written label alone = [] := by
  cases payload with
  | call site => exact absurd rfl h
  | _ => rfl

end Payload

mutual
/-- The calls of an expression in the order in which they are met, each before those among its
parts. -/
def Expr.calls (alone : Bool) : Expr → List WrittenCall
  | .name _ | .literal _ | .unsupported => []
  | .unary _ operand => operand.calls false
  | .binary _ left right => left.calls false ++ right.calls false
  | .call callee args => ⟨callee, alone⟩ :: Arg.calls args
  | .methodCall receiver method args => ⟨method, alone⟩ :: (receiver.calls false ++ Arg.calls args)
  | .attribute object _ => object.calls false
  | .subscript value key => value.calls false ++ key.calls false
  | .list items => Expr.callsOf items
  | .dict entries => Pair.calls entries

def Arg.calls : List Arg → List WrittenCall
  | [] => []
  | .positional value :: args | .keyword _ value :: args => value.calls false ++ Arg.calls args
  | .unpacked :: args => Arg.calls args

def Expr.callsOf : List Expr → List WrittenCall
  | [] => []
  | item :: items => item.calls false ++ Expr.callsOf items

def Pair.calls : List Pair → List WrittenCall
  | [] => []
  | .mk key value :: rest => key.calls false ++ value.calls false ++ Pair.calls rest
end

def Phrase.calls : Option Phrase → List WrittenCall
  | some e => e.expr.calls false
  | none => []

mutual
/-- The calls of a statement. Only a call that is the whole of an expression on its own stands
alone. -/
def Stmt.calls : Stmt → List WrittenCall
  | .assign _ value | .augment _ _ value => value.calls false
  | .eval e => if e.isCall then e.calls true else []
  | .ret (some e) => e.calls false
  | .ret none | .import _ _ | .skip => []
  | .function _ _ body | .class _ _ body => Stmt.callsOf body
  | .branch test body rest => test.expr.calls false ++ Stmt.callsOf body ++ rest.calls
  | .each _ source body => source.expr.calls false ++ Stmt.callsOf body
  | .while test body => test.expr.calls false ++ Stmt.callsOf body
  | .attempt body clauses => Stmt.callsOf body ++ Handler.calls clauses

def Stmt.callsOf : List Stmt → List WrittenCall
  | [] => []
  | stmt :: rest => stmt.calls ++ Stmt.callsOf rest

def Alternatives.calls : Alternatives → List WrittenCall
  | .done => []
  | .elif test body rest => test.expr.calls false ++ Stmt.callsOf body ++ rest.calls
  | .otherwise body => Stmt.callsOf body

def Handler.calls : List Handler → List WrittenCall
  | [] => []
  | .mk exception _ body :: rest =>
    Phrase.calls exception ++ Stmt.callsOf body ++ Handler.calls rest
end

namespace Builder

variable {label : String} {payload : Payload}

/-- The builder has a node with a body in this world. -/
def Holds (w : World) (id : NodeId) (b : Builder) : Prop :=
  ∃ n ∈ b.graph.nodes, n.id = id ∧ n.world = w ∧ n.kind.ownsWorld = true

/-- What is built in a world while the node `target` is open. -/
inductive Fills (w : World) : NodeId → List WrittenCall → Builder → Builder → Prop where
  | refl (target : NodeId) (b : Builder) : Fills w target [] b b
  | trans {target : NodeId} {xs ys : List WrittenCall} {b b' b'' : Builder}
    (first : Fills w target xs b b') (second : Fills w target ys b' b'') :
    Fills w target (xs ++ ys) b b''
  | read (target : NodeId) (b : Builder) (name : String) {kind : EdgeKind}
    (data : kind.isData = true) : Fills w target [] b (b.read name w ⟨target, kind⟩)
  | node {target : NodeId} {xs : List WrittenCall} {b b' : Builder} (payload : Payload)
    (expression : payload.isExpression = true) {label : String} {kind : EdgeKind}
    (data : kind.isData = true)
    (parts : Fills w (b.fresh payload.kind) xs (b.place payload label w (some ⟨target, kind⟩)) b') :
    Fills w target (payload.written label false ++ xs) b b'

/-- A node of a statement with all that is built while it is open. A handler is joined to its
block right away; a node that binds its label does so when it is finished. -/
inductive Begins (w : World) (payload : Payload) (label : String) (b : Builder) :
    List WrittenCall → Builder → Prop where
  | plain {xs : List WrittenCall} {b' : Builder} (plain : payload.isPlain = true)
    (parts : Fills w (b.fresh payload.kind) xs (b.add payload label w) b') :
    Begins w payload label b (payload.written label true ++ xs) b'
  | behind {xs : List WrittenCall} {b' : Builder} {previous : NodeId} {index : Nat}
    (plain : payload.isPlain = true) (owns : payload.kind.ownsWorld = true)
    (known : b.Holds w previous)
    (parts : Fills w (b.fresh payload.kind) xs ((b.add payload label w).wire previous
      (b.fresh payload.kind) (.nextClause (some index))) b') :
    Begins w payload label b xs b'
  | binding {xs : List WrittenCall} {b' : Builder}
    (introduces : payload.Introduces (b.symbols.nextVersion label))
    (parts : Fills w (b.fresh payload.kind) xs (b.add payload label w) b') :
    Begins w payload label b xs (b'.define label (b.fresh payload.kind) w)

/-- What statements do in a world. A clause behind a condition is joined to it when its body is
finished. -/
inductive Performs : World → List WrittenCall → Builder → Builder → Prop where
  | refl (w : World) (b : Builder) : Performs w [] b b
  | trans {w : World} {xs ys : List WrittenCall} {b b' b'' : Builder} (first : Performs w xs b b')
    (second : Performs w ys b' b'') : Performs w (xs ++ ys) b b''
  | head {w : World} {xs : List WrittenCall} {payload : Payload} {label : String} {b b' : Builder}
    (head : Begins w payload label b xs b') : Performs w xs b b'
  | imports (w : World) (b : Builder) (text : String) (names : List String) :
    Performs w [] b (names.foldl (fun b' name => b'.define name (b.fresh .importStmt) .imports)
      (b.add (.importStmt names) text .imports))
  | block {w : World} {xs ys : List WrittenCall} {payload : Payload} {label : String}
    {b b' b'' : Builder} (owns : payload.kind.ownsWorld = true)
    (head : Begins w payload label b xs b')
    (body : Performs (.body (b.fresh payload.kind)) ys b'.enter b'') :
    Performs w (xs ++ ys) b b''.leave
  | clause {w : World} {xs ys : List WrittenCall} {payload : Payload} {label : String}
    {b b' b'' : Builder} {previous : NodeId} (known : b.Holds w previous)
    (owns : payload.kind.ownsWorld = true) (head : Begins w payload label b xs b')
    (body : Performs (.body (b.fresh payload.kind)) ys b'.enter b'') :
    Performs w (xs ++ ys) b
      (b''.leave.wire previous (b.fresh payload.kind) (.nextClause none))

section Moves

variable {w : World} {target : NodeId} {xs : List WrittenCall} {b b' : Builder}

theorem Fills.evaluates (h : Fills w target xs b b') : Evaluates w b b' := by
  induction h with
  | refl target b => exact .refl b
  | trans _ _ ih ih' => exact .trans ih ih'
  | read target b name data => exact evaluates_read ..
  | node payload expression _ _ ih =>
    exact .trans (evaluates_place w _ (Payload.nameless_of_isExpression expression) ..) ih

theorem Begins.heads (h : Begins w payload label b xs b') : Heads w payload label b b' := by
  cases h with
  | plain plain parts => exact .plain (Payload.nameless_of_isPlain plain) parts.evaluates
  | behind plain _ _ parts =>
    exact .plain (Payload.nameless_of_isPlain plain) (.trans (.wire ..) parts.evaluates)
  | binding introduces parts => exact .binding introduces parts.evaluates

theorem Performs.executes (h : Performs w xs b b') : Executes w b b' := by
  induction h with
  | refl w b => exact .evaluate (.refl b)
  | trans _ _ ih ih' => exact .trans ih ih'
  | head head => exact .head head.heads
  | imports w b text names => exact .imports w b text names
  | block _ head _ ih => exact .block head.heads ih
  | clause _ _ head _ ih => exact .trans (.block head.heads ih) (.evaluate (.wire ..))

end Moves

section Stay

variable {w : World} {target : NodeId} {xs : List WrittenCall} {b b' : Builder}

theorem Fills.nodes_prefix (h : Fills w target xs b b') : b.graph.nodes <+: b'.graph.nodes :=
  Grows.nodes_prefix (.evaluates h.evaluates)

theorem Begins.nodes_prefix (h : Begins w payload label b xs b') :
    b.graph.nodes ++ [⟨b.fresh payload.kind, label, w, payload⟩] <+: b'.graph.nodes :=
  Grows.nodes_prefix (Grows.head h.heads).2

theorem Performs.nodes_prefix (h : Performs w xs b b') : b.graph.nodes <+: b'.graph.nodes :=
  Grows.nodes_prefix h.executes.grows

theorem Holds.mono {id : NodeId} (h : b.Holds w id) (hn : b.graph.nodes <+: b'.graph.nodes) :
    b'.Holds w id := by
  obtain ⟨n, hm, hrest⟩ := h
  exact ⟨n, hn.subset hm, hrest⟩

theorem Holds.wire {id : NodeId} (h : b.Holds w id) (source target : NodeId) (kind : EdgeKind) :
    (b.wire source target kind).Holds w id := by
  unfold Holds
  rw [nodes_wire]
  exact h

theorem holds_block {b'' : Builder} {ys : List WrittenCall} {v : World}
    (owns : payload.kind.ownsWorld = true) (head : Begins w payload label b xs b')
    (body : Performs v ys b'.enter b'') : b''.leave.Holds w (b.fresh payload.kind) := by
  refine ⟨⟨b.fresh payload.kind, label, w, payload⟩, ?_, rfl, rfl, owns⟩
  apply body.nodes_prefix.subset
  apply head.nodes_prefix.subset
  exact List.mem_append_right _ List.mem_cons_self

end Stay

mutual
theorem fills_expr (w : World) (target : NodeId) {kind : EdgeKind} (data : kind.isData = true) :
    (e : Expr) → (b : Builder) →
      Fills w target (e.calls false) b (expr w (some ⟨target, kind⟩) e b)
  | .name id, b => by
    unfold expr Expr.calls
    exact .read target b id data
  | .literal text, b => by
    unfold expr Expr.calls
    exact .node .literal rfl data (.refl _ _)
  | .unary op operand, b => by
    unfold expr Expr.calls
    exact .node (.operator true) rfl data (fills_expr w _ rfl operand _)
  | .binary op left right, b => by
    unfold expr Expr.calls
    exact .node (.operator false) rfl data
      (.trans (fills_expr w _ rfl left _) (fills_expr w _ rfl right _))
  | .call callee args, b => by
    unfold expr Expr.calls
    exact .node (.call .function) rfl data (fills_arguments w _ _ args _)
  | .methodCall receiver method args, b => by
    unfold expr Expr.calls
    exact .node (.call .method) rfl data
      (.trans (fills_expr w _ rfl receiver _) (fills_arguments w _ _ args _))
  | .attribute object name, b => by
    unfold expr Expr.calls
    exact .node .attribute rfl data (fills_expr w _ rfl object _)
  | .subscript value key, b => by
    unfold expr Expr.calls
    exact .node .accessor rfl data
      (.trans (fills_expr w _ rfl value _) (fills_expr w _ rfl key _))
  | .list items, b => by
    unfold expr Expr.calls
    exact .node .listDisplay rfl data (fills_elements w _ _ items _)
  | .dict entries, b => by
    unfold expr Expr.calls
    exact .node .dictDisplay rfl data (fills_pairs w _ _ entries _)
  | .unsupported, b => by
    unfold expr Expr.calls
    exact .refl target b

theorem fills_arguments (w : World) (id : NodeId) (index : Nat) :
    (args : List Arg) → (b : Builder) →
      Fills w id (Arg.calls args) b (arguments w id index args b)
  | [], b => by
    unfold arguments Arg.calls
    exact .refl id b
  | .positional value :: args, b => by
    unfold arguments Arg.calls
    exact .trans (fills_expr w id rfl value b) (fills_arguments w id _ args _)
  | .keyword name value :: args, b => by
    unfold arguments Arg.calls
    exact .trans (fills_expr w id rfl value b) (fills_arguments w id _ args _)
  | .unpacked :: args, b => by
    unfold arguments Arg.calls
    exact fills_arguments w id index args b

theorem fills_elements (w : World) (id : NodeId) (index : Nat) :
    (items : List Expr) → (b : Builder) →
      Fills w id (Expr.callsOf items) b (elements w id index items b)
  | [], b => by
    unfold elements Expr.callsOf
    exact .refl id b
  | item :: items, b => by
    unfold elements Expr.callsOf
    exact .trans (fills_expr w id rfl item b) (fills_elements w id _ items _)

theorem fills_pairs (w : World) (id : NodeId) (index : Nat) :
    (entries : List Pair) → (b : Builder) →
      Fills w id (Pair.calls entries) b (pairs w id index entries b)
  | [], b => by
    unfold pairs Pair.calls
    exact .refl id b
  | .mk key value :: rest, b => by
    unfold pairs Pair.calls
    exact .trans (.trans (fills_expr w id rfl key b) (fills_expr w id rfl value _))
      (fills_pairs w id _ rest _)
end

theorem performs_alone {w : World} {site : CallSite} {xs : List WrittenCall} {b b' : Builder}
    (hs : site.target.isNone = true)
    (parts : Fills w (b.fresh .call) xs (b.add (.call site) label w) b') :
    Performs w (⟨label, true⟩ :: xs) b b' := by
  have hbegins : Begins w (.call site) label b (⟨label, true⟩ :: xs) b' := .plain hs parts
  exact .head hbegins

theorem performs_call (w : World) {e : Expr} (h : e.isCall = true) (b : Builder) :
    Performs w (e.calls true) b (expr w none e b) := by
  cases e with
  | call callee args =>
    unfold expr Expr.calls
    exact performs_alone rfl (fills_arguments w _ _ args _)
  | methodCall receiver method args =>
    unfold expr Expr.calls
    exact performs_alone rfl
      (.trans (fills_expr w _ rfl receiver _) (fills_arguments w _ _ args _))
  | _ => cases h

theorem begins_guard (w : World) (b : Builder) (payload : Payload) (h : payload.isPlain = true)
    (hk : payload.kind ≠ .call) (keyword : String) (test : Phrase) :
    Begins w payload (keyword ++ " " ++ test.text) b (test.expr.calls false)
      (b.guard payload keyword test w) := by
  have hinput : EdgeKind.input.isData = true := rfl
  have hbegins := Begins.plain h (fills_expr w (b.fresh payload.kind) hinput test.expr
    (b.add payload (keyword ++ " " ++ test.text) w))
  rw [Payload.written_of_kind hk] at hbegins
  exact hbegins

theorem performs_bindParam (w : World) (b : Builder) (name : String) (optional : Bool) :
    Performs w [] b (b.bindParam name optional w) := by
  have hbegins : Begins w (.variable (.param (b.symbols.nextVersion name) optional)) name b [] _ :=
    .binding rfl (.refl _ _)
  exact .head hbegins

theorem performs_write {w : World} {xs : List WrittenCall} {b b' : Builder} {name : String}
    (parts : Fills w (b.fresh .variable) xs
      (b.add (.variable (.write (b.symbols.nextVersion name))) name w) b') :
    Performs w xs b (b'.define name (b.fresh .variable) w) := by
  have hbegins : Begins w (.variable (.write (b.symbols.nextVersion name))) name b xs _ :=
    .binding rfl parts
  exact .head hbegins

theorem performs_foldl {α : Type} {w : World} {f : Builder → α → Builder}
    (hf : ∀ b a, Performs w [] b (f b a)) (as : List α) (b : Builder) :
    Performs w [] b (as.foldl f b) := by
  induction as generalizing b with
  | nil => exact .refl w b
  | cons a as ih => exact .trans (hf b a) (ih (f b a))

theorem performs_bindParams (w : World) (b : Builder) (params : List Param) :
    Performs w [] b (b.bindParams params w) := by
  apply performs_foldl
  intro b p
  exact performs_bindParam ..

theorem performs_bindNames (w : World) (b : Builder) (names : List String) :
    Performs w [] b (b.bindNames names w) := by
  apply performs_foldl
  intro b name
  exact performs_bindParam ..

mutual
theorem performs_statement (w : World) :
    (stmt : Stmt) → (b : Builder) → Performs w stmt.calls b (statement w stmt b)
  | .assign name value, b => by
    unfold statement Stmt.calls
    exact performs_write (fills_expr w _ rfl value _)
  | .augment name op value, b => by
    unfold statement Stmt.calls
    have hoperand : (EdgeKind.operand 0).isData = true := rfl
    have hwrites : EdgeKind.writesTo.isData = true := rfl
    apply performs_write
    exact .node (.operator false) rfl hwrites
      (.trans (.read _ _ name hoperand) (fills_expr w _ rfl value _))
  | .eval e, b => by
    unfold statement Stmt.calls
    split
    · exact performs_call w ‹_› b
    · exact .refl w b
  | .ret value, b => by
    unfold statement
    have hbegins : ∀ {xs b'}, Fills w (b.fresh .returnStmt) xs (b.add .returnStmt "return" w) b' →
        Begins w .returnStmt "return" b xs b' := fun parts => .plain rfl parts
    cases value with
    | none =>
      unfold Stmt.calls
      exact .head (hbegins (.refl _ _))
    | some e =>
      unfold Stmt.calls
      exact .head (hbegins (fills_expr w _ rfl e _))
  | .function name params body, b => by
    unfold statement Stmt.calls
    have hbegins : Begins w (.functionDef params) name b [] _ := .binding trivial (.refl _ _)
    exact .block rfl hbegins (.trans (performs_bindParams ..) (performs_statements _ body _))
  | .class name bases body, b => by
    unfold statement Stmt.calls
    have hbegins : Begins w (.classDef bases) name b [] _ := .binding trivial (.refl _ _)
    exact .block rfl hbegins (performs_statements _ body _)
  | .branch test body rest, b => by
    unfold statement Stmt.calls
    have hbegins := begins_guard w b .ifBlock rfl nofun "if" test
    have hbody := performs_statements (.body (b.fresh .ifBlock)) body
      (b.guard .ifBlock "if" test w).enter
    exact .trans (.block rfl hbegins hbody)
      (performs_alternatives w _ (holds_block rfl hbegins hbody) rest)
  | .each target source body, b => by
    unfold statement Stmt.calls
    have hiterates : EdgeKind.iteratesOn.isData = true := rfl
    have hbegins : Begins w (.forBlock target.text)
        ("for " ++ target.text ++ " in " ++ source.text) b (source.expr.calls false) _ :=
      .plain rfl (fills_expr w (b.fresh .forBlock) hiterates source.expr _)
    exact .block rfl hbegins (.trans (performs_bindNames ..) (performs_statements _ body _))
  | .while test body, b => by
    unfold statement Stmt.calls
    have hbegins := begins_guard w b .whileBlock rfl nofun "while" test
    exact .block rfl hbegins (performs_statements _ body _)
  | .attempt body clauses, b => by
    unfold statement Stmt.calls
    have hbegins : Begins w .tryBlock "try" b [] _ := .plain rfl (.refl _ _)
    have hbody := performs_statements (.body (b.fresh .tryBlock)) body
      (b.add .tryBlock "try" w).enter
    exact .trans (.block rfl hbegins hbody)
      (performs_handlers w _ 0 (holds_block rfl hbegins hbody) clauses)
  | .import text names, b => by
    unfold statement Stmt.calls
    exact .imports w b text names
  | .skip, b => by
    unfold statement Stmt.calls
    exact .refl w b

theorem performs_statements (w : World) :
    (stmts : List Stmt) → (b : Builder) → Performs w (Stmt.callsOf stmts) b (statements w stmts b)
  | [], b => by
    unfold statements Stmt.callsOf
    exact .refl w b
  | stmt :: rest, b => by
    unfold statements Stmt.callsOf
    exact .trans (performs_statement w stmt b) (performs_statements w rest _)

theorem performs_alternatives (w : World) (previous : NodeId) {b : Builder}
    (known : b.Holds w previous) : (clauses : Alternatives) →
      Performs w clauses.calls b (alternatives w previous clauses b)
  | .done => by
    unfold alternatives Alternatives.calls
    exact .refl w b
  | .elif test body rest => by
    unfold alternatives Alternatives.calls
    have hbegins := begins_guard w b .elifBlock rfl nofun "elif" test
    have hbody := performs_statements (.body (b.fresh .elifBlock)) body
      (b.guard .elifBlock "elif" test w).enter
    have hnext := (holds_block rfl hbegins hbody).wire previous (b.fresh .elifBlock)
      (.nextClause none)
    exact .trans (.clause known rfl hbegins hbody) (performs_alternatives w _ hnext rest)
  | .otherwise body => by
    unfold alternatives Alternatives.calls
    have hbegins : Begins w .elseBlock "else" b [] _ := .plain rfl (.refl _ _)
    exact .clause known rfl hbegins (performs_statements _ body _)

theorem performs_handlers (w : World) (owner : NodeId) (index : Nat) {b : Builder}
    (known : b.Holds w owner) : (clauses : List Handler) →
      Performs w (Handler.calls clauses) b (handlers w owner index clauses b)
  | [] => by
    unfold handlers Handler.calls
    exact .refl w b
  | .mk exception binding body :: rest => by
    unfold handlers Handler.calls
    have hbody := fun b' => Performs.trans
      (performs_bindNames (.body (b.fresh .exceptBlock)) b' binding.toList)
      (performs_statements _ body _)
    have hblock : ∀ {xs b'}, Begins w (.exceptBlock (exception.map (·.text)) binding)
        (handlerLabel exception binding) b xs b' → Performs w (xs ++ Stmt.callsOf body) b
          (statements (.body (b.fresh .exceptBlock)) body
            (b'.enter.bindNames binding.toList (.body (b.fresh .exceptBlock)))).leave :=
      fun hbegins => .block rfl hbegins (hbody _)
    have hrest : ∀ {xs b'}, Performs w xs b b' → Performs w (xs ++ Handler.calls rest) b
        (handlers w owner (index + 1) rest b') := fun hfirst =>
      .trans hfirst (performs_handlers w owner _ (known.mono hfirst.nodes_prefix) rest)
    cases exception with
    | none => exact hrest (hblock (.behind rfl rfl known (.refl _ _)))
    | some e => exact hrest (hblock (.behind rfl rfl known (fills_expr w _ rfl e.expr _)))
end

theorem executes_statements (w : World) (stmts : List Stmt) (b : Builder) :
    Executes w b (statements w stmts b) :=
  (performs_statements w stmts b).executes

end Builder

end ScopedFlow
