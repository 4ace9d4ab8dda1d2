import ScopedFlow.Proofs.Feeding

/-!
# The shapes of statements

A statement is a node, often with expressions that feed it, and a block has a body behind that head,
which binds the names of its header first. Blocks that go together are joined by the edges from a
clause to the next. What holds of all statements is proved along these few shapes.
-/

namespace ScopedFlow

/-- Whether a node with this payload may be bound to a name: it is labelled so, or it is an import
that binds it. -/
def Payload.Binds (label name : String) : Payload → Prop
  | .variable _ | .functionDef _ | .classDef _ => label = name
  | .importStmt names => name ∈ names
  | _ => False

namespace Steps

variable {w : Place} {outer : List Place} {k : Nat}

/-- A node with what is read for it and the body that it owns, which binds the names of its header
first. -/
def block (w : Place) (outer : List Place) (k : Nat) (label : String) (payload : Payload)
    (mid : List Step) (names : List (String × Bool)) (body : List Stmt) : List Step :=
  let head := header (.body k) (k + 1 + count mid) names
  place w label (.plain payload) k none ++ (mid ++ enclosed k
    (head ++ statements (.body k) (w :: outer) (k + 1 + count mid + count head) body))

theorem count_block (label : String) (payload : Payload) (mid : List Step)
    (names : List (String × Bool)) (body : List Stmt) :
    count (block w outer k label payload mid names body) = 1 + count mid +
      count (header (.body k) (k + 1 + count mid) names ++ statements (.body k) (w :: outer)
        (k + 1 + count mid + count (header (.body k) (k + 1 + count mid) names)) body) := by
  simp only [block, count_append, count_place, count_enclosed, Nat.add_assoc]

theorem count_block_pos (label : String) (payload : Payload) (mid : List Step)
    (names : List (String × Bool)) (body : List Stmt) :
    k < k + count (block w outer k label payload mid names body) := by
  rw [count_block]
  omega

section Shapes

variable (w : Place) (outer : List Place) (k : Nat)

theorem statement_augment (name op : String) (value : Expr) :
    statement w outer k (.augment name op value) =
      statement w outer k (.assign name (.binary op (.name name) value)) := by
  simp only [statement, expr, List.append_assoc]
  rfl

theorem statement_assign (name : String) (value : Expr) :
    statement w outer k (.assign name value) = place w name .write k none ++
      (expr w outer (some ⟨k, .writesTo⟩) (k + 1) value ++ [.bind name w k w]) :=
  List.append_assoc ..

theorem statement_return (value : Expr) :
    statement w outer k (.ret (some value)) = place w "return" (.plain .returnStmt) k none ++
      (expr w outer (some ⟨k, .input⟩) (k + 1) value ++ []) :=
  congrArg (_ :: ·) (List.append_nil _).symm

theorem statement_bare_return :
    statement w outer k (.ret none) = place w "return" (.plain .returnStmt) k none ++ [] := rfl

theorem statement_function (name : String) (params : List Param) (body : List Stmt) :
    statement w outer k (.function name params body) =
      block w outer k name (.functionDef params) [.bind name w k w] (paramNames params) body := rfl

theorem statement_class (name : String) (bases : List String) (body : List Stmt) :
    statement w outer k (.class name bases body) =
      block w outer k name (.classDef bases) [.bind name w k w] [] body := rfl

theorem block_expr (label : String) (payload : Payload) (kind : EdgeKind) (e : Expr)
    (names : List (String × Bool)) (body : List Stmt) :
    let head := [.node ⟨w, label, .plain payload⟩] ++ expr w outer (some ⟨k, kind⟩) (k + 1) e
    let vars := header (.body k) (k + count head) names
    block w outer k label payload (expr w outer (some ⟨k, kind⟩) (k + 1) e) names body =
      head ++ enclosed k
        (vars ++ statements (.body k) (w :: outer) (k + count head + count vars) body) := by
  have hcount : k + count ([.node ⟨w, label, .plain payload⟩] ++
      expr w outer (some ⟨k, kind⟩) (k + 1) e) =
        k + 1 + count (expr w outer (some ⟨k, kind⟩) (k + 1) e) := by
    rw [count_append, ← Nat.add_assoc]
    rfl
  simp only [hcount]
  rfl

def conditional (keyword : String) (payload : Payload) (test : Phrase) (body : List Stmt) :
    List Step :=
  block w outer k (keyword ++ " " ++ test.text) payload
    (expr w outer (some ⟨k, .input⟩) (k + 1) test.expr) [] body

theorem statement_while (test : Phrase) (body : List Stmt) :
    statement w outer k (.while test body) =
      conditional w outer k "while" .whileBlock test body :=
  (block_expr w outer k _ _ .input test.expr [] body).symm

theorem statement_each (target : Target) (source : Phrase) (body : List Stmt) :
    statement w outer k (.each target source body) =
      block w outer k ("for " ++ target.text ++ " in " ++ source.text) (.forBlock target.text)
        (expr w outer (some ⟨k, .iteratesOn⟩) (k + 1) source.expr) (loopNames target.names) body :=
  (block_expr w outer k _ _ .iteratesOn source.expr (loopNames target.names) body).symm

theorem statement_branch (test : Phrase) (body : List Stmt) (rest : Alternatives) :
    let first := conditional w outer k "if" .ifBlock test body
    statement w outer k (.branch test body rest) =
      first ++ alternatives w outer k (k + count first) rest := by
  simp only [conditional, block_expr, count_append _ (enclosed _ _), ← Nat.add_assoc]
  rfl

theorem alternatives_elif (previous : Nat) (test : Phrase) (body : List Stmt)
    (rest : Alternatives) :
    let first := conditional w outer k "elif" .elifBlock test body
    alternatives w outer previous k (.elif test body rest) = first ++
      ([.wire previous ⟨k, .nextClause none⟩] ++ alternatives w outer k (k + count first) rest) := by
  simp only [conditional, block_expr, count_append _ (enclosed _ _), ← Nat.add_assoc,
    ← List.append_assoc]
  rfl

theorem alternatives_otherwise (previous : Nat) (body : List Stmt) :
    alternatives w outer previous k (.otherwise body) =
      block w outer k "else" .elseBlock [] [] body ++ [.wire previous ⟨k, .nextClause none⟩] := rfl

theorem statement_attempt (body : List Stmt) (clauses : List Handler) :
    let first := block w outer k "try" .tryBlock [] [] body
    statement w outer k (.attempt body clauses) =
      first ++ handlers w outer k 0 (k + count first) clauses := by
  simp only [statement, count_block, ← Nat.add_assoc, count_enclosed]
  rfl

def handlerBlock (owner index : Nat) (caught : Option Phrase) (binding : Option String)
    (body : List Stmt) : List Step :=
  block w outer k (Builder.handlerLabel caught binding)
    (.exceptBlock (caught.map (·.text)) binding)
    ([.wire owner ⟨k, .nextClause (some index)⟩] ++ exception w outer k caught)
    (loopNames binding.toList) body

theorem handlers_cons (owner index : Nat) (caught : Option Phrase) (binding : Option String)
    (body : List Stmt) (rest : List Handler) :
    let first := handlerBlock w outer k owner index caught binding body
    handlers w outer owner index k (.mk caught binding body :: rest) =
      first ++ handlers w outer owner (index + 1) (k + count first) rest := by
  have hcount : k + count (handled w outer owner index k caught binding) = k + 1 +
      count ([.wire owner ⟨k, .nextClause (some index)⟩] ++ exception w outer k caught) := by
    rw [handled, List.append_assoc, count_append, ← Nat.add_assoc]
    rfl
  simp only [handlerBlock, handlers, count_block, ← Nat.add_assoc, hcount, count_enclosed]
  rfl

end Shapes

/-- What stands between the node of a block and its body: its name is bound, or expressions feed
it, if need be behind an edge from the clause `source`. -/
inductive Preamble (w : Place) (outer : List Place) (label : String) (payload : Payload)
    (source : Option Nat) (k : Nat) : List Step → Prop where
  | names (binds : payload.Binds label label) :
    Preamble w outer label payload source k [.bind label w k w]
  | feeds {ss : List Step} (parts : Feeds w outer (·.isData = true) (some k) (k + 1) ss) :
    Preamble w outer label payload source k ss
  | behind {owner : Nat} (ho : owner ∈ source) (index : Nat) {ss : List Step}
    (parts : Feeds w outer (·.isData = true) (some k) (k + 1) ss) :
    Preamble w outer label payload source k ([.wire owner ⟨k, .nextClause (some index)⟩] ++ ss)

/-- Steps of statements in the world `w` that give numbers from `k` on. The first of them may be a
clause behind the clause `source`. -/
inductive Suite : Place → List Place → Option Nat → Nat → List Step → Prop where
  | nil (w : Place) (outer : List Place) (source : Option Nat) (k : Nat) : Suite w outer source k []
  | append {w : Place} {outer : List Place} {source source' : Option Nat} {k : Nat}
    {ss ts : List Step} (first : Suite w outer source k ss)
    (hs : ∀ j ∈ source', j ∈ source ∨ k ≤ j ∧ j < k + count ss)
    (second : Suite w outer source' (k + count ss) ts) : Suite w outer source k (ss ++ ts)
  | plain {w : Place} {outer : List Place} (source : Option Nat) (label : String) {content : Content}
    (hc : content.isPart = true ∨ content = .plain .returnStmt) {k : Nat} {ss : List Step}
    (parts : Feeds w outer (·.isData = true) (some k) (k + 1) ss) :
    Suite w outer source k (place w label content k none ++ ss)
  | write {w : Place} {outer : List Place} (source : Option Nat) (name : String) {k : Nat}
    {ss : List Step} (parts : Feeds w outer (·.isData = true) (some k) (k + 1) ss) :
    Suite w outer source k (place w name .write k none ++ (ss ++ [.bind name w k w]))
  | imports (w : Place) (outer : List Place) (source : Option Nat) (k : Nat) (text : String)
    (names : List String) : Suite w outer source k
      (place .imports text (.plain (.importStmt names)) k none ++
        names.map fun name => .bind name w k .imports)
  | block {w : Place} {outer : List Place} {source : Option Nat} {k : Nat} (label : String)
    {payload : Payload} (owns : payload.kind.ownsWorld = true) {mid : List Step}
    (preamble : Preamble w outer label payload source k mid) (names : List (String × Bool))
    {inner : List Step} (body : Suite (.body k) (w :: outer) none
      (k + 1 + count mid + count (header (.body k) (k + 1 + count mid) names)) inner) :
    Suite w outer source k (place w label (.plain payload) k none ++
      (mid ++ enclosed k (header (.body k) (k + 1 + count mid) names ++ inner)))
  | joined {w : Place} {outer : List Place} {source : Option Nat} {k : Nat} {ss : List Step}
    {previous : Nat} (hp : previous ∈ source) (made : k < k + count ss)
    (first : Suite w outer source k ss) :
    Suite w outer source k (ss ++ [.wire previous ⟨k, .nextClause none⟩])

theorem feeds_input (kind : EdgeKind) (hd : kind.isData = true) (e : Expr) :
    Feeds w outer (·.isData = true) (some k) (k + 1) (expr w outer (some ⟨k, kind⟩) (k + 1) e) :=
  feeds_operand (fun _ => id) k hd (k + 1) e

theorem suite_call {e : Expr} (h : e.isCall = true) :
    Suite w outer none k (expr w outer none k e) := by
  cases e with
  | call callee args =>
    unfold expr
    exact .plain none callee (.inl rfl) (feeds_arguments (fun _ => id) ..)
  | methodCall receiver method args =>
    unfold expr
    rw [List.append_assoc]
    exact .plain none method (.inl rfl)
      (.append (feeds_input .attributeValue rfl receiver) (feeds_arguments (fun _ => id) ..))
  | _ => cases h

theorem Suite.next {source : Option Nat} {ss ts : List Step} (first : Suite w outer source k ss)
    (made : k < k + count ss) (second : Suite w outer (some k) (k + count ss) ts) :
    Suite w outer source k (ss ++ ts) := by
  refine first.append (fun j hj => ?_) second
  obtain rfl := Option.mem_some.mp hj
  exact .inr ⟨Nat.le_refl _, made⟩

theorem Suite.clause {previous : Nat} {ss ts : List Step}
    (first : Suite w outer (some previous) k ss) (made : k < k + count ss)
    (rest : Suite w outer (some k) (k + count ss) ts) :
    Suite w outer (some previous) k (ss ++ ([.wire previous ⟨k, .nextClause none⟩] ++ ts)) := by
  have hcount : count (ss ++ [.wire previous ⟨k, .nextClause none⟩]) = count ss := count_append ..
  rw [← List.append_assoc]
  refine (first.joined rfl made).next ?_ ?_
  · rwa [hcount]
  · rwa [hcount]

mutual
theorem suite_statement (w : Place) (outer : List Place) (k : Nat) :
    (stmt : Stmt) → Suite w outer none k (statement w outer k stmt)
  | .assign name value => by
    rw [statement_assign]
    exact .write none name (feeds_input .writesTo rfl value)
  | .augment name op value => by
    rw [statement_augment, statement_assign]
    exact .write none name (feeds_input .writesTo rfl _)
  | .eval e => by
    unfold statement
    split
    · exact suite_call ‹_›
    · exact .nil ..
  | .ret none => .plain none "return" (.inr rfl) (.nil ..)
  | .ret (some e) => .plain none "return" (.inr rfl) (feeds_input .input rfl e)
  | .function name params body => by
    rw [statement_function]
    have hpreamble : Preamble w outer name (.functionDef params) none k _ := .names rfl
    exact .block name rfl hpreamble _ (suite_statements ..)
  | .class name bases body => by
    rw [statement_class]
    have hpreamble : Preamble w outer name (.classDef bases) none k _ := .names rfl
    exact .block name rfl hpreamble _ (suite_statements ..)
  | .branch test body rest => by
    rw [statement_branch]
    have hfirst : Suite w outer none k (conditional w outer k "if" .ifBlock test body) :=
      .block _ rfl (.feeds (feeds_input .input rfl test.expr)) [] (suite_statements ..)
    exact hfirst.next (count_block_pos ..) (suite_alternatives ..)
  | .each target source body => by
    rw [statement_each]
    exact .block _ rfl (.feeds (feeds_input .iteratesOn rfl source.expr)) _ (suite_statements ..)
  | .while test body => by
    rw [statement_while]
    exact .block _ rfl (.feeds (feeds_input .input rfl test.expr)) [] (suite_statements ..)
  | .attempt body clauses => by
    rw [statement_attempt]
    have hfirst : Suite w outer none k (block w outer k "try" .tryBlock [] [] body) :=
      .block _ rfl (.feeds (.nil ..)) [] (suite_statements ..)
    exact hfirst.next (count_block_pos ..) (suite_handlers ..)
  | .import text names => .imports ..
  | .skip => .nil ..

theorem suite_statements (w : Place) (outer : List Place) (k : Nat) :
    (stmts : List Stmt) → Suite w outer none k (statements w outer k stmts)
  | [] => .nil ..
  | stmt :: rest => by
    unfold statements
    exact (suite_statement w outer k stmt).append (fun _ => .inl) (suite_statements ..)

theorem suite_alternatives (w : Place) (outer : List Place) (previous k : Nat) :
    (rest : Alternatives) → Suite w outer (some previous) k (alternatives w outer previous k rest)
  | .done => .nil ..
  | .elif test body rest => by
    rw [alternatives_elif]
    have hfirst : Suite w outer (some previous) k (conditional w outer k "elif" .elifBlock test body) :=
      .block _ rfl (.feeds (feeds_input .input rfl test.expr)) [] (suite_statements ..)
    exact hfirst.clause (count_block_pos ..) (suite_alternatives ..)
  | .otherwise body => by
    rw [alternatives_otherwise]
    have hfirst : Suite w outer (some previous) k (block w outer k "else" .elseBlock [] [] body) :=
      .block _ rfl (.feeds (.nil ..)) [] (suite_statements ..)
    exact hfirst.joined rfl (count_block_pos ..)

theorem suite_handlers (w : Place) (outer : List Place) (owner index k : Nat) :
    (clauses : List Handler) →
      Suite w outer (some owner) k (handlers w outer owner index k clauses)
  | [] => .nil ..
  | .mk caught binding body :: rest => by
    rw [handlers_cons]
    have hcaught : Feeds w outer (·.isData = true) (some k) (k + 1) (exception w outer k caught) := by
      cases caught with
      | none => exact .nil ..
      | some e => exact feeds_input .input rfl e.expr
    have hfirst : Suite w outer (some owner) k
        (handlerBlock w outer k owner index caught binding body) :=
      .block _ rfl (.behind rfl index hcaught) _ (suite_statements ..)
    exact hfirst.append (fun _ => .inl) (suite_handlers ..)
end

end Steps

end ScopedFlow
