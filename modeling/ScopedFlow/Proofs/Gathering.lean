import ScopedFlow.Proofs.Bodies

/-!
# Nodes of one sort in the order of the text

What can be read off single nodes, such as literals, imports and the headers of blocks, is found in
the nodes of a text in the order in which a walk over the tree comes to it.
-/

namespace ScopedFlow

namespace Steps

variable {α : Type} {f : Sketch → Option α} {w : Place} {outer : List Place} {k : Nat}

/-- What is read off the sketches of some steps. -/
def gather (f : Sketch → Option α) (ss : List Step) : List α := (sketches ss).filterMap f

@[simp] theorem gather_append (ss ts : List Step) :
    gather f (ss ++ ts) = gather f ss ++ gather f ts := by
  simp [gather]

theorem gather_enclosed (k : Nat) (ss : List Step) : gather f (enclosed k ss) = gather f ss := by
  simp [gather, enclosed, sketch?]

theorem gather_place (label : String) (content : Content) (port : Option Port) :
    gather f (place w label content k port) = (f ⟨w, label, content⟩).toList := by
  cases port <;> simp [gather, place, sketch?, List.filterMap_cons] <;> split <;> simp_all

theorem gather_binds (names : List String) (node : Nat) (home : Place) :
    gather f (names.map fun name => .bind name w node home) = [] := by
  induction names with
  | nil => rfl
  | cons name names ih => exact ih

theorem gather_expr_eq_nil
    (h : ∀ w label content, content.isPart = true → f ⟨w, label, content⟩ = none) (port : Option Port)
    (k : Nat) (e : Expr) : gather f (expr w outer port k e) = [] := by
  have hfeeds {K : EdgeKind → Prop} {target : Option Nat} {k : Nat} {ss : List Step}
      (hs : Feeds w outer K target k ss) : gather f ss = [] := by
    induction hs with
    | nil => rfl
    | append _ _ ih ih' => rw [gather_append, ih, ih', List.append_nil]
    | read => rfl
    | node made _ _ ih =>
      rw [gather_append, gather_place, h _ _ _ (isPart_of_face made), ih]
      rfl
  exact hfeeds (feeds_port port k e)

/-- A walk over trees in the order of the text: `own` is for the header of a block, `use` for an
expression that something uses and `load` for an import. -/
structure Walks (own : String → Payload → List α) (use : Expr → List α) (load : String → List α)
    (S : Stmt → List α) (SS : List Stmt → List α) (A : Alternatives → List α)
    (H : List Handler → List α) : Prop where
  assign : ∀ name value, S (.assign name value) = use value
  augment : ∀ name op value, S (.augment name op value) = use (.binary op (.name name) value)
  eval : ∀ e, S (.eval e) = if e.isCall then use e else []
  ret : ∀ e, S (.ret (some e)) = use e
  bareRet : S (.ret none) = []
  define : ∀ name params body,
    S (.function name params body) = own name (.functionDef params) ++ SS body
  record : ∀ name bases body, S (.class name bases body) = own name (.classDef bases) ++ SS body
  branch : ∀ test body rest, S (.branch test body rest) =
    own ("if" ++ " " ++ test.text) .ifBlock ++ (use test.expr ++ (SS body ++ A rest))
  each : ∀ target source body, S (.each target source body) =
    own ("for " ++ target.text ++ " in " ++ source.text) (.forBlock target.text) ++
      (use source.expr ++ SS body)
  loop : ∀ test body, S (.while test body) =
    own ("while" ++ " " ++ test.text) .whileBlock ++ (use test.expr ++ SS body)
  attempt : ∀ body clauses, S (.attempt body clauses) = own "try" .tryBlock ++ (SS body ++ H clauses)
  loads : ∀ text names, S (.import text names) = load text
  skip : S .skip = []
  nil : SS [] = []
  cons : ∀ stmt rest, SS (stmt :: rest) = S stmt ++ SS rest
  done : A .done = []
  elif : ∀ test body rest, A (.elif test body rest) =
    own ("elif" ++ " " ++ test.text) .elifBlock ++ (use test.expr ++ (SS body ++ A rest))
  otherwise : ∀ body, A (.otherwise body) = own "else" .elseBlock ++ SS body
  last : H [] = []
  except : ∀ e binding body rest, H (.mk (some e) binding body :: rest) =
    own (Builder.handlerLabel (some e) binding) (.exceptBlock (some e.text) binding) ++
      (use e.expr ++ (SS body ++ H rest))
  bareExcept : ∀ binding body rest, H (.mk none binding body :: rest) =
    own (Builder.handlerLabel none binding) (.exceptBlock none binding) ++ (SS body ++ H rest)

/-- What is read off nodes is what a walk finds at their places in the tree. -/
structure Gathers (f : Sketch → Option α) (own : String → Payload → List α) (use : Expr → List α)
    (load : String → List α) (S : Stmt → List α) (SS : List Stmt → List α)
    (A : Alternatives → List α) (H : List Handler → List α) : Prop
    extends Walks own use load S SS A H where
  owner : ∀ w label payload, payload.kind.ownsWorld = true →
    (f ⟨w, label, .plain payload⟩).toList = own label payload
  used : ∀ w outer port k e, port.isSome = true ∨ e.isCall = true →
    gather f (expr w outer port k e) = use e
  loaded : ∀ label names, (f ⟨.imports, label, .plain (.importStmt names)⟩).toList = load label
  write : ∀ w label, f ⟨w, label, .write⟩ = none
  param : ∀ w label optional, f ⟨w, label, .param optional⟩ = none
  returns : ∀ w label, f ⟨w, label, .plain .returnStmt⟩ = none

section Walks

variable {own : String → Payload → List α} {use : Expr → List α} {load : String → List α}
  {S : Stmt → List α} {SS : List Stmt → List α} {A : Alternatives → List α} {H : List Handler → List α}
  (h : Gathers f own use load S SS A H)
include h

theorem gather_header (names : List (String × Bool)) : gather f (header w k names) = [] := by
  induction names generalizing k with
  | nil => rfl
  | cons p names ih =>
    have hnode : gather f (place w p.1 (.param p.2) k none) = [] := by
      rw [gather_place, h.param]
      rfl
    exact (gather_append ..).trans (congrArg₂ (· ++ ·) hnode ih)

theorem gather_block (label : String) {payload : Payload} (hp : payload.kind.ownsWorld = true)
    {mid : List Step} {names : List (String × Bool)} {body : List Stmt} {inner : List α}
    (hbody : ∀ k', gather f (statements (.body k) (w :: outer) k' body) = inner) :
    gather f (block w outer k label payload mid names body) =
      own label payload ++ (gather f mid ++ inner) := by
  rw [block, gather_append, gather_append, gather_enclosed, gather_append, gather_place,
    h.owner w label payload hp, gather_header h, hbody, List.nil_append]

theorem gather_use (kind : EdgeKind) (owner : Nat) (e : Expr) :
    gather f (expr w outer (some ⟨owner, kind⟩) k e) = use e := h.used _ _ _ _ _ (.inl rfl)

mutual
theorem gather_statement {w : Place} {outer : List Place} {k : Nat} :
    (stmt : Stmt) → gather f (statement w outer k stmt) = S stmt
  | .assign name value => by
    rw [statement_assign, gather_append, gather_append, gather_place, h.write, gather_use h, h.assign]
    exact List.append_nil _
  | .augment name op value => by
    rw [statement_augment, statement_assign, gather_append, gather_append, gather_place, h.write,
      gather_use h, h.augment]
    exact List.append_nil _
  | .eval e => by
    rw [statement, h.eval]
    split
    · exact h.used _ _ _ _ _ (.inr ‹_›)
    · rfl
  | .ret none => by
    rw [statement_bare_return, List.append_nil, gather_place, h.returns, h.bareRet]
    rfl
  | .ret (some e) => by
    rw [statement_return, gather_append, List.append_nil, gather_place, h.returns, gather_use h, h.ret]
    rfl
  | .function name params body => by
    rw [statement_function, gather_block h name rfl fun _ => gather_statements body, h.define]
    rfl
  | .class name bases body => by
    rw [statement_class, gather_block h name rfl fun _ => gather_statements body, h.record]
    rfl
  | .branch test body rest => by
    rw [statement_branch, gather_append, conditional,
      gather_block h _ rfl fun _ => gather_statements body, gather_use h, gather_alternatives rest,
      List.append_assoc, List.append_assoc, h.branch]
  | .each target source body => by
    rw [statement_each, gather_block h _ rfl fun _ => gather_statements body, gather_use h, h.each]
  | .while test body => by
    rw [statement_while, conditional, gather_block h _ rfl fun _ => gather_statements body,
      gather_use h, h.loop]
  | .attempt body clauses => by
    rw [statement_attempt, gather_append, gather_block h _ rfl fun _ => gather_statements body,
      gather_handlers clauses, List.append_assoc, h.attempt]
    rfl
  | .import text names => by
    have hnode : gather f (place .imports text (.plain (.importStmt names)) k none) = load text := by
      rw [gather_place, h.loaded]
    rw [statement, gather_append, gather_binds, List.append_nil, h.loads]
    exact hnode
  | .skip => h.skip.symm

theorem gather_statements {w : Place} {outer : List Place} {k : Nat} :
    (stmts : List Stmt) → gather f (statements w outer k stmts) = SS stmts
  | [] => h.nil.symm
  | stmt :: rest => by
    rw [statements, gather_append, gather_statement stmt, gather_statements rest, h.cons]

theorem gather_alternatives {w : Place} {outer : List Place} {previous k : Nat} :
    (rest : Alternatives) → gather f (alternatives w outer previous k rest) = A rest
  | .done => h.done.symm
  | .elif test body rest => by
    rw [alternatives_elif, gather_append, gather_append, conditional,
      gather_block h _ rfl fun _ => gather_statements body, gather_use h, gather_alternatives rest,
      List.append_assoc, List.append_assoc, h.elif]
    rfl
  | .otherwise body => by
    rw [alternatives_otherwise, gather_append, gather_block h _ rfl fun _ => gather_statements body,
      h.otherwise]
    exact List.append_nil _

theorem gather_handlers {w : Place} {outer : List Place} {owner index k : Nat} :
    (clauses : List Handler) → gather f (handlers w outer owner index k clauses) = H clauses
  | [] => h.last.symm
  | .mk caught binding body :: rest => by
    rw [handlers_cons, gather_append, handlerBlock,
      gather_block h _ rfl fun _ => gather_statements body, gather_handlers rest, List.append_assoc,
      gather_append, List.append_assoc]
    cases caught with
    | none => exact (h.bareExcept ..).symm
    | some e =>
      rw [exception, gather_use h]
      exact (h.except ..).symm
end

end Walks

end Steps

theorem Run.gather_items {α : Type} {f : Sketch → Option α} {draw : Item → Node}
    {g : Node → Option α} (hmade : ∀ k sketch version, g (draw (.made k sketch version)) = f sketch)
    (hproxy : ∀ s, g (draw (.proxy s)) = none) (all : List Step) :
    ((Steps.items all).map draw).filterMap g = Steps.gather f all := by
  have hcollect : ∀ before ss, ((Steps.collect Steps.asks before ss).map draw).filterMap g =
      Steps.gather f ss := by
    intro before ss
    induction ss generalizing before with
    | nil => rfl
    | cons s ss ih =>
      have hstep : ((Steps.asks before s).map draw).filterMap g = Steps.gather f [s] := by
        cases s with
        | node sketch => simp [Steps.asks, Steps.gather, Steps.sketch?, hmade, List.filterMap_cons]
        | read name w outer port =>
          refine List.filterMap_eq_nil_iff.mpr fun n hn => ?_
          obtain ⟨item, hi, rfl⟩ := List.mem_map.mp hn
          obtain ⟨p, -, rfl⟩ := List.mem_map.mp hi
          exact hproxy p
        | _ => rfl
      rw [Steps.collect_cons, List.map_append, List.filterMap_append, ih, hstep]
      exact (Steps.gather_append [s] ss).symm
  exact hcollect [] all

end ScopedFlow
