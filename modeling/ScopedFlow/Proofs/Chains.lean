import Mathlib.Data.List.Sort
import ScopedFlow.Proofs.Enclosure
import ScopedFlow.Proofs.Linking
import ScopedFlow.Proofs.Numbering
import ScopedFlow.Proofs.Statements

/-!
# Chains of clauses

One edge leads to each `elif` and `else`, from the block before it, and each block leads on to one
clause at most. The handlers of a `try` are all reached from it, by edges that are numbered in the
order of the text. By induction over the tree, wherever a block stands.
-/

namespace ScopedFlow

/-- Edges that lead from a block to a clause. -/
def EdgeKind.isClause : EdgeKind → Bool
  | .nextClause _ => true
  | _ => false

namespace Steps

variable {w : Place} {outer : List Place} {k : Nat} {all before ss : List Step}

/-- What leads to a node as to a clause. -/
def leaders (n : Nat) (ls : List Link) : List (Ref × EdgeKind) :=
  (inputs n ls).filter fun p => p.2.isClause

theorem leaders_append (n : Nat) (ls ls' : List Link) :
    leaders n (ls ++ ls') = leaders n ls ++ leaders n ls' := by
  rw [leaders, inputs_append, List.filter_append]
  rfl

theorem Keeps.leaders_eq_nil {P Q : Nat → Prop} {H : Place → Prop} (h : Keeps P Q H ss) {n : Nat}
    (hn : ¬ Q n) (before : List Step) : leaders n (collect joins before ss) = [] := by
  rw [leaders, h.inputs_eq_nil hn, List.filter_nil]

theorem leaders_wire (before : List Step) (owner n : Nat) (index : Option Nat) :
    leaders n (collect joins before [.wire owner ⟨n, .nextClause index⟩]) =
      [(.node owner, .nextClause index)] := by
  simp [leaders, inputs, joins, EdgeKind.isClause]

theorem leaders_operand (before : List Step) {kind : EdgeKind} (hk : kind.isClause = false)
    (e : Expr) :
    leaders k (collect joins before (expr w outer (some ⟨k, kind⟩) (k + 1) e)) = [] := by
  have hin : inputs k (collect joins before (expr w outer (some ⟨k, kind⟩) (k + 1) e)) =
      (root before w outer (k + 1) e).toList.map (·, kind) :=
    inputs_expr before ⟨k, kind⟩ (Nat.lt_succ_self k) e
  rw [leaders, hin]
  refine List.filter_eq_nil_iff.mpr fun p hp => ?_
  obtain ⟨r, -, rfl⟩ := List.mem_map.mp hp
  simp [hk]

def Made (all : List Step) (n : Nat) (w : Place) (payload : Payload) : Prop :=
  ∃ label, (sketches all)[n]? = some ⟨w, label, .plain payload⟩

def GoesOn (all : List Step) (n : Nat) : Prop :=
  outputs n all = [] ∨ ∃ t, outputs n all = [⟨t, .nextClause none⟩]

/-- One block leads to a clause of a condition. -/
def Alternates (all : List Step) (w : Place) (n : Nat) : Prop :=
  ∃ m payload, m < n ∧ Made all m w payload ∧ (payload = .ifBlock ∨ payload = .elifBlock) ∧
    leaders n (links all) = [(.node m, .nextClause none)]

/-- One `try` leads to a handler. -/
def Handles (all : List Step) (w : Place) (n : Nat) : Prop :=
  ∃ m index, m < n ∧ Made all m w .tryBlock ∧
    leaders n (links all) = [(.node m, .nextClause (some index))]

/-- A `try` leads to its handlers, which are counted in the order of the text. -/
def Attempts (all : List Step) (w : Place) (n : Nat) : Prop :=
  ∃ ts : List Nat, (n :: ts).Pairwise (· < ·) ∧
    (∀ t ∈ ts, ∃ exception binding, Made all t w (.exceptBlock exception binding)) ∧
    outputs n all = ts.zipIdx.map fun p => ⟨p.1, .nextClause (some p.2)⟩

/-- How the edges of a block have to lead. -/
def Chains (all : List Step) (w : Place) (n : Nat) : Payload → Prop
  | .ifBlock => GoesOn all n
  | .elifBlock => Alternates all w n ∧ GoesOn all n
  | .elseBlock => Alternates all w n
  | .tryBlock => Attempts all w n
  | .exceptBlock _ _ => Handles all w n
  | _ => True

def InChain (all : List Step) (n : Nat) : Prop :=
  ∀ w label payload, (sketches all)[n]? = some ⟨w, label, .plain payload⟩ → Chains all w n payload

/-- Something holds of `m` nodes from `k` on. -/
def Throughout (P : Nat → Prop) (k m : Nat) : Prop := ∀ n, Span k m n → P n

namespace Throughout

variable {P : Nat → Prop} {m m' : Nat}

theorem zero : Throughout P k 0 := by
  rintro n ⟨hk, hn⟩
  omega

theorem cons (h : P k) (hs : Throughout P (k + 1) m) : Throughout P k (1 + m) := by
  rintro n ⟨hk, hn⟩
  rcases Nat.eq_or_lt_of_le hk with rfl | hlt
  · exact h
  · exact hs n ⟨hlt, by omega⟩

theorem append (h : Throughout P k m) (h' : Throughout P (k + m) m') : Throughout P k (m + m') := by
  rintro n ⟨hk, hn⟩
  rcases Nat.lt_or_ge n (k + m) with hlt | hge
  · exact h n ⟨hk, hlt⟩
  · exact h' n ⟨hge, by omega⟩

end Throughout

end Steps

namespace Run
open Steps

variable {q : Run} {all before after : List Step} {w : Place} {outer : List Place} {k : Nat}
  {previous owner index : Nat}

section Blocks

variable {label : String} {payload : Payload} {mid tail : List Step} {names : List (String × Bool)}
  {body : List Stmt}

theorem Standing.leaders_block
    (h : Standing q all before (block w outer k label payload mid names body ++ tail) after w outer k) :
    ∃ b b', leaders k (links all) =
      leaders k (collect joins b mid) ++ leaders k (collect joins b' tail) := by
  rw [block, List.append_assoc, List.append_assoc] at h
  have hbody := (Keeps.enclosed (k := k) (contained_suite (w :: outer) k (k + 1 + count mid) names
    body)).leaders_eq_nil (n := k) fun hn => absurd hn.1 (by omega)
  have hin := congrArg (List.filter fun p : Ref × EdgeKind => p.2.isClause) (h.inputs_eq (by simp))
  change leaders k _ = leaders k _ at hin
  rw [collect_append, collect_append, leaders_append, leaders_append, hbody, List.nil_append] at hin
  exact ⟨_, _, hin⟩

end Blocks

theorem alternates_elif {test : Phrase} {body : List Stmt} {rest : Alternatives}
    (h : Standing q all before (alternatives w outer previous k (.elif test body rest)) after w outer
      k) {payload : Payload} (hp : previous < k) (hm : Made all previous w payload)
    (hpay : payload = .ifBlock ∨ payload = .elifBlock) : Alternates all w k := by
  rw [alternatives_elif] at h
  obtain ⟨b, b', hlead⟩ := h.leaders_block
  refine ⟨previous, payload, hp, hm, hpay, ?_⟩
  have hrest : ∀ b, leaders k (collect joins b (alternatives w outer k
      (k + count (conditional w outer k "elif" .elifBlock test body)) rest)) = [] := by
    refine Keeps.leaders_eq_nil (contained_alternatives ..) fun hn => ?_
    have hpos : k < k + count (conditional w outer k "elif" .elifBlock test body) :=
      count_block_pos ..
    exact Nat.not_le.mpr hpos hn.1
  rw [hlead, leaders_operand b rfl, collect_append, leaders_append, leaders_wire, hrest]
  rfl

theorem alternates_otherwise {body : List Stmt}
    (h : Standing q all before (alternatives w outer previous k (.otherwise body)) after w outer k)
    {payload : Payload} (hp : previous < k) (hm : Made all previous w payload)
    (hpay : payload = .ifBlock ∨ payload = .elifBlock) : Alternates all w k := by
  rw [alternatives_otherwise] at h
  obtain ⟨b, b', hlead⟩ := h.leaders_block
  refine ⟨previous, payload, hp, hm, hpay, ?_⟩
  rw [hlead, leaders_wire]
  rfl

theorem goesOn_of_outputs {rest : Alternatives} (hp : previous < k)
    (h : outputs previous all = outputs previous (alternatives w outer previous k rest)) :
    GoesOn all previous := by
  cases rest with
  | done => exact .inl h
  | elif test body rest =>
    refine .inr ⟨k, ?_⟩
    rw [h, alternatives_elif, outputs_append, outputs_conditional (Nat.le_of_lt hp), outputs_append,
      outputs_alternatives hp (Nat.lt_of_lt_of_le hp (Nat.le_add_right ..))]
    simp [outputs]
  | otherwise body =>
    refine .inr ⟨k, ?_⟩
    rw [h, alternatives_otherwise, outputs_append, outputs_block (Nat.le_of_lt hp)]
    simp [outputs]

theorem handles_cons {caught : Option Phrase} {binding : Option String} {body : List Stmt}
    {rest : List Handler}
    (h : Standing q all before (handlers w outer owner index k (.mk caught binding body :: rest))
      after w outer k) (hk : owner < k) (hm : Made all owner w .tryBlock) : Handles all w k := by
  rw [handlers_cons] at h
  obtain ⟨b, b', hlead⟩ := h.leaders_block
  refine ⟨owner, index, hk, hm, ?_⟩
  have hcaught : ∀ b, leaders k (collect joins b (exception w outer k caught)) = [] := by
    intro b
    cases caught with
    | none => rfl
    | some e => exact leaders_operand b rfl e.expr
  have hrest : ∀ b, leaders k (collect joins b (handlers w outer owner (index + 1)
      (k + count (handlerBlock w outer k owner index caught binding body)) rest)) = [] := by
    refine Keeps.leaders_eq_nil (contained_handlers ..) fun hn => ?_
    have hpos : k < k + count (handlerBlock w outer k owner index caught binding body) :=
      count_block_pos ..
    exact Nat.not_le.mpr hpos hn.1
  rw [hlead, collect_append, leaders_append, leaders_wire, hcaught, hrest]
  rfl

theorem attempts_handlers (clauses : List Handler) {before after : List Step} {k : Nat}
    (h : Standing q all before (handlers w outer owner index k clauses) after w outer k)
    (hk : owner < k) : ∃ ts : List Nat, (∀ t ∈ ts, k ≤ t) ∧ ts.Pairwise (· < ·) ∧
      (∀ t ∈ ts, ∃ exception binding, Made all t w (.exceptBlock exception binding)) ∧
      outputs owner (handlers w outer owner index k clauses) =
        (ts.zipIdx index).map fun p => ⟨p.1, .nextClause (some p.2)⟩ := by
  induction clauses generalizing before after index k with
  | nil => exact ⟨[], List.forall_mem_nil _, .nil, List.forall_mem_nil _, rfl⟩
  | cons clause rest ih =>
    obtain ⟨caught, binding, body⟩ := clause
    have hbelow := h.below
    rw [handlers_cons] at h ⊢
    have hpos : k < k + count (handlerBlock w outer k owner index caught binding body) :=
      count_block_pos ..
    have htail := follows_handler outer hk index caught binding body rest hbelow
    obtain ⟨ts, hle, hsorted, hmade, hout⟩ :=
      ih (h.after_block (flat_caught ..) htail) (Nat.lt_trans hk hpos)
    refine ⟨k :: ts, ?_, ?_, ?_, ?_⟩
    · intro t ht
      rcases List.mem_cons.mp ht with rfl | ht
      · exact Nat.le_refl t
      · exact Nat.le_of_lt (Nat.lt_of_lt_of_le hpos (hle t ht))
    · exact .cons (fun t ht => Nat.lt_of_lt_of_le hpos (hle t ht)) hsorted
    · refine List.forall_mem_cons.mpr ⟨?_, hmade⟩
      exact ⟨_, _, _, h.sketch_block⟩
    · rw [outputs_append, outputs_handlerBlock hk, List.zipIdx_cons, List.map_cons]
      exact congrArg (_ :: ·) hout

/-- Where the node with the number `n` stands: in front of the parts of an expression, as a name in
a header or in front of an assigned value, or as a statement, which is in its chain if it is a block. -/
inductive Site (q : Run) (all : List Step) (n : Nat) : Prop where
  | part {before after : List Step} {w : Place} {outer : List Place} {port : Option Port} {e : Expr}
    {label : String} {content : Content} (made : face e = some (label, content))
    (hp : ∀ p ∈ port, p.target < n)
    (stands : Standing q all before (place w label content n port ++ parts w outer n e) after w outer n)
  | variable {sketch : Sketch} (made : (sketches all)[n]? = some sketch)
    (hc : sketch.content = .write ∨ ∃ optional, sketch.content = .param optional)
  | statement {w : Place} {label : String} {payload : Payload}
    (made : (sketches all)[n]? = some ⟨w, label, .plain payload⟩) (chains : Chains all w n payload)

theorem sites_of_feeds {K : EdgeKind → Prop} {target : Option Nat} {ss : List Step}
    (f : Feeds w outer K target k ss) (h : Standing q all before ss after w outer k)
    (ht : ∀ n ∈ target, n < k) : Throughout (q.Site all) k (count ss) := by
  induction f generalizing before after with
  | nil => exact .zero
  | append first second ih ih' =>
    obtain ⟨hfirst, hsecond⟩ := h.split first.quiet ht second.local (Nat.le_refl _)
    rw [count_append]
    exact (ih hfirst ht).append (ih' hsecond fun n hn => Nat.lt_add_right _ (ht n hn))
  | read => exact .zero
  | @node _ _ _ made port _ k _ ih =>
    rw [count_append, count_place]
    exact .cons (.part made (fun p hp => ht _ (Option.mem_map_of_mem _ hp)) h)
      (ih h.behind fun n hn => Option.mem_some.mp hn ▸ Nat.lt_succ_self k)

theorem sites_expr {port : Option Port} {e : Expr}
    (h : Standing q all before (expr w outer port k e) after w outer k)
    (hp : ∀ p ∈ port, p.target < k) :
    Throughout (q.Site all) k (count (expr w outer port k e)) := by
  refine sites_of_feeds (feeds_port port k e) h fun n hn => ?_
  obtain ⟨p, hm, rfl⟩ := Option.map_eq_some_iff.mp hn
  exact hp p hm

theorem sites_header {rest : List Step} {names : List (String × Bool)}
    (h : Located all before (header w k names ++ rest) after k) :
    Throughout (q.Site all) k (count (header w k names)) := by
  induction names generalizing before k with
  | nil => exact .zero
  | cons p names ih =>
    obtain ⟨name, optional⟩ := p
    rw [header, List.append_assoc] at h
    have hhere : (sketches all)[k]? = some ⟨w, name, .param optional⟩ := by
      rw [h.text, List.append_assoc, ← h.number]
      exact sketch_here ..
    rw [header, count_append]
    exact .cons (.variable hhere (.inr ⟨optional, rfl⟩)) (ih h.right)

theorem Standing.sites_head {label : String} {content : Content} {kind : EdgeKind} {e : Expr}
    {rest : List Step} (h : Standing q all before (place w label content k none ++
      (expr w outer (some ⟨k, kind⟩) (k + 1) e ++ rest)) after w outer k) (hself : q.Site all k)
    (haway : Away (k + 1) (count (expr w outer (some ⟨k, kind⟩) (k + 1) e)) rest)
    (hzero : count rest = 0) : Throughout (q.Site all) k (count (place w label content k none ++
      (expr w outer (some ⟨k, kind⟩) (k + 1) e ++ rest))) := by
  have hexpr : Standing q all (before ++ place w label content k none)
      (expr w outer (some ⟨k, kind⟩) (k + 1) e) (rest ++ after) w outer (k + 1) :=
    ⟨h.draws, h.behind.located.left haway, h.behind.path⟩
  rw [count_append, count_place, count_append, hzero, Nat.add_zero]
  exact .cons hself (sites_expr hexpr (port_lt (Nat.lt_succ_self k) kind))

theorem sites_assign {name : String} {value : Expr}
    (h : Standing q all before (statement w outer k (.assign name value)) after w outer k) :
    Throughout (q.Site all) k (count (statement w outer k (.assign name value))) := by
  rw [statement_assign] at h ⊢
  exact h.sites_head (.variable h.located.sketch_place (.inl rfl)) (.bind ..) rfl

/-- The nodes of statements, wherever they stand. -/
def SuiteSites (q : Run) (all : List Step) (w : Place) (outer : List Place) (stmts : List Stmt) :
    Prop :=
  ∀ {before after : List Step} {k : Nat},
    Standing q all before (statements w outer k stmts) after w outer k →
    Throughout (q.Site all) k (count (statements w outer k stmts))

section Blocks

variable {label : String} {payload : Payload} {mid tail : List Step} {names : List (String × Bool)}
  {body : List Stmt}

theorem Standing.sites_block
    (h : Standing q all before (block w outer k label payload mid names body ++ tail) after w outer k)
    (hm : Flat w mid)
    (ht : Follows k (k + count (block w outer k label payload mid names body)) tail)
    (hself : Chains all w k payload)
    (hmid : ∀ {before after : List Step}, Standing q all before mid after w outer (k + 1) →
      Throughout (q.Site all) (k + 1) (count mid))
    (hbody : q.SuiteSites all (.body k) (w :: outer) body) :
    Throughout (q.Site all) k (count (block w outer k label payload mid names body)) := by
  rw [count_block] at ht ⊢
  rw [block, List.append_assoc, List.append_assoc] at h
  obtain ⟨hin, -⟩ := h.inside hm ht
  have hsuite := contained_suite (w :: outer) k (k + 1 + count mid) names body
  have htail : Away (k + 1) (count mid) tail := ht.away (Nat.lt_succ_self k) (by omega)
  have haway := (Contained.away_body hsuite (Nat.le_add_right ..)).append htail
  have hhead := hmid ⟨h.draws, h.behind.located.left haway, h.behind.path⟩
  have hnames := sites_header (q := q) hin.located
  have hrest := hbody ⟨h.draws, hin.located.right, (stands_header hin.stands names).path⟩
  rw [Nat.add_assoc, count_append]
  exact .cons (.statement h.located.sketch_place hself) (hhead.append (hnames.append hrest))

theorem Standing.sites_guarded {kind : EdgeKind} {e : Expr}
    (h : Standing q all before (block w outer k label payload
      (expr w outer (some ⟨k, kind⟩) (k + 1) e) names body ++ tail) after w outer k)
    (ht : Follows k (k + count (block w outer k label payload
      (expr w outer (some ⟨k, kind⟩) (k + 1) e) names body)) tail)
    (hself : Chains all w k payload) (hbody : q.SuiteSites all (.body k) (w :: outer) body) :
    Throughout (q.Site all) k (count (block w outer k label payload
      (expr w outer (some ⟨k, kind⟩) (k + 1) e) names body)) :=
  h.sites_block (.expr ..) ht hself
    (fun hs => sites_expr hs (port_lt (Nat.lt_succ_self k) kind)) hbody

end Blocks

mutual
theorem sites_statement {before after : List Step} {w : Place} {outer : List Place} {k : Nat} :
    (stmt : Stmt) → Standing q all before (statement w outer k stmt) after w outer k →
    Throughout (q.Site all) k (count (statement w outer k stmt))
  | .assign name value, h => sites_assign h
  | .augment name op value, h => by
    rw [statement_augment] at h ⊢
    exact sites_assign h
  | .eval e, h => by
    cases hc : e.isCall with
    | true =>
      rw [statement, if_pos hc] at h ⊢
      exact sites_expr h (by simp)
    | false =>
      rw [statement, hc, if_neg Bool.false_ne_true]
      exact .zero
  | .ret none, h => by
    rw [statement_bare_return] at h ⊢
    exact .cons (.statement h.located.sketch_place trivial) .zero
  | .ret (some value), h => by
    rw [statement_return] at h ⊢
    exact h.sites_head (.statement h.located.sketch_place trivial) .nil rfl
  | .function name params body, h => by
    rw [statement_function, ← List.append_nil (block ..)] at h
    rw [statement_function]
    exact h.sites_block (.bind ..) (.nil ..) trivial (fun _ => .zero) fun hs => sites_statements body hs
  | .class name bases body, h => by
    rw [statement_class, ← List.append_nil (block ..)] at h
    rw [statement_class]
    exact h.sites_block (.bind ..) (.nil ..) trivial (fun _ => .zero) fun hs => sites_statements body hs
  | .branch test body rest, h => by
    rw [statement_branch] at h ⊢
    have htail := follows_alternatives outer "if" .ifBlock test body rest h.below
    have hpos : k < k + count (conditional w outer k "if" .ifBlock test body) := count_block_pos ..
    rw [count_append]
    refine (h.sites_guarded htail (goesOn_of_outputs hpos h.outputs_behind)
      fun hs => sites_statements body hs).append ?_
    exact sites_alternatives rest (h.after_block (.expr ..) htail) hpos ⟨_, h.sketch_block⟩ (.inl rfl)
  | .each target source body, h => by
    rw [statement_each, ← List.append_nil (block ..)] at h
    rw [statement_each]
    exact h.sites_guarded (.nil ..) trivial fun hs => sites_statements body hs
  | .while test body, h => by
    rw [statement_while, ← List.append_nil (conditional ..)] at h
    rw [statement_while]
    exact h.sites_guarded (.nil ..) trivial fun hs => sites_statements body hs
  | .attempt body clauses, h => by
    rw [statement_attempt] at h ⊢
    have hpos : k < k + count (block w outer k "try" .tryBlock [] [] body) := count_block_pos ..
    have htail := follows_handlers outer (Nat.le_refl k) 0 "try" .tryBlock [] [] body clauses h.below
    have hafter := h.after_block (.nil w) htail
    obtain ⟨ts, hle, hsorted, hmade, hout⟩ := attempts_handlers clauses hafter hpos
    have hself : Attempts all w k := by
      refine ⟨ts, .cons (fun t ht => Nat.lt_of_lt_of_le hpos (hle t ht)) hsorted, hmade, ?_⟩
      rw [h.located.outputs_eq h.draws.wellFormed (.self k (by rw [count_append]; omega)),
        outputs_append, outputs_block (Nat.le_refl k)]
      exact hout
    rw [count_append]
    exact (h.sites_block (.nil w) htail hself (fun _ => .zero) fun hs => sites_statements body hs).append
      (sites_handlers clauses hafter hpos ⟨_, h.sketch_block⟩)
  | .import text names, h => by
    have hzero : count (names.map fun name => Step.bind name w k .imports) = 0 := by
      simp [count, sketches, sketch?]
    have hhere : (sketches all)[k]? = some ⟨.imports, text, .plain (.importStmt names)⟩ := by
      rw [h.located.text, List.append_assoc, ← h.located.number]
      exact sketch_here ..
    rw [statement, count_append, hzero]
    exact .cons (.statement hhere trivial) .zero
  | .skip, h => .zero

theorem sites_statements {before after : List Step} {w : Place} {outer : List Place} {k : Nat} :
    (stmts : List Stmt) → Standing q all before (statements w outer k stmts) after w outer k →
    Throughout (q.Site all) k (count (statements w outer k stmts))
  | [], h => .zero
  | stmt :: stmts, h => by
    obtain ⟨back, hfirst, hrest⟩ := h.split_statements
    rw [statements, count_append]
    exact (sites_statement stmt hfirst).append (sites_statements stmts hrest)

theorem sites_alternatives {before after : List Step} {w : Place} {outer : List Place}
    {previous k : Nat} {payload : Payload} : (rest : Alternatives) →
    Standing q all before (alternatives w outer previous k rest) after w outer k → previous < k →
    Made all previous w payload → (payload = .ifBlock ∨ payload = .elifBlock) →
    Throughout (q.Site all) k (count (alternatives w outer previous k rest))
  | .done, h, hp, hm, hpay => .zero
  | .elif test body rest, h, hp, hm, hpay => by
    have hself := alternates_elif h hp hm hpay
    have hbelow := h.below
    rw [alternatives_elif] at h ⊢
    have hpos : k < k + count (conditional w outer k "elif" .elifBlock test body) :=
      count_block_pos ..
    have htail := (Follows.wire (Nat.le_of_lt hp) none).append
      (follows_alternatives outer "elif" .elifBlock test body rest hbelow)
    have hafter := h.after_block (.expr ..) htail
    have hpath := (Flat.wire w previous ⟨k, .nextClause none⟩).path (before ++
      conditional w outer k "elif" .elifBlock test body)
    have hout : outputs k all = outputs k (alternatives w outer k
        (k + count (conditional w outer k "elif" .elifBlock test body)) rest) := by
      rw [h.outputs_behind, outputs_append]
      simp [outputs, Nat.ne_of_lt hp]
    rw [count_append, count_append]
    refine (h.sites_guarded htail ⟨hself, goesOn_of_outputs hpos hout⟩
      fun hs => sites_statements body hs).append (.append .zero ?_)
    exact sites_alternatives rest ⟨h.draws, hafter.located.right, hpath.trans hafter.path⟩ hpos
      ⟨_, h.sketch_block⟩ (.inr rfl)
  | .otherwise body, h, hp, hm, hpay => by
    have hself := alternates_otherwise h hp hm hpay
    rw [alternatives_otherwise] at h ⊢
    rw [count_append]
    exact (h.sites_block (.nil w) (.wire (Nat.le_of_lt hp) none) hself (fun _ => .zero)
      fun hs => sites_statements body hs).append .zero

theorem sites_handlers {before after : List Step} {w : Place} {outer : List Place}
    {owner index k : Nat} : (clauses : List Handler) →
    Standing q all before (handlers w outer owner index k clauses) after w outer k → owner < k →
    Made all owner w .tryBlock →
    Throughout (q.Site all) k (count (handlers w outer owner index k clauses))
  | [], h, ho, hm => .zero
  | .mk caught binding body :: rest, h, ho, hm => by
    have hself := handles_cons h ho hm
    have hbelow := h.below
    rw [handlers_cons] at h ⊢
    have hpos : k < k + count (handlerBlock w outer k owner index caught binding body) :=
      count_block_pos ..
    have htail := follows_handler outer ho index caught binding body rest hbelow
    rw [count_append]
    refine (h.sites_block (flat_caught ..) htail hself (fun hs => ?_)
      fun hs => sites_statements body hs).append
      (sites_handlers rest (h.after_block (flat_caught ..) htail) (Nat.lt_trans ho hpos) hm)
    cases caught with
    | none => exact .zero
    | some e =>
      rw [count_append]
      refine .append .zero (sites_expr ⟨hs.draws, hs.located.right, ?_⟩
        (port_lt (Nat.lt_succ_self k) .input))
      rw [(Flat.wire w owner ⟨k, .nextClause (some index)⟩).path]
      exact hs.path
end

theorem site_ofModule (supply : Supply) (module : List Stmt) {n : Nat}
    (hn : n < count (Steps.ofModule module)) :
    (ofModule supply module).Site (Steps.ofModule module) n :=
  sites_statements module (standing_ofModule supply module) n
    ⟨Nat.zero_le n, by rw [Nat.zero_add]; exact hn⟩

theorem inChain_ofModule (supply : Supply) (module : List Stmt) (n : Nat) :
    InChain (Steps.ofModule module) n := by
  intro w label payload hs
  cases site_ofModule supply module (lt_count_of_sketch hs) with
  | part made hp stands =>
    obtain ⟨rfl, rfl, rfl⟩ := Sketch.mk.inj (Option.some.inj (stands.located.sketch_place.symm.trans hs))
    have hpart := isPart_of_face made
    cases payload <;> trivial
  | «variable» made hc =>
    obtain rfl := Option.some.inj (made.symm.trans hs)
    rcases hc with hc | ⟨_, hc⟩ <;> cases hc
  | statement made chains =>
    obtain ⟨rfl, rfl, hp⟩ := Sketch.mk.inj (Option.some.inj (made.symm.trans hs))
    exact Content.plain.inj hp ▸ chains

end Run

namespace Graph

/-- The edges that lead to a node as to a clause. -/
def leadingTo (g : Graph) (id : NodeId) : List Edge :=
  (g.edgesTo id).filter fun e => e.kind.isClause

/-- The edges that lead from a block to its clauses. -/
def leadingFrom (g : Graph) (id : NodeId) : List Edge :=
  (g.edgesFrom id).filter fun e => e.kind.isClause

/-- The clauses of a graph hang together as in a text. The order of the nodes is that of the text,
so a clause comes behind the block that leads to it. -/
structure Chained (g : Graph) : Prop where
  alternative : ∀ c ∈ g.nodes, c.kind = .elifBlock ∨ c.kind = .elseBlock →
    ∃ m, (m.kind = .ifBlock ∨ m.kind = .elifBlock) ∧ m.world = c.world ∧ [m, c].Sublist g.nodes ∧
      g.leadingTo c.id = [⟨m.id, c.id, .nextClause none⟩]
  single : ∀ m ∈ g.nodes, m.kind = .ifBlock ∨ m.kind = .elifBlock → (g.leadingFrom m.id).length ≤ 1
  handler : ∀ c ∈ g.nodes, c.kind = .exceptBlock →
    ∃ m ∈ g.nodes, m.kind = .tryBlock ∧ m.world = c.world ∧
      ∃ index, g.leadingTo c.id = [⟨m.id, c.id, .nextClause (some index)⟩]
  numbered : ∀ m ∈ g.nodes, m.kind = .tryBlock → ∃ cs : List Node, (m :: cs).Sublist g.nodes ∧
    (∀ c ∈ cs, c.kind = .exceptBlock ∧ c.world = m.world) ∧
    g.leadingFrom m.id = cs.zipIdx.map fun p => ⟨m.id, p.1.id, .nextClause (some p.2)⟩

end Graph

namespace Steps

def number? : Item → Option Nat
  | .made n _ _ => some n
  | .proxy _ => none

theorem numbers_collect (before ss : List Step) :
    (collect asks before ss).filterMap number? = List.range' (count before) (count ss) := by
  induction ss generalizing before with
  | nil => rfl
  | cons s ss ih =>
    have hstep : (asks before s).filterMap number? = List.range' (count before) (count [s]) := by
      have hproxies : ∀ ps : List StandIn, (ps.map Item.proxy).filterMap number? = [] := by
        intro ps
        rw [List.filterMap_map]
        exact List.filterMap_eq_nil_iff.mpr fun _ _ => rfl
      cases s with
      | node sketch => rfl
      | _ => exact hproxies _
    have hcount : count (s :: ss) = count [s] + count ss := count_append [s] ss
    rw [collect_cons, List.filterMap_append, ih, hstep, hcount, count_append,
      List.range'_append_1]

theorem exists_items {all : List Step} {ts : List Nat} (hs : ts.Pairwise (· < ·))
    (hlt : ∀ t ∈ ts, t < count all) :
    ∃ is : List Item, is.Sublist (items all) ∧ is.map Item.ref = ts.map .node := by
  have hsub : ts.Sublist ((items all).filterMap number?) := by
    rw [items, numbers_collect, count_nil, ← List.range_eq_range']
    exact List.sublist_of_subperm_of_pairwise
      (List.subperm_of_subset (hs.imp Nat.ne_of_lt) fun t ht => List.mem_range.mpr (hlt t ht))
      (hs.imp Nat.le_of_lt) List.pairwise_le_range
  obtain ⟨is, his, rfl⟩ := List.sublist_filterMap_iff.mp hsub
  refine ⟨is.filter fun i => (number? i).isSome, List.filter_sublist.trans his, ?_⟩
  clear his hsub hlt hs
  induction is with
  | nil => rfl
  | cons i is ih =>
    cases i with
    | made n sketch version => exact congrArg (Ref.node n :: ·) ih
    | proxy s => exact ih

theorem nodup_numbered (source : NodeId) (ts : List Nat) (target : Nat → NodeId) :
    (ts.zipIdx.map fun p => (⟨source, target p.1, .nextClause (some p.2)⟩ : Edge)).Nodup := by
  refine List.Nodup.of_map (fun e : Edge => e.kind.index?) ?_
  have hindices : (ts.zipIdx.map fun p =>
      (⟨source, target p.1, .nextClause (some p.2)⟩ : Edge)).map (fun e => e.kind.index?) =
        (ts.zipIdx.map Prod.snd).map some := by
    rw [List.map_map, List.map_map]
    rfl
  rw [hindices, List.zipIdx_map_snd]
  exact List.Nodup.map (fun i j hij => Option.some.inj hij) (List.nodup_range' ..)

theorem mem_ownersFrom {all : List Step} {n : Nat} {sketch : Sketch}
    (hs : (sketches all)[n]? = some sketch)
    (ho : (sketch.content.payload 0).kind.ownsWorld = true) : n ∈ ownersFrom 0 all :=
  List.mem_filterMap.mpr ⟨(sketch, n), List.mk_mem_zipIdx_iff_getElem?.mpr hs, if_pos ho⟩

end Steps

namespace Run
open Steps

namespace Draws

variable {q : Run} {all : List Step} {w : Place} {n : Nat} {c : Node}

theorem leadingTo (h : Draws q all) (hn : n < count all) :
    q.linked.leadingTo (q.nodeId n) = Graph.distinct
      ((leaders n (links all)).map fun p => ⟨q.ref p.1, q.nodeId n, p.2⟩) := by
  rw [Graph.leadingTo, h.edgesTo hn, Graph.filter_distinct, List.filter_map]
  rfl

theorem leadingFrom (h : Draws q all) (hn : n < count all) (hname : ¬ Named all n) :
    q.linked.leadingFrom (q.nodeId n) = Graph.distinct
      (((outputs n all).filter fun p => p.kind.isClause).map fun p =>
        ⟨q.nodeId n, q.nodeId p.target, p.kind⟩) := by
  rw [Graph.leadingFrom, h.edgesFrom hn hname, Graph.filter_distinct, List.filter_map]
  rfl

theorem block_of_mem (h : Draws q all) (hc : c ∈ q.linked.nodes) (hk : c.kind.ownsWorld = true) :
    ∃ n w label payload, n ∈ ownersFrom 0 all ∧
      (sketches all)[n]? = some ⟨w, label, .plain payload⟩ ∧
      c = ⟨q.nodeId n, label, q.world w, payload⟩ := by
  rw [h.nodes] at hc
  obtain ⟨item, hi, rfl⟩ := List.mem_map.mp hc
  rw [finished, Graph.kind_settled] at hk
  obtain ⟨front, s, back, rfl, hs⟩ := mem_collect hi
  cases s with
  | node sketch =>
    obtain rfl := List.mem_singleton.mp hs
    obtain ⟨w, label, content⟩ := sketch
    cases content with
    | plain payload =>
      have hsketch := sketch_here front ⟨w, label, .plain payload⟩ back
      refine ⟨count front, w, label, payload, mem_ownersFrom hsketch hk, hsketch, ?_⟩
      refine finished_plain q _ w label ?_ _
      rintro site rfl
      cases hk
    | param optional => cases hk
    | write => cases hk
    | call isMethod args => cases isMethod <;> cases hk
  | read name v outer port =>
    obtain ⟨p, -, rfl⟩ := List.mem_map.mp hs
    cases hk
  | wire source port => cases hs
  | bind name body node home => cases hs
  | enter body => cases hs
  | leave => cases hs

theorem nodes_sublist (h : Draws q all) {ts : List Nat} (hs : ts.Pairwise (· < ·))
    (hlt : ∀ t ∈ ts, t < count all) :
    ∃ ns : List Node, ns.Sublist q.linked.nodes ∧ ns.map (·.id) = ts.map q.nodeId := by
  obtain ⟨is, his, hrefs⟩ := exists_items hs hlt
  refine ⟨is.map q.finished, h.nodes ▸ his.map q.finished, ?_⟩
  calc (is.map q.finished).map (·.id)
      = (is.map Item.ref).map q.ref := by
        rw [List.map_map, List.map_map]
        exact List.map_congr_left fun i _ => (Graph.id_settled ..).trans (q.id_draw i)
    _ = ts.map q.nodeId := by
        rw [hrefs, List.map_map]
        rfl

theorem eq_of_made (h : Draws q all) (hc : c ∈ q.linked.nodes) (hid : c.id = q.nodeId n)
    {payload : Payload} (hm : Made all n w payload) (hp : ∀ site, payload ≠ .call site) :
    c.payload = payload ∧ c.world = q.world w := by
  obtain ⟨label, hs⟩ := hm
  have hlookup := Graph.lookup_of_mem ((Graph.ids_link h.ids).symm ▸ h.ids) hc
  rw [hid] at hlookup
  obtain rfl := Option.some.inj (hlookup.symm.trans (h.lookup_plain hs hp))
  exact ⟨rfl, rfl⟩

theorem mem_nodes_inj (h : Draws q all) {d : Node} (hc : c ∈ q.linked.nodes)
    (hd : d ∈ q.linked.nodes) (hid : c.id = d.id) : c = d := by
  have hids : q.linked.ids.Nodup := (Graph.ids_link h.ids).symm ▸ h.ids
  exact List.inj_on_of_nodup_map hids hc hd hid

theorem alternative (h : Draws q all) (hc : c ∈ q.linked.nodes) (hid : c.id = q.nodeId n)
    (hworld : c.world = q.world w) (hn : n < count all) (ha : Alternates all w n) :
    ∃ m, (m.kind = .ifBlock ∨ m.kind = .elifBlock) ∧ m.world = c.world ∧
      [m, c].Sublist q.linked.nodes ∧
      q.linked.leadingTo c.id = [⟨m.id, c.id, .nextClause none⟩] := by
  obtain ⟨j, payload, hlt, hmade, hpay, hlead⟩ := ha
  have hsorted : [j, n].Pairwise (· < ·) := by simpa using hlt
  obtain ⟨ns, hsub, hids⟩ := h.nodes_sublist hsorted (by simpa using ⟨Nat.lt_trans hlt hn, hn⟩)
  obtain ⟨m, rest, rfl, hmid, hrest⟩ := List.map_eq_cons_iff.mp hids
  obtain ⟨d, rest, rfl, hdid, hnil⟩ := List.map_eq_cons_iff.mp hrest
  obtain rfl := List.map_eq_nil_iff.mp hnil
  obtain rfl := h.mem_nodes_inj hc (hsub.subset (by simp)) (hid.trans hdid.symm)
  obtain ⟨hpayload, hmworld⟩ := h.eq_of_made (hsub.subset List.mem_cons_self) hmid hmade
    (by rcases hpay with rfl | rfl <;> simp)
  refine ⟨m, ?_, hmworld.trans hworld.symm, hsub, ?_⟩
  · rcases hpay with rfl | rfl
    · exact .inl (congrArg Payload.kind hpayload)
    · exact .inr (congrArg Payload.kind hpayload)
  · rw [hid, hmid, h.leadingTo hn, hlead, Graph.distinct_eq_self (by simp)]
    rfl

theorem handler (h : Draws q all) (hid : c.id = q.nodeId n) (hworld : c.world = q.world w)
    (hn : n < count all) (ha : Handles all w n) :
    ∃ m ∈ q.linked.nodes, m.kind = .tryBlock ∧ m.world = c.world ∧
      ∃ index, q.linked.leadingTo c.id = [⟨m.id, c.id, .nextClause (some index)⟩] := by
  obtain ⟨j, index, hlt, ⟨label, hs⟩, hlead⟩ := ha
  have hlookup := h.lookup_plain hs (by simp)
  refine ⟨_, Graph.mem_of_lookup hlookup, rfl, hworld.symm, index, ?_⟩
  rw [hid, h.leadingTo hn, hlead, Graph.distinct_eq_self (by simp)]
  rfl

theorem single (h : Draws q all) (hn : n < count all) (hname : ¬ Named all n)
    (hg : GoesOn all n) : (q.linked.leadingFrom (q.nodeId n)).length ≤ 1 := by
  rw [h.leadingFrom hn hname]
  rcases hg with hg | ⟨t, hg⟩
  · rw [hg]
    exact Nat.zero_le 1
  · rw [hg]
    exact Nat.le_refl 1

theorem numbered (h : Draws q all) {m : Node} (hm : m ∈ q.linked.nodes) (hid : m.id = q.nodeId n)
    (hworld : m.world = q.world w) (hn : n < count all) (hname : ¬ Named all n)
    (ha : Attempts all w n) : ∃ cs : List Node, (m :: cs).Sublist q.linked.nodes ∧
      (∀ c ∈ cs, c.kind = .exceptBlock ∧ c.world = m.world) ∧
      q.linked.leadingFrom m.id =
        cs.zipIdx.map fun p => ⟨m.id, p.1.id, .nextClause (some p.2)⟩ := by
  obtain ⟨ts, hsorted, hmade, hout⟩ := ha
  have hlt : ∀ t ∈ n :: ts, t < count all := by
    refine List.forall_mem_cons.mpr ⟨hn, fun t ht => ?_⟩
    obtain ⟨exception, binding, label, hs⟩ := hmade t ht
    exact lt_count_of_sketch hs
  obtain ⟨ns, hsub, hids⟩ := h.nodes_sublist hsorted hlt
  obtain ⟨d, cs, rfl, hdid, hcids⟩ := List.map_eq_cons_iff.mp hids
  obtain rfl := h.mem_nodes_inj hm (hsub.subset List.mem_cons_self) (hid.trans hdid.symm)
  refine ⟨cs, hsub, ?_, ?_⟩
  · intro c hc
    have hcid : c.id ∈ ts.map q.nodeId := hcids ▸ List.mem_map_of_mem hc
    obtain ⟨t, ht, hteq⟩ := List.mem_map.mp hcid
    obtain ⟨exception, binding, ht⟩ := hmade t ht
    obtain ⟨hpayload, hcworld⟩ := h.eq_of_made (hsub.subset (List.mem_cons_of_mem _ hc)) hteq.symm ht
      (by simp)
    exact ⟨congrArg Payload.kind hpayload, hcworld.trans hworld.symm⟩
  · have hedges : cs.zipIdx.map (fun p => (⟨m.id, p.1.id, .nextClause (some p.2)⟩ : Edge)) =
        ts.zipIdx.map fun p => ⟨q.nodeId n, q.nodeId p.1, .nextClause (some p.2)⟩ := by
      have hzip := congrArg (fun ids : List NodeId => ids.zipIdx.map fun p =>
        (⟨q.nodeId n, p.1, .nextClause (some p.2)⟩ : Edge)) hcids
      simp only [List.zipIdx_map, List.map_map] at hzip
      rw [hid]
      exact hzip
    rw [hedges, hid, h.leadingFrom hn hname, hout, List.filter_eq_self.mpr, List.map_map,
      Graph.distinct_eq_self]
    · rfl
    · exact Steps.nodup_numbered (q.nodeId n) ts q.nodeId
    · intro p hp
      obtain ⟨x, -, rfl⟩ := List.mem_map.mp hp
      rfl

theorem chained (h : Draws q all) (hin : ∀ n, InChain all n) :
    q.linked.Chained where
  alternative c hc hk := by
    have howns : c.kind.ownsWorld = true := by rcases hk with hk | hk <;> rw [hk] <;> rfl
    obtain ⟨n, w, label, payload, hn, hs, rfl⟩ := h.block_of_mem hc howns
    refine h.alternative hc rfl rfl (lt_count_of_sketch hs) ?_
    have hchain := hin n w label payload hs
    cases payload with
    | elifBlock => exact hchain.1
    | elseBlock => exact hchain
    | _ => rcases hk with hk | hk <;> cases hk
  single m hm hk := by
    have howns : m.kind.ownsWorld = true := by rcases hk with hk | hk <;> rw [hk] <;> rfl
    obtain ⟨n, w, label, payload, hn, hs, rfl⟩ := h.block_of_mem hm howns
    have hchain := hin n w label payload hs
    cases payload with
    | ifBlock => exact h.single (lt_count_of_sketch hs) (Steps.not_named hs rfl) hchain
    | elifBlock => exact h.single (lt_count_of_sketch hs) (Steps.not_named hs rfl) hchain.2
    | _ => rcases hk with hk | hk <;> cases hk
  handler c hc hk := by
    obtain ⟨n, w, label, payload, hn, hs, rfl⟩ := h.block_of_mem hc (by rw [hk]; rfl)
    have hchain := hin n w label payload hs
    cases payload with
    | exceptBlock exception binding => exact h.handler rfl rfl (lt_count_of_sketch hs) hchain
    | _ => cases hk
  numbered m hm hk := by
    obtain ⟨n, w, label, payload, hn, hs, rfl⟩ := h.block_of_mem hm (by rw [hk]; rfl)
    have hchain := hin n w label payload hs
    cases payload with
    | tryBlock =>
      exact h.numbered hm rfl rfl (lt_count_of_sketch hs) (Steps.not_named hs rfl) hchain
    | _ => cases hk

end Draws

end Run

end ScopedFlow
