import ScopedFlow.Proofs.Clauses

/-!
# The lines of statements

By induction over a statement in its place, the nodes that it adds to its world have the lines of a
like statement; a body is written by the same argument one world deeper, and a clause with the block
that leads to it.
-/

namespace ScopedFlow

namespace Run
open Steps

variable {q : Run} {all before after rest : List Step} {w : Place} {outer : List Place} {k : Nat}
  {style : CodeStyle} {L : Likeness} {c : Prop} {opened : List NodeId} {f : NodeId → Option Code}
  {name keyword : String}

theorem Standing.codeOf_head {label : String} {content : Content}
    (h : Standing q all before (place w label content k none ++ rest) after w outer k)
    (hr : InnerIn w (before ++ place w label content k none) rest) (style : CodeStyle)
    (f : NodeId → Option Code) : ∃ version,
      codeOf q style f (itemsIn w before (place w label content k none ++ rest)) =
        q.linked.statementCode style f (q.finished (.made k ⟨w, label, content⟩ version)) := by
  have hfirst : itemsIn w before (place w label content k none) =
      [.made k ⟨w, label, content⟩ ((bindings before w label).length + 1)] := by
    rw [← h.located.number]
    simp [itemsIn, place, asks, Item.home]
  have hall : all = before ++ place w label content k none ++ rest ++ after := by
    rw [h.located.text, ← List.append_assoc]
  refine ⟨(bindings before w label).length + 1, ?_⟩
  rw [itemsIn_append, codeOf_skip_right _ (h.draws.codeOf_inner hall hr), hfirst, codeOf_singleton]

section Blocks

variable {label : String} {payload : Payload} {mid tail : List Step}
  {names : List (String × Bool)} {body : List Stmt}

theorem Standing.codeOf_block
    (h : Standing q all before (block w outer k label payload mid names body ++ tail) after w outer k)
    (hp : ∀ site, payload ≠ .call site)
    (hmid : InnerIn w (before ++ place w label (.plain payload) k none) mid)
    (htail : InnerIn w (before ++ block w outer k label payload mid names body) tail) :
    codeOf q style f (itemsIn w before (block w outer k label payload mid names body ++ tail)) =
      q.linked.statementCode style f ⟨q.nodeId k, label, q.world w, payload⟩ := by
  have hbelow := h.below
  have himports := h.not_imports
  rw [block, List.append_assoc] at h ⊢
  rw [block, ← List.append_assoc] at htail
  obtain ⟨version, hv⟩ := h.codeOf_head
    (innerIn_behind hbelow himports (by omega) hmid htail) style f
  rw [hv, Draws.finished_plain q k w label hp version]

theorem Standing.sketch_block
    (h : Standing q all before (block w outer k label payload mid names body ++ tail) after w outer k) :
    (sketches all)[k]? = some ⟨w, label, .plain payload⟩ := by
  rw [block, List.append_assoc] at h
  exact h.located.sketch_place

end Blocks

theorem writes_assign (hs : Sound L c all) {value : Expr}
    (h : Standing q all before (statement w outer k (.assign name value)) after w outer k)
    (he : value.isPlain = true) : Code.Faithful c (fun lines => ∃ value', value.Like L value' ∧
        lines = [⟨0, name ++ " = " ++ value'.print⟩])
      (codeOf q style f (itemsIn w before (statement w outer k (.assign name value)))) := by
  rw [statement_assign] at h ⊢
  have hvalue : q.WiredOrUnbound style L c all k .writesTo value :=
    h.header hs [] he rfl rfl (by simp) (.bind ..) (by simp [joins])
  obtain ⟨version, hv⟩ := h.codeOf_head
    (((inner_expr (by simp [h.located.number]) rfl value).innerIn w).append (.of_nil rfl)) style f
  rw [hv]
  rcases hvalue with ⟨id, hin, hfaithful⟩ | ⟨-, name, -, ht⟩
  · rw [finished, Graph.settled_of_site rfl]
    simp only [Graph.statementCode, draw, hin]
    refine .line_map hfaithful ?_
    rintro _ ⟨value', hvalue, rfl⟩
    exact ⟨value', hvalue, rfl⟩
  · cases ht

theorem writes_return (hs : Sound L c all) {value : Expr}
    (h : Standing q all before (statement w outer k (.ret (some value))) after w outer k)
    (he : value.isPlain = true) :
    Code.Faithful c (Stmt.Writes L (.ret (some value)))
      (codeOf q style f (itemsIn w before (statement w outer k (.ret (some value))))) := by
  rw [statement_return] at h ⊢
  have hvalue : q.WiredOrUnbound style L c all k .input value :=
    h.header hs [] he rfl rfl (by simp) .nil (by simp)
  obtain ⟨version, hv⟩ := h.codeOf_head
    (((inner_expr (by simp [h.located.number]) rfl value).innerIn w).append (.of_nil rfl)) style f
  rw [hv]
  rcases hvalue with ⟨id, hin, hfaithful⟩ | ⟨-, name, -, ht⟩
  · rw [Draws.finished_plain q k w _ (by simp)]
    simp only [Graph.statementCode, hin]
    refine .line_map hfaithful ?_
    rintro _ ⟨value', hvalue, rfl⟩
    exact ⟨.ret (some value'), .value hvalue, rfl⟩
  · simp only [Tolerates, h.located.sketch_place, Option.map_some] at ht

theorem writes_bare_return
    (h : Standing q all before (statement w outer k (.ret none)) after w outer k) :
    Code.Faithful c (Stmt.Writes L (.ret none))
      (codeOf q style f (itemsIn w before (statement w outer k (.ret none)))) := by
  rw [statement_bare_return] at h ⊢
  have hin : q.linked.input (q.nodeId k) (fun other => other = .input) = none := by
    rw [h.draws.input h.lt_count, h.inputs_eq (by simp)]
    rfl
  obtain ⟨version, hv⟩ := h.codeOf_head (.of_nil rfl) style f
  rw [hv, Draws.finished_plain q k w _ (by simp)]
  simp only [Graph.statementCode, hin]
  refine .line (.plain (P := (· = "return")) rfl) ?_
  rintro _ rfl
  exact ⟨.ret none, .ret, rfl⟩

theorem Standing.feeds_call {label : String} {isMethod : Bool} {args : List Arg} {e : Expr}
    (h : Standing q all before (place w label (.call isMethod args) k none ++ parts w outer k e)
      after w outer k) : q.linked.feeds (q.nodeId k) = false := by
  have hspan : Span k (count (place w label (.call isMethod args) k none ++ parts w outer k e)) k :=
    .self k (by rw [count_append, count_place]; omega)
  have hparts : outputs k (parts w outer k e) = [] :=
    Keeps.outputs_eq_nil (local_parts k e) fun hs => absurd hs.1 (by omega)
  have hout : outputs k all = [] := by
    rw [h.located.outputs_eq h.draws.wellFormed hspan, outputs_append, hparts]
    rfl
  rw [Graph.feeds, h.draws.edgesFrom h.lt_count (h.not_named rfl), hout]
  rfl

theorem writes_call (hs : Sound L c all) {e : Expr} (hc : e.isCall = true)
    (h : Standing q all before (expr w outer none k e) after w outer k) (he : e.isPlain = true) :
    Code.Faithful c (Stmt.Writes L (.eval e))
      (codeOf q style f (itemsIn w before (expr w outer none k e))) := by
  obtain ⟨label, isMethod, args, hface⟩ :
      ∃ label isMethod args, face e = some (label, .call isMethod args) := by
    cases e with
    | call callee args => exact ⟨_, _, _, rfl⟩
    | methodCall object method args => exact ⟨_, _, _, rfl⟩
    | _ => cases hc
  have hroot : root before w outer k e = some (.node k) := by
    cases e with
    | call callee args => rfl
    | methodCall object method args => rfl
    | _ => cases hc
  have hvalue : q.Renders style L c [] e (.node k) :=
    renders_expr hs e h (.inr hc) (by simp) he (by simp [Clear]) hroot
  rw [expr_eq_place hface none k (.inr hc)] at h ⊢
  obtain ⟨version, hv⟩ := h.codeOf_head
    ((inner_parts (by simp [h.located.number]) _).innerIn w) style f
  obtain ⟨g, hg⟩ := Graph.exists_mapSite q.builder.graph
    (q.draw (.made k ⟨w, label, .call isMethod args⟩ version))
  rw [hv, finished, hg]
  simp only [Node.mapSite, draw, Content.payload, Graph.statementCode, h.feeds_call,
    Bool.false_eq_true, if_false]
  refine .line hvalue ?_
  rintro _ ⟨e', hlike, rfl⟩
  refine ⟨.eval e', .call hc hlike, ?_⟩
  have hc' : e'.isCall = true := by
    cases hlike with
    | call => rfl
    | methodCall => rfl
    | _ => cases hc
  rw [Stmt.lines, if_pos hc']

theorem writes_import {text : String} {names : List String}
    (h : Standing q all before (statement w outer k (.import text names)) after w outer k) :
    codeOf q style f (itemsIn w before (statement w outer k (.import text names))) =
      some .empty := by
  have hkeeps : Keeps (fun _ => True) (fun _ => True) (· = .imports)
      (statement w outer k (.import text names)) := by
    refine ⟨fun _ _ _ _ => trivial, fun _ _ _ _ => trivial, fun s hs p hp => ?_⟩
    rcases List.mem_cons.mp hs with rfl | hs
    · exact (Option.some.inj hp).symm
    · obtain ⟨name, -, rfl⟩ := List.mem_map.mp hs
      cases hp
  rw [hkeeps.itemsIn_eq_nil h.not_imports]
  rfl

section Bodies

variable {label : String} {payload : Payload} {mid tail : List Step}
  {names : List (String × Bool)} {body : List Stmt} {test : Phrase}

theorem BodyWrites.block {header : Rendered} {W : String → Prop} {R : List CodeLine → Prop}
    (hb : q.BodyWrites style L c opened k body) (hh : header.Faithful c W)
    (hf : ∀ text body', W text → Stmt.AllLike L body body' →
      R (⟨0, text⟩ :: suite (Stmt.allLines body'))) :
    Code.Faithful c R (Code.block header (q.linked.bodyCode style opened (q.nodeId k))) := by
  obtain ⟨x, hx, hbody⟩ := hb
  rw [hx]
  refine Code.Faithful.block hh hbody ?_
  rintro text _ ht ⟨body', hlike, rfl⟩
  exact hf text body' ht hlike

theorem BodyWrites.block_plain {text : String} {R : List CodeLine → Prop}
    (hb : q.BodyWrites style L c opened k body)
    (hf : ∀ body', Stmt.AllLike L body body' → R (⟨0, text⟩ :: suite (Stmt.allLines body'))) :
    Code.Faithful c R
      (Code.block (.plain text) (q.linked.bodyCode style opened (q.nodeId k))) := by
  refine hb.block (.plain (P := (· = text)) rfl) ?_
  rintro _ body' rfl hlike
  exact hf body' hlike

theorem classHeader_eq (n : Node) (bases : List String) :
    Graph.classHeader n bases = "class " ++ n.label ++ basesText bases ++ ":" := by
  have hclose : "):" = ")" ++ ":" := rfl
  unfold Graph.classHeader basesText
  split
  · rw [String.append_empty]
  · rw [hclose]
    simp only [String.append_assoc]

/-- The lines are those of a like condition and of a like body below it. -/
def ConditionWrites (L : Likeness) (keyword : String) (test : Phrase) (body : List Stmt)
    (lines : List CodeLine) : Prop :=
  ∃ test' body', test.Like L test' ∧ Stmt.AllLike L body body' ∧
    lines = ⟨0, keyword ++ " " ++ test'.expr.print ++ ":"⟩ :: suite (Stmt.allLines body')

theorem Standing.codeOf_conditional
    (h : Standing q all before (conditional w outer k keyword payload test body ++ tail) after w
      outer k) (hp : ∀ site, payload ≠ .call site)
    (ht : InnerIn w (before ++ conditional w outer k keyword payload test body) tail) :
    codeOf q style f (itemsIn w before (conditional w outer k keyword payload test body ++ tail)) =
      q.linked.statementCode style f
        ⟨q.nodeId k, keyword ++ " " ++ test.text, q.world w, payload⟩ :=
  h.codeOf_block hp ((inner_expr (by simp [h.located.number]) rfl _).innerIn w) ht

section Owned

variable (ho : q.Earlier k opened)
  (hb : q.SuiteWrites style L c all (.body k) (w :: outer) (q.nodeId k :: opened) k body)
include ho hb

theorem writes_function {params : List Param}
    (h : Standing q all before (statement w outer k (.function name params body)) after w outer k) :
    Code.Faithful c (Stmt.Writes L (.function name params body))
      (codeOf q style (fun id => q.linked.bodyCode style opened id)
        (itemsIn w before (statement w outer k (.function name params body)))) := by
  rw [statement_function, ← List.append_nil (block ..)] at h ⊢
  rw [h.codeOf_block (by simp) (.of_nil rfl) (.of_nil rfl)]
  refine (h.body_writes (.bind ..) (.nil ..) ho hb).block_plain fun body' hlike => ?_
  exact ⟨.function name params body', .function name params hlike, rfl⟩

theorem writes_class {bases : List String}
    (h : Standing q all before (statement w outer k (.class name bases body)) after w outer k) :
    Code.Faithful c (Stmt.Writes L (.class name bases body))
      (codeOf q style (fun id => q.linked.bodyCode style opened id)
        (itemsIn w before (statement w outer k (.class name bases body)))) := by
  rw [statement_class, ← List.append_nil (block ..)] at h ⊢
  rw [h.codeOf_block (by simp) (.of_nil rfl) (.of_nil rfl)]
  refine (h.body_writes (.bind ..) (.nil ..) ho hb).block_plain fun body' hlike => ?_
  exact ⟨.class name bases body', .class name bases hlike, by rw [classHeader_eq, Stmt.lines]⟩

theorem Standing.conditional_writes (hs : Sound L c all)
    (h : Standing q all before (conditional w outer k keyword payload test body ++ tail) after w
      outer k) (hp : payload = .ifBlock ∨ payload = .elifBlock ∨ payload = .whileBlock)
    (he : test.expr.isPlain = true)
    (ht : Follows k (k + count (conditional w outer k keyword payload test body)) tail) :
    Code.Faithful c (ConditionWrites L keyword test body) (Code.block (q.linked.testHeader style
      ⟨q.nodeId k, keyword ++ " " ++ test.text, q.world w, payload⟩ keyword)
      (q.linked.bodyCode style opened (q.nodeId k))) := by
  have htest : q.WiredOrUnbound style L c all k .input test.expr :=
    h.block_header hs [] he (by simp) rfl rfl (by simp) ht
  refine (h.body_writes (.expr ..) ht ho hb).block
    (faithful_test h.sketch_block hp htest rfl rfl) ?_
  rintro _ body' ⟨test', hlike, rfl⟩ hbody
  exact ⟨test', body', hlike, hbody, rfl⟩

theorem writes_while (hs : Sound L c all)
    (h : Standing q all before (statement w outer k (.while test body)) after w outer k)
    (he : test.expr.isPlain = true) :
    Code.Faithful c (Stmt.Writes L (.while test body))
      (codeOf q style (fun id => q.linked.bodyCode style opened id)
        (itemsIn w before (statement w outer k (.while test body)))) := by
  rw [statement_while, ← List.append_nil (conditional ..)] at h ⊢
  rw [h.codeOf_conditional (by simp) (.of_nil rfl)]
  refine (h.conditional_writes ho hb hs (.inr (.inr rfl)) he (.nil ..)).mono ?_
  rintro _ ⟨test', body', htest, hbody, rfl⟩
  exact ⟨.while test' body', .while htest hbody, rfl⟩

theorem writes_each (hs : Sound L c all) {target : Target} {source : Phrase}
    (h : Standing q all before (statement w outer k (.each target source body)) after w outer k)
    (htarget : target.text ≠ "") (he : source.expr.isPlain = true) :
    Code.Faithful c (Stmt.Writes L (.each target source body))
      (codeOf q style (fun id => q.linked.bodyCode style opened id)
        (itemsIn w before (statement w outer k (.each target source body)))) := by
  rw [statement_each, ← List.append_nil (block ..)] at h ⊢
  have hsource : q.WiredOrUnbound style L c all k .iteratesOn source.expr :=
    h.block_header hs [] he (by simp) rfl rfl (by simp) (.nil ..)
  rw [h.codeOf_block (by simp) ((inner_expr (by simp [h.located.number]) rfl _).innerIn w)
    (.of_nil rfl)]
  refine (h.body_writes (.expr ..) (.nil ..) ho hb).block
    (faithful_loop htarget hsource rfl rfl) ?_
  rintro _ body' ⟨source', hsource', rfl⟩ hlike
  exact ⟨.each target source' body', .each target hsource' hlike, rfl⟩

end Owned

end Bodies

section Clauses

variable {previous : Nat} {seen : List NodeId} {body : List Stmt} {test : Phrase}

/-- The clauses behind the clause `previous` have the lines of like ones. -/
def ChainWrites (q : Run) (style : CodeStyle) (L : Likeness) (c : Prop) (opened seen : List NodeId)
    (previous : Nat) (rest : Alternatives) : Prop :=
  Code.Faithful c (rest.Writes L) (Code.concat ((q.linked.clausesFrom seen (q.nodeId previous)).map
    (q.linked.clauseCode style fun id => q.linked.bodyCode style opened id)))

theorem outputs_alternatives {n k' : Nat} (hn : n < previous) (hk : n < k') (rest : Alternatives) :
    outputs n (alternatives w outer previous k' rest) = [] := by
  refine Keeps.outputs_eq_nil (contained_alternatives w outer previous k' rest) ?_
  rintro (he | he)
  · obtain rfl := Option.mem_some.mp he
    exact Nat.lt_irrefl _ hn
  · exact absurd he.1 (Nat.not_le.mpr hk)

theorem outputs_conditional {n : Nat} (hn : n ≤ k) (keyword : String) (payload : Payload)
    (test : Phrase) (body : List Stmt) :
    outputs n (conditional w outer k keyword payload test body) = [] := by
  rw [conditional, outputs_block hn, outputs_operand _ _ (Nat.lt_succ_of_le hn)]

theorem Standing.outputs_behind {payload : Payload} {tail : List Step}
    (h : Standing q all before (conditional w outer k keyword payload test body ++ tail) after w
      outer k) : outputs k all = outputs k tail := by
  have hpos : 0 < count (conditional w outer k keyword payload test body ++ tail) := by
    rw [count_append, conditional, count_block]
    omega
  rw [h.located.outputs_eq h.draws.wellFormed (.self k hpos), outputs_append,
    outputs_conditional (Nat.le_refl k), List.nil_append]

theorem follows_alternatives (outer : List Place) (keyword : String) (payload : Payload)
    (test : Phrase) (body : List Stmt) (rest : Alternatives) (hw : w.Below k) :
    Follows k (k + count (conditional w outer k keyword payload test body))
      (alternatives w outer k (k + count (conditional w outer k keyword payload test body)) rest) :=
  .of_contained (contained_alternatives ..) (Nat.le_refl k) hw (count_block_pos ..) (Nat.le_refl _)

theorem chain_done (h : Draws q all) (hp : previous < count all) (hn : ¬ Named all previous)
    (hout : outputs previous all = []) : q.ChainWrites style L c opened seen previous .done := by
  rw [ChainWrites, Graph.clausesFrom_done (h.nextClause_none hp hn hout)]
  exact .empty ⟨.done, .done, rfl⟩

theorem chain_otherwise
    (h : Standing q all before (alternatives w outer previous k (.otherwise body)) after w outer k)
    (hp : previous < k) (hn : ¬ Named all previous)
    (hout : outputs previous all = outputs previous (alternatives w outer previous k (.otherwise body)))
    (ho : q.Earlier k opened) (hseen : q.Earlier k seen)
    (hb : q.SuiteWrites style L c all (.body k) (w :: outer) (q.nodeId k :: opened) k body) :
    q.ChainWrites style L c opened seen previous (.otherwise body) := by
  rw [alternatives_otherwise] at h hout
  have hlt : k < count all := lt_count_of_sketch h.sketch_block
  have hlookup := h.draws.lookup_plain h.sketch_block (by simp)
  have hnext : outputs previous all = [⟨k, .nextClause none⟩] := by
    rw [hout, outputs_append, outputs_block (Nat.le_of_lt hp)]
    simp [outputs]
  rw [ChainWrites, Graph.clausesFrom_otherwise (h.draws.nextClause_some (Nat.lt_trans hp hlt) hn
    hnext hlookup (.inr rfl)) (h.draws.not_earlier hseen hlt) rfl]
  have hbody := h.body_writes (.nil w) (.wire (Nat.le_of_lt hp) none) ho hb
  refine Code.Faithful.cons (P := Alternatives.Writes L (.otherwise body))
    (hbody.block_plain fun body' hlike => ⟨.otherwise body', .otherwise hlike, rfl⟩)
    (.empty (P := (· = [])) rfl) ?_
  rintro lines _ hlines rfl
  rwa [List.append_nil]

def RestWrites (q : Run) (style : CodeStyle) (L : Likeness) (c : Prop) (all : List Step)
    (w : Place) (outer : List Place) (opened seen : List NodeId) (k : Nat) (rest : Alternatives) :
    Prop :=
  ∀ {before after : List Step} {k' : Nat},
    Standing q all before (alternatives w outer k k' rest) after w outer k' → k < k' →
    outputs k all = outputs k (alternatives w outer k k' rest) →
    q.ChainWrites style L c opened seen k rest

theorem chain_elif (hs : Sound L c all) {rest : Alternatives}
    (h : Standing q all before (alternatives w outer previous k (.elif test body rest)) after w outer
      k) (he : test.expr.isPlain = true) (hp : previous < k) (hn : ¬ Named all previous)
    (hout : outputs previous all =
      outputs previous (alternatives w outer previous k (.elif test body rest)))
    (ho : q.Earlier k opened) (hseen : q.Earlier k seen)
    (hb : q.SuiteWrites style L c all (.body k) (w :: outer) (q.nodeId k :: opened) k body)
    (hrest : q.RestWrites style L c all w outer opened (q.nodeId k :: seen) k rest) :
    q.ChainWrites style L c opened seen previous (.elif test body rest) := by
  have hbelow := h.below
  rw [alternatives_elif] at h hout
  have hlt : k < count all := lt_count_of_sketch h.sketch_block
  have htail := (Follows.wire (Nat.le_of_lt hp) none).append
    (follows_alternatives outer "elif" .elifBlock test body rest hbelow)
  have hnext : outputs previous all = [⟨k, .nextClause none⟩] := by
    rw [hout, outputs_append, outputs_conditional (Nat.le_of_lt hp), outputs_append,
      outputs_alternatives hp (Nat.lt_of_lt_of_le hp (Nat.le_add_right ..))]
    simp [outputs]
  have hlater : outputs k all = outputs k (alternatives w outer k
      (k + count (conditional w outer k "elif" .elifBlock test body)) rest) := by
    rw [h.outputs_behind, outputs_append]
    simp [outputs, Nat.ne_of_lt hp]
  rw [ChainWrites, Graph.clausesFrom_elif (h.draws.nextClause_some (Nat.lt_trans hp hlt) hn hnext
    (h.draws.lookup_plain h.sketch_block (by simp)) (.inl rfl)) (h.draws.not_earlier hseen hlt)
    (by simp [Node.kind, Payload.kind])]
  have hafter := h.after_block (.expr ..) htail
  refine Code.Faithful.cons (h.conditional_writes ho hb hs (.inr (.inl rfl)) he htail)
    (hrest ⟨h.draws, hafter.located.right, ?_⟩ (count_block_pos ..) hlater) ?_
  · rw [(Flat.wire w previous ⟨k, .nextClause none⟩).path]
    exact hafter.path
  · rintro _ _ ⟨test', body', htest, hbody, rfl⟩ ⟨rest', hrest, rfl⟩
    exact ⟨.elif test' body' rest', .elif htest hbody hrest, rfl⟩

theorem writes_branch (hs : Sound L c all) {rest : Alternatives}
    (h : Standing q all before (statement w outer k (.branch test body rest)) after w outer k)
    (he : test.expr.isPlain = true) (ho : q.Earlier k opened)
    (hb : q.SuiteWrites style L c all (.body k) (w :: outer) (q.nodeId k :: opened) k body)
    (hrest : q.RestWrites style L c all w outer opened [q.nodeId k] k rest) :
    Code.Faithful c (Stmt.Writes L (.branch test body rest))
      (codeOf q style (fun id => q.linked.bodyCode style opened id)
        (itemsIn w before (statement w outer k (.branch test body rest)))) := by
  rw [statement_branch] at h ⊢
  have htail := follows_alternatives outer "if" .ifBlock test body rest h.below
  have hafter := h.after_block (.expr ..) htail
  rw [h.codeOf_conditional (by simp)
    (innerIn_alternatives hafter.located.number hafter.below hafter.not_imports rest)]
  refine Code.Faithful.cons (h.conditional_writes ho hb hs (.inl rfl) he htail)
    (hrest hafter (count_block_pos ..) h.outputs_behind) ?_
  rintro _ _ ⟨test', body', htest, hbody, rfl⟩ ⟨rest', hrest, rfl⟩
  exact ⟨.branch test' body' rest', .branch htest hbody hrest, rfl⟩

end Clauses

section Handlers

variable {owner index : Nat} {caught : Option Phrase} {binding : Option String} {body : List Stmt}
  {clauses : List Handler} {tail : List Step}

/-- Numbered nodes that the ports of the `try` with the number `owner` lead to, with the lines of
like handlers. -/
structure Handling (q : Run) (style : CodeStyle) (L : Likeness) (c : Prop) (opened : List NodeId)
    (owner index : Nat) (ports : List Port) (clauses : List Handler) (ns : List (Nat × Node)) :
    Prop where
  edges : ports.map (fun p => (⟨q.nodeId owner, q.nodeId p.target, p.kind⟩ : Edge)) =
    ns.map fun x => ⟨q.nodeId owner, x.2.id, .nextClause (some x.1)⟩
  numbers : ns.map Prod.fst = List.range' index clauses.length
  lookups : ∀ x ∈ ns, q.linked.lookup x.2.id = some x.2 ∧ x.2.kind = .exceptBlock
  writes : Code.Faithful c (Handler.WritesAll L clauses) (Code.concat (ns.map fun x =>
    q.linked.clauseCode style (fun id => q.linked.bodyCode style opened id) x.2))

theorem flat_caught (w : Place) (outer : List Place) (owner index k : Nat)
    (caught : Option Phrase) :
    Flat w ([.wire owner ⟨k, .nextClause (some index)⟩] ++ exception w outer k caught) := by
  refine (Flat.wire ..).append ?_
  cases caught with
  | none => exact .nil w
  | some e => exact .expr ..

theorem Standing.handler_header (hs : Sound L c all)
    (h : Standing q all before (handlerBlock w outer k owner index caught binding body ++ tail) after
      w outer k)
    (he : caughtIsPlain caught = true)
    (ht : Follows k (k + count (handlerBlock w outer k owner index caught binding body)) tail) :
    (q.linked.handlerHeader style ⟨q.nodeId k, Builder.handlerLabel caught binding, q.world w,
      .exceptBlock (caught.map (·.text)) binding⟩ (caught.map (·.text)) binding).Faithful c
      (CaughtWrites L caught binding) := by
  have hwire (b : List Step) (p : Ref × EdgeKind)
      (hp : p ∈ inputs k (collect joins b [.wire owner ⟨k, .nextClause (some index)⟩])) :
      ∃ index, p.2 = .nextClause index := by
    obtain rfl : p = (.node owner, .nextClause (some index)) := by simpa [inputs, joins] using hp
    exact ⟨_, rfl⟩
  refine faithful_handler rfl h.sketch_block ?_ ?_
  · rintro e rfl
    exact h.block_header hs [.wire owner ⟨k, .nextClause (some index)⟩] he (by simp) rfl rfl hwire
      ht
  · rintro rfl
    exact h.block_no_input (by simp) hwire ht

theorem outputs_handlerBlock (hk : owner < k) (caught : Option Phrase) (binding : Option String)
    (body : List Stmt) : outputs owner (handlerBlock w outer k owner index caught binding body) =
      [⟨k, .nextClause (some index)⟩] := by
  have hcaught : outputs owner (exception w outer k caught) = [] := by
    cases caught with
    | none => rfl
    | some e => exact outputs_operand _ _ (Nat.lt_succ_of_lt hk)
  rw [handlerBlock, outputs_block (Nat.le_of_lt hk), outputs_append, hcaught]
  simp [outputs]

theorem follows_handlers (outer : List Place) (ho : owner ≤ k) (index : Nat) (label : String)
    (payload : Payload) (mid : List Step) (names : List (String × Bool)) (body : List Stmt)
    (clauses : List Handler) (hw : w.Below k) :
    Follows k (k + count (block w outer k label payload mid names body))
      (handlers w outer owner index (k + count (block w outer k label payload mid names body))
        clauses) :=
  .of_contained (contained_handlers ..) ho hw (count_block_pos ..) (Nat.le_refl _)

theorem follows_handler (outer : List Place) (ho : owner < k) (index : Nat) (caught : Option Phrase)
    (binding : Option String) (body : List Stmt) (clauses : List Handler) (hw : w.Below k) :
    Follows k (k + count (handlerBlock w outer k owner index caught binding body))
      (handlers w outer owner (index + 1)
        (k + count (handlerBlock w outer k owner index caught binding body)) clauses) :=
  follows_handlers outer (Nat.le_of_lt ho) (index + 1) _ _ _ _ body clauses hw

theorem handling_cons (hs : Sound L c all)
    (h : Standing q all before (handlers w outer owner index k (.mk caught binding body :: clauses))
      after w outer k)
    (he : caughtIsPlain caught = true) (hk : owner < k) (ho : q.Earlier k opened)
    (hb : q.SuiteWrites style L c all (.body k) (w :: outer) (q.nodeId k :: opened) k body)
    (hrest : ∀ {before after : List Step} {k' : Nat},
      Standing q all before (handlers w outer owner (index + 1) k' clauses) after w outer k' →
      k < k' → ∃ ns, q.Handling style L c opened owner (index + 1)
        (outputs owner (handlers w outer owner (index + 1) k' clauses)) clauses ns) :
    ∃ ns, q.Handling style L c opened owner index
      (outputs owner (handlers w outer owner index k (.mk caught binding body :: clauses)))
      (.mk caught binding body :: clauses) ns := by
  have hbelow := h.below
  rw [handlers_cons] at h ⊢
  have hpos : k < k + count (handlerBlock w outer k owner index caught binding body) :=
    count_block_pos ..
  have htail := follows_handler outer hk index caught binding body clauses hbelow
  obtain ⟨ns, hns⟩ := hrest (h.after_block (flat_caught ..) htail) hpos
  refine ⟨(index, ⟨q.nodeId k, Builder.handlerLabel caught binding, q.world w,
    .exceptBlock (caught.map (·.text)) binding⟩) :: ns, ?_, ?_, ?_, ?_⟩
  · rw [outputs_append, outputs_handlerBlock hk]
    exact congrArg (_ :: ·) hns.edges
  · exact congrArg (index :: ·) hns.numbers
  · rintro x hx
    rcases List.mem_cons.mp hx with rfl | hx
    · exact ⟨h.draws.lookup_plain h.sketch_block (by simp), rfl⟩
    · exact hns.lookups x hx
  · refine Code.Faithful.cons (P := fun lines => ∃ caught' body', Phrase.CaughtLike L caught caught' ∧
        Stmt.AllLike L body body' ∧ lines = ⟨0, "except" ++ caughtText caught' ++
          aliasText binding ++ ":"⟩ :: suite (Stmt.allLines body'))
      ((h.body_writes (flat_caught ..) htail ho hb).block (h.handler_header hs he htail) ?_)
      hns.writes ?_
    · rintro _ body' ⟨caught', hcaught, rfl⟩ hlike
      exact ⟨caught', body', hcaught, hlike, rfl⟩
    · rintro _ _ ⟨caught', body', hcaught, hlike, rfl⟩ ⟨clauses', hclauses, rfl⟩
      exact ⟨.mk caught' binding body' :: clauses', .cons binding hcaught hlike hclauses, rfl⟩

theorem Handling.handlersCode (h : Draws q all) (ho : owner < count all) (hn : ¬ Named all owner)
    {ports : List Port} (hp : outputs owner all = ports) {ns : List (Nat × Node)}
    (hns : q.Handling style L c opened owner 0 ports clauses ns) (hc : clauses.isEmpty = false)
    {n : Node} (hid : n.id = q.nodeId owner) :
    Code.Faithful c (Handler.WritesAll L clauses) (q.linked.handlersCode style
      (fun id => q.linked.bodyCode style opened id) n) := by
  have hnodup : (ns.map fun x =>
      (⟨q.nodeId owner, x.2.id, .nextClause (some x.1)⟩ : Edge)).Nodup := by
    refine List.Nodup.of_map (fun e : Edge => e.kind.index?) ?_
    have hindices : (ns.map fun x => (⟨q.nodeId owner, x.2.id, .nextClause (some x.1)⟩ : Edge)).map
        (fun e => e.kind.index?) = (ns.map Prod.fst).map some := by
      rw [List.map_map, List.map_map]
      rfl
    rw [hindices, hns.numbers]
    exact List.Nodup.map (fun i j hij => Option.some.inj hij) (List.nodup_range' ..)
  have hedges : q.linked.edgesFrom (q.nodeId owner) =
      ns.map fun x => ⟨q.nodeId owner, x.2.id, .nextClause (some x.1)⟩ := by
    rw [h.edgesFrom ho hn, hp, hns.edges, Graph.distinct_eq_self hnodup]
  have hsorted : ns.Pairwise fun a b => a.1 ≤ b.1 := by
    have hnumbers : (ns.map Prod.fst).Pairwise (· ≤ ·) := by
      rw [hns.numbers]
      exact List.pairwise_le_range' ..
    exact List.pairwise_map.mp hnumbers
  have hwrites : Code.Faithful c (Handler.WritesAll L clauses) (Code.concat ((ns.map (·.2)).map
      (q.linked.clauseCode style fun id => q.linked.bodyCode style opened id))) := by
    rw [List.map_map]
    exact hns.writes
  rw [Graph.handlersCode, hid, Graph.handlersOf_eq hedges hns.lookups hsorted]
  cases ns with
  | nil =>
    have hlength := congrArg List.length hns.numbers
    rw [List.length_range'] at hlength
    exact absurd (hc.symm.trans (List.isEmpty_iff_length_eq_zero.mpr hlength.symm))
      Bool.false_ne_true
  | cons x ns => exact hwrites

theorem writes_attempt
    (h : Standing q all before (statement w outer k (.attempt body clauses)) after w outer k)
    (hc : clauses.isEmpty = false) (ho : q.Earlier k opened)
    (hb : q.SuiteWrites style L c all (.body k) (w :: outer) (q.nodeId k :: opened) k body)
    (hrest : ∀ {before after : List Step} {k' : Nat},
      Standing q all before (handlers w outer k 0 k' clauses) after w outer k' → k < k' →
      ∃ ns, q.Handling style L c opened k 0 (outputs k (handlers w outer k 0 k' clauses)) clauses
        ns) :
    Code.Faithful c (Stmt.Writes L (.attempt body clauses))
      (codeOf q style (fun id => q.linked.bodyCode style opened id)
        (itemsIn w before (statement w outer k (.attempt body clauses)))) := by
  rw [statement_attempt] at h ⊢
  have hpos : k < k + count (block w outer k "try" .tryBlock [] [] body) := count_block_pos ..
  have htail := follows_handlers outer (Nat.le_refl k) 0 "try" .tryBlock [] [] body clauses h.below
  have hafter := h.after_block (.nil w) htail
  have hout : outputs k all = outputs k (handlers w outer k 0
      (k + count (block w outer k "try" .tryBlock [] [] body)) clauses) := by
    rw [h.located.outputs_eq h.draws.wellFormed (.self k (by rw [count_append]; omega)),
      outputs_append, outputs_block (Nat.le_refl k)]
    rfl
  obtain ⟨ns, hns⟩ := hrest hafter hpos
  have hhandlers := hns.handlersCode h.draws (lt_count_of_sketch h.sketch_block)
    (Steps.not_named h.sketch_block rfl) hout hc
    (n := ⟨q.nodeId k, "try", q.world w, .tryBlock⟩) rfl
  rw [h.codeOf_block (by simp) (.of_nil rfl)
    (innerIn_handlers hafter.located.number hafter.below hafter.not_imports clauses)]
  have hone : Code.Faithful c (Handler.WritesAll L clauses) (Code.concat
      [q.linked.handlersCode style (fun id => q.linked.bodyCode style opened id)
        ⟨q.nodeId k, "try", q.world w, .tryBlock⟩]) := by
    refine hhandlers.cons (.empty (P := (· = [])) rfl) ?_
    rintro lines _ hlines rfl
    rwa [List.append_nil]
  refine Code.Faithful.cons (P := fun lines => ∃ body', Stmt.AllLike L body body' ∧
      lines = ⟨0, "try:"⟩ :: suite (Stmt.allLines body'))
    ((h.body_writes (.nil w) htail ho hb).block_plain fun body' hlike => ⟨body', hlike, rfl⟩) hone ?_
  rintro _ _ ⟨body', hlike, rfl⟩ ⟨clauses', hclauses, rfl⟩
  exact ⟨.attempt body' clauses', .attempt hlike hclauses, rfl⟩

end Handlers

theorem Standing.split_statements {stmt : Stmt} {stmts : List Stmt}
    (h : Standing q all before (statements w outer k (stmt :: stmts)) after w outer k) :
    ∃ back, Standing q all before (statement w outer k stmt) back w outer k ∧
      Standing q all (before ++ statement w outer k stmt)
        (statements w outer (k + count (statement w outer k stmt)) stmts) after w outer
        (k + count (statement w outer k stmt)) := by
  rw [statements] at h
  have haway := (contained_statements w outer (k + count (statement w outer k stmt)) stmts).away
    (m := count (statement w outer k stmt)) h.below (by simp) (Nat.le_refl _)
  exact ⟨_, ⟨h.draws, h.located.left haway, h.path⟩, h.draws, h.located.right,
    (stands_statement h.stands stmt).path⟩

mutual
theorem statement_writes (hs : Sound L c all) {before after : List Step} {w : Place}
    {outer : List Place} {k : Nat} {opened : List NodeId} : (stmt : Stmt) →
    Standing q all before (statement w outer k stmt) after w outer k → stmt.isPlain = true →
    q.Earlier k opened → Code.Faithful c (stmt.Writes L) (codeOf q style
      (fun id => q.linked.bodyCode style opened id) (itemsIn w before (statement w outer k stmt)))
  | .assign name value, h, he, ho => by
    refine (writes_assign hs h he).mono ?_
    rintro _ ⟨value', hlike, rfl⟩
    exact ⟨.assign name value', .assign name hlike, rfl⟩
  | .augment name op value, h, he, ho => by
    have hplain : (Expr.binary op (.name name) value).isPlain = true := he
    rw [statement_augment] at h ⊢
    refine (writes_assign hs h hplain).mono ?_
    rintro _ ⟨sum, hsum, rfl⟩
    cases hsum with
    | binary _ hleft hlike =>
      cases hleft with
      | name hname => exact ⟨_, .augment op hname hlike, rfl⟩
  | .eval e, h, he, ho => by
    cases hc : e.isCall with
    | true =>
      have hplain : e.isPlain = true := by
        cases e with
        | call callee args => exact he
        | methodCall object method args => exact he
        | _ => cases hc
      rw [statement, if_pos hc] at h ⊢
      exact writes_call hs hc h hplain
    | false =>
      cases e with
      | literal text => exact .empty ⟨.skip, .text text, rfl⟩
      | call callee args => cases hc
      | methodCall object method args => cases hc
      | _ => cases he
  | .ret none, h, he, ho => writes_bare_return h
  | .ret (some value), h, he, ho => writes_return hs h he
  | .function name params body, h, he, ho =>
    writes_function ho (fun hbody hk => statements_write hs body hbody he (ho.cons.mono hk)) h
  | .class name bases body, h, he, ho =>
    writes_class ho (fun hbody hk => statements_write hs body hbody he (ho.cons.mono hk)) h
  | .branch test body rest, h, he, ho => by
    obtain ⟨hfirst, her⟩ := Bool.and_eq_true_iff.mp he
    obtain ⟨het, heb⟩ := Bool.and_eq_true_iff.mp hfirst
    have hn : ¬ Named all k := by
      rw [statement_branch] at h
      exact Steps.not_named h.sketch_block rfl
    exact writes_branch hs h het ho
      (fun hbody hk => statements_write hs body hbody heb (ho.cons.mono hk))
      (fun hrest hk hout => alternatives_write hs rest hrest her hk hn hout
        (ho.mono (Nat.le_of_lt hk)) (Earlier.mono (Earlier.cons (by simp [Earlier])) hk))
  | .each target source body, h, he, ho => by
    obtain ⟨hfirst, heb⟩ := Bool.and_eq_true_iff.mp he
    obtain ⟨htarget, hes⟩ := Bool.and_eq_true_iff.mp hfirst
    exact writes_each ho (fun hbody hk => statements_write hs body hbody heb (ho.cons.mono hk)) hs h
      (by simpa using htarget) hes
  | .while test body, h, he, ho => by
    obtain ⟨het, heb⟩ := Bool.and_eq_true_iff.mp he
    exact writes_while ho (fun hbody hk => statements_write hs body hbody heb (ho.cons.mono hk)) hs h
      het
  | .attempt body clauses, h, he, ho => by
    obtain ⟨hfirst, hec⟩ := Bool.and_eq_true_iff.mp he
    obtain ⟨heb, hne⟩ := Bool.and_eq_true_iff.mp hfirst
    exact writes_attempt h (by simpa using hne) ho
      (fun hbody hk => statements_write hs body hbody heb (ho.cons.mono hk))
      (fun hrest hk => handlers_write hs clauses hrest hec hk (ho.mono (Nat.le_of_lt hk)))
  | .import text names, h, he, ho => by
    rw [writes_import h]
    exact .empty ⟨.import text names, .import text names, rfl⟩
  | .skip, h, he, ho => .empty ⟨.skip, .skip, rfl⟩

theorem statements_write (hs : Sound L c all) {before after : List Step} {w : Place}
    {outer : List Place} {k : Nat} {opened : List NodeId} : (stmts : List Stmt) →
    Standing q all before (statements w outer k stmts) after w outer k →
    Stmt.arePlain stmts = true → q.Earlier k opened →
    Code.Faithful c (Stmt.WritesAll L stmts) (codeOf q style
      (fun id => q.linked.bodyCode style opened id) (itemsIn w before (statements w outer k stmts)))
  | [], h, he, ho => .empty ⟨[], .nil, rfl⟩
  | stmt :: stmts, h, he, ho => by
    obtain ⟨hes, her⟩ := Bool.and_eq_true_iff.mp he
    obtain ⟨back, hfirst, hrest⟩ := h.split_statements
    have hw := statement_writes hs stmt hfirst hes ho
    have hr := statements_write hs stmts hrest her (ho.mono (Nat.le_add_right ..))
    rw [statements, itemsIn_append, codeOf, List.map_append]
    refine hw.append hr ?_
    rintro _ _ ⟨stmt', hlike, rfl⟩ ⟨stmts', hlikes, rfl⟩
    exact ⟨stmt' :: stmts', .cons hlike hlikes, rfl⟩

theorem alternatives_write (hs : Sound L c all) {before after : List Step} {w : Place}
    {outer : List Place} {previous k : Nat} {opened seen : List NodeId} : (rest : Alternatives) →
    Standing q all before (alternatives w outer previous k rest) after w outer k →
    rest.isPlain = true → previous < k → ¬ Named all previous →
    outputs previous all = outputs previous (alternatives w outer previous k rest) →
    q.Earlier k opened → q.Earlier k seen → q.ChainWrites style L c opened seen previous rest
  | .done, h, he, hp, hn, hout, ho, hseen => by
    refine chain_done h.draws (Nat.lt_of_lt_of_le hp ?_) hn hout
    rw [h.located.text, count_append, count_append, h.located.number]
    omega
  | .elif test body rest, h, he, hp, hn, hout, ho, hseen => by
    obtain ⟨hfirst, her⟩ := Bool.and_eq_true_iff.mp he
    obtain ⟨het, heb⟩ := Bool.and_eq_true_iff.mp hfirst
    have hnext : ¬ Named all k := by
      rw [alternatives_elif] at h
      exact Steps.not_named h.sketch_block rfl
    exact chain_elif hs h het hp hn hout ho hseen
      (fun hbody hk => statements_write hs body hbody heb (ho.cons.mono hk))
      (fun hrest hk hout => alternatives_write hs rest hrest her hk hnext hout
        (ho.mono (Nat.le_of_lt hk)) (hseen.cons.mono hk))
  | .otherwise body, h, he, hp, hn, hout, ho, hseen =>
    chain_otherwise h hp hn hout ho hseen
      fun hbody hk => statements_write hs body hbody he (ho.cons.mono hk)

theorem handlers_write (hs : Sound L c all) {before after : List Step} {w : Place}
    {outer : List Place} {owner index k : Nat} {opened : List NodeId} : (clauses : List Handler) →
    Standing q all before (handlers w outer owner index k clauses) after w outer k →
    Handler.arePlain clauses = true → owner < k → q.Earlier k opened →
    ∃ ns, q.Handling style L c opened owner index
      (outputs owner (handlers w outer owner index k clauses)) clauses ns
  | [], h, he, hk, ho => ⟨[], rfl, rfl, by simp, .empty ⟨[], .nil, rfl⟩⟩
  | .mk caught binding body :: rest, h, he, hk, ho => by
    obtain ⟨hfirst, her⟩ := Bool.and_eq_true_iff.mp he
    obtain ⟨hec, heb⟩ := Bool.and_eq_true_iff.mp hfirst
    exact handling_cons hs h hec hk ho
      (fun hbody hk => statements_write hs body hbody heb (ho.cons.mono hk))
      (fun hrest hk' => handlers_write hs rest hrest her (Nat.lt_trans hk hk')
        (ho.mono (Nat.le_of_lt hk')))
end

theorem standing_ofModule (supply : Supply) (module : List Stmt) :
    Standing (ofModule supply module) (Steps.ofModule module) [] (statements .root [] 0 module) []
      .root [] 0 :=
  ⟨draws_ofModule supply module, ⟨by rw [List.append_nil]; rfl, rfl, .nil⟩, rfl⟩

end Run

end ScopedFlow
