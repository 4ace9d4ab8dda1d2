import ScopedFlow.Proofs.Slots
import ScopedFlow.Proofs.WrittenLiterals

/-!
# Literals of a whole module

The literals of every statement stand in the text of the module, and so do those of the graph that
is built from it.
-/

namespace ScopedFlow

variable {stmts : List Stmt}

def Stmt.Within (source : List Char) (s : Stmt) : Prop :=
  ∀ t ∈ s.literals, Literal.StandsIn source t

def Stmt.AllWithin (source : List Char) (stmts : List Stmt) : Prop :=
  ∀ t ∈ Stmt.allLiterals stmts, Literal.StandsIn source t

def Alternatives.Within (source : List Char) (rest : Alternatives) : Prop :=
  ∀ t ∈ rest.literals, Literal.StandsIn source t

def Handler.AllWithin (source : List Char) (clauses : List Handler) : Prop :=
  ∀ t ∈ Handler.allLiterals clauses, Literal.StandsIn source t

section Trees

variable {source : List Char} {body : List Stmt}

theorem Stmt.within_skip : Stmt.skip.Within source := by
  intro t ht
  cases ht

theorem Stmt.within_eval {e : Expr} (h : e.Within source) : (Stmt.eval e).Within source := by
  intro t ht
  change t ∈ if e.isCall then e.literals else [] at ht
  split at ht
  · exact h t ht
  · cases ht

theorem Stmt.allWithin_nil : Stmt.AllWithin source [] := List.forall_mem_nil _

theorem Stmt.allWithin_cons {s : Stmt} (h : s.Within source) (hs : Stmt.AllWithin source stmts) :
    Stmt.AllWithin source (s :: stmts) :=
  List.forall_mem_append.mpr ⟨h, hs⟩

theorem Stmt.allWithin_singleton {s : Stmt} (h : s.Within source) : Stmt.AllWithin source [s] :=
  allWithin_cons h allWithin_nil

theorem Stmt.allWithin_append {stmts' : List Stmt} (h : Stmt.AllWithin source stmts)
    (h' : Stmt.AllWithin source stmts') : Stmt.AllWithin source (stmts ++ stmts') := by
  induction stmts with
  | nil => exact h'
  | cons s stmts ih =>
    obtain ⟨hs, h⟩ := List.forall_mem_append.mp h
    exact allWithin_cons hs (ih h)

theorem Stmt.within_branch {test : Phrase} {rest : Alternatives} (htest : test.expr.Within source)
    (hbody : Stmt.AllWithin source body) (hrest : rest.Within source) :
    (Stmt.branch test body rest).Within source :=
  List.forall_mem_append.mpr ⟨htest, List.forall_mem_append.mpr ⟨hbody, hrest⟩⟩

theorem Stmt.within_while {test : Phrase} (htest : test.expr.Within source)
    (hbody : Stmt.AllWithin source body) : (Stmt.while test body).Within source :=
  List.forall_mem_append.mpr ⟨htest, hbody⟩

theorem Stmt.within_each {target : Target} {items : Phrase} (hitems : items.expr.Within source)
    (hbody : Stmt.AllWithin source body) : (Stmt.each target items body).Within source :=
  List.forall_mem_append.mpr ⟨hitems, hbody⟩

theorem Stmt.within_attempt {clauses : List Handler} (hbody : Stmt.AllWithin source body)
    (hclauses : Handler.AllWithin source clauses) : (Stmt.attempt body clauses).Within source :=
  List.forall_mem_append.mpr ⟨hbody, hclauses⟩

theorem Handler.allWithin_nil : Handler.AllWithin source [] := List.forall_mem_nil _

theorem Handler.allWithin_cons {caught : Option Phrase} {binding : Option String}
    {clauses : List Handler} (hcaught : ∀ e ∈ caught, e.expr.Within source)
    (hbody : Stmt.AllWithin source body) (hclauses : Handler.AllWithin source clauses) :
    Handler.AllWithin source (.mk caught binding body :: clauses) := by
  refine List.forall_mem_append.mpr ⟨?_, List.forall_mem_append.mpr ⟨hbody, hclauses⟩⟩
  cases caught with
  | none => exact List.forall_mem_nil _
  | some e => exact hcaught e rfl

end Trees

namespace Source

section Forward

set_option synthInstance.maxSize 4000

variable {source : List Char} (ctx : Context)

theorem yields_exprItems : Yields source (Items.Within source) (exprItems ctx) := by
  unfold exprItems
  exact .seq fun _ => yields_itemsOf (SubReads.within .full ctx) _

namespace Moves

instance exprItems : Moves (exprItems ctx) := Yields.moves fun _ => yields_exprItems ctx

instance separated {α : Type} (item : Reader α) [Moves item] : Moves (separated item ctx) := by
  unfold Source.separated
  infer_instance

instance statementEnd : Moves (statementEnd ctx) := by
  unfold Source.statementEnd
  infer_instance

instance assignmentSign : Moves assignmentSign := by
  unfold Source.assignmentSign
  refine .seq fun cs => ?_
  split
  · infer_instance
  · refine .seq fun sign => ?_
    split <;> infer_instance

instance dottedName : Moves (dottedName ctx) := by
  unfold Source.dottedName
  infer_instance

instance importItem : Moves (importItem ctx) := by
  unfold Source.importItem
  infer_instance

instance importItems : Moves (importItems ctx) := by
  unfold Source.importItems
  infer_instance

instance moduleName : Moves (moduleName ctx) := by
  unfold Source.moduleName
  infer_instance

instance importedNames : Moves (importedNames ctx) := by
  unfold Source.importedNames
  refine .seq fun cs => ?_
  split <;> infer_instance

instance wordWithItems (text : String) : Moves (wordWithItems text ctx) := by
  unfold Source.wordWithItems
  infer_instance

instance raiseStatement : Moves (raiseStatement ctx) := by
  unfold Source.raiseStatement
  infer_instance

instance printTo : Moves (printTo ctx) := by
  unfold Source.printTo
  infer_instance

instance execStatement : Moves (execStatement ctx) := by
  unfold Source.execStatement
  infer_instance

instance typeStatement : Moves (typeStatement ctx) := by
  unfold Source.typeStatement
  infer_instance

instance complete {α : Type} (p : Reader α) [Moves p] : Moves (complete p ctx) := by
  unfold Source.complete
  infer_instance

instance bracketedPatterns (item : Context → Reader Unit) [∀ ctx, Moves (item ctx)]
    (opening closing : String) : Moves (bracketedPatterns item opening closing ctx) := by
  unfold Source.bracketedPatterns
  infer_instance

instance numberPattern : Moves (numberPattern ctx) := by
  unfold Source.numberPattern
  infer_instance

instance classPattern (sub : Context → Reader Unit) [∀ ctx, Moves (sub ctx)] :
    Moves (classPattern sub ctx) := by
  unfold Source.classPattern
  infer_instance

instance closedPattern (sub : Context → Reader Unit) [∀ ctx, Moves (sub ctx)] :
    Moves (closedPattern sub ctx) := by
  unfold Source.closedPattern
  refine .seq fun cs => ?_
  split
  · infer_instance
  · split <;> infer_instance

instance casePattern (fuel : Nat) : Moves (casePattern fuel ctx) := by
  induction fuel generalizing ctx with
  | zero => exact inferInstanceAs (Moves Reader.refuse)
  | succ fuel ih =>
    unfold Source.casePattern
    infer_instance

instance casePatterns : Moves (casePatterns ctx) := by
  unfold Source.casePatterns
  infer_instance

instance nextLine : Moves (nextLine ctx) where
  spans c _ d h := by
    unfold Source.nextLine at h
    obtain ⟨start, e, hhere, h⟩ := Reader.bind_eq_some.mp h
    cases hhere
    cases hstart : c.lineStart ctx.indent with
    | blockEnd =>
      rw [hstart] at h
      cases h
    | statement found place =>
      rw [hstart] at h
      cases h
      exact lineStartFrom_statement hstart

instance clause (text : String) : Moves (clause ctx text) := by
  unfold Source.clause
  infer_instance

instance typeParameters : Moves (typeParameters ctx) := by
  unfold Source.typeParameters
  infer_instance

instance signature : Moves (signature ctx) := by
  unfold Source.signature
  infer_instance

end Moves

end Forward

section Lines

variable {source : List Char} (ctx : Context)

def Line.Within (source : List Char) : Line → Prop
  | .values items => items.Within source
  | .assigned stmt | .augmented stmt => stmt.Within source

theorem Line.within_value {line : Line} (h : line.Within source) : line.value.Within source := by
  cases line with
  | values items => exact Items.within_value h
  | assigned | augmented => exact Expr.within_unsupported

theorem Line.within_assign {right : Line} (items : Items) (h : right.Within source) :
    (Line.assign items right).Within source := by
  unfold Line.assign
  split
  · exact Stmt.within_skip
  · exact Line.within_value h
  · exact Stmt.within_skip

theorem Line.within_augment {right : Line} (items : Items) (op : String)
    (h : right.Within source) : (Line.augment items op right).Within source := by
  unfold Line.augment
  split
  · exact Line.within_value h
  · exact Stmt.within_skip

theorem yields_line (fuel : Nat) : Yields source (Line.Within source) (line ctx fuel) := by
  induction fuel with
  | zero => exact .refuse
  | succ fuel ih =>
    have hright : Yields source (Line.Within source)
        (do
          let _ ← Reader.beforeOperand ctx
          line ctx fuel) := .seq fun _ => ih
    unfold line
    refine .bind (yields_yielded ctx fuel).attempt fun operand hoperand => ?_
    split
    · exact .pure (List.forall_mem_singleton.mpr (hoperand _ rfl))
    · refine .bind (yields_exprItems ctx) fun items hitems => .seq fun sign => ?_
      split
      · exact .pure hitems
      · refine .seq fun _ => ?_
        split
        · exact .bind hright fun right h => .pure (Line.within_assign items h)
        · exact .bind hright fun right h => .pure (Line.within_augment items _ h)
        · refine .seq fun _ => .seq fun _ => .seq fun value => ?_
          split
          · exact .bind hright fun right h => .pure (Line.within_assign items h)
          · exact .pure Stmt.within_skip

theorem yields_exprStatement : Yields source (Stmt.Within source) (exprStatement ctx) := by
  unfold exprStatement
  refine .seq fun cs => .bind (yields_line ctx _) fun line hline => ?_
  split
  · exact .pure hline
  · exact .pure hline
  · split
    · rename_i operand hoperands _
      exact .pure (Stmt.within_eval (hline operand (hoperands ▸ List.mem_singleton_self operand)))
    · exact .pure Stmt.within_skip

theorem yields_returnStatement : Yields source (Stmt.Within source) (returnStatement ctx) := by
  have hvalue : Yields source (Expr.Within source)
      (do
        let found ← Reader.gap ctx true
        let items ← exprItems ctx
        return if found.isEmpty then items.value else .unsupported) := by
    refine .seq fun found => .bind (yields_exprItems ctx) fun items hitems => .pure ?_
    split
    · exact Items.within_value hitems
    · exact Expr.within_unsupported
  unfold returnStatement
  refine .seq fun _ => .bind hvalue.attempt fun value h => .pure ?_
  cases value with
  | none => exact List.forall_mem_nil _
  | some value => exact h value rfl

theorem Yields.complete {α : Type} {Q : α → Prop} {p : Reader α}
    (h : Yields source Q p) : Yields source Q (complete p ctx) := by
  unfold Source.complete
  exact .bind h fun _ ha => .seq fun _ => .pure ha

theorem yields_simpleStatement : Yields source (Stmt.Within source) (simpleStatement ctx) := by
  have hskip : ∀ (p : Reader Unit) [Moves p], Yields source (Stmt.Within source)
      (do
        p
        return Stmt.skip) := fun p _ => .seq fun _ => .pure Stmt.within_skip
  have hexpr : Yields source (Stmt.Within source) (exprStatement ctx) := yields_exprStatement ctx
  unfold simpleStatement
  refine .seq fun cs => ?_
  split
  · unfold importStatement
    exact .seq fun _ => .seq fun _ => .seq fun _ => .seq fun _ => .seq fun _ =>
      .pure (List.forall_mem_nil _)
  · unfold fromStatement
    exact .seq fun _ => .seq fun _ => .seq fun _ => .seq fun _ => .seq fun _ => .seq fun _ =>
      .seq fun _ => .seq fun _ => .seq fun _ => .pure (List.forall_mem_nil _)
  · exact yields_returnStatement ctx
  iterate 8
    · exact hskip _
  · exact .orElse (hskip _) (.orElse (hexpr.complete ctx) (hskip _))
  · exact .orElse (hexpr.complete ctx) (hskip _)
  · exact .orElse (hskip _) hexpr
  · exact hexpr

theorem yields_simpleLine (fuel : Nat) :
    Yields source (Stmt.AllWithin source) (simpleLine ctx fuel) := by
  induction fuel with
  | zero => exact .refuse
  | succ fuel ih =>
    unfold simpleLine
    refine .bind (yields_simpleStatement ctx) fun stmt hstmt => .seq fun ended => ?_
    split
    · exact .pure (Stmt.allWithin_singleton hstmt)
    · refine .seq fun _ => .seq fun _ => .seq fun ended => ?_
      split
      · exact .pure (Stmt.allWithin_singleton hstmt)
      · exact .seq fun _ => .bind ih fun others hothers =>
          .pure (Stmt.allWithin_cons hstmt hothers)

end Lines

section Blocks

variable {source : List Char} (ctx : Context)

theorem Yields.goTo {α : Type} {Q : α → Prop} {p : Reader α} {c place d : Cursor} {a : α}
    (hp : Yields source Q p) (hplace : ∃ v, c.Spans v place) (hc : c.rest <:+ source)
    (h : (Reader.goTo place >>= fun _ => p) c = some (a, d)) : (∃ w, c.Spans w d) ∧ Q a := by
  obtain ⟨v, hv⟩ := hplace
  obtain ⟨_, e, hgo, h⟩ := Reader.bind_eq_some.mp h
  cases hgo
  obtain ⟨⟨w, hw⟩, ha⟩ := hp (hv.suffix hc) h
  exact ⟨⟨_, hv.trans hw⟩, ha⟩

theorem yields_phrase (level : Level) :
    Yields source (fun e => e.expr.Within source) (phrase level ctx) := by
  unfold phrase
  exact .seq fun _ => .bind (SubReads.within level ctx) fun o ho =>
    .seq fun _ => .pure ho

def HandlerPart.Within (source : List Char) (part : HandlerPart) : Prop :=
  part.whole.expr.Within source ∧ ∀ r ∈ part.inner, r.1.expr.Within source

theorem HandlerPart.within_text (texts : List String) :
    ∀ part ∈ texts.map HandlerPart.ofText, part.Within source := by
  intro part hpart
  obtain ⟨text, -, rfl⟩ := List.mem_map.mp hpart
  refine ⟨Expr.within_unsupported, fun r hr => ?_⟩
  cases hr

theorem HandlerPart.within_whole {e : Phrase} (h : e.expr.Within source) :
    HandlerPart.Within source ⟨e, none⟩ := by
  refine ⟨h, fun r hr => ?_⟩
  cases hr

theorem HandlerPart.within_resolve {parts : List HandlerPart}
    (h : ∀ part ∈ parts, part.Within source) :
    ∀ e ∈ (HandlerPart.resolve parts).1, e.expr.Within source := by
  cases parts with
  | nil =>
    intro e he
    cases he
  | cons part parts =>
    obtain ⟨hwhole, hinner⟩ := h part List.mem_cons_self
    obtain ⟨whole, inner⟩ := part
    intro e he
    cases inner with
    | none =>
      cases he
      exact hwhole
    | some named =>
      cases he
      exact hinner named rfl

theorem yields_handlerParts :
    Yields source (fun parts => ∀ part ∈ parts, part.Within source) (handlerParts ctx) := by
  have hnamed : Yields source (HandlerPart.Within source) (namedException ctx) := by
    unfold namedException
    refine .seq fun _ => .bind (yields_phrase ctx .disjunction) fun value hvalue =>
      .seq fun _ => .seq fun _ => .seq fun _ => .bind (yields_phrase ctx .disjunction) fun _ _ =>
        .seq fun _ => .seq fun _ => .seq fun _ => .pure ⟨Expr.within_unsupported, fun r hr => ?_⟩
    cases hr
    exact hvalue
  have hsecond : Yields source (fun r : List String × Phrase => r.2.expr.Within source)
      (do
        Reader.symbol ","
        let found ← Reader.beforeOperand ctx
        return (found, ← phrase .full ctx)) :=
    .seq fun _ => .seq fun _ => .bind (yields_phrase ctx .full) fun e he => .pure he
  unfold handlerParts
  refine .seq fun lead => .seq fun ended => ?_
  split
  · exact .pure (HandlerPart.within_text lead)
  · refine .bind (.orElse hnamed (.bind (yields_phrase ctx .full) fun e he =>
      .pure (HandlerPart.within_whole he))) fun value hvalue =>
        .bind (hsecond.follow? ctx) fun second hsecond => .seq fun last => .pure ?_
    refine List.forall_mem_append.mpr ⟨List.forall_mem_append.mpr
      ⟨HandlerPart.within_text lead, List.forall_mem_cons.mpr ⟨hvalue, ?_⟩⟩,
      HandlerPart.within_text last⟩
    split
    · exact List.forall_mem_append.mpr ⟨HandlerPart.within_text _,
        List.forall_mem_singleton.mpr (HandlerPart.within_whole (hsecond _ rfl))⟩
    · exact List.forall_mem_nil _

class BlockReads (block : BlockReader) : Prop where
  within : ∀ {source : List Char} indent,
    Yields source (fun r => Stmt.AllWithin source r.1) (block indent)

variable {block : BlockReader} [BlockReads block]

theorem yields_suite : Yields source (fun r => Stmt.AllWithin source r.1) (suite block ctx) := by
  intro c r d hc h
  unfold suite at h
  obtain ⟨start, e, hhere, h⟩ := Reader.bind_eq_some.mp h
  cases hhere
  cases hstart : c.suiteStart ctx.indent with
  | empty =>
    rw [hstart] at h
    exact Yields.pure (Q := fun r => Stmt.AllWithin source r.1) Stmt.allWithin_nil hc h
  | block indent =>
    rw [hstart] at h
    exact BlockReads.within indent hc h
  | inline found place =>
    rw [hstart] at h
    refine Yields.goTo (Q := fun r => Stmt.AllWithin source r.1) ?_
      (suiteStartFrom_inline hstart) hc h
    exact .bind (yields_simpleLine ctx.stops _) fun _ hs => .pure hs

theorem yields_body : Yields source (Stmt.AllWithin source) (body block ctx) := by
  unfold body
  exact .seq fun _ => .seq fun _ => .bind (yields_suite ctx) fun r hr => .pure hr

namespace Moves

variable (block)

instance body : Moves (body block ctx) := Yields.moves fun _ => yields_body ctx

instance elseClause : Moves (elseClause block ctx) := by
  unfold Source.elseClause
  infer_instance

instance withStatement : Moves (withStatement block ctx) := by
  unfold Source.withStatement
  infer_instance

instance groupHandler : Moves (groupHandler block ctx) := by
  unfold Source.groupHandler
  infer_instance

instance finallyClause : Moves (finallyClause block ctx) := by
  unfold Source.finallyClause
  infer_instance

instance groupHandlers (fuel : Nat) : Moves (groupHandlers block ctx fuel) := by
  induction fuel with
  | zero => exact inferInstanceAs (Moves (Pure.pure ()))
  | succ fuel ih =>
    unfold Source.groupHandlers
    infer_instance

instance closingClauses : Moves (closingClauses block ctx) := by
  unfold Source.closingClauses
  infer_instance

end Moves

theorem yields_guarded :
    Yields source (fun r => r.1.expr.Within source ∧ Stmt.AllWithin source r.2)
      (guarded block ctx) := by
  unfold guarded
  exact .seq fun _ => .bind (yields_phrase ctx.checked .full) fun test htest =>
    .bind (yields_body ctx) fun stmts hstmts => .pure ⟨htest, hstmts⟩

theorem yields_alternatives (fuel : Nat) :
    Yields source (Alternatives.Within source) (alternatives block ctx fuel) := by
  have hdone : Alternatives.done.Within source := List.forall_mem_nil _
  induction fuel with
  | zero => exact .pure hdone
  | succ fuel ih =>
    unfold alternatives
    refine .seq fun elif => ?_
    split
    · exact .bind (yields_guarded ctx) fun r hr => .bind ih fun rest hrest =>
        .pure (List.forall_mem_append.mpr ⟨hr.1, List.forall_mem_append.mpr ⟨hr.2, hrest⟩⟩)
    · refine .seq fun otherwise => ?_
      split
      · exact .bind (yields_body ctx) fun stmts hstmts => .pure hstmts
      · exact .pure hdone

theorem yields_ifStatement : Yields source (Stmt.Within source) (ifStatement block ctx) := by
  unfold ifStatement
  exact .seq fun _ => .bind (yields_guarded ctx) fun r hr => .seq fun _ =>
    .bind (yields_alternatives ctx _) fun rest hrest =>
      .pure (Stmt.within_branch hr.1 hr.2 hrest)

theorem yields_whileStatement : Yields source (Stmt.Within source) (whileStatement block ctx) := by
  unfold whileStatement
  refine .seq fun _ => .bind (yields_guarded ctx) fun r hr => .seq fun otherwise => ?_
  have hstmt := Stmt.within_while hr.1 hr.2
  dsimp only
  split
  · exact .seq fun _ => .pure hstmt
  · exact .pure hstmt

theorem yields_forStatement : Yields source (Stmt.Within source) (forStatement block ctx) := by
  unfold forStatement
  refine .seq fun _ => .seq fun _ => .seq fun _ => .seq fun _ => .seq fun _ => .seq fun _ =>
    .seq fun _ => .seq fun _ => .seq fun _ => .seq fun _ =>
      .bind (yields_exprItems ctx.checked) fun items hitems => .seq fun _ =>
        .bind (yields_body ctx) fun stmts hstmts => .seq fun otherwise => ?_
  dsimp only
  split
  · exact .seq fun _ => .pure (Stmt.within_each (Items.within_value hitems) hstmts)
  · exact .pure (Stmt.within_each (Items.within_value hitems) hstmts)

theorem yields_handlers (fuel : Nat) :
    Yields source (Handler.AllWithin source) (handlers block ctx fuel) := by
  induction fuel with
  | zero => exact .pure Handler.allWithin_nil
  | succ fuel ih =>
    have hhandler : Yields source (fun clause => ∀ clauses, Handler.AllWithin source clauses →
        Handler.AllWithin source (clause :: clauses)) (handler block ctx) := by
      unfold handler
      refine .bind (yields_handlerParts ctx.checked) fun parts hparts => .seq fun _ =>
        .bind (yields_suite ctx) fun r hr => .pure fun clauses hclauses => ?_
      refine Handler.allWithin_cons (HandlerPart.within_resolve ?_) hr hclauses
      exact List.forall_mem_append.mpr ⟨hparts, HandlerPart.within_text _⟩
    unfold handlers
    refine .seq fun except => ?_
    split
    · exact .pure Handler.allWithin_nil
    · exact .bind hhandler fun clause hclause => .bind ih fun clauses hclauses =>
        .pure (hclause clauses hclauses)

theorem yields_tryStatement : Yields source (Stmt.Within source) (tryStatement block ctx) := by
  unfold tryStatement
  refine .seq fun _ => .bind (yields_body ctx) fun stmts hstmts => .seq fun cs =>
    .seq fun grouped => ?_
  split
  · exact .seq fun _ => .seq fun _ => .pure (Stmt.within_attempt hstmts Handler.allWithin_nil)
  · refine .bind (yields_handlers ctx _) fun found hfound => ?_
    dsimp only
    split
    · exact .seq fun _ => .pure (Stmt.within_attempt hstmts hfound)
    · exact .seq fun _ => .pure (Stmt.within_attempt hstmts hfound)

theorem yields_functionStatement :
    Yields source (Stmt.Within source) (functionStatement block ctx) := by
  unfold functionStatement
  exact .seq fun _ => .seq fun _ => .seq fun _ => .seq fun _ => .seq fun _ => .seq fun _ =>
    .seq fun _ => .bind (yields_body ctx) fun stmts hstmts => .pure hstmts

theorem yields_classStatement : Yields source (Stmt.Within source) (classStatement block ctx) := by
  unfold classStatement
  refine .seq fun _ => .seq fun _ => .seq fun _ => .seq fun _ =>
    @Yields.seq _ _ _ _ _ _ ?_ ?_
  · refine @Moves.follow? _ _ _ (.seq fun cs => .seq fun args => ?_)
    split <;> infer_instance
  · exact fun bases => .bind (yields_body ctx) fun stmts hstmts => .pure hstmts

theorem yields_cases (fuel : Nat) :
    Yields source (fun _ => True) (cases block ctx fuel) := by
  induction fuel with
  | zero => exact .refuse
  | succ fuel ih =>
    intro c u d hc h
    unfold cases at h
    obtain ⟨start, e, hhere, h⟩ := Reader.bind_eq_some.mp h
    cases hhere
    cases hstart : c.lineStart ctx.indent with
    | blockEnd =>
      rw [hstart] at h
      exact ⟨Moves.spans h, trivial⟩
    | statement found place =>
      rw [hstart] at h
      refine Yields.goTo (Q := fun _ => True) ?_ (lineStartFrom_statement hstart) hc h
      exact .seq fun _ => .seq fun _ => .seq fun _ => .seq fun _ => ih

namespace Moves

variable (block)

instance forStatement : Moves (forStatement block ctx) :=
  Yields.moves fun _ => yields_forStatement ctx

instance functionStatement : Moves (functionStatement block ctx) :=
  Yields.moves fun _ => yields_functionStatement ctx

instance classStatement : Moves (classStatement block ctx) :=
  Yields.moves fun _ => yields_classStatement ctx

instance cases (fuel : Nat) : Moves (cases block ctx fuel) :=
  Yields.moves fun _ => yields_cases ctx fuel

instance asyncStatement : Moves (asyncStatement block ctx) := by
  unfold Source.asyncStatement
  refine .seq fun _ => .seq fun _ => .seq fun cs => ?_
  split <;> infer_instance

instance decorated (fuel : Nat) : Moves (decorated block ctx fuel) := by
  induction fuel with
  | zero => exact inferInstanceAs (Moves Reader.refuse)
  | succ fuel ih =>
    unfold Source.decorated
    refine .seq fun _ => .seq fun _ => .seq fun _ => .seq fun _ => .seq fun _ => .seq fun _ =>
      .seq fun again => ?_
    split
    · infer_instance
    · refine .seq fun cs => ?_
      split <;> infer_instance

instance matchStatement : Moves (matchStatement block ctx) := by
  unfold Source.matchStatement
  refine .seq fun _ => .seq fun _ => .seq fun _ => .seq fun _ => .seq fun _ => .seq fun start => ?_
  split <;> infer_instance

end Moves

theorem yields_statement : Yields source (Stmt.AllWithin source) (statement block ctx) := by
  have hsingle : ∀ {p : Reader Stmt}, Yields source (Stmt.Within source) p →
      Yields source (Stmt.AllWithin source) (do return [← p]) := fun hp =>
    .bind hp fun _ hs => .pure (Stmt.allWithin_singleton hs)
  have hskip : ∀ (p : Reader Unit) [Moves p], Yields source (Stmt.AllWithin source)
      (do
        p
        return []) := fun p _ => .seq fun _ => .pure Stmt.allWithin_nil
  have hsimple : Yields source (Stmt.AllWithin source)
      (do simpleLine ctx.stops ((← Reader.rest).length + 1)) :=
    .seq fun _ => yields_simpleLine ctx.stops _
  unfold statement
  refine .seq fun cs => ?_
  split
  · exact hsingle (yields_ifStatement ctx)
  · exact hsingle (yields_whileStatement ctx)
  · exact hsingle (yields_forStatement ctx)
  · exact hsingle (yields_tryStatement ctx)
  · exact hsingle (yields_functionStatement ctx)
  · exact hsingle (yields_classStatement ctx)
  · exact hskip _
  · exact .orElse (hskip _) hsimple
  · exact .orElse (hskip _) hsimple
  · refine .seq fun decorates => ?_
    split
    · exact .seq fun _ => hskip _
    · exact hsimple

end Blocks

instance BlockReads.block (fuel : Nat) : BlockReads (block fuel) := by
  induction fuel with
  | zero => exact ⟨fun _ => .refuse⟩
  | succ fuel ih =>
    refine ⟨fun indent c r d hc h => ?_⟩
    unfold Source.block at h
    obtain ⟨start, e, hhere, h⟩ := Reader.bind_eq_some.mp h
    cases hhere
    cases hstart : c.lineStart indent with
    | blockEnd =>
      rw [hstart] at h
      exact Yields.pure (Q := fun r => Stmt.AllWithin _ r.1) Stmt.allWithin_nil hc h
    | statement found place =>
      rw [hstart] at h
      refine Yields.goTo (Q := fun r => Stmt.AllWithin _ r.1) ?_
        (lineStartFrom_statement hstart) hc h
      exact .bind (yields_statement _) fun stmts hstmts => .bind (BlockReads.within indent)
        fun r hr => .pure (Stmt.allWithin_append hstmts hr)

theorem topLevel_within {source : List Char} {fuel : Nat} {c : Cursor} (hc : c.rest <:+ source)
    (h : topLevel fuel c = .ok stmts) : Stmt.AllWithin source stmts := by
  induction fuel generalizing c stmts with
  | zero => cases h
  | succ fuel ih =>
    unfold topLevel at h
    split at h
    · cases h
      exact Stmt.allWithin_nil
    · rename_i found place hstart
      obtain ⟨v, hv⟩ := lineStartFrom_statement hstart
      split at h
      · cases h
      · rename_i first next hfirst
        split at h
        · rename_i others hothers
          cases h
          have hplace := hv.suffix hc
          obtain ⟨⟨w, hw⟩, hstmts⟩ := yields_statement _ hplace hfirst
          exact Stmt.allWithin_append hstmts (ih (hw.suffix hplace) hothers)
        · cases h

theorem parse_within {text : String} (h : parse text = .ok stmts) :
    Stmt.AllWithin text.toList stmts := by
  unfold parse at h
  split at h
  · rename_i found htop
    cases h
    exact topLevel_within List.suffix_rfl htop
  · cases h

end Source

namespace Graph

open Literal

/-- Every literal node holds a literal of the text. The writer leaves it as it stands there, or writes
a string with the text of the literal as its value. What it writes is an expression of one logical line
with the tokens of the literal, and so with its value, exactly if the form is kept. -/
theorem literals_ofSource {text : String} {stmts : List Stmt} (h : Source.parse text = .ok stmts)
    (supply : Supply) (style : CodeStyle) :
    ∃ g rest, ofSource supply text = .ok (g, rest) ∧ g.literals = Stmt.allLiterals stmts ∧
      ∀ n ∈ g.nodes, n.payload = .literal →
        ∃ f : Literal.Form, f.text = n.label ∧ f.chars <:+: text.toList ∧
          g.value style n.id = .plain (Literal.text n.label) ∧
          (f.kept = true ↔ ∃ w : Literal.Form,
            w.text = Literal.text n.label ∧ w.oneLine = true ∧ w.tokens = f.tokens) ∧
          (Literal.text n.label = n.label ↔ f.unquoted = true) ∧
          (f.unquoted = false → Literal.text n.label = quote n.label) ∧
          (f.unquoted = false → '\r' ∉ n.label.toList →
            stringValue (Literal.text n.label) = some n.label) := by
  have hids : (build supply stmts).1.ids.Nodup := by
    rw [← Run.graph_ofModule]
    exact (Run.draws_ofModule supply stmts).ids
  have hliterals := literals_build supply stmts
  refine ⟨(build supply stmts).1, (build supply stmts).2, ?_, hliterals, fun n hn hliteral => ?_⟩
  · rw [ofSource, h]
  have hlabel : n.label ∈ (build supply stmts).1.literals :=
    List.mem_filterMap.mpr ⟨n, hn, by rw [Node.literal?, hliteral]⟩
  rw [hliterals] at hlabel
  obtain ⟨f, hf, hinfix⟩ := Source.parse_within h n.label hlabel
  have hquoted : f.unquoted = false → Literal.text n.label = quote n.label := by
    intro hunquoted
    rw [← hf, f.text_text, hunquoted]
    rfl
  refine ⟨f, hf, hinfix, value_literal hids hn hliteral style, ?_, ?_, hquoted, ?_⟩
  · rw [← hf]
    exact f.kept_iff
  · rw [← hf]
    exact f.text_eq_self_iff
  · intro hunquoted hreturn
    rw [hquoted hunquoted]
    exact stringValue_quote hreturn

/-- An underscore in an exponent and a blank behind a sign turn numbers into strings. Strings over two
lines are written without their brackets, and read again the second is a statement of its own. -/
theorem literals_ofSource_exponent :
    let text := "x = 1e1_0\ny = - 1\nz = -0x_Ff\nf('a' \"b\", 1_0.5e-7j)\nw = ('a'\n'b')\n"
    ∃ g rest, ofSource ⟨0⟩ text = .ok (g, rest) ∧
      g.literals = ["1e1_0", "- 1", "-0x_Ff", "'a' \"b\"", "1_0.5e-7j", "'a'\n'b'"] ∧
      g.literals.map Literal.text =
        ["'1e1_0'", "'- 1'", "-0x_Ff", "'a' \"b\"", "1_0.5e-7j", "'a'\n'b'"] ∧
      (Source.parse "w = 'a'\n'b'\n").map Stmt.allLiterals = .ok ["'a'"] ∧
      ∀ n ∈ g.nodes, n.payload = .literal →
        ∃ f : Literal.Form, f.text = n.label ∧ f.chars <:+: text.toList ∧
          g.value .default n.id = .plain (Literal.text n.label) ∧
          (f.kept = true ↔ ∃ w : Literal.Form,
            w.text = Literal.text n.label ∧ w.oneLine = true ∧ w.tokens = f.tokens) ∧
          (Literal.text n.label = n.label ↔ f.unquoted = true) ∧
          (f.unquoted = false → Literal.text n.label = quote n.label) ∧
          (f.unquoted = false → '\r' ∉ n.label.toList →
            stringValue (Literal.text n.label) = some n.label) := by
  intro text
  have hread : (Source.parse text).map Stmt.allLiterals =
      .ok ["1e1_0", "- 1", "-0x_Ff", "'a' \"b\"", "1_0.5e-7j", "'a'\n'b'"] := by
    decide +kernel
  obtain ⟨stmts, h, hwritten⟩ := exists_of_map_eq_ok hread
  obtain ⟨g, rest, hg, hliterals, hnodes⟩ := literals_ofSource h ⟨0⟩ .default
  rw [hwritten] at hliterals
  refine ⟨g, rest, hg, hliterals, ?_, by decide +kernel, hnodes⟩
  rw [hliterals]
  decide +kernel

end Graph

end ScopedFlow
