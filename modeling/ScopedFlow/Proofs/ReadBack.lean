import ScopedFlow.Proofs.Operands

/-!
# Reading back modules

The canonical text of a module of assignments and calls is read as that module. A number is no base
of an attribute or of a call, and takes no sign but `~`. Strings, displays, subscripts, comparisons,
powers, keywords of calls and blocks are left out.
-/

namespace ScopedFlow.Source

open Reader

variable {c : Char} {t w cs : List Char} {ctx : Context} {n m k : Nat} {base : Bool} {a : Operand}
  {name : String} {s : Stmt} {stmts : List Stmt} {lines : List CodeLine}

/-- Operands that are read back from their canonical text. With `base` further parts may bind to the
operand. -/
inductive Readable : (base : Bool) → Operand → Prop where
  | word {id : String} (hw : isWord id.toList = true) (hne : id ∉ "await" :: reserved) :
    Readable true (.ofWord id)
  | number {y : String} (h : IsNumber y) : Readable false ⟨.literal y, .number⟩
  | sign {a : Operand} {c : Char} (h : Readable false a) (hc : c ∈ ['-', '+', '~'])
    (hform : c = '~' ∨ a.form ≠ .number) :
    Readable true ⟨.unary (String.singleton c) a.expr, .group [.other]⟩
  | binary {l r : Operand} {op : String} (hl : Readable false l) (hr : Readable false r)
    (hop : op ∈ binaryOperators.map (·.1)) :
    Readable true ⟨.binary op l.expr r.expr, .group [.other]⟩
  | member {a : Operand} {name : String} (h : Readable true a)
    (hname : isWord name.toList = true) : Readable true ⟨.attribute a.expr name, .place⟩
  | call {a : Operand} {args : List Operand} (h : Readable true a)
    (hargs : ∀ b ∈ args, Readable false b) :
    Readable true (callOf a a.expr.print (args.map fun b => .positional b.expr))
  | whole {a : Operand} (h : Readable true a) : Readable false a

theorem Readable.isBase_and_reads (h : Readable base a) : (base = true → a.IsBase) ∧ a.Reads := by
  have hbase {a : Operand} (h : a.IsBase) : (true = true → a.IsBase) ∧ a.Reads :=
    ⟨fun _ => h, h.reads⟩
  induction h with
  | word hw hne => exact hbase (.word hw hne)
  | number h => exact ⟨(absurd · (by decide)), h.reads⟩
  | sign _ hc hform ih => exact hbase (ih.2.sign hc hform)
  | binary _ _ hop ihl ihr =>
    obtain ⟨⟨op, strength⟩, hmem, rfl⟩ := List.mem_map.mp hop
    exact hbase (ihl.2.binary ihr.2 hmem)
  | member _ hname ih => exact hbase ((ih.1 rfl).attribute hname)
  | call _ _ ih ihargs => exact hbase ((ih.1 rfl).call fun b hb => (ihargs b hb).2)
  | whole _ ih => exact ⟨(absurd · (by decide)), ih.2⟩

/-- Words that may begin a statement that is neither an assignment nor a call. -/
def statementWords : List String := ["async", "match", "print", "exec", "type"] ++ reserved

section Statements

variable (hword : String.ofList (leadingWord cs) ∉ statementWords)
include hword

theorem statement_simple (hat : startsWith "@" cs = false) (block : BlockReader) :
    statement block ctx ⟨cs, n⟩ = simpleLine ctx.stops (cs.length + 1) ⟨cs, n⟩ := by
  simp only [statement, bind_apply, rest_apply, Option.bind_some, looksAt]
  generalize String.ofList (leadingWord cs) = word at hword
  split
  case h_10 => simp [hat]
  all_goals exact absurd (by decide) hword

theorem simpleStatement_expr : simpleStatement ctx ⟨cs, n⟩ = exprStatement ctx ⟨cs, n⟩ := by
  simp only [simpleStatement, bind_apply, rest_apply, Option.bind_some]
  generalize String.ofList (leadingWord cs) = word at hword
  split
  case h_15 => rfl
  all_goals exact absurd (by decide) hword

end Statements

theorem exprItems_eq (h : a.Reads) (ht : Tail ctx [" = "] t) :
    exprItems ctx ⟨a.chars ++ t, n⟩ = some (⟨[a], false, []⟩, ⟨t, n + a.chars.length⟩) := by
  have hmore (k : Nat) (items : Items) : moreItems (exprHere .full ctx) ctx k items
      ⟨t, n + a.chars.length⟩ = some (items, ⟨t, n + a.chars.length⟩) := by
    cases k with
    | zero => rfl
    | succ k =>
      refine ht.elim (fun hgap _ => by simp [moreItems, follow?, attempt, after, hgap]) ?_
      exact List.forall_mem_cons.mpr ⟨fun r => rfl, List.forall_mem_nil _⟩
  have hread : exprHere .full ctx ⟨a.chars ++ t, n⟩ = some (a, ⟨t, n + a.chars.length⟩) := by
    obtain ⟨c, r, hc, -⟩ := h.head
    have hlen : (a.chars ++ t).length = r.length + t.length + 1 := by
      rw [hc, List.length_append, List.length_cons]
      omega
    rw [exprHere, hlen]
    exact h.full_eq n (by rw [hc, List.length_cons]; omega) (ht.mono (List.drop_subset 2 endTexts))
  simp [exprItems, itemsOf, hread, hmore]

section Lines

variable (h : a.Reads) (ht : Tail ctx [] t)
include h ht

theorem line_values : line ctx (k + 1) ⟨a.chars ++ t, n⟩ =
    some (.values ⟨[a], false, []⟩, ⟨t, n + a.chars.length⟩) := by
  have hyield := (h.front ctx (ht.mono (List.nil_subset _))).keyword_none (y := "yield") (n := n)
    (by decide)
  have hfollow (m : Nat) : follow? ctx assignmentSign ⟨t, m⟩ = some (none, ⟨t, m⟩) :=
    ht.elim (fun hgap _ => by simp [follow?, attempt, after, hgap]) (List.forall_mem_nil _)
  simp [line, attempt, yielded, hyield, exprItems_eq h (ht.mono (List.nil_subset _)), hfollow]

theorem line_assign (hname : isWord name.toList = true)
    (hne : name ∉ constantWords ++ "await" :: reserved) :
    line ctx (k + 2) ⟨name.toList ++ (' ' :: '=' :: ' ' :: (a.chars ++ t)), n⟩ =
      some (.assigned (.assign name a.expr),
        ⟨t, n + (name.toList.length + (3 + a.chars.length))⟩) := by
  have hname : Operand.Reads ⟨.name name, .name name⟩ := by
    have hb := (Operand.IsBase.word hname fun h => hne (List.mem_append_right _ h)).reads
    rwa [Operand.ofWord, if_neg fun h => hne (List.mem_append_left _ h)] at hb
  have hsign : Tail ctx [" = "] (' ' :: '=' :: ' ' :: (a.chars ++ t)) :=
    .text (x := " = ") (by decide)
  have hyield := (hname.front ctx (hsign.drop (k := 16))).keyword_none (y := "yield") (n := n)
    (by decide)
  have hitems := exprItems_eq (n := n) hname hsign
  rw [show Operand.chars ⟨.name name, .name name⟩ = name.toList from rfl] at hyield hitems
  have hfollow (m : Nat) : follow? ctx assignmentSign ⟨' ' :: '=' :: ' ' :: (a.chars ++ t), m⟩ =
      some (some ([], .equals), ⟨' ' :: (a.chars ++ t), m + 2⟩) := rfl
  have htarget : Items.isTarget ⟨[⟨.name name, .name name⟩], false, []⟩ = true := rfl
  have hgap (m : Nat) : beforeOperand ctx ⟨' ' :: (a.chars ++ t), m⟩ = some ([], _) :=
    (h.front ctx (ht.mono (List.nil_subset _))).gap_eq true 1
  rw [line]
  simp [attempt, yielded, hyield, hitems, hfollow, htarget, hgap, line_values h ht]
  exact ⟨rfl, by omega⟩

end Lines

/-- Statements that are read back from their line. -/
inductive ReadableLine : Stmt → Prop where
  | assign {name : String} {a : Operand} (hname : isWord name.toList = true)
    (hne : name ∉ constantWords ++ "await" :: statementWords) (h : Readable false a) :
    ReadableLine (.assign name a.expr)
  | call {a : Operand} (h : Readable false a) (hcall : a.expr.isCall = true)
    (hword : String.ofList (leadingWord a.chars) ∉ statementWords) : ReadableLine (.eval a.expr)

/-- A line is read as one statement, up to its end. -/
structure ReadsLine (s : Stmt) (text : String) : Prop where
  imports : s.imports = []
  lines : s.lines = [⟨0, text⟩]
  head : ∃ c r, text.toList = c :: r ∧ opensOperand c = true
  read {t : List Char} (ht : ∀ c ∈ t.head?, c = '\n') (block : BlockReader) (n : Nat) :
    ∃ m, statement block ⟨0, .checked⟩ ⟨text.toList ++ t, n⟩ = some ([s], ⟨t, m⟩)

theorem leadingWord_line (ht : ∀ c ∈ t.head?, c = '\n') :
    leadingWord (c :: w ++ t) = leadingWord (c :: w) := by
  have htake : (w ++ t).takeWhile Text.isIdentPart = w.takeWhile Text.isIdentPart := by
    induction w with
    | nil =>
      cases t with
      | nil => rfl
      | cons d t => rw [ht d rfl]; rfl
    | cons d w ih => simp [List.takeWhile_cons, ih]
  simp [leadingWord, htake]

theorem statement_of_line {found : Line} (ht : ∀ c ∈ t.head?, c = '\n')
    (hw : ∃ c r, w = c :: r ∧ opensOperand c = true)
    (hword : String.ofList (leadingWord w) ∉ statementWords) (block : BlockReader)
    (hfound : found = .assigned s ∨ ∃ a, found = .values ⟨[a], false, []⟩ ∧ s = .eval a.expr)
    (hline : ∀ k, line ctx.stops (k + 2) ⟨w ++ t, n⟩ = some (found, ⟨t, m⟩)) :
    ∃ m, statement block ctx ⟨w ++ t, n⟩ = some ([s], ⟨t, m⟩) := by
  obtain ⟨c, r, rfl, hc⟩ := hw
  have hread : exprStatement ctx.stops ⟨c :: r ++ t, n⟩ = some (s, ⟨t, m⟩) := by
    rw [exprStatement, bind_apply, rest_apply, Option.bind_some, bind_apply, List.cons_append,
      List.length_cons, ← List.cons_append, hline]
    rcases hfound with rfl | ⟨a, rfl, rfl⟩ <;> rfl
  rw [← leadingWord_line ht] at hword
  rw [statement_simple hword (startsWith_operand hc rfl), simpleLine, bind_apply,
    simpleStatement_expr hword, hread]
  exact ⟨m, by simp [atLineEnd_line ht]⟩

theorem ReadableLine.readsLine (h : ReadableLine s) : ∃ text, ReadsLine s text := by
  have hstops (t : List Char) (ht : ∀ c ∈ t.head?, c = '\n') : Tail ⟨0, .stops⟩ [] t := .line rfl ht
  cases h with
  | @assign name a hname hne h =>
    have htext : (name ++ " = " ++ a.expr.print).toList =
        name.toList ++ ' ' :: '=' :: ' ' :: a.chars := by simp
    have hhead : ∃ c r,
        (name ++ " = " ++ a.expr.print).toList = c :: r ∧ opensOperand c = true := by
      obtain ⟨c, r, hc, hopens⟩ := opens_of_isWord hname
      exact ⟨c, _, by rw [htext, hc]; rfl, hopens⟩
    refine ⟨_, rfl, rfl, hhead, fun ht block n => ?_⟩
    refine statement_of_line (m := n + (name.toList.length + (3 + a.chars.length))) ht hhead ?_
      block (.inl rfl) fun k => ?_
    · rw [htext, leadingWord_append hname (by rintro _ ⟨⟩; rfl), String.ofList_toList]
      exact fun h => hne (List.mem_append_right _ (List.mem_cons_of_mem _ h))
    · have hsub : constantWords ++ "await" :: reserved ⊆
          constantWords ++ "await" :: statementWords := by decide
      rw [htext, List.append_assoc]
      exact line_assign h.isBase_and_reads.2 (hstops _ ht) hname fun hmem => hne (hsub hmem)
  | @call a h hcall hword =>
    have hreads := h.isBase_and_reads.2
    refine ⟨a.expr.print, rfl, by simp [Stmt.lines, hcall], hreads.head, fun ht block n => ?_⟩
    exact statement_of_line ht hreads.head hword block (.inr ⟨a, rfl, rfl⟩) fun k =>
      line_values hreads (hstops _ ht)

/-- The text of lines, each behind a line end, with a line end behind the last. -/
def below (lines : List CodeLine) : List Char :=
  lines.foldr (fun l cs => '\n' :: (l.text.toList ++ cs)) ['\n']

theorem head_below (lines : List CodeLine) : ∀ c ∈ (below lines).head?, c = '\n' := by
  cases lines <;> simp [below]

theorem lineStart_token (h : opensToken c = true) (hlead : w = [] ∨ w = ['\n']) :
    (Cursor.mk (w ++ c :: cs) n).lineStart 0 = .statement [] ⟨c :: cs, n + w.length⟩ := by
  have hlayout : (Cursor.mk (w ++ c :: cs) n).layout true =
      ⟨!w.isEmpty, 0, ⟨c :: cs, n + w.length⟩⟩ := by
    rcases hlead with rfl | rfl
    · exact layoutFrom_token h true false 0 0 n
    · exact layoutFrom_token h true true 0 0 (n + 1)
  have hskip : (Cursor.mk (w ++ c :: cs) n).skipWhile isSpace = ⟨c :: cs, n + w.length⟩ := by
    rcases hlead with rfl | rfl
    · exact skipWhile_token h 0
    · have hspace : isSpace '\n' = true := by decide
      have hnext : (Cursor.mk (c :: cs) (n + 1)).skipWhile isSpace = _ := skipWhile_token h 0
      simpa [Cursor.skipWhile, Cursor.advance, hspace] using hnext
  simp only [Cursor.lineStart, lineStartFrom, hlayout, hskip, pieceAt_token h]
  cases startsString (c :: cs) <;> simp

theorem topLevel_cons {text : String} (hs : ReadsLine s text) (hlead : w = [] ∨ w = ['\n'])
    (h : ∀ n, topLevel k ⟨below lines, n⟩ = .ok stmts) :
    topLevel (k + 1) ⟨w ++ (text.toList ++ below lines), n⟩ = .ok (s :: stmts) := by
  obtain ⟨m, hread⟩ := hs.read (head_below lines) (block k) (n + w.length)
  obtain ⟨c, r, hc, hopens⟩ := hs.head
  rw [hc, List.cons_append] at hread ⊢
  rw [topLevel, lineStart_token (Bool.and_eq_true_iff.mp hopens).1 hlead]
  simp [hread, h]

/-- What is read and written for the statements of a module behind the first. -/
theorem topLevel_below (h : ∀ s ∈ stmts, ReadableLine s) :
    Stmt.allImports stmts = [] ∧ (∀ l ∈ Stmt.allLines stmts, l.depth = 0) ∧
      stmts.length < (below (Stmt.allLines stmts)).length ∧
      ∀ k n, stmts.length < k → topLevel k ⟨below (Stmt.allLines stmts), n⟩ = .ok stmts := by
  induction stmts with
  | nil =>
    refine ⟨rfl, by simp [Stmt.allLines], by simp [below, Stmt.allLines], fun k n hk => ?_⟩
    obtain ⟨k, rfl⟩ : ∃ k', k = k' + 1 := ⟨k - 1, by omega⟩
    rfl
  | cons s stmts ih =>
    obtain ⟨hs, hstmts⟩ := List.forall_mem_cons.mp h
    obtain ⟨text, hs⟩ := hs.readsLine
    obtain ⟨himports, hdepth, hlen, hread⟩ := ih hstmts
    rw [Stmt.allImports, Stmt.allLines, hs.imports, hs.lines, himports]
    refine ⟨rfl, List.forall_mem_cons.mpr ⟨rfl, hdepth⟩, ?_, fun k n hk => ?_⟩
    · simp [below] at hlen ⊢
      omega
    · obtain ⟨k, rfl⟩ : ∃ k', k = k' + 1 := ⟨k - 1, by omega⟩
      exact topLevel_cons hs (.inr rfl) fun n => hread k n (Nat.lt_of_succ_lt_succ hk)

theorem toList_printLines {l : CodeLine} (h : ∀ m ∈ l :: lines, m.depth = 0)
    (hne : l.text.toList ≠ []) (style : CodeStyle) :
    (Graph.printLines style (l :: lines)).toList = l.text.toList ++ below lines := by
  have hprint : (l :: lines).map (·.print style) = (l :: lines).map (·.text) :=
    List.map_congr_left fun m hm => by simp [CodeLine.print, h m hm]
  have htext : ("\n".intercalate ((l :: lines).map (·.text))).toList ++ ['\n'] =
      l.text.toList ++ below lines := by
    rw [String.toList_intercalate]
    clear h hne hprint
    induction lines generalizing l with
    | nil => simp [below]
    | cons m lines ih =>
      have ih := ih (l := m)
      simp only [List.map_cons, List.intercalate_cons_cons, List.append_assoc, below,
        List.foldr_cons] at ih ⊢
      rw [ih]
      rfl
  rw [Graph.printLines, hprint, if_neg, String.toList_append]
  · exact htext
  · intro hempty
    rw [hempty] at htext
    have hlen := congrArg List.length htext
    cases lines <;> simp [below] at hlen <;> simp_all

/-- A module of assignments and calls is read back from its canonical text. -/
theorem parse_printModule (h : ∀ s ∈ stmts, ReadableLine s) (style : CodeStyle) :
    parse (printModule style stmts) = .ok stmts := by
  cases stmts with
  | nil => rfl
  | cons s stmts =>
    obtain ⟨hs, hstmts⟩ := List.forall_mem_cons.mp h
    obtain ⟨text, hs⟩ := hs.readsLine
    obtain ⟨himports, hdepth, hlen, hread⟩ := topLevel_below hstmts
    have htext : (printModule style (s :: stmts)).toList =
        text.toList ++ below (Stmt.allLines stmts) := by
      rw [printModule, Stmt.allImports, Stmt.allLines, hs.imports, hs.lines, himports]
      refine toList_printLines (List.forall_mem_cons.mpr ⟨rfl, hdepth⟩) ?_ style
      obtain ⟨c, r, hc, -⟩ := hs.head
      rw [hc]
      exact List.cons_ne_nil c r
    have hparse : topLevel ((printModule style (s :: stmts)).length + 1)
        (.start (printModule style (s :: stmts))) = .ok (s :: stmts) := by
      rw [Cursor.start, ← String.length_toList, htext]
      refine topLevel_cons hs (.inl rfl) fun n => hread _ n ?_
      rw [List.length_append]
      omega
    rw [parse, hparse]

-- A number takes a point or a sign that stands next to it.
example : (parse "x = 1.real\n").isOk = false := by decide

example : parse "x = (-1)\n" = .ok [.assign "x" (.literal "-1")] := by rfl

end ScopedFlow.Source
