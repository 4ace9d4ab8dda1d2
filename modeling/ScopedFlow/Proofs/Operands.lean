import ScopedFlow.Proofs.Tails

/-!
# Reading back the canonical text

Operations are written in brackets, so whatever stands around an operand cannot take a part of it. A
number is an exception: a point behind it would belong to it, and a sign before it does.
-/

namespace ScopedFlow

open Source Source.Reader

variable {c : Char} {t w x cs : List Char} {ctx : Context} {n m k fuel steps : Nat} {op : String}
  {a b l r : Operand} {args : List Operand} {sub : ExprReader} {d : Cursor}

namespace Source

theorem slice_append (y : String) (cs : List Char) :
    Cursor.slice ⟨y.toList ++ cs, n⟩ ⟨cs, n + y.toList.length⟩ = y := by
  simp [Cursor.slice]

theorem tail_round (ctx : Context) (t : List Char) : Tail ctx endTexts (')' :: t) :=
  .text (x := ")") (by decide)

theorem star_operand (hc : opensOperand c = true) : Reader.star ⟨c :: t, n⟩ = none := by
  have hs : symbol "*" ⟨c :: t, n⟩ = none := symbol_operand hc rfl
  cases hb : startsWith "**" (c :: t) <;> simp [Reader.star, looksAt, hb, hs]

theorem primary_of_atom (hc : opensOperand c = true)
    (h : atom fuel sub ctx ⟨c :: t, n⟩ = some (a, d)) :
    primary fuel sub ctx ⟨c :: t, n⟩ = trailers fuel sub ctx true ⟨c :: t, n⟩ fuel a d := by
  simp [primary, starredPlace, star_operand hc, h]

theorem signed_of_power (hf : Front ctx w t) (hsign : ∀ c ∈ w.head?, c ∉ ['-', '+', '~'])
    (h : power fuel sub ctx ⟨w ++ t, n⟩ = some (a, d)) :
    signed fuel sub ctx ⟨w ++ t, n⟩ = some (a, d) := by
  have hawait := hf.keyword_none (y := "await") (n := n) (by decide)
  obtain ⟨c, r, rfl, -⟩ := hf.head
  have hc := hsign c rfl
  simp_all [signed, awaited, attempt]

theorem conditional_of_arithmetic (hf : Front ctx w x) (hx : Tail ctx afterAtom x)
    (ht : Tail ctx endTexts t) (h : arithmetic (k + 1) sub ctx ⟨w ++ x, n⟩ = some (a, ⟨t, m⟩)) :
    conditional (k + 1) sub ctx ⟨w ++ x, n⟩ = some (a, ⟨t, m⟩) :=
  conditional_of_inversion ht (hf.inversion_of_comparison hx (comparison_of_arithmetic ht h))

namespace Operand

/-- The canonical text of an operand. -/
abbrev chars (a : Operand) : List Char := a.expr.print.toList

/-- The canonical text is read as the operand. -/
structure Reads (a : Operand) : Prop where
  front (ctx : Context) {t : List Char} (ht : Tail ctx afterAtom t) : Front ctx a.chars t
  signed (ctx : Context) {t : List Char} {k : Nat} (n : Nat) (hk : a.chars.length ≤ k)
    (ht : Tail ctx afterSigned t) :
    signed k (expression k) ctx ⟨a.chars ++ t, n⟩ = some (a, ⟨t, n + a.chars.length⟩)

/-- The canonical text is read as the operand, whatever binds to it behind. -/
structure IsBase (a : Operand) : Prop where
  form_ne : a.form ≠ .number
  front (ctx : Context) {t : List Char} (ht : Tail ctx afterAtom t) : Front ctx a.chars t
  unsigned : ∀ c ∈ a.chars.head?, c ∉ ['-', '+', '~']
  trailers (ctx : Context) {t : List Char} {k : Nat} (n : Nat) (hk : a.chars.length ≤ k)
    (ht : Tail ctx afterAtom t) : ∃ steps, k < steps + a.chars.length ∧
      primary k (expression k) ctx ⟨a.chars ++ t, n⟩ =
        trailers k (expression k) ctx true ⟨a.chars ++ t, n⟩ steps a ⟨t, n + a.chars.length⟩

theorem IsBase.reads (h : a.IsBase) : a.Reads where
  front := h.front
  signed ctx t k n hk ht := by
    obtain ⟨steps, -, hread⟩ := h.trailers ctx n hk (ht.drop (k := 2))
    exact signed_of_power (h.front ctx (ht.drop (k := 2))) h.unsigned
      (power_of_primary ht (hread.trans (trailers_stop ht)))

theorem Reads.full_eq (h : a.Reads) (n : Nat) (hfuel : a.chars.length ≤ k + 1)
    (ht : Tail ctx endTexts t) :
    expression (k + 2) .full ctx ⟨a.chars ++ t, n⟩ = some (a, ⟨t, n + a.chars.length⟩) := by
  refine conditional_of_arithmetic (h.front ctx (ht.drop (k := 14))) (ht.drop (k := 14)) ht ?_
  have hread := h.signed ctx n hfuel (ht.mono (List.subset_append_right ..))
  simp [arithmetic, hread, operations_stop ht]

theorem IsBase.of_atom (hform : a.form ≠ .number)
    (hfront : ∀ ctx {t}, Tail ctx afterAtom t → Front ctx a.chars t)
    (hsign : ∀ c ∈ a.chars.head?, c ∉ ['-', '+', '~'])
    (hatom : ∀ ctx {t k} n, a.chars.length ≤ k → Tail ctx afterAtom t →
      atom k (expression k) ctx ⟨a.chars ++ t, n⟩ = some (a, ⟨t, n + a.chars.length⟩)) :
    a.IsBase where
  form_ne := hform
  front := hfront
  unsigned := hsign
  trailers ctx t k n hk ht := by
    have hread := hatom ctx n hk ht
    obtain ⟨c, r, hc, hopens⟩ := (hfront ctx ht).head
    refine ⟨k, by simp [hc], ?_⟩
    rw [hc] at hread ⊢
    exact primary_of_atom hopens hread

/-- Round brackets around something that is read as a whole expression. -/
theorem IsBase.of_round {e : Expr} (hprint : e.print.toList = '(' :: (w ++ [')']))
    (hopens : ∃ c r, w = c :: r ∧ opensOperand c = true)
    (hyield : ∀ t n, keyword "yield" ⟨w ++ ')' :: t, n⟩ = none)
    (hread : ∀ k ctx t n, w.length ≤ k →
      conditional (k + 1) (expression (k + 1)) ctx ⟨w ++ ')' :: t, n⟩ =
        some (⟨e, .other⟩, ⟨')' :: t, n + w.length⟩)) : IsBase ⟨e, .group [.other]⟩ := by
  have hchars : chars ⟨e, .group [.other]⟩ = '(' :: (w ++ [')']) := hprint
  refine .of_atom (fun h => by cases h) (fun _ _ _ => ?_) ?_ fun ctx t fuel n hfuel _ => ?_
  · rw [hchars]
    exact .sign rfl rfl
  · rw [hchars]
    rintro _ ⟨⟩
    decide
  rw [hchars] at hfuel ⊢
  obtain ⟨k, rfl⟩ : ∃ k, fuel = k + 2 := ⟨fuel - 2, by simp at hfuel; omega⟩
  have hinner : expression (k + 2) .full ctx.free ⟨w ++ ')' :: t, n + 1⟩ = _ :=
    hread k ctx.free t (n + 1) (by simp at hfuel; omega)
  have hyield := hyield t (n + 1)
  obtain ⟨c, r, rfl, hc⟩ := hopens
  have hopen : atom (k + 2) (expression (k + 2)) ctx ⟨'(' :: c :: (r ++ ')' :: t), n⟩ =
      roundBracket (k + 2) (expression (k + 2)) ctx ⟨'(' :: c :: (r ++ ')' :: t), n⟩ := rfl
  have hsymbol : symbol "(" ⟨'(' :: c :: (r ++ ')' :: t), n⟩ =
      some ((), ⟨c :: (r ++ ')' :: t), n + 1⟩) := rfl
  have hgap : beforeItem ctx.free ⟨c :: (r ++ ')' :: t), n + 1⟩ = some ([], _) :=
    gap_token (Bool.and_eq_true_iff.mp hc).1 true 0
  have hafter (m : Nat) : afterFirst (comprehension (k + 2) (expression (k + 2)) ctx.free) ")"
      ctx.free ⟨')' :: t, m⟩ = some (.close [], ⟨t, m + 1⟩) := rfl
  simp only [List.cons_append] at hyield hinner
  simp [hopen, roundBracket, hsymbol, hgap, attempt, symbol_operand (y := ")") hc rfl, element,
    star_operand hc, yielded, hyield, hinner, hafter]
  omega

theorem Reads.sign (h : a.Reads) (hc : c ∈ ['-', '+', '~']) (hform : c = '~' ∨ a.form ≠ .number) :
    IsBase ⟨.unary (String.singleton c) a.expr, .group [.other]⟩ := by
  obtain ⟨hopens, hstart, hnot, hsign⟩ : opensOperand c = true ∧ Text.isIdentStart c = false ∧
      String.singleton c ≠ "not" ∧ (c == '-' || c == '+' || c == '~') = true := by
    simp only [List.mem_cons, List.not_mem_nil, or_false] at hc
    rcases hc with rfl | rfl | rfl <;> decide
  refine .of_round (w := c :: a.chars) (by simp [Expr.print, hnot]) ⟨c, a.chars, rfl, hopens⟩
    (fun t n => by simp [keyword, word, leadingWord, hstart]) fun k ctx t n hk => ?_
  have ht := tail_round ctx t
  have hgap : beforeOperand ctx ⟨a.chars ++ ')' :: t, n + 1⟩ = some ([], _) :=
    (h.front ctx (ht.drop (k := 14))).gap_eq true 0
  have hinner : expression (k + 1) .unary ctx ⟨a.chars ++ ')' :: t, n + 1⟩ = some (a, _) :=
    h.signed ctx (n + 1) (Nat.le_of_succ_le hk) (ht.mono (List.subset_append_right ..))
  refine conditional_of_arithmetic (.sign hopens hstart) (ht.drop (k := 14)) ht ?_
  rw [arithmetic, bind_apply]
  simp only [Source.signed, List.cons_append, bind_apply, here_apply, rest_apply, Option.bind_some,
    hsign, if_true, advance_apply, Cursor.advance, List.drop_succ_cons, List.drop_zero, hgap,
    hinner]
  rcases hform with rfl | hform
  · cases a.form <;> simp [Nat.add_assoc, Nat.add_comm 1, operations_stop ht]
  · cases hcase : a.form <;> simp_all [Nat.add_assoc, Nat.add_comm 1, operations_stop ht]

theorem Reads.binary (hl : l.Reads) (hr : r.Reads) {strength : Nat}
    (hop : (op, strength) ∈ binaryOperators) :
    IsBase ⟨.binary op l.expr r.expr, .group [.other]⟩ := by
  have hmem : ∀ p ∈ binaryOperators, " " ++ p.1 ++ " " ∈ afterAtom.drop 2 := by decide
  have hu (ctx t) : Tail ctx (afterAtom.drop 2)
      (' ' :: (op.toList ++ ' ' :: (r.chars ++ ')' :: t))) := by
    simpa using Tail.text (r := r.chars ++ ')' :: t) (hmem _ hop)
  have hf (ctx t) := hl.front ctx (hu ctx t).drop
  obtain ⟨c, u, hc, hopens⟩ := (hf ⟨0, .free⟩ []).head
  refine .of_round (w := l.chars ++ ' ' :: (op.toList ++ ' ' :: r.chars)) (by simp [Expr.print])
    ⟨c, _, by rw [hc]; rfl, hopens⟩ (fun t n => ?_) fun k ctx t n hk => ?_
  · simpa using (hf ⟨0, .free⟩ t).keyword_none (y := "yield") (n := n) (by decide)
  have ht := tail_round ctx t
  simp only [List.length_append, List.length_cons] at hk ⊢
  have hleft := hl.signed (k := k + 1) ctx n (by omega) (hu ctx t)
  have hright (m : Nat) := hr.signed (k := k + 1) ctx m (by omega)
    (ht.mono (List.subset_append_right ..))
  have hgap (m : Nat) : beforeOperand ctx ⟨' ' :: (r.chars ++ ')' :: t), m⟩ = some ([], _) :=
    (hr.front ctx (ht.drop (k := 14))).gap_eq true 1
  obtain ⟨hafter, hat, hs⟩ : (∀ m cs, after ctx ⟨' ' :: (op.toList ++ ' ' :: cs), m⟩ =
      some ([], ⟨op.toList ++ ' ' :: cs, m + 1⟩)) ∧
      (∀ cs, binaryOperatorAt (op.toList ++ ' ' :: cs) = some (op, strength)) ∧
      weakestBinary ≤ strength := by
    clear hleft hu hf hc hk
    repeat
      rcases List.mem_cons.mp hop with heq | hop
      · cases heq
        exact ⟨fun _ _ => rfl, fun _ => rfl, by decide⟩
    cases hop
  rw [List.append_assoc, List.cons_append, List.append_assoc, List.cons_append]
  refine conditional_of_arithmetic (hf ctx t) (hu ctx t).drop ht ?_
  simp [arithmetic, hleft, operations, attempt, hafter, hat, hs, Cursor.advance,
    ← String.length_toList, hgap, hright, operations_stop ht]
  omega

/-- An operand with a further attribute or call is one again. -/
theorem IsBase.extend (h : a.IsBase) (hb : b.form ≠ .number)
    (hchars : b.chars = a.chars ++ c :: x) (hc : String.singleton c ∈ trailerTexts)
    (hstep : ∀ ctx {t k} steps n start, x.length + 1 < k → Tail ctx afterAtom t →
      start.slice ⟨c :: (x ++ t), n⟩ = a.expr.print →
      Source.trailers k (expression k) ctx true start (steps + 1) a ⟨c :: (x ++ t), n⟩ =
        Source.trailers k (expression k) ctx true start steps b ⟨t, n + 1 + x.length⟩) :
    b.IsBase := by
  have hx (ctx t) : Tail ctx trailerTexts (c :: t) := by simpa using Tail.text (r := t) hc
  have hatom (ctx t) : Tail ctx afterAtom (c :: t) :=
    (hx ctx t).mono (List.subset_append_left ..)
  obtain ⟨d, r, hd, -⟩ := (h.front ⟨0, .free⟩ (hatom _ [])).head
  refine ⟨hb, fun ctx t ht => ?_, fun e he => ?_, fun ctx t k n hk ht => ?_⟩
  · rw [hchars]
    exact (h.front ctx (hatom ctx (x ++ t))).append fun t => hx ctx _
  · apply h.unsigned e
    rw [hchars, hd] at he
    rwa [hd]
  · rw [hchars, List.length_append, List.length_cons] at hk
    have hpos : 0 < a.chars.length := by rw [hd]; exact Nat.succ_pos _
    obtain ⟨steps, hsteps, hread⟩ := h.trailers (k := k) ctx n (by omega) (hatom ctx (x ++ t))
    obtain ⟨steps, rfl⟩ : ∃ s, steps = s + 1 := ⟨steps - 1, by omega⟩
    refine ⟨steps, by rw [hchars, List.length_append, List.length_cons]; omega, ?_⟩
    rw [hchars, List.append_assoc, List.cons_append, hread,
      hstep ctx _ _ _ (by omega) ht (slice_append ..)]
    simp [Nat.add_assoc, Nat.add_comm 1]

theorem IsBase.attribute (h : a.IsBase) {name : String} (hw : isWord name.toList = true) :
    IsBase ⟨.attribute a.expr name, .place⟩ := by
  refine h.extend (c := '.') (x := name.toList) (fun h => by cases h) (by simp [chars, Expr.print])
    (by decide) fun ctx t _ _ n _ _ ht _ => ?_
  have hafter : after ctx ⟨'.' :: (name.toList ++ t), n⟩ =
      some ([], ⟨'.' :: (name.toList ++ t), n⟩) := rfl
  have hgap : before ctx ⟨name.toList ++ t, n + 1⟩ = some ([], ⟨name.toList ++ t, n + 1⟩) := by
    obtain ⟨c, r, hc, hopens⟩ := opens_of_isWord hw
    rw [hc]
    exact gap_token (Bool.and_eq_true_iff.mp hopens).1 false 0
  rw [Source.trailers]
  simp [attempt, hafter, Cursor.advance, hgap, word_append hw fun c hc => (ht.stops c hc).1]

/-- The texts of arguments behind a first one. -/
def moreArgs : List Operand → List Char
  | [] => []
  | b :: args => ',' :: ' ' :: (b.chars ++ moreArgs args)

/-- The texts of arguments. -/
def argTexts : List Operand → List Char
  | [] => []
  | a :: args => a.chars ++ moreArgs args

def writtenArgs (args : List Operand) : List WrittenArg :=
  args.map fun b => (b.expr.print, .positional b.expr)

section Arguments

variable (h : a.Reads)
include h

theorem Reads.head : ∃ c r, a.chars = c :: r ∧ opensOperand c = true :=
  (h.front ⟨0, .free⟩ ((tail_round _ []).drop (k := 14))).head

/-- An argument is taken whole where the list goes on and where it ends. -/
theorem Reads.argument (hk : a.chars.length ≤ k + 1) (args : List Operand) (ctx : Context) :
    writtenArg (expression (k + 2)) ctx ⟨a.chars ++ (moreArgs args ++ ')' :: t), n⟩ =
      some ((a.expr.print, .positional a.expr),
        ⟨moreArgs args ++ ')' :: t, n + a.chars.length⟩) := by
  have htail : Tail ctx [")", ","] (moreArgs args ++ ')' :: t) := by
    cases args with
    | nil => exact .text (x := ")") (by decide)
    | cons b args => exact .text (x := ",") (by decide)
  have hend : Tail ctx endTexts (moreArgs args ++ ')' :: t) := htail.mono (by decide)
  have hf := h.front ctx (hend.drop (k := 14))
  have hnamed : (word >>= fun name => after ctx >>= fun _ => equals >>= fun _ => pure name)
      ⟨a.chars ++ (moreArgs args ++ ')' :: t), n⟩ = none :=
    hf.word_none htail fun id m u hu => hu.equals_none _
  simp only [bind_apply, pure_apply] at hnamed
  simp [writtenArg, Source.argument, attempt, hf.symbol_none (y := "**") rfl,
    hf.symbol_none (y := "*") rfl, hnamed, h.full_eq n hk hend, slice_append]

theorem Reads.beforeItem_eq (ctx : Context) (t : List Char) (n : Nat) :
    beforeItem ctx ⟨a.chars ++ t, n⟩ = some ([], ⟨a.chars ++ t, n⟩) ∧
      beforeItem ctx ⟨' ' :: (a.chars ++ t), n⟩ = some ([], ⟨a.chars ++ t, n + 1⟩) ∧
      symbol ")" ⟨a.chars ++ t, n⟩ = none ∧
      ∀ cs, a.chars ++ t ≠ ')' :: cs ∧ a.chars ++ t ≠ ',' :: cs := by
  obtain ⟨c, r, hc, hopens⟩ := h.head
  have htoken := (Bool.and_eq_true_iff.mp hopens).1
  rw [hc]
  refine ⟨gap_token htoken true 0, gap_token htoken true 1, symbol_operand hopens rfl, fun cs => ?_⟩
  constructor <;>
  · intro heq
    cases heq
    cases hopens

end Arguments

theorem argumentsTail_eq (h : ∀ b ∈ a :: args, b.Reads)
    (hk : a.chars.length + (moreArgs args).length ≤ k + 1) (hs : (moreArgs args).length < steps)
    (ctx : Context) :
    argumentsTail (expression (k + 2)) ctx steps
        ⟨' ' :: (a.chars ++ (moreArgs args ++ ')' :: t)), n⟩ =
      some (writtenArgs (a :: args), ⟨t, n + 1 + a.chars.length + (moreArgs args).length + 1⟩) := by
  induction steps generalizing a args n with
  | zero => exact absurd hs (Nat.not_lt_zero _)
  | succ steps ih =>
    obtain ⟨ha, hargs⟩ := List.forall_mem_cons.mp h
    have hitem := ha.beforeItem_eq ctx (moreArgs args ++ ')' :: t)
    simp only [argumentsTail, bind_apply, (hitem n).2.1, attempt, (hitem (n + 1)).2.2.1,
      ha.argument (Nat.le_of_add_right_le hk) args, Option.bind_some]
    cases args with
    | nil => rfl
    | cons b args =>
      simp only [moreArgs, List.length_cons, List.length_append] at hk hs
      have hrest := ih (n := n + 1 + a.chars.length + 1) hargs (by omega) (by omega)
      have hafter (cs m) : after ctx ⟨',' :: cs, m⟩ = some ([], ⟨',' :: cs, m⟩) := rfl
      have hcomma (cs m) : symbol "," ⟨',' :: cs, m⟩ = some ((), ⟨cs, m + 1⟩) := rfl
      simp [moreArgs, hafter, hcomma, hrest, gapArgs, writtenArgs]
      omega

theorem arguments_eq (h : ∀ b ∈ args, b.Reads) (hk : (argTexts args).length ≤ k + 1)
    (ctx : Context) :
    arguments (k + 2) (expression (k + 2)) ctx ⟨'(' :: (argTexts args ++ ')' :: t), n⟩ =
      some (some (writtenArgs args), ⟨t, n + 1 + (argTexts args).length + 1⟩) := by
  cases args with
  | nil => rfl
  | cons a args =>
    obtain ⟨ha, hargs⟩ := List.forall_mem_cons.mp h
    rw [argTexts, List.length_append] at hk
    obtain ⟨hgap, -, -, hfirst⟩ := ha.beforeItem_eq ctx.free (moreArgs args ++ ')' :: t) (n + 1)
    have hopen : symbol "(" ⟨'(' :: (argTexts (a :: args) ++ ')' :: t), n⟩ =
        some ((), ⟨a.chars ++ (moreArgs args ++ ')' :: t), n + 1⟩) := by
      rw [← List.append_assoc]
      rfl
    simp [arguments, hopen, hgap, hfirst, ha.argument (Nat.le_of_add_right_le hk) args]
    cases args with
    | nil =>
      simp only [argTexts, moreArgs, List.append_nil]
      rfl
    | cons b args =>
      simp only [moreArgs, List.length_cons, List.length_append] at hk
      have hnext (cs m) : afterFirst
          (do require true; comprehension (k + 2) (expression (k + 2)) ctx.free) ")" ctx.free
          ⟨',' :: cs, m⟩ = some (.comma [], ⟨cs, m + 1⟩) := rfl
      have hrest (m) := argumentsTail_eq (k := k) (t := t) (n := m) hargs (by omega)
        (show (moreArgs args).length < k + 2 by omega) ctx.free
      simp [moreArgs, hnext, hrest, gapArgs, argTexts, writtenArgs]
      omega

theorem intercalate_prints (args : List Operand) : [',', ' '].intercalate
    ((Arg.prints (args.map fun b => .positional b.expr)).map String.toList) = argTexts args := by
  cases args with
  | nil => rfl
  | cons a args =>
    induction args generalizing a with
    | nil => simp [argTexts, moreArgs, Arg.prints]
    | cons b args ih =>
      have ih := ih b
      simp only [List.map_cons, Arg.prints, List.intercalate_cons_cons, argTexts, moreArgs] at ih ⊢
      rw [ih]
      simp

theorem print_callOf (a : Operand) (args : List Arg) : (callOf a a.expr.print args).expr.print =
    a.expr.print ++ "(" ++ ", ".intercalate (Arg.prints args) ++ ")" := by
  unfold callOf
  split
  · rename_i he
    simp [he, Expr.print]
  · rfl

theorem IsBase.call (h : a.IsBase) (hargs : ∀ b ∈ args, b.Reads) :
    IsBase (callOf a a.expr.print (args.map fun b => .positional b.expr)) := by
  refine h.extend (c := '(') (x := argTexts args ++ [')']) ?_ ?_ (by decide)
    fun ctx t k steps n start hk _ hslice => ?_
  · unfold callOf
    split <;> exact fun h => by cases h
  · rw [chars, print_callOf]
    simp [intercalate_prints]
  · obtain ⟨k, rfl⟩ : ∃ k', k = k' + 2 := ⟨k - 2, by omega⟩
    rw [List.length_append, List.length_singleton] at hk
    have hread := arguments_eq (k := k) (t := t) (n := n) hargs (by omega) ctx
    have hafter : after ctx ⟨'(' :: (argTexts args ++ ')' :: t), n⟩ =
        some ([], ⟨'(' :: (argTexts args ++ ')' :: t), n⟩) := rfl
    rw [List.append_assoc, List.singleton_append] at hslice ⊢
    rw [Source.trailers]
    simp [attempt, hafter, hread, hslice, writtenArgs, Function.comp_def, Nat.add_assoc]

/-- A word that is no keyword is a name or a constant. -/
def ofWord (id : String) : Operand :=
  if id ∈ constantWords then ⟨.literal id, .other⟩ else .ofName id

theorem IsBase.word {id : String} (hw : isWord id.toList = true) (hne : id ∉ "await" :: reserved) :
    (ofWord id).IsBase := by
  have hreserved : id ∉ reserved := fun h => hne (List.mem_cons_of_mem _ h)
  have hchars : (ofWord id).chars = id.toList := by
    unfold ofWord
    split <;> rfl
  refine .of_atom ?_ (fun ctx t ht => ?_) ?_ fun ctx t k n _ ht => ?_
  · unfold ofWord
    split <;> exact fun h => by cases h
  · rw [hchars]
    refine .of_isWord hw ht ?_
    rw [String.ofList_toList]
    have hsub : ["not", "lambda", "yield", "await"] ⊆ "await" :: reserved := by decide
    exact fun h => hne (hsub h)
  · rw [hchars]
    cases hid : id.toList with
    | nil => simp
    | cons c r =>
      rw [hid, isWord, Bool.and_eq_true] at hw
      rintro _ ⟨⟩ hc
      simp only [List.mem_cons, List.not_mem_nil, or_false] at hc
      rcases hc with rfl | rfl | rfl <;> cases hw.1
  · rw [hchars, atom_word hw ht, nameOrConstant, bind_apply,
      word_append hw fun c hc => (ht.stops c hc).1]
    by_cases hid : id ∈ constantWords <;> simp [ofWord, hid, hreserved]

end Operand

/-- A text that is taken whole as a number, unless a word or a fraction goes on behind it. -/
structure IsNumber (y : String) : Prop where
  head : ∃ c r, y.toList = c :: r ∧ c.isDigit = true
  length {t : List Char} (ht : ∀ c ∈ t.head?, Text.isIdentPart c = false ∧ c ≠ '.') :
    numberLength (y.toList ++ t) = y.toList.length

theorem IsNumber.reads {y : String} (h : IsNumber y) : Operand.Reads ⟨.literal y, .number⟩ := by
  obtain ⟨c, r, hy, hdigit⟩ := h.head
  have hchars : Operand.chars ⟨.literal y, .number⟩ = c :: r := hy
  have hc := of_isDigit hdigit
  have hopens := opens_of_isIdentPart (hc []).1
  have hf (ctx t) : Front ctx (c :: r) t := .sign hopens (hc []).2.1
  constructor <;> rw [hchars]
  · exact fun ctx t _ => hf ctx t
  intro ctx t k n _ ht
  have hlength := h.length fun d hd => ⟨((ht.drop (k := 2)).stops d hd).1, ht.point d hd⟩
  have hslice := slice_append (n := n) y t
  refine signed_of_power (hf ctx t) ?_ (power_of_primary ht ?_)
  · rintro _ ⟨⟩
    exact (hc []).2.2.2
  · rw [hy, List.cons_append] at hlength hslice
    rw [List.cons_append, primary_of_atom hopens, trailers_stop ht]
    simp [atom, (hc (r ++ t)).2.2.1, hlength, Cursor.advance]
    simpa using hslice

/-- What a number can go on with behind its digits, besides a point. -/
def numberLetters : List Char := ['_', 'e', 'E', 'j', 'J', 'l', 'L', 'x', 'X', 'o', 'O', 'b', 'B']

theorem decimalRun_append (hw : ∀ c ∈ w, c.isDigit = true)
    (ht : ∀ c ∈ t.head?, c.isDigit = false ∧ c ≠ '_') (underscore : Bool) :
    decimalRun underscore (w ++ t) = w.length := by
  induction w generalizing underscore with
  | nil =>
    cases t with
    | nil => rfl
    | cons c t => simp [decimalRun, ht c rfl]
  | cons c w ih =>
    obtain ⟨hc, hw⟩ := List.forall_mem_cons.mp hw
    simp [decimalRun, hc, ih hw]

theorem IsNumber.digits {y : String} (hy : ∀ c ∈ y.toList, c.isDigit = true) (hne : y ≠ "") :
    IsNumber y := by
  obtain ⟨w, rfl⟩ : ∃ w, y = String.ofList w := ⟨y.toList, String.ofList_toList.symm⟩
  rw [String.toList_ofList] at hy
  cases w with
  | nil => exact absurd rfl hne
  | cons c w =>
    refine ⟨⟨c, w, String.toList_ofList, hy c List.mem_cons_self⟩, fun {t} ht => ?_⟩
    have hletter : ∀ d ∈ numberLetters, (Text.isIdentPart d && !d.isDigit) = true :=
      List.all_eq_true.mp (by decide)
    have hstop : ∀ d ∈ t.head?, d.isDigit = false ∧ d ∉ numberLetters := by
      refine fun d hd => ⟨Bool.eq_false_iff.mpr fun h => ?_, fun h => ?_⟩
      · cases (of_isDigit h []).1.symm.trans (ht d hd).1
      · simpa [(ht d hd).1] using hletter d h
    have hrun : decimalLength (c :: w ++ t) = (c :: w).length := decimalRun_append hy
      (fun d hd => ⟨(hstop d hd).1, fun h => (hstop d hd).2 (h ▸ by decide)⟩) false
    rw [String.toList_ofList]
    rcases numberLength_cases (c :: w ++ t) with ⟨letter, digit, rest, heq, hbase, -⟩ | hplain
    · have hnext : ∀ d ∈ (w ++ t).head?, d ∉ numberLetters := by
        cases w with
        | nil => exact fun d hd => (hstop d hd).2
        | cons e w =>
          rintro _ ⟨⟩ hmem
          simpa [hy e (by simp)] using hletter e hmem
      have htail : w ++ t = letter :: rest := (List.cons.inj heq).2
      refine absurd ?_ (hnext letter (by rw [htail]; rfl))
      rcases Literal.baseDigit?_cases hbase with ⟨rfl | rfl, -⟩ | ⟨rfl | rfl, -⟩ | ⟨rfl | rfl, -⟩ <;>
        decide
    · rw [hplain, plainNumberLength, hrun, List.drop_left]
      cases t with
      | nil => simp [exponentLength, letterLength]
      | cons d t =>
        have hd := (hstop d rfl).2
        have hp := (ht d rfl).2
        simp_all [exponentLength, letterLength, numberLetters]

end Source

end ScopedFlow
