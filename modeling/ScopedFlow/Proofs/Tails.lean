import ScopedFlow.Proofs.LiteralTokens
import ScopedFlow.Proofs.Printer
import ScopedFlow.Source.Module

/-!
# What may follow an expression

Behind an operand stands the end of the expression, an operator or a part that binds to the operand.
Each reader of a level stops before what belongs to a looser level.
-/

namespace ScopedFlow.Source

open Reader

variable {α β : Type} {c : Char} {cs t w x : List Char} {ctx : Context} {n fuel : Nat}
  {sub : ExprReader} {a : Operand} {texts : List String}

namespace Reader

@[simp] theorem bind_apply (p : Reader α) (f : α → Reader β) (c : Cursor) :
    (p >>= f) c = (p c).bind fun r => f r.1 r.2 := rfl

@[simp] theorem map_apply (f : α → β) (p : Reader α) (c : Cursor) :
    (f <$> p) c = (p c).bind fun r => some (f r.1, r.2) := rfl

@[simp] theorem pure_apply (a : α) (c : Cursor) : (pure a : Reader α) c = some (a, c) := rfl

@[simp] theorem orElse_apply (p q : Reader α) (c : Cursor) :
    (p <|> q) c = (p c).orElse fun _ => q c := rfl

@[simp] theorem rest_apply (c : Cursor) : rest c = some (c.rest, c) := rfl

@[simp] theorem here_apply (c : Cursor) : here c = some (c, c) := rfl

@[simp] theorem advance_apply (k : Nat) (c : Cursor) : advance k c = some ((), c.advance k) := rfl

@[simp] theorem sliceFrom_apply (start c : Cursor) :
    sliceFrom start c = some (start.slice c, c) := rfl

@[simp] theorem require_true (c : Cursor) : require true c = some ((), c) := rfl

@[simp] theorem require_false (c : Cursor) : require false c = none := rfl

end Reader

/-- A character that begins a token. -/
def opensToken (c : Char) : Bool := !isSpace c && c != '#' && c != '\\'

theorem layoutFrom_token (h : opensToken c = true) (comments ended : Bool) (k indent offset : Nat) :
    layoutFrom comments (List.replicate k ' ' ++ c :: cs) false ended indent offset =
      ⟨ended, indent + k, ⟨c :: cs, offset + k⟩⟩ := by
  induction k generalizing indent offset with
  | zero =>
    rw [List.replicate_zero, List.nil_append]
    unfold layoutFrom
    split <;> simp_all [opensToken] <;> exact absurd h (by decide)
  | succ k ih =>
    rw [List.replicate_succ, List.cons_append, layoutFrom, ih, Nat.add_assoc, Nat.add_assoc,
      Nat.add_comm 1]

theorem lineEnded_layoutFrom (comments : Bool) (cs : List Char) (inside : Bool)
    (indent offset : Nat) :
    (layoutFrom comments cs inside true indent offset).lineEnded = true := by
  generalize he : true = ended
  fun_induction layoutFrom comments cs inside ended indent offset <;> simp_all

theorem skipWhile_token (h : opensToken c = true) (k : Nat) :
    (Cursor.mk (List.replicate k ' ' ++ c :: cs) n).skipWhile isSpace = ⟨c :: cs, n + k⟩ := by
  have hc : isSpace c = false := by simp_all [opensToken]
  have htake : (List.replicate k ' ' ++ c :: cs).takeWhile isSpace = List.replicate k ' ' := by
    rw [List.takeWhile_append_of_pos (by simp +contextual [isSpace, Text.isBlank]),
      List.takeWhile_cons_of_neg (by simp [hc]), List.append_nil]
  simp [Cursor.skipWhile, htake, Cursor.advance]

theorem pieceAt_token (h : opensToken c = true) : pieceAt (c :: cs) = .token := by
  unfold pieceAt continuation?
  split <;> simp_all [opensToken]

/-- A gap of spaces goes up to the next token. -/
theorem gap_token (h : opensToken c = true) (string : Bool) (k : Nat) :
    gap ctx string ⟨List.replicate k ' ' ++ c :: cs, n⟩ = some ([], ⟨c :: cs, n + k⟩) := by
  simp only [gap, gapFrom, Cursor.layout, layoutFrom_token h, skipWhile_token h, pieceAt_token h,
    Bool.false_and]
  cases string && startsString (c :: cs) <;> rfl

theorem lineEnded_line (ht : ∀ c ∈ t.head?, c = '\n') :
    (layoutFrom false t false false 0 n).lineEnded = true := by
  cases t with
  | nil => rfl
  | cons c t =>
    obtain rfl := ht c rfl
    exact lineEnded_layoutFrom ..

theorem gap_line (hctx : ctx.lineEnd = .stops) (ht : ∀ c ∈ t.head?, c = '\n') (string : Bool) :
    gap ctx string ⟨t, n⟩ = none := by
  simp [gap, gapFrom, Cursor.layout, lineEnded_line ht, hctx]

theorem atLineEnd_line (ht : ∀ c ∈ t.head?, c = '\n') :
    atLineEnd ⟨t, n⟩ = some (true, ⟨t, n⟩) := by
  simp [atLineEnd, gapFrom, Cursor.layout, lineEnded_line ht]

/-- What ends an expression. -/
def endTexts : List String := [")", ",", " = "]

/-- What may follow an operand with its signs. -/
def afterSigned : List String :=
  [" // ", " << ", " >> ", " * ", " @ ", " / ", " % ", " + ", " - ", " ^ ", " & ", " | "] ++
    endTexts

def trailerTexts : List String := [".", "("]

def afterAtom : List String := trailerTexts ++ afterSigned

/-- One of some texts stands at the front, or the end of a line that stops the statement. -/
inductive Tail (ctx : Context) (texts : List String) : List Char → Prop where
  | text {x : String} {r : List Char} (h : x ∈ texts) : Tail ctx texts (x.toList ++ r)
  | line {t : List Char} (hctx : ctx.lineEnd = .stops) (ht : ∀ c ∈ t.head?, c = '\n') :
    Tail ctx texts t

namespace Tail

theorem mono (h : Tail ctx texts t) {more : List String} (hsub : texts ⊆ more) :
    Tail ctx more t := by
  cases h with
  | text h => exact .text (hsub h)
  | line hctx ht => exact .line hctx ht

theorem drop {k : Nat} (h : Tail ctx (afterAtom.drop k) t) : Tail ctx afterAtom t :=
  h.mono (List.drop_subset k afterAtom)

/-- To show something of every tail, show it of the texts and where no gap is passed. -/
@[elab_as_elim] theorem elim {P : List Char → Prop} (h : Tail ctx texts t)
    (hline : (∀ string n, gap ctx string ⟨t, n⟩ = none) → (∀ c ∈ t.head?, c = '\n') → P t)
    (htexts : ∀ x ∈ texts, ∀ r, P (x.toList ++ r)) : P t := by
  cases h with
  | text h => exact htexts _ h _
  | line hctx ht => exact hline (fun string n => gap_line hctx ht string) ht

theorem stops (h : Tail ctx afterAtom t) :
    ∀ c ∈ t.head?, Text.isIdentPart c = false ∧ isStringLetter c = false ∧ isQuote c = false := by
  refine h.elim (fun _ ht c hc => by rw [ht c hc]; exact ⟨rfl, rfl, rfl⟩) ?_
  repeat refine List.forall_mem_cons.mpr ⟨fun r c hc => Option.some.inj hc ▸ ⟨rfl, rfl, rfl⟩, ?_⟩
  exact List.forall_mem_nil _

theorem point (h : Tail ctx afterSigned t) : ∀ c ∈ t.head?, c ≠ '.' := by
  refine h.elim (fun _ ht c hc => by rw [ht c hc]; decide) ?_
  repeat refine List.forall_mem_cons.mpr ⟨fun r c hc => Option.some.inj hc ▸ (by decide), ?_⟩
  exact List.forall_mem_nil _

theorem walrus (h : Tail ctx afterAtom t) (f : Unit → Reader α) :
    (after ctx >>= fun _ => symbol ":=" >>= f) ⟨t, n⟩ = none := by
  refine h.elim (fun hgap _ => by simp [after, hgap]) ?_
  repeat refine List.forall_mem_cons.mpr ⟨fun r => rfl, ?_⟩
  exact List.forall_mem_nil _

theorem equals_none (h : Tail ctx (trailerTexts ++ [")", ","]) t) (f : Unit → Reader α) :
    (after ctx >>= fun _ => equals >>= f) ⟨t, n⟩ = none := by
  refine h.elim (fun hgap _ => by simp [after, hgap]) ?_
  repeat refine List.forall_mem_cons.mpr ⟨fun r => rfl, ?_⟩
  exact List.forall_mem_nil _

end Tail

section Levels

variable {start d : Cursor} {steps : Nat} {calls : Bool}

theorem trailers_stop (h : Tail ctx afterSigned t) :
    trailers fuel sub ctx calls start steps a ⟨t, n⟩ = some (a, ⟨t, n⟩) := by
  cases steps with
  | zero => rfl
  | succ steps =>
    refine h.elim (fun hgap _ => by simp [trailers, attempt, after, hgap]) ?_
    repeat refine List.forall_mem_cons.mpr ⟨fun r => rfl, ?_⟩
    exact List.forall_mem_nil _

theorem power_of_primary (h : Tail ctx afterSigned t)
    (hread : primary fuel sub ctx d = some (a, ⟨t, n⟩)) :
    power fuel sub ctx d = some (a, ⟨t, n⟩) := by
  rw [power, bind_apply, hread]
  clear hread
  refine h.elim (fun hgap _ => by simp [attempt, after, hgap]) ?_
  repeat refine List.forall_mem_cons.mpr ⟨fun r => rfl, ?_⟩
  exact List.forall_mem_nil _

theorem operations_stop {weakest : Nat} (h : Tail ctx endTexts t) :
    operations fuel sub ctx steps weakest a ⟨t, n⟩ = some (a, ⟨t, n⟩) := by
  cases steps with
  | zero => rfl
  | succ steps =>
    refine h.elim (fun hgap _ => by simp [operations, attempt, after, hgap]) ?_
    repeat refine List.forall_mem_cons.mpr ⟨fun r => rfl, ?_⟩
    exact List.forall_mem_nil _

theorem comparison_of_arithmetic (h : Tail ctx endTexts t)
    (hread : arithmetic (fuel + 1) sub ctx d = some (a, ⟨t, n⟩)) :
    comparison (fuel + 1) sub ctx d = some (a, ⟨t, n⟩) := by
  rw [comparison, bind_apply, hread]
  clear hread
  refine h.elim (fun hgap _ => by simp [repeated, comparisonStep, attempt, after, hgap]) ?_
  repeat refine List.forall_mem_cons.mpr ⟨fun r => rfl, ?_⟩
  exact List.forall_mem_nil _

theorem conditional_of_inversion (h : Tail ctx endTexts t)
    (hread : inversion (fuel + 1) sub ctx d = some (a, ⟨t, n⟩)) :
    conditional (fuel + 1) sub ctx d = some (a, ⟨t, n⟩) := by
  rw [conditional, bind_apply, unconditional, bind_apply, disjunction, bind_apply, conjunction,
    bind_apply, hread]
  clear hread
  refine h.elim (fun hgap _ => by simp [wordChain, repeated, follow?, attempt, after, hgap]) ?_
  repeat refine List.forall_mem_cons.mpr ⟨fun r => rfl, ?_⟩
  exact List.forall_mem_nil _

end Levels

/-- A word, and nothing but it. -/
def isWord : List Char → Bool
  | [] => false
  | c :: w => Text.isIdentStart c && (c :: w).all Text.isIdentPart

/-- A character that can begin an operand. -/
def opensOperand (c : Char) : Bool :=
  opensToken c && c ∉ ['*', '@', ')', ']', '}', ',', ':', '=']

theorem startsString_cons (hl : isStringLetter c = false) (hq : isQuote c = false) :
    startsString (c :: cs) = false := by
  simp [startsString, hl, hq]

theorem of_isDigit (h : c.isDigit = true) (cs : List Char) : Text.isIdentPart c = true ∧
    Text.isIdentStart c = false ∧ startsString (c :: cs) = false ∧ c ∉ ['-', '+', '~'] := by
  have hall : ∀ k < 58, 48 ≤ k → Text.isIdentPart (.ofNat k) = true ∧
      Text.isIdentStart (.ofNat k) = false ∧ isStringLetter (.ofNat k) = false ∧
      isQuote (.ofNat k) = false ∧ Char.ofNat k ∉ ['-', '+', '~'] := by
    decide
  simp only [Char.isDigit, Bool.and_eq_true, decide_eq_true_eq] at h
  obtain ⟨hpart, hstart, hletter, hquote, hsign⟩ := hall c.toNat (Nat.lt_succ_of_le h.2) h.1
  rw [Char.ofNat_toNat] at *
  exact ⟨hpart, hstart, startsString_cons hletter hquote, hsign⟩

theorem opens_of_isIdentPart (h : Text.isIdentPart c = true) : opensOperand c = true := by
  have hnone : ∀ n ∈ [9, 10, 11, 12, 13, 32, 35, 41, 42, 44, 58, 61, 64, 92, 93, 125, 0x85, 0xa0,
      0x1680, 0x2028, 0x2029, 0x202f, 0x205f, 0x2060, 0x3000, 0xfeff] ++ List.range' 0x2000 12,
      Text.isIdentPart (.ofNat n) = false := by decide +kernel
  have hc : c.toNat ∉ _ := fun hmem => by
    have := hnone _ hmem
    rw [Char.ofNat_toNat, h] at this
    cases this
  simp only [List.mem_append, List.mem_cons, List.mem_range'_1, List.not_mem_nil, or_false,
    not_or] at hc
  have hne (d : Char) (hd : c.toNat ≠ d.toNat) : c ≠ d := fun heq => hd (heq ▸ rfl)
  have hspace : isSpace c = false := by
    simp [isSpace, Text.isBlank]
    omega
  simp [opensOperand, opensToken, hspace, hne, hc]

section Words

variable (hw : isWord w = true)
include hw

theorem leadingWord_append (ht : ∀ c ∈ t.head?, Text.isIdentPart c = false) :
    leadingWord (w ++ t) = w := by
  cases w with
  | nil => cases hw
  | cons c w =>
    simp only [isWord, List.all_cons, Bool.and_eq_true, List.all_eq_true] at hw
    rw [List.cons_append, leadingWord, if_pos hw.1, List.takeWhile_append_of_pos hw.2.2]
    cases t with
    | nil => simp
    | cons d t => simp [ht d rfl]

theorem word_append (ht : ∀ c ∈ t.head?, Text.isIdentPart c = false) :
    word ⟨w ++ t, n⟩ = some (String.ofList w, ⟨t, n + w.length⟩) := by
  have hne : w.isEmpty = false := by
    cases w with
    | nil => cases hw
    | cons c w => rfl
  simp [word, leadingWord_append hw ht, hne, Cursor.advance]

theorem opens_of_isWord : ∃ c r, w = c :: r ∧ opensOperand c = true := by
  cases w with
  | nil => cases hw
  | cons c w =>
    simp only [isWord, List.all_cons, Bool.and_eq_true] at hw
    exact ⟨c, w, rfl, opens_of_isIdentPart hw.2.1⟩

theorem startsString_word (ht : ∀ c ∈ t.head?,
    Text.isIdentPart c = false ∧ isStringLetter c = false ∧ isQuote c = false) :
    startsString (w ++ t) = false := by
  have hall : ∀ c ∈ w, Text.isIdentPart c = true := by
    cases w with
    | nil => cases hw
    | cons c w => exact List.all_eq_true.mp (Bool.and_eq_true_iff.mp hw).2
  clear hw
  induction w with
  | nil =>
    cases t with
    | nil => rfl
    | cons c t => exact startsString_cons (ht c rfl).2.1 (ht c rfl).2.2
  | cons c w ih =>
    obtain ⟨hc, hw⟩ := List.forall_mem_cons.mp hall
    cases hl : isStringLetter c with
    | true => simpa [startsString, hl] using ih hw
    | false =>
      refine startsString_cons hl ?_
      simp only [isQuote, Bool.or_eq_false_iff, beq_eq_false_iff_ne]
      refine ⟨⟨?_, ?_⟩, ?_⟩ <;> rintro rfl <;> cases hc

end Words

theorem numberLength_zero (hd : c.isDigit = false) (hp : c ≠ '.') :
    numberLength (c :: cs) = 0 := by
  refine Decidable.byContradiction fun h => ?_
  obtain ⟨k, hk⟩ := Nat.exists_eq_succ_of_ne_zero h
  obtain ⟨number, hnumber⟩ := exists_numeral h
  obtain ⟨d, rest, hchars, hhead⟩ := number.exists_head
  rw [hk, hchars, List.take_succ_cons] at hnumber
  obtain ⟨rfl, -⟩ := List.cons.inj hnumber
  rcases hhead with hdigit | ⟨hpoint, -⟩
  · cases hd.symm.trans hdigit
  · exact hp hpoint

/-- A word is read as a name or a constant. -/
theorem atom_word (hw : isWord w = true) (ht : Tail ctx afterAtom t) :
    atom fuel sub ctx ⟨w ++ t, n⟩ = nameOrConstant ⟨w ++ t, n⟩ := by
  have hs := startsString_word hw ht.stops
  cases w with
  | nil => cases hw
  | cons c w =>
    have hc := (Bool.and_eq_true_iff.mp hw).1
    have hn : numberLength (c :: w ++ t) = 0 :=
      numberLength_zero (Bool.eq_false_iff.mpr fun hd => by simp [(of_isDigit hd []).2.1] at hc)
        (by rintro rfl; cases hc)
    simp only [atom, bind_apply, rest_apply, Option.bind_some, hs, hn, Nat.lt_irrefl,
      Bool.false_eq_true, if_false]
    apply congrFun
    split
    case h_5 => rfl
    all_goals
      rename_i heq
      obtain ⟨rfl, -⟩ := List.cons.inj heq
      cases hc

theorem startsWith_operand (hc : opensOperand c = true) {y : String}
    (hy : y.toList.head?.any (!opensOperand ·) = true) : startsWith y (c :: cs) = false := by
  cases htext : y.toList with
  | nil => simp [htext] at hy
  | cons d y' =>
    have hne : (d == c) = false := by
      rw [htext] at hy
      apply beq_eq_false_iff_ne.mpr
      rintro rfl
      simp [hc] at hy
    simp [startsWith, htext, List.isPrefixOf, hne]

theorem symbol_operand (hc : opensOperand c = true) {y : String}
    (hy : y.toList.head?.any (!opensOperand ·) = true) : symbol y ⟨c :: cs, n⟩ = none := by
  simp [symbol, looksAt, startsWith_operand hc hy]

/-- The operand `w` begins before `t`. Its first word is no keyword, and behind that word stands `t`
or a further part of the operand. -/
structure Front (ctx : Context) (w t : List Char) : Prop where
  head : ∃ c r, w = c :: r ∧ opensOperand c = true
  word_ne : String.ofList (leadingWord (w ++ t)) ∉ ["not", "lambda", "yield", "await"]
  behind : leadingWord (w ++ t) = [] ∨ (w ++ t).drop (leadingWord (w ++ t)).length = t ∨
    Tail ctx trailerTexts ((w ++ t).drop (leadingWord (w ++ t)).length)

namespace Front

theorem sign (hc : opensOperand c = true) (hs : Text.isIdentStart c = false) :
    Front ctx (c :: w) t := by
  have hnone : leadingWord (c :: w ++ t) = [] := by simp [leadingWord, hs]
  exact ⟨⟨c, w, rfl, hc⟩, hnone ▸ by decide, .inl hnone⟩

theorem of_isWord (hw : isWord w = true) (ht : Tail ctx afterAtom t)
    (hne : String.ofList w ∉ ["not", "lambda", "yield", "await"]) : Front ctx w t := by
  have hword := leadingWord_append hw fun c hc => (ht.stops c hc).1
  obtain ⟨c, r, hc, hopens⟩ := opens_of_isWord hw
  exact ⟨⟨c, r, hc, hopens⟩, by rwa [hword], .inr (.inl (by simp [hword]))⟩

theorem append (h : Front ctx w (x ++ t)) (hx : ∀ t, Tail ctx trailerTexts (x ++ t)) :
    Front ctx (w ++ x) t := by
  obtain ⟨⟨d, r, rfl, hd⟩, hword, hbehind⟩ := h
  rw [← List.append_assoc] at hword hbehind
  refine ⟨⟨d, r ++ x, rfl, hd⟩, hword, hbehind.imp_right fun h => .inr ?_⟩
  rcases h with h | h
  · exact h ▸ hx t
  · exact h

variable (h : Front ctx w t)
include h

theorem gap_eq (string : Bool) (k : Nat) {ctx : Context} :
    gap ctx string ⟨List.replicate k ' ' ++ (w ++ t), n⟩ = some ([], ⟨w ++ t, n + k⟩) := by
  obtain ⟨c, r, rfl, hc⟩ := h.head
  exact gap_token (Bool.and_eq_true_iff.mp hc).1 string k

theorem symbol_none {y : String} (hy : y.toList.head?.any (!opensOperand ·) = true) :
    symbol y ⟨w ++ t, n⟩ = none := by
  obtain ⟨c, r, rfl, hc⟩ := h.head
  exact symbol_operand hc hy

theorem keyword_none {y : String} (hy : y ∈ ["not", "lambda", "yield", "await"]) :
    keyword y ⟨w ++ t, n⟩ = none := by
  have hne : String.ofList (leadingWord (w ++ t)) ≠ y := fun heq => h.word_ne (heq ▸ hy)
  cases hw : (leadingWord (w ++ t)).isEmpty <;> simp [keyword, word, hw, hne]

theorem word_none (ht : Tail ctx texts t) {f : String → Reader α}
    (hf : ∀ id m u, Tail ctx (trailerTexts ++ texts) u → f id ⟨u, m⟩ = none) :
    (word >>= f) ⟨w ++ t, n⟩ = none := by
  rcases h.behind with h | h | h
  · simp [word, h]
  · have hnone := fun id m => hf id m t (ht.mono (List.subset_append_right ..))
    cases hw : (leadingWord (w ++ t)).isEmpty <;> simp [word, hw, Cursor.advance, h, hnone]
  · have hnone := fun id m => hf id m _ (h.mono (List.subset_append_left ..))
    cases hw : (leadingWord (w ++ t)).isEmpty <;> simp [word, hw, Cursor.advance, hnone]

theorem inversion_of_comparison {d : Cursor} (ht : Tail ctx afterAtom t)
    (hread : comparison fuel sub ctx ⟨w ++ t, n⟩ = some (a, d)) :
    inversion fuel sub ctx ⟨w ++ t, n⟩ = some (a, d) := by
  have hnamed : named sub ctx ⟨w ++ t, n⟩ = none := by
    refine h.word_none ht fun id m u hu => ?_
    cases decide (id ∉ reserved) with
    | false => rfl
    | true => exact (hu.mono (by decide)).walrus _
  have hword := h.word_ne
  simp only [inversion, bind_apply, rest_apply, Option.bind_some]
  generalize String.ofList (leadingWord (w ++ t)) = word at hword
  split
  · exact absurd (by decide) hword
  · exact absurd (by decide) hword
  · rw [orElse_apply, hnamed, hread]
    rfl

end Front

end ScopedFlow.Source
