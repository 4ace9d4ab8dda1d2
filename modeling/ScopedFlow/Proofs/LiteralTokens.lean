import ScopedFlow.Proofs.LiteralForms

/-!
# Tokens of literals

What the readers take for a number or for strings is a literal of the forms that are written.
-/

namespace ScopedFlow.Source

open Literal

variable {fuel : Nat}

theorem decimalRun_digits (underscore : Bool) (cs : List Char) :
    ∀ c ∈ cs.take (decimalRun underscore cs), c.isDigit = true ∨ c = '_' := by
  induction cs generalizing underscore with
  | nil => simp
  | cons c cs ih =>
    intro d hd
    unfold decimalRun at hd
    split at hd
    · rename_i hc
      rcases List.mem_cons.mp hd with rfl | hd
      · exact .inl hc
      · exact ih true d hd
    · split at hd
      · rename_i hc
        rcases List.mem_cons.mp hd with rfl | hd
        · exact .inr (eq_of_beq (Bool.and_eq_true_iff.mp hc).1)
        · exact ih false d hd
      · cases hd

theorem exists_digits (cs : List Char) :
    ∃ r : Option DigitRun, cs.take (decimalLength cs) = (r.map DigitRun.chars).getD [] ∧
      (decimalLength cs ≠ 0 → r.isSome = true) := by
  cases cs with
  | nil => exact ⟨none, rfl, fun h => absurd rfl h⟩
  | cons c cs =>
    by_cases hc : c.isDigit = true
    · have hlength : decimalLength (c :: cs) = decimalRun true cs + 1 := by
        rw [decimalLength, decimalRun, if_pos hc]
      refine ⟨some ⟨c, _, hc, decimalRun_digits true cs⟩, ?_, fun _ => rfl⟩
      rw [hlength]
      rfl
    · have hlength : decimalLength (c :: cs) = 0 := by
        rw [decimalLength, decimalRun, if_neg hc, Bool.and_false, if_neg Bool.false_ne_true]
      exact ⟨none, by rw [hlength]; rfl, fun h => absurd hlength h⟩

theorem exists_letter (letters cs : List Char) :
    ∃ mark : Option Char, cs.take (letterLength letters cs) = mark.toList ∧
      ∀ c ∈ mark, c ∈ letters := by
  unfold letterLength
  split
  · rename_i h
    obtain ⟨c, hc, hmem⟩ := Option.any_eq_true .. |>.mp h
    cases cs with
    | nil => cases hc
    | cons d cs =>
      obtain rfl := Option.some.inj hc
      refine ⟨some d, rfl, ?_⟩
      rintro _ ⟨⟩
      simpa using hmem
  · exact ⟨none, rfl, by simp⟩

theorem exists_exponent (cs : List Char) :
    ∃ e : Option Exponent, cs.take (exponentLength cs) = (e.map Exponent.chars).getD [] := by
  cases cs with
  | nil => exact ⟨none, rfl⟩
  | cons letter cs =>
    obtain ⟨sign, hsign, hmem⟩ := exists_letter ['+', '-'] cs
    obtain ⟨r, hr, hsome⟩ := exists_digits (cs.drop (letterLength ['+', '-'] cs))
    by_cases hletter : (letter == 'e' || letter == 'E') = true
    · by_cases hdigits : decimalLength (cs.drop (letterLength ['+', '-'] cs)) = 0
      · have hlength : exponentLength (letter :: cs) = 0 := by
          rw [exponentLength, if_pos hletter]
          exact if_pos hdigits
        exact ⟨none, by rw [hlength]; rfl⟩
      · have hlength : exponentLength (letter :: cs) = letterLength ['+', '-'] cs +
            decimalLength (cs.drop (letterLength ['+', '-'] cs)) + 1 := by
          rw [exponentLength, if_pos hletter, Nat.add_comm _ 1, ← Nat.add_assoc]
          exact if_neg hdigits
        obtain ⟨r, rfl⟩ := Option.isSome_iff_exists.mp (hsome hdigits)
        refine ⟨some ⟨letter, sign, r, by simpa using hletter, by simpa using hmem⟩, ?_⟩
        rw [hlength, List.take_succ_cons, List.take_add, hsign, hr]
        rfl
    · have hlength : exponentLength (letter :: cs) = 0 := by
        rw [exponentLength, if_neg hletter]
      exact ⟨none, by rw [hlength]; rfl⟩

theorem exists_ending (m : Nat) (cs : List Char) :
    ∃ (e : Option Exponent) (mark : Option Char),
      cs.take (withExponent m cs) =
        cs.take m ++ ((e.map Exponent.chars).getD [] ++ mark.toList) ∧
      ∀ c ∈ mark, c = 'j' ∨ c = 'J' := by
  obtain ⟨e, he⟩ := exists_exponent (cs.drop m)
  obtain ⟨mark, hmark, hmem⟩ :=
    exists_letter ['j', 'J'] (cs.drop (m + exponentLength (cs.drop m)))
  refine ⟨e, mark, ?_, by simpa using hmem⟩
  rw [withExponent, List.take_add, List.take_add, he, hmark, List.append_assoc]

theorem exists_decimal {cs : List Char} (h : plainNumberLength cs ≠ 0) :
    ∃ n : Decimal, cs.take (plainNumberLength cs) = n.chars := by
  obtain ⟨whole, hwhole, hsome⟩ := exists_digits cs
  unfold plainNumberLength at h ⊢
  dsimp only at h ⊢
  split at h
  · rename_i rest hrest
    split at h
    · exact absurd rfl h
    rename_i hdigits
    obtain ⟨fraction, hfraction, hsome'⟩ := exists_digits rest
    obtain ⟨e, mark, htake, hmark⟩ := exists_ending (decimalLength cs + 1 + decimalLength rest) cs
    refine ⟨⟨whole, some fraction, e, mark, ?_, fun c hc => .inl (hmark c hc)⟩, ?_⟩
    · by_cases hw : decimalLength cs = 0
      · obtain ⟨r, hr⟩ := Option.isSome_iff_exists.mp (hsome' (by omega))
        exact .inr ⟨r, by rw [hr]⟩
      · exact .inl (hsome hw)
    · have hmantissa : cs.take (decimalLength cs + 1 + decimalLength rest) =
          (whole.map DigitRun.chars).getD [] ++ '.' :: (fraction.map DigitRun.chars).getD [] := by
        rw [Nat.add_assoc, List.take_add, hwhole, hrest, Nat.add_comm 1, List.take_succ_cons,
          hfraction]
      rw [if_neg hdigits, htake, hmantissa]
      rfl
  · split at h
    · exact absurd rfl h
    rename_i hdigits
    rw [if_neg hdigits]
    have hone := hsome hdigits
    split at h
    · rename_i hexponent
      rw [if_pos hexponent]
      obtain ⟨mark, hmark, hmem⟩ := exists_letter ['l', 'L', 'j', 'J'] (cs.drop (decimalLength cs))
      refine ⟨⟨whole, none, none, mark, .inl hone, ?_⟩, ?_⟩
      · intro c hc
        have hc := hmem c hc
        simp only [List.mem_cons, List.not_mem_nil, or_false] at hc
        rcases hc with rfl | rfl | rfl | rfl <;> simp
      · rw [List.take_add, hwhole, hmark]
        simp [Decimal.chars, Decimal.fractionChars, Decimal.ending]
    · rename_i hexponent
      rw [if_neg hexponent]
      obtain ⟨e, mark, htake, hmark⟩ := exists_ending (decimalLength cs) cs
      refine ⟨⟨whole, none, e, mark, .inl hone, fun c hc => .inl (hmark c hc)⟩, ?_⟩
      rw [htake, hwhole]
      simp [Decimal.chars, Decimal.fractionChars, Decimal.ending]

theorem basedLength_digits (digit : Char → Bool) (cs : List Char) :
    ∀ c ∈ cs.take (basedLength digit cs), digit c = true ∨ c = '_' := by
  fun_induction basedLength digit cs with
  | case1 c cs hc ih =>
    intro d hd
    simp only [List.take_succ_cons, List.mem_cons] at hd
    rcases hd with rfl | rfl | hd
    · exact .inr rfl
    · exact .inl hc
    · exact ih d hd
  | case2 c cs hc => simp
  | case3 c cs hbar hc ih =>
    intro d hd
    simp only [List.take_succ_cons, List.mem_cons] at hd
    rcases hd with rfl | hd
    · exact .inl hc
    · exact ih d hd
  | case4 c cs hbar hc => simp
  | case5 => simp

theorem exists_based {letter : Char} {digit : Char → Bool} {rest : List Char}
    (hbase : baseDigit? letter = some digit)
    (h : prefixedLength digit ('0' :: letter :: rest) ≠ 0) :
    ∃ n : Based, ('0' :: letter :: rest).take (prefixedLength digit ('0' :: letter :: rest)) =
      n.chars := by
  obtain ⟨mark, hmark, hmem⟩ := exists_letter ['l', 'L'] (rest.drop (basedLength digit rest))
  by_cases hdigits : basedLength digit rest = 0
  · refine absurd ?_ h
    rw [prefixedLength]
    exact if_pos hdigits
  · have hlength : prefixedLength digit ('0' :: letter :: rest) = basedLength digit rest +
        letterLength ['l', 'L'] (rest.drop (basedLength digit rest)) + 2 := by
      rw [prefixedLength]
      refine (if_neg hdigits).trans ?_
      rw [Nat.add_comm 2]
      simp only [List.drop_succ_cons, List.drop_zero]
      omega
    have hne : rest.take (basedLength digit rest) ≠ [] := by
      intro hnil
      rcases List.take_eq_nil_iff.mp hnil with hzero | rfl
      · exact hdigits hzero
      · exact hdigits rfl
    refine ⟨⟨letter, digit, _, mark, hbase, hne, basedLength_digits digit rest, by simpa using hmem⟩, ?_⟩
    rw [hlength, List.take_succ_cons, List.take_succ_cons, List.take_add, hmark]
    rfl

theorem numberLength_cases (cs : List Char) :
    (∃ letter digit rest, cs = '0' :: letter :: rest ∧ baseDigit? letter = some digit ∧
      numberLength cs = prefixedLength digit cs) ∨ numberLength cs = plainNumberLength cs := by
  generalize hn : numberLength cs = n
  have hif : ∀ {p q : Nat}, (if p = 0 then q else p) = n → n = p ∨ n = q := by
    intro p q h
    split at h
    · exact .inr h.symm
    · exact .inl h.symm
  unfold numberLength at hn
  dsimp only at hn
  split at hn
  · exact (hif hn).imp_left fun h => ⟨'x', isHexDigit, _, rfl, rfl, h⟩
  · exact (hif hn).imp_left fun h => ⟨'X', isHexDigit, _, rfl, rfl, h⟩
  · exact (hif hn).imp_left fun h => ⟨'o', isOctalDigit, _, rfl, rfl, h⟩
  · exact (hif hn).imp_left fun h => ⟨'O', isOctalDigit, _, rfl, rfl, h⟩
  · exact (hif hn).imp_left fun h => ⟨'b', isBinaryDigit, _, rfl, rfl, h⟩
  · exact (hif hn).imp_left fun h => ⟨'B', isBinaryDigit, _, rfl, rfl, h⟩
  · exact .inr hn.symm

theorem exists_numeral {cs : List Char} (h : numberLength cs ≠ 0) :
    ∃ n : Numeral, cs.take (numberLength cs) = n.chars := by
  rcases numberLength_cases cs with ⟨letter, digit, rest, rfl, hbase, heq⟩ | heq
  · rw [heq] at h ⊢
    obtain ⟨n, hn⟩ := exists_based hbase h
    exact ⟨.based n, hn⟩
  · rw [heq] at h ⊢
    obtain ⟨n, hn⟩ := exists_decimal h
    exact ⟨.decimal n, hn⟩

namespace Reader

variable {c d : Cursor} {q : Quote} {u : Unit}

theorem openQuote_spans (h : openQuote c = some (q, d)) :
    ∃ letters, c.Spans (letters ++ q.marks) d ∧
      (∀ x ∈ letters, isStringLetter x = true) ∧ isQuote q.mark = true := by
  unfold openQuote at h
  obtain ⟨cs, c', hrest, h⟩ := bind_eq_some.mp h
  cases hrest
  dsimp only at h
  have hletters : c.rest.take (c.rest.takeWhile isStringLetter).length =
      c.rest.takeWhile isStringLetter :=
    (List.prefix_iff_eq_take.mp (List.takeWhile_prefix isStringLetter)).symm
  cases hdrop : c.rest.drop (c.rest.takeWhile isStringLetter).length with
  | nil =>
    rw [hdrop] at h
    cases h
  | cons mark after =>
    rw [hdrop] at h
    obtain ⟨_, c', hrequire, h⟩ := bind_eq_some.mp h
    obtain ⟨hmark, rfl⟩ := require_eq_some hrequire
    obtain ⟨_, c', hadvance, h⟩ := bind_eq_some.mp h
    cases hadvance
    cases h
    refine ⟨c.rest.takeWhile isStringLetter, ⟨_, rfl, ?_⟩,
      List.all_eq_true.mp List.all_takeWhile, hmark⟩
    rw [List.take_add, hletters, hdrop, Quote.marks]
    dsimp only
    split
    · rename_i htriple
      have hafter := eq_of_beq (Bool.and_eq_true_iff.mp htriple).2
      rw [List.take_succ_cons, hafter]
      rfl
    · rfl

variable {inner : Reader Unit}

theorem content_spans [Moves inner] {inRun : Bool} (h : content q inner fuel inRun c = some (u, d)) :
    ∃ inside, c.Spans (inside ++ q.marks) d := by
  induction fuel generalizing inRun c with
  | zero => cases h
  | succ fuel ih =>
    have hgo : ∀ {v : List Char} {e : Cursor} {inRun : Bool}, c.Spans v e →
        content q inner fuel inRun e = some (u, d) → ∃ inside, c.Spans (inside ++ q.marks) d := by
      intro v e inRun hv h
      obtain ⟨inside, hi⟩ := ih h
      exact ⟨v ++ inside, List.append_assoc v inside q.marks ▸ hv.trans hi⟩
    have hadvance : ∀ {n : Nat} {inRun : Bool},
        (do advance n; content q inner fuel inRun) c = some (u, d) →
        ∃ inside, c.Spans (inside ++ q.marks) d := by
      intro n inRun h
      obtain ⟨_, e, hn, h⟩ := bind_eq_some.mp h
      cases hn
      exact hgo (.advance c n) h
    unfold content at h
    obtain ⟨cs, c', hrest, h⟩ := bind_eq_some.mp h
    cases hrest
    cases hcs : c.rest with
    | nil =>
      rw [hcs] at h
      cases h
    | cons x cs =>
      rw [hcs] at h
      dsimp only at h
      split at h
      · split at h
        · exact hadvance h
        · obtain ⟨_, e, hsymbol, h⟩ := bind_eq_some.mp h
          obtain ⟨_, e', hinner, h⟩ := bind_eq_some.mp h
          obtain ⟨v, hv⟩ := Moves.spans hsymbol
          obtain ⟨w, hw⟩ := Moves.spans hinner
          exact hgo (hv.trans hw) h
      split at h
      · split at h
        · exact hadvance h
        · split at h <;> exact hadvance h
      split at h
      · rename_i hmark
        obtain rfl := eq_of_beq hmark
        split at h
        · rename_i hsingle
          cases h
          refine ⟨[], 1, rfl, ?_⟩
          rw [hcs, Quote.marks, if_neg (by simpa using hsingle)]
          rfl
        split at h
        · rename_i htriple hclose
          cases h
          refine ⟨[], 3, rfl, ?_⟩
          rw [hcs, Quote.marks, if_pos (by simpa using htriple), List.take_succ_cons,
            eq_of_beq hclose]
          rfl
        · exact hadvance h
      · obtain ⟨_, e, hrequire, h⟩ := bind_eq_some.mp h
        obtain ⟨-, rfl⟩ := require_eq_some hrequire
        exact hadvance h

variable {sub : ExprReader} {depth : Nat} [Moves (interpolation sub depth)]

theorem quoted_spans (hsub : ReadsExpressions sub)
    (h : quoted (interpolation sub depth) c = some (u, d)) : ∃ t : Quotation, c.Spans t.chars d := by
  unfold quoted at h
  obtain ⟨q, e, hopen, h⟩ := bind_eq_some.mp h
  obtain ⟨cs, e', hrest, h⟩ := bind_eq_some.mp h
  cases hrest
  obtain ⟨letters, hletters, hall, hmark⟩ := openQuote_spans hopen
  obtain ⟨inside, hinside⟩ := content_spans h
  refine ⟨⟨letters, q, inside, hall, hmark, c, e, d, sub, depth, _, hsub, hopen, hletters, h, hinside⟩, ?_⟩
  have hspan := hletters.trans hinside
  rw [← List.append_assoc] at hspan
  exact hspan

theorem moreStrings_spans {ctx : Context} (hsub : ReadsExpressions sub)
    (h : moreStrings ctx (interpolation sub depth) fuel c = some (u, d)) :
    ∃ others : List (Literal.Gap × Quotation), c.Spans (others.flatMap fun p => p.1.1 ++ p.2.chars) d := by
  induction fuel generalizing c with
  | zero =>
    cases h
    exact ⟨[], .refl _⟩
  | succ fuel ih =>
    unfold moreStrings at h
    obtain ⟨next, e, hnext, h⟩ := bind_eq_some.mp h
    rcases attempt_cases hnext with ⟨r, rfl, hread⟩ | ⟨rfl, rfl⟩
    · obtain ⟨found, e', hgap, hread⟩ := bind_eq_some.mp hread
      obtain ⟨w, hw, hgap⟩ := gap_spans hgap
      obtain ⟨t, ht⟩ := quoted_spans hsub hread
      obtain ⟨others, hothers⟩ := ih h
      exact ⟨(⟨w, hgap⟩, t) :: others, (hw.trans ht).trans hothers⟩
    · cases h
      exact ⟨[], .refl _⟩

end Reader

theorem stringLiteral_spans {sub : ExprReader} {ctx : Context} {c d : Cursor} {o : Operand}
    [Moves (interpolation sub fuel)] (hsub : ReadsExpressions sub)
    (h : stringLiteral fuel sub ctx c = some (o, d)) :
    ∃ first others, c.Spans (Form.strings first others).chars d ∧
      o = ⟨.literal (Form.strings first others).text, .other⟩ := by
  unfold stringLiteral at h
  obtain ⟨start, e, hhere, h⟩ := Reader.bind_eq_some.mp h
  cases hhere
  obtain ⟨_, e, hfirst, h⟩ := Reader.bind_eq_some.mp h
  obtain ⟨_, e', hmore, h⟩ := Reader.bind_eq_some.mp h
  obtain ⟨text, e'', hslice, h⟩ := Reader.bind_eq_some.mp h
  cases hslice
  cases h
  obtain ⟨first, hfirst⟩ := Reader.quoted_spans hsub hfirst
  obtain ⟨others, hothers⟩ := Reader.moreStrings_spans hsub hmore
  have hspan := hfirst.trans hothers
  exact ⟨first, others, hspan, by rw [hspan.slice_eq]; rfl⟩

end ScopedFlow.Source
