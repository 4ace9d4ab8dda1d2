import ScopedFlow.Json.Reader
import ScopedFlow.Json.Writer

/-!
# JSON text is read back

Any value is read back as it was written, in every layout whose gaps are blanks. The reader takes
one unit of fuel for each value and each item, so the length of the text is fuel enough.
-/

namespace ScopedFlow.Json

theorem hexValue_hexDigit {n : Nat} (h : n < 16) : hexValue (hexDigit n) = some n := by
  have all : ∀ d : Fin 16, hexValue (hexDigit d.val) = some d.val := by decide
  exact all ⟨n, h⟩

theorem readString_letter {c d : Char} (h : unescape d = some c) (hu : d ≠ 'u')
    (rest : List Char) : readString ('\\' :: d :: rest) = prepend c (readString rest) := by
  rw [readString]
  · rw [h]
  · intro _ _ _ _ _ hd
    exact absurd hd hu

theorem readString_plain {c : Char} (hquote : c ≠ '"') (hslash : c ≠ '\\')
    (hc : ¬c.toNat < 0x20) (rest : List Char) :
    readString (c :: rest) = prepend c (readString rest) := by
  rw [readString]
  · rw [if_neg]
    rintro (h | h)
    · exact hc h
    · exact hslash h
  · exact hquote
  · intro _ _ _ _ _ h
    exact absurd h hslash
  · intro _ _ h
    exact absurd h hslash

theorem readString_control {n : Nat} (h : n < 0x20) (rest : List Char) :
    readString ('\\' :: 'u' :: '0' :: '0' :: hexDigit (n / 16) :: hexDigit (n % 16) :: rest) =
      prepend (Char.ofNat n) (readString rest) := by
  have hhigh := hexValue_hexDigit (n := n / 16) (by omega)
  have hlow := hexValue_hexDigit (n := n % 16) (by omega)
  have hzero : hexValue '0' = some 0 := rfl
  have hn : ((0 * 16 + 0) * 16 + n / 16) * 16 + n % 16 = n := by omega
  simp only [readString, hex4, hhigh, hlow, hzero, hn]
  rw [if_neg, if_neg]
  · simp only [isLowSurrogate, Bool.and_eq_true, decide_eq_true_eq]
    omega
  · simp only [isHighSurrogate, Bool.and_eq_true, decide_eq_true_eq]
    omega

theorem readString_escape (c : Char) (rest : List Char) :
    readString (escape c ++ rest) = prepend c (readString rest) := by
  by_cases hquote : c = '"'
  · subst hquote
    exact readString_letter rfl (by decide) rest
  by_cases hslash : c = '\\'
  · subst hslash
    exact readString_letter rfl (by decide) rest
  unfold escape
  rw [if_neg hquote, if_neg hslash]
  iterate 5
    split
    · subst c
      exact readString_letter rfl (by decide) rest
  split
  · rename_i hc
    have hread := readString_control hc rest
    rw [Char.ofNat_toNat] at hread
    exact hread
  · rename_i hc
    exact readString_plain hquote hslash hc rest

theorem readString_quoted (s rest : List Char) :
    readString (s.flatMap escape ++ '"' :: rest) = some (s, rest) := by
  induction s with
  | nil => rfl
  | cons c s ih =>
    rw [List.flatMap_cons, List.append_assoc, readString_escape, ih]
    rfl

/-- What may follow a number: nothing that would make it longer. -/
def Ends (rest : List Char) : Prop :=
  ∀ c ∈ rest.head?, c.isDigit = false ∧ c ≠ '.' ∧ c ≠ 'e' ∧ c ≠ 'E'

theorem head_toDigits {n : Nat} (h : n ≠ 0) : (Nat.toDigits 10 n).head? ≠ some '0' := by
  induction n using Nat.strongRecOn with
  | ind n ih =>
    rw [Nat.toDigits_eq_if (by decide)]
    split
    · rename_i hn
      have all : ∀ d : Fin 10, d.val ≠ 0 → some d.val.digitChar ≠ some '0' := by decide
      exact all ⟨n, hn⟩ h
    · have hdiv := ih (n / 10) (by omega) (by omega)
      intro hhead
      rw [List.head?_append] at hhead
      rcases Option.or_eq_some_iff.mp hhead with hhead | ⟨hnil, -⟩
      · exact hdiv hhead
      · exact Nat.toDigits_ne_nil (List.head?_eq_none_iff.mp hnil)

theorem spanDigits_append {ds rest : List Char} (hds : ∀ c ∈ ds, c.isDigit = true)
    (hrest : Ends rest) : spanDigits (ds ++ rest) = (ds, rest) := by
  have hstop : rest.takeWhile Char.isDigit = [] ∧ rest.dropWhile Char.isDigit = rest := by
    cases rest with
    | nil => exact ⟨rfl, rfl⟩
    | cons c rest => simp [(hrest c rfl).1]
  rw [spanDigits, List.takeWhile_append_of_pos hds, List.dropWhile_append_of_pos hds, hstop.1,
    hstop.2, List.append_nil]

theorem readFraction_ends {rest : List Char} (h : Ends rest) :
    readFraction rest = some ([], rest) := by
  unfold readFraction
  split
  · exact absurd rfl (h '.' rfl).2.1
  · rfl

theorem readExponent_ends {rest : List Char} (h : Ends rest) :
    readExponent rest = some (none, rest) := by
  cases rest with
  | nil => rfl
  | cons c rest =>
    obtain ⟨-, -, hlower, hupper⟩ := h c rfl
    exact if_neg (not_or.mpr ⟨hlower, hupper⟩)

theorem readNumber_toDigits (n : Nat) {rest : List Char} (h : Ends rest) :
    readNumber false (Nat.toDigits 10 n ++ rest) = some (.nat n, rest) := by
  have hdigits : ∀ c ∈ Nat.toDigits 10 n, c.isDigit = true := fun c hc =>
    Nat.isDigit_of_mem_toDigits (by decide) (by decide) hc
  unfold readNumber
  rw [spanDigits_append hdigits h]
  split
  · rename_i hnil
    exact absurd (Prod.mk.inj hnil).1 Nat.toDigits_ne_nil
  · rename_i hzero
    have hds := (Prod.mk.inj hzero).1
    by_cases hn : n = 0
    · subst hn
      cases hds
    · refine absurd ?_ (head_toDigits hn)
      rw [hds]
      rfl
  · rename_i heq
    obtain ⟨rfl, rfl⟩ := Prod.mk.inj heq
    simp only [readFraction_ends h, readExponent_ends h]
    exact congrArg (fun m => some (Json.nat m, rest)) Nat.ofDigitChars_ten_toDigits

theorem readNumber_fraction {rest : List Char} (h : Ends rest) :
    readNumber false ('0' :: '.' :: '0' :: rest) = some (number true, rest) := by
  have hspan : spanDigits ('0' :: rest) = (['0'], rest) := by
    have hdigit : ∀ c ∈ ['0'], c.isDigit = true := List.forall_mem_singleton.mpr rfl
    exact spanDigits_append hdigit h
  have hfraction : readFraction ('.' :: '0' :: rest) = some (['0'], rest) := by
    simp only [readFraction, hspan]
  have hexponent := readExponent_ends h
  have hwhole : spanDigits ('0' :: '.' :: '0' :: rest) = (['0'], '.' :: '0' :: rest) := rfl
  simp only [readNumber, hwhole, hfraction, hexponent]
  rfl

/-- The gaps of a layout are blanks. -/
structure Style.Blank (style : Style) : Prop where
  gap : ∀ depth, ∀ c ∈ style.gap depth, isGap c = true
  colon : ∃ blanks, style.colon = ':' :: blanks ∧ ∀ c ∈ blanks, isGap c = true

theorem Style.blank_indented : Style.indented.Blank := by
  constructor
  · intro depth c hc
    rcases List.mem_cons.mp hc with rfl | hc
    · rfl
    · obtain rfl := List.eq_of_mem_replicate hc
      rfl
  · refine ⟨[' '], rfl, ?_⟩
    intro c hc
    obtain rfl := List.mem_singleton.mp hc
    rfl

theorem skipGaps_append {gaps : List Char} (h : ∀ c ∈ gaps, isGap c = true) (rest : List Char) :
    skipGaps (gaps ++ rest) = skipGaps rest := List.dropWhile_append_of_pos h

theorem skipGaps_cons {c : Char} (h : isGap c = false) (rest : List Char) :
    skipGaps (c :: rest) = c :: rest := by
  rw [skipGaps, List.dropWhile_cons, h]
  rfl

theorem ends_cons {c : Char} (h : isGap c = true ∨ c = ',' ∨ c = ']' ∨ c = '}')
    (rest : List Char) : Ends (c :: rest) := by
  rintro d ⟨⟩
  rcases h with h | rfl | rfl | rfl
  · simp only [isGap, Bool.or_eq_true, decide_eq_true_eq] at h
    rcases h with ((rfl | rfl) | rfl) | rfl <;> decide
  · decide
  · decide
  · decide

theorem write_starts (style : Style) (depth : Nat) (v : Json) :
    ∃ c cs, write style depth v = c :: cs ∧ isGap c = false ∧ c ≠ ']' := by
  cases v with
  | null => exact ⟨_, _, rfl, by decide, by decide⟩
  | bool b => cases b <;> exact ⟨_, _, rfl, by decide, by decide⟩
  | nat n =>
    cases hds : Nat.toDigits 10 n with
    | nil => exact absurd hds Nat.toDigits_ne_nil
    | cons c cs =>
      have hc : c.isDigit = true := by
        apply Nat.isDigit_of_mem_toDigits (b := 10) (n := n) (by decide) (by decide)
        rw [hds]
        exact List.mem_cons_self
      refine ⟨c, cs, hds, ?_, ?_⟩
      · refine (Bool.not_eq_true _).mp fun hgap => ?_
        have hends := (ends_cons (.inl hgap) cs c rfl).1
        rw [hc] at hends
        cases hends
      · rintro rfl
        cases hc
  | number finite => exact ⟨_, _, rfl, by decide, by decide⟩
  | str s => exact ⟨_, _, rfl, by decide, by decide⟩
  | arr items => cases items <;> exact ⟨_, _, rfl, by decide, by decide⟩
  | obj fields =>
    cases fields with
    | nil => exact ⟨_, _, rfl, by decide, by decide⟩
    | cons f fields => exact ⟨_, _, rfl, by decide, by decide⟩

theorem skipGaps_write (style : Style) (depth : Nat) (v : Json) (rest : List Char) :
    skipGaps (write style depth v ++ rest) = write style depth v ++ rest := by
  obtain ⟨c, cs, hv, hgap, -⟩ := write_starts style depth v
  rw [hv]
  exact skipGaps_cons hgap _

/-- The value is read back wherever its text stands. -/
def Reads (style : Style) (v : Json) : Prop :=
  ∀ depth fuel rest, Ends rest → (write style depth v).length ≤ fuel →
    readValue fuel (write style depth v ++ rest) = some (v, rest)

theorem quoted_append (s : String) (cs : List Char) :
    quoted s ++ cs = '"' :: (s.toList.flatMap escape ++ '"' :: cs) := by
  simp only [quoted, List.cons_append, List.append_assoc, List.nil_append]

section Layout

variable {style : Style} (hstyle : style.Blank)

include hstyle

theorem ends_close {c : Char} (hc : c = ']' ∨ c = '}') (depth : Nat) (rest : List Char) :
    Ends (style.gap depth ++ c :: rest) := by
  cases hgap : style.gap depth with
  | nil => exact ends_cons (.inr (.inr hc)) rest
  | cons d ds =>
    refine ends_cons (.inl ?_) _
    apply hstyle.gap depth d
    rw [hgap]
    exact List.mem_cons_self

theorem skipGaps_gap {c : Char} (hc : isGap c = false) (depth : Nat) (rest : List Char) :
    skipGaps (style.gap depth ++ c :: rest) = c :: rest := by
  rw [skipGaps_append (hstyle.gap depth), skipGaps_cons hc]

theorem skipGaps_gap_write (depth : Nat) (v : Json) (rest : List Char) :
    skipGaps (style.gap depth ++ (write style depth v ++ rest)) = write style depth v ++ rest := by
  rw [skipGaps_append (hstyle.gap depth), skipGaps_write]

theorem readItems_write (depth : Nat) (rest : List Char) {vs : List Json}
    (hvs : ∀ w ∈ vs, Reads style w) {v : Json} (hv : Reads style v) {fuel : Nat}
    (hfuel : (write style (depth + 1) v).length + (writeItems style depth vs).length ≤ fuel) :
    readItems fuel (write style (depth + 1) v ++ (writeItems style depth vs ++ rest)) =
      some (v :: vs, rest) := by
  induction vs generalizing v fuel with
  | nil =>
    cases fuel with
    | zero =>
      simp only [writeItems, List.length_append, List.length_singleton] at hfuel
      omega
    | succ fuel =>
      simp only [writeItems, List.length_append, List.length_singleton] at hfuel
      have hread := hv (depth + 1) fuel _ (ends_close hstyle (.inl rfl) depth rest) (by omega)
      simp only [readItems, writeItems, List.append_assoc, List.singleton_append, hread,
        skipGaps_gap hstyle (c := ']') rfl]
  | cons w vs ih =>
    cases fuel with
    | zero =>
      simp only [writeItems, List.length_cons] at hfuel
      omega
    | succ fuel =>
      simp only [writeItems, List.length_cons, List.length_append] at hfuel
      have hread := hv (depth + 1) fuel _ (ends_cons (.inr (.inl rfl)) (style.gap (depth + 1) ++
        (write style (depth + 1) w ++ (writeItems style depth vs ++ rest)))) (by omega)
      have hroom : (write style (depth + 1) w).length + (writeItems style depth vs).length ≤ fuel := by
        omega
      have hrest := ih (fun u hu => hvs u (List.mem_cons_of_mem _ hu)) (hvs w List.mem_cons_self)
        hroom
      simp only [readItems, writeItems, List.cons_append, List.append_assoc, hread,
        skipGaps_cons (c := ',') rfl, skipGaps_gap_write hstyle, hrest, Option.map_some]

theorem readFields_write (depth : Nat) (rest : List Char) {fs : List (String × Json)}
    (hfs : ∀ f ∈ fs, Reads style f.2) {k : String} {v : Json} (hv : Reads style v) {fuel : Nat}
    (hfuel : (write style (depth + 1) v).length + (writeFields style depth fs).length ≤ fuel) :
    readFields fuel (quoted k ++ (style.colon ++ (write style (depth + 1) v ++
      (writeFields style depth fs ++ rest)))) = some ((k, v) :: fs, rest) := by
  obtain ⟨blanks, hcolon, hblanks⟩ := hstyle.colon
  have hvalue : ∀ v cs, skipGaps (blanks ++ (write style (depth + 1) v ++ cs)) =
      write style (depth + 1) v ++ cs := by
    intro v cs
    rw [skipGaps_append hblanks, skipGaps_write]
  induction fs generalizing k v fuel with
  | nil =>
    cases fuel with
    | zero =>
      simp only [writeFields, List.length_append, List.length_singleton] at hfuel
      omega
    | succ fuel =>
      simp only [writeFields, List.length_append, List.length_singleton] at hfuel
      have hread := hv (depth + 1) fuel _ (ends_close hstyle (.inr rfl) depth rest) (by omega)
      simp only [readFields, writeFields, quoted_append, hcolon, List.append_assoc,
        List.cons_append, List.nil_append, readString_quoted, skipGaps_cons (c := ':') rfl, hvalue,
        hread, skipGaps_gap hstyle (c := '}') rfl, String.ofList_toList]
  | cons f fs ih =>
    obtain ⟨j, w⟩ := f
    cases fuel with
    | zero =>
      simp only [writeFields, List.length_cons] at hfuel
      omega
    | succ fuel =>
      simp only [writeFields, List.length_cons, List.length_append] at hfuel
      have hread := hv (depth + 1) fuel _ (ends_cons (.inr (.inl rfl)) (style.gap (depth + 1) ++
        (quoted j ++ (style.colon ++ (write style (depth + 1) w ++
          (writeFields style depth fs ++ rest)))))) (by omega)
      have hw : Reads style w := hfs (j, w) List.mem_cons_self
      have hroom : (write style (depth + 1) w).length + (writeFields style depth fs).length ≤
          fuel := by
        omega
      have hrest := ih (fun g hg => hfs g (List.mem_cons_of_mem _ hg)) hw (k := j) hroom
      simp only [quoted_append, hcolon, List.cons_append] at hread hrest
      simp only [readFields, writeFields, quoted_append, hcolon, List.append_assoc,
        List.cons_append, readString_quoted, skipGaps_cons (c := ':') rfl, hvalue, hread,
        skipGaps_cons (c := ',') rfl, skipGaps_gap hstyle (c := '"') rfl, hrest,
        String.ofList_toList, Option.map_some]

theorem reads_arr {items : List Json} (h : ∀ v ∈ items, Reads style v) :
    Reads style (arr items) := by
  intro depth fuel rest _ hfuel
  cases items with
  | nil =>
    cases fuel with
    | zero => cases hfuel
    | succ fuel => rfl
  | cons v vs =>
    cases fuel with
    | zero => cases hfuel
    | succ fuel =>
      simp only [write, List.length_cons, List.length_append] at hfuel
      have hroom : (write style (depth + 1) v).length + (writeItems style depth vs).length ≤
          fuel := by
        omega
      have hread := readItems_write hstyle depth rest (fun w hw => h w (List.mem_cons_of_mem _ hw))
        (h v List.mem_cons_self) hroom
      simp only [readValue, write, List.cons_append, List.append_assoc, skipGaps_gap_write hstyle]
      split
      · rename_i hclose
        obtain ⟨c, cs, hc, -, hne⟩ := write_starts style (depth + 1) v
        rw [hc] at hclose
        exact absurd (List.cons.inj hclose).1 hne
      · rw [hread]
        rfl

theorem reads_obj {fields : List (String × Json)} (h : ∀ f ∈ fields, Reads style f.2) :
    Reads style (obj fields) := by
  intro depth fuel rest _ hfuel
  cases fields with
  | nil =>
    cases fuel with
    | zero => cases hfuel
    | succ fuel => rfl
  | cons f fs =>
    obtain ⟨k, v⟩ := f
    have hv : Reads style v := h (k, v) List.mem_cons_self
    cases fuel with
    | zero => cases hfuel
    | succ fuel =>
      simp only [write, List.length_cons, List.length_append] at hfuel
      have hroom : (write style (depth + 1) v).length + (writeFields style depth fs).length ≤
          fuel := by
        omega
      have hread := readFields_write hstyle depth rest
        (fun g hg => h g (List.mem_cons_of_mem _ hg)) hv (k := k) hroom
      rw [quoted_append] at hread
      simp only [readValue, write, List.cons_append, List.append_assoc, quoted_append,
        skipGaps_gap hstyle (c := '"') rfl]
      exact congrArg (Option.map fun p => (obj p.1, p.2)) hread

omit hstyle in
theorem reads_nat (n : Nat) : Reads style (.nat n) := by
  intro depth fuel rest hrest hfuel
  cases fuel with
  | zero => exact absurd (List.length_eq_zero_iff.mp (Nat.le_zero.mp hfuel)) Nat.toDigits_ne_nil
  | succ fuel =>
    have hread := readNumber_toDigits n hrest
    have hdigit : ∀ c cs, Nat.toDigits 10 n ++ rest = c :: cs → c.isDigit = true := by
      intro c cs hcs
      cases hds : Nat.toDigits 10 n with
      | nil => exact absurd hds Nat.toDigits_ne_nil
      | cons d ds =>
        rw [hds] at hcs
        obtain ⟨rfl, -⟩ := List.cons.inj hcs
        apply Nat.isDigit_of_mem_toDigits (b := 10) (n := n) (by decide) (by decide)
        rw [hds]
        exact List.mem_cons_self
    simp only [readValue, write]
    split
    case h_8 => exact hread
    all_goals
      rename_i hcs
      exact absurd (hdigit _ _ hcs) (by decide)

omit hstyle in
theorem isFinite_of_mem {items : List Json} (h : isFiniteItems items = true) {v : Json}
    (hv : v ∈ items) : v.isFinite = true := by
  induction items with
  | nil => cases hv
  | cons w items ih =>
    obtain ⟨hw, hrest⟩ := (Bool.and_eq_true _ _).mp h
    rcases List.mem_cons.mp hv with rfl | hv
    · exact hw
    · exact ih hrest hv

omit hstyle in
theorem isFinite_of_mem_fields {fields : List (String × Json)} (h : isFiniteFields fields = true)
    {f : String × Json} (hf : f ∈ fields) : f.2.isFinite = true := by
  induction fields with
  | nil => cases hf
  | cons e fields ih =>
    obtain ⟨he, hrest⟩ := (Bool.and_eq_true _ _).mp h
    rcases List.mem_cons.mp hf with rfl | hf
    · exact he
    · exact ih hrest hf

theorem reads_of_isFinite (v : Json) (h : v.isFinite = true) : Reads style v := by
  cases hv : v with
  | null =>
    intro depth fuel rest _ hfuel
    cases fuel with
    | zero => cases hfuel
    | succ fuel => rfl
  | bool b =>
    intro depth fuel rest _ hfuel
    cases fuel with
    | zero => cases b <;> cases hfuel
    | succ fuel => cases b <;> rfl
  | nat n => exact reads_nat n
  | number finite =>
    intro depth fuel rest hrest hfuel
    cases fuel with
    | zero => cases hfuel
    | succ fuel =>
      rw [hv] at h
      obtain rfl : finite = true := h
      exact readNumber_fraction hrest
  | str s =>
    intro depth fuel rest _ hfuel
    cases fuel with
    | zero => cases hfuel
    | succ fuel =>
      simp only [write, quoted_append, readValue, readString_quoted, Option.map_some,
        String.ofList_toList]
  | arr items =>
    rw [hv] at h
    apply reads_arr hstyle
    intro w hw
    exact reads_of_isFinite w (isFinite_of_mem h hw)
  | obj fields =>
    rw [hv] at h
    apply reads_obj hstyle
    intro f hf
    exact reads_of_isFinite f.2 (isFinite_of_mem_fields h hf)
termination_by sizeOf v
decreasing_by
  · have hlt := List.sizeOf_lt_of_mem hw
    rw [hv, arr.sizeOf_spec]
    omega
  · have hlt := List.sizeOf_lt_of_mem hf
    obtain ⟨k, w⟩ := f
    rw [Prod.mk.sizeOf_spec] at hlt
    rw [hv, obj.sizeOf_spec]
    show sizeOf w < _
    omega

end Layout

theorem parse_write {style : Style} (hstyle : style.Blank) {v : Json} (h : v.isFinite = true) :
    parse (String.ofList (write style 0 v)) = some v := by
  have hread := reads_of_isFinite hstyle v h 0 ((write style 0 v).length + 1) [] nofun
    (Nat.le_succ _)
  have hgaps := skipGaps_write style 0 v []
  rw [List.append_nil] at hread hgaps
  simp only [parse, String.toList_ofList, hgaps, hread]
  rfl

theorem parse_pretty {v : Json} (h : v.isFinite = true) : parse (pretty v) = some v :=
  parse_write Style.blank_indented h

end ScopedFlow.Json
