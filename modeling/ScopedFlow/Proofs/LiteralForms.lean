import ScopedFlow.Proofs.Reading
import ScopedFlow.Proofs.Stored
import ScopedFlow.Source.Expression
import ScopedFlow.Synthesis.Literal

/-!
# Forms of literals

Constants, numbers with or without a sign, and strings side by side. The writer leaves the text of a
literal as it is, or quotes it; the form decides which. A literal is kept if its text is left as it is
and stands on one logical line, for then it is an expression of the same tokens.
-/

namespace ScopedFlow

namespace Source

/-- The marks that close a string. -/
def Quote.marks (q : Quote) : List Char := List.replicate (if q.triple then 3 else 1) q.mark

/-- A reader that is the reader of expressions wherever it is used, with fuel of its own. -/
def ReadsExpressions (sub : ExprReader) : Prop :=
  ∀ level ctx c, ∃ fuel, sub level ctx c = expression fuel level ctx c

/-- The reader of strings takes the letters and marks that open a string, and then what is inside up
to the closing marks. -/
def ReadsString (letters : List Char) (q : Quote) (inside : List Char) : Prop :=
  ∃ (a b c : Cursor) (sub : ExprReader) (fuel steps : Nat), ReadsExpressions sub ∧
    Reader.openQuote a = some (q, b) ∧ a.Spans (letters ++ q.marks) b ∧
    Reader.content q (interpolation sub fuel) steps false b = some ((), c) ∧
    b.Spans (inside ++ q.marks) c

end Source

namespace Literal

open Source (IsGap isSpace isQuote)

variable {cs tail : List Char} {c letter : Char} {digit : Char → Bool}

/-- Decimal digits. Underscores may stand behind the first of them. -/
structure DigitRun where
  first : Char
  others : List Char
  first_digit : first.isDigit = true
  others_digits : ∀ c ∈ others, c.isDigit = true ∨ c = '_'

def DigitRun.chars (r : DigitRun) : List Char := r.first :: r.others

structure Exponent where
  letter : Char
  sign : Option Char
  digits : DigitRun
  letter_eq : letter = 'e' ∨ letter = 'E'
  sign_eq : ∀ c ∈ sign, c = '+' ∨ c = '-'

def Exponent.chars (e : Exponent) : List Char := e.letter :: (e.sign.toList ++ e.digits.chars)

/-- A decimal number. The point may lack digits on one of its sides. A number without point and
exponent may carry the mark of a long integer. -/
structure Decimal where
  whole : Option DigitRun
  fraction : Option (Option DigitRun)
  exponent : Option Exponent
  mark : Option Char
  digits_some : whole.isSome = true ∨ ∃ r, fraction = some (some r)
  mark_eq : ∀ c ∈ mark,
    (c = 'j' ∨ c = 'J') ∨ (c = 'l' ∨ c = 'L') ∧ fraction = none ∧ exponent = none

namespace Decimal

def ending (n : Decimal) : List Char := (n.exponent.map Exponent.chars).getD [] ++ n.mark.toList

def fractionChars (n : Decimal) : List Char :=
  match n.fraction with
  | some digits => '.' :: (digits.map DigitRun.chars).getD []
  | none => []

def chars (n : Decimal) : List Char :=
  (n.whole.map DigitRun.chars).getD [] ++ n.fractionChars ++ n.ending

/-- No mark of a long integer, and no underscore in the exponent. -/
def unquoted (n : Decimal) : Bool :=
  n.mark.all (fun c => c == 'j' || c == 'J') &&
    n.exponent.all fun e => !e.digits.others.contains '_'

end Decimal

/-- The digits of the base that a letter behind a zero announces. -/
def baseDigit? (letter : Char) : Option (Char → Bool) :=
  if letter ∈ ['x', 'X'] then some isHexDigit
  else if letter ∈ ['o', 'O'] then some isOctalDigit
  else if letter ∈ ['b', 'B'] then some isBinaryDigit
  else none

/-- A number in the base that its letter announces, possibly with the mark of a long integer. -/
structure Based where
  letter : Char
  digit : Char → Bool
  digits : List Char
  mark : Option Char
  base : baseDigit? letter = some digit
  digits_ne : digits ≠ []
  digits_mem : ∀ c ∈ digits, digit c = true ∨ c = '_'
  mark_eq : ∀ c ∈ mark, c = 'l' ∨ c = 'L'

def Based.chars (n : Based) : List Char := '0' :: n.letter :: (n.digits ++ n.mark.toList)

inductive Numeral where
  | decimal (n : Decimal)
  | based (n : Based)

namespace Numeral

def chars : Numeral → List Char
  | .decimal n => n.chars
  | .based n => n.chars

def unquoted : Numeral → Bool
  | .decimal n => n.unquoted
  | .based n => n.mark.isNone

end Numeral

/-- One string with its letters and marks, as the reader of strings takes it. -/
structure Quotation where
  letters : List Char
  quote : Source.Quote
  inside : List Char
  letters_all : ∀ c ∈ letters, Source.isStringLetter c = true
  mark_isQuote : isQuote quote.mark = true
  read : Source.ReadsString letters quote inside

namespace Quotation

def chars (q : Quotation) : List Char :=
  q.letters ++ q.quote.marks ++ q.inside ++ q.quote.marks

/-- Two letters at most, and no backquotes. -/
def unquoted (q : Quotation) : Bool := q.letters.length ≤ 2 && isQuoteMark q.quote.mark

end Quotation

abbrev Gap := { cs : List Char // IsGap cs }

/-- A gap that ends no logical line: it has no comment, and line ends only behind a backslash. -/
def inLine : List Char → Bool
  | [] => true
  | '\\' :: '\n' :: cs => inLine cs
  | '\\' :: '\r' :: '\n' :: cs => inLine cs
  | c :: cs => c != '\n' && c != '\r' && c != '#' && inLine cs

inductive Form where
  | constant (word : String) (h : word ∈ constants)
  | number (n : Numeral)
  | signed (sign : Char) (h : sign = '+' ∨ sign = '-') (gap : Gap) (n : Numeral)
  | strings (first : Quotation) (others : List (Gap × Quotation))

namespace Form

def chars : Form → List Char
  | .constant word _ => word.toList
  | .number n => n.chars
  | .signed sign _ gap n => sign :: (gap.1 ++ n.chars)
  | .strings first others => first.chars ++ others.flatMap fun p => p.1.1 ++ p.2.chars

def text (f : Form) : String := String.ofList f.chars

/-- What the value of a literal is made of: everything but the gaps. -/
def tokens : Form → List (List Char)
  | .constant word _ => [word.toList]
  | .number n => [n.chars]
  | .signed sign _ _ n => [[sign], n.chars]
  | .strings first others => first.chars :: others.map fun p => p.2.chars

/-- Whether the literal stands on one logical line, so that it is an expression by itself. -/
def oneLine : Form → Bool
  | .constant _ _ | .number _ => true
  | .signed _ _ gap _ => inLine gap.1
  | .strings _ others => others.all fun p => inLine p.1.1

/-- Whether the writer leaves the text as it is: nothing stands between a sign and its number, the
number is left, and the first of several strings is. -/
def unquoted : Form → Bool
  | .constant _ _ => true
  | .number n => n.unquoted
  | .signed _ _ gap n => gap.1.isEmpty && n.unquoted
  | .strings first _ => first.unquoted

/-- Whether the text is left as it is and stands on one logical line. Strings side by side are read
over several lines in brackets, which the tree does not hold. -/
def kept (f : Form) : Bool := f.unquoted && f.oneLine

end Form

theorem dropWhile_append {p : Char → Bool} (h : ∀ c ∈ cs, p c = true)
    (ht : ∀ c ∈ tail.head?, p c = false) : (cs ++ tail).dropWhile p = tail := by
  rw [List.dropWhile_append_of_pos h]
  cases tail with
  | nil => rfl
  | cons c tail => exact List.dropWhile_cons_of_neg (by simp [ht c rfl])

theorem isDecimalDigit_of_isDigit (h : c.isDigit = true) : Text.isDecimalDigit c = true := by
  rw [Text.isDecimalDigit, h, Bool.true_or]

namespace DigitRun

theorem digitOrBar (r : DigitRun) : ∀ c ∈ r.chars, isDigitOrBar c = true := by
  intro c hc
  rw [isDigitOrBar, Bool.or_eq_true]
  rcases List.mem_cons.mp hc with rfl | hc
  · exact .inl (isDecimalDigit_of_isDigit r.first_digit)
  · rcases r.others_digits c hc with h | rfl
    · exact .inl (isDecimalDigit_of_isDigit h)
    · exact .inr rfl

end DigitRun

theorem isExponentDigits_append (r : DigitRun) {mark : Option Char}
    (hm : ∀ c ∈ mark, c = 'j' ∨ c = 'J') :
    isExponentDigits (r.chars ++ mark.toList) = !r.others.contains '_' := by
  have hend : ∀ others : List Char, (∀ c ∈ others, c.isDigit = true ∨ c = '_') →
      isImaginaryEnd ((others ++ mark.toList).dropWhile Text.isDecimalDigit) =
        !others.contains '_' := by
    intro others hothers
    induction others with
    | nil =>
      cases mark with
      | none => rfl
      | some c => rcases hm c rfl with rfl | rfl <;> decide +kernel
    | cons c others ih =>
      obtain ⟨hc, hothers⟩ := List.forall_mem_cons.mp hothers
      rcases hc with hc | rfl
      · have hbar : ('_' == c) = false := by
          apply beq_eq_false_iff_ne.mpr
          rintro rfl
          cases hc
        rw [List.cons_append, List.dropWhile_cons_of_pos (isDecimalDigit_of_isDigit hc),
          ih hothers, List.contains_cons, hbar, Bool.false_or]
      · have hstop : Text.isDecimalDigit '_' = false := by decide +kernel
        rw [List.cons_append, List.dropWhile_cons_of_neg (by simp [hstop])]
        cases others ++ mark.toList <;> simp [isImaginaryEnd]
  have hfirst := isDecimalDigit_of_isDigit r.first_digit
  rw [isExponentDigits, DigitRun.chars, List.cons_append, List.takeWhile_cons_of_pos hfirst,
    List.dropWhile_cons_of_pos hfirst, hend r.others r.others_digits]
  rfl

theorem isDecimalEnd_exponent (e : Exponent) (tail : List Char) :
    isDecimalEnd (e.chars ++ tail) = isExponentDigits (e.digits.chars ++ tail) := by
  obtain ⟨letter, sign, digits, hletter, hsign⟩ := e
  have hletter : (letter == 'e' || letter == 'E') = true := by
    rcases hletter with rfl | rfl <;> rfl
  cases sign with
  | none =>
    change (if (letter == 'e' || letter == 'E') = true then _ else _) = _
    rw [if_pos hletter]
    split
    · rename_i hc
      obtain ⟨hc, -⟩ := List.cons.inj hc
      exact absurd digits.first_digit (hc ▸ by decide)
    · rename_i hc
      obtain ⟨hc, -⟩ := List.cons.inj hc
      exact absurd digits.first_digit (hc ▸ by decide)
    · rfl
  | some c =>
    rcases hsign c rfl with rfl | rfl <;>
    · change (if (letter == 'e' || letter == 'E') = true then _ else _) = _
      rw [if_pos hletter]
      rfl

theorem ne_point_of_isDigit (h : c.isDigit = true) : c ≠ '.' := by
  rintro rfl
  cases h

theorem isDecimal_point {rest fraction : List Char} (hc : c.isDigit = true)
    (h : rest.dropWhile isDigitOrBar = '.' :: fraction) :
    isDecimal (c :: rest) = isFraction fraction := by
  rw [isDecimal.eq_2 _ _ fun _ _ hc' _ => ne_point_of_isDigit hc hc',
    isDecimalDigit_of_isDigit hc, Bool.true_and, h]
  rfl

theorem isDecimal_whole {rest : List Char} (hc : c.isDigit = true)
    (h : rest.dropWhile isDigitOrBar = tail) (ht : ∀ d ∈ tail.head?, d ≠ '.') :
    isDecimal (c :: rest) = isDecimalEnd tail := by
  rw [isDecimal.eq_2 _ _ fun _ _ hc' _ => ne_point_of_isDigit hc hc',
    isDecimalDigit_of_isDigit hc, Bool.true_and, h]
  split
  · exact absurd rfl (ht '.' rfl)
  · rfl

namespace Decimal

variable (n : Decimal)

theorem isDecimalEnd_ending : isDecimalEnd n.ending = n.unquoted := by
  obtain ⟨whole, fraction, exponent, mark, hdigits, hmark⟩ := n
  cases exponent with
  | none =>
    cases mark with
    | none => rfl
    | some c => rcases hmark c rfl with (rfl | rfl) | ⟨rfl | rfl, -, -⟩ <;> rfl
  | some e =>
    have hj : ∀ c ∈ mark, c = 'j' ∨ c = 'J' := by
      intro c hc
      rcases hmark c hc with h | ⟨-, -, h⟩
      · exact h
      · cases h
    have hall : mark.all (fun c => c == 'j' || c == 'J') = true := by
      cases mark with
      | none => rfl
      | some c => rcases hj c rfl with rfl | rfl <;> rfl
    rw [ending, unquoted]
    simp only [Option.map_some, Option.getD_some, hall, Option.all_some, Bool.true_and]
    rw [isDecimalEnd_exponent, isExponentDigits_append e.digits hj]

theorem head_ending : ∀ c ∈ n.ending.head?, isDigitOrBar c = false ∧ c ≠ '.' := by
  obtain ⟨whole, fraction, exponent, mark, hdigits, hmark⟩ := n
  intro c hc
  cases exponent with
  | some e =>
    obtain rfl : e.letter = c := Option.some.inj hc
    rcases e.letter_eq with h | h <;>
    · rw [h]
      decide +kernel
  | none =>
    cases mark with
    | none => cases hc
    | some d =>
      obtain rfl : d = c := Option.some.inj hc
      rcases hmark d rfl with (rfl | rfl) | ⟨rfl | rfl, -, -⟩ <;> decide +kernel

theorem not_digitOrBar_ending : ∀ c ∈ n.ending.head?, isDigitOrBar c = false := fun c hc =>
  (n.head_ending c hc).1

theorem isFraction_append (h : ∀ c ∈ cs, isDigitOrBar c = true) :
    isFraction (cs ++ n.ending) = n.unquoted := by
  rw [isFraction, dropWhile_append h n.not_digitOrBar_ending, isDecimalEnd_ending]

theorem isDecimal_chars : isDecimal n.chars = n.unquoted := by
  cases hw : n.whole with
  | none =>
    obtain ⟨r, hr⟩ := n.digits_some.resolve_left (by simp [hw])
    have hothers : ∀ c ∈ r.others, isDigitOrBar c = true := fun c hc =>
      r.digitOrBar c (List.mem_cons_of_mem _ hc)
    have hchars : n.chars = '.' :: r.first :: (r.others ++ n.ending) := by
      simp [chars, fractionChars, hw, hr, DigitRun.chars]
    rw [hchars, isDecimal, isDecimalDigit_of_isDigit r.first_digit, Bool.true_and,
      n.isFraction_append hothers]
  | some w =>
    have hothers : ∀ c ∈ w.others, isDigitOrBar c = true := fun c hc =>
      w.digitOrBar c (List.mem_cons_of_mem _ hc)
    have hchars : n.chars = w.first :: (w.others ++ (n.fractionChars ++ n.ending)) := by
      simp [chars, hw, DigitRun.chars]
    rw [hchars]
    cases hf : n.fraction with
    | none =>
      have hnone : n.fractionChars = [] := by rw [fractionChars, hf]
      rw [hnone, List.nil_append, isDecimal_whole w.first_digit
        (dropWhile_append hothers n.not_digitOrBar_ending) fun c hc => (n.head_ending c hc).2,
        isDecimalEnd_ending]
    | some digits =>
      have hsome : n.fractionChars = '.' :: (digits.map DigitRun.chars).getD [] := by
        rw [fractionChars, hf]
      have hdigits : ∀ c ∈ (digits.map DigitRun.chars).getD [], isDigitOrBar c = true := by
        cases digits with
        | none => simp
        | some r => exact r.digitOrBar
      have hstop : ∀ c ∈ (n.fractionChars ++ n.ending).head?, isDigitOrBar c = false := by
        rw [hsome]
        rintro c hc
        obtain rfl : '.' = c := Option.some.inj hc
        decide +kernel
      have hdrop := dropWhile_append hothers hstop
      rw [hsome] at hdrop ⊢
      rw [isDecimal_point w.first_digit hdrop]
      exact n.isFraction_append hdigits

theorem mem_chars (h : c ∈ n.chars) :
    c.isDigit = true ∨ c ∈ ['_', '.', 'e', 'E', '+', '-', 'j', 'J', 'l', 'L'] := by
  have hrun : ∀ r : DigitRun, c ∈ r.chars →
      c.isDigit = true ∨ c ∈ ['_', '.', 'e', 'E', '+', '-', 'j', 'J', 'l', 'L'] := by
    intro r hc
    rcases List.mem_cons.mp hc with rfl | hc
    · exact .inl r.first_digit
    · rcases r.others_digits c hc with h | rfl
      · exact .inl h
      · exact .inr (by decide)
  rcases List.mem_append.mp h with h | h
  · rcases List.mem_append.mp h with h | h
    · cases hw : n.whole with
      | none => simp [hw] at h
      | some r => exact hrun r (by simpa [hw] using h)
    · rw [fractionChars] at h
      split at h
      · rename_i digits _
        rcases List.mem_cons.mp h with rfl | h
        · exact .inr (by decide)
        · cases digits with
          | none => cases h
          | some r => exact hrun r h
      · cases h
  · rcases List.mem_append.mp h with h | h
    · cases he : n.exponent with
      | none => simp [he] at h
      | some e =>
        rw [he] at h
        rcases List.mem_cons.mp h with rfl | h
        · rcases e.letter_eq with h | h <;> simp [h]
        · rcases List.mem_append.mp h with h | h
          · rcases e.sign_eq c (Option.mem_toList.mp h) with rfl | rfl <;> simp
          · exact hrun e.digits h
    · rcases n.mark_eq c (Option.mem_toList.mp h) with (rfl | rfl) | ⟨rfl | rfl, -, -⟩ <;> simp

end Decimal

theorem isUnsignedNumber_eq_isDecimal
    (h : '0' ∈ cs.head? → ∀ c ∈ cs.tail.head?, (baseDigit? c).isNone = true) :
    isUnsignedNumber cs = isDecimal cs := by
  unfold isUnsignedNumber
  split <;> first
  | rfl
  | exact absurd (h rfl _ rfl) (by decide)

theorem baseDigit?_cases (h : baseDigit? letter = some digit) :
    (letter = 'x' ∨ letter = 'X') ∧ digit = isHexDigit ∨
      (letter = 'o' ∨ letter = 'O') ∧ digit = isOctalDigit ∨
      (letter = 'b' ∨ letter = 'B') ∧ digit = isBinaryDigit := by
  unfold baseDigit? at h
  split at h
  · cases h
    exact .inl ⟨by simpa using ‹letter ∈ ['x', 'X']›, rfl⟩
  split at h
  · cases h
    exact .inr (.inl ⟨by simpa using ‹letter ∈ ['o', 'O']›, rfl⟩)
  split at h
  · cases h
    exact .inr (.inr ⟨by simpa using ‹letter ∈ ['b', 'B']›, rfl⟩)
  · cases h

theorem isUnsignedNumber_base {digits : List Char} (h : baseDigit? letter = some digit) :
    isUnsignedNumber ('0' :: letter :: digits) = isRun digit digits := by
  rcases baseDigit?_cases h with ⟨rfl | rfl, rfl⟩ | ⟨rfl | rfl, rfl⟩ | ⟨rfl | rfl, rfl⟩ <;> rfl

theorem isHexDigit_of_base (h : baseDigit? letter = some digit) (hc : digit c = true) :
    isHexDigit c = true := by
  rcases baseDigit?_cases h with ⟨-, rfl⟩ | ⟨-, rfl⟩ | ⟨-, rfl⟩
  · exact hc
  · simp only [isOctalDigit, isHexDigit, Char.isDigit, Bool.or_eq_true, Bool.and_eq_true,
      decide_eq_true_eq, Char.le_def, UInt32.le_iff_toNat_le] at hc ⊢
    simp at hc ⊢
    omega
  · rcases Bool.or_eq_true_iff.mp hc with hc | hc <;>
    · rw [eq_of_beq hc]
      rfl

theorem not_blank_of_isHexDigit (h : isHexDigit c = true) : Text.isBlank c = false := by
  simp only [isHexDigit, Char.isDigit, Bool.or_eq_true, Bool.and_eq_true, decide_eq_true_eq,
    Char.le_def, UInt32.le_iff_toNat_le] at h
  simp only [Text.isBlank, Char.toNat]
  simp at h ⊢
  omega

theorem not_blank_of_isDigit (h : c.isDigit = true) : Text.isBlank c = false :=
  not_blank_of_isHexDigit (by rw [isHexDigit, h, Bool.true_or, Bool.true_or])

namespace Numeral

theorem isUnsignedNumber_chars (n : Numeral) : isUnsignedNumber n.chars = n.unquoted := by
  cases n with
  | decimal n =>
    have hbase : ∀ c ∈ n.chars.tail.head?, (baseDigit? c).isNone = true := by
      intro c hc
      have hmem : c ∈ n.chars := List.mem_of_mem_tail (List.mem_of_head? hc)
      cases hd : baseDigit? c with
      | none => rfl
      | some digit =>
        rcases baseDigit?_cases hd with ⟨rfl | rfl, -⟩ | ⟨rfl | rfl, -⟩ | ⟨rfl | rfl, -⟩ <;>
          exact absurd (n.mem_chars hmem) (by decide)
    exact (isUnsignedNumber_eq_isDecimal fun _ => hbase).trans n.isDecimal_chars
  | based n =>
    obtain ⟨letter, digit, digits, mark, hbase, hne, hdigits, hmark⟩ := n
    refine (isUnsignedNumber_base hbase).trans ?_
    cases mark with
    | none =>
      have hall : digits.all (fun c => digit c || c == '_') = true := by
        apply List.all_eq_true.mpr
        intro c hc
        rcases hdigits c hc with h | rfl
        · rw [h, Bool.true_or]
        · exact Bool.or_true _
      rw [Option.toList_none, List.append_nil, isRun, hall, Bool.and_true, Bool.not_eq_eq_eq_not]
      exact List.isEmpty_eq_false_iff.mpr hne
    | some c =>
      have hc : (digit c || c == '_') = false := by
        apply Bool.eq_false_iff.mpr
        intro h
        rcases Bool.or_eq_true_iff.mp h with h | h
        · have hhex := isHexDigit_of_base hbase h
          rcases hmark c rfl with rfl | rfl <;> cases hhex
        · rcases hmark c rfl with rfl | rfl <;> cases h
      rw [Option.toList_some, isRun, List.all_append, List.all_cons, hc]
      simp [unquoted]

theorem exists_head (n : Numeral) :
    ∃ c cs, n.chars = c :: cs ∧ (c.isDigit = true ∨ c = '.' ∧ cs ≠ ['.', '.']) := by
  cases n with
  | decimal n =>
    cases hw : n.whole with
    | some r =>
      refine ⟨r.first, r.others ++ n.fractionChars ++ n.ending, ?_, .inl r.first_digit⟩
      simp only [chars, Decimal.chars, hw, Option.map_some, Option.getD_some, DigitRun.chars,
        List.cons_append]
    | none =>
      obtain ⟨r, hr⟩ := n.digits_some.resolve_left (by simp [hw])
      refine ⟨'.', r.first :: (r.others ++ n.ending), ?_, .inr ⟨rfl, ?_⟩⟩
      · simp [chars, Decimal.chars, Decimal.fractionChars, hw, hr, DigitRun.chars]
      · intro h
        exact ne_point_of_isDigit r.first_digit (List.cons.inj h).1
  | based n => exact ⟨'0', _, rfl, .inl rfl⟩

theorem not_blank (n : Numeral) : ∀ c ∈ n.chars, Text.isBlank c = false := by
  intro c hc
  cases n with
  | decimal n =>
    rcases n.mem_chars hc with h | h
    · exact not_blank_of_isDigit h
    · simp only [List.mem_cons, List.not_mem_nil, or_false] at h
      rcases h with rfl | rfl | rfl | rfl | rfl | rfl | rfl | rfl | rfl | rfl <;> decide
  | based n =>
    rcases List.mem_cons.mp hc with rfl | hc
    · decide
    rcases List.mem_cons.mp hc with rfl | hc
    · rcases baseDigit?_cases n.base with ⟨h | h, -⟩ | ⟨h | h, -⟩ | ⟨h | h, -⟩ <;>
      · rw [h]
        decide
    rcases List.mem_append.mp hc with hc | hc
    · rcases n.digits_mem c hc with h | rfl
      · exact not_blank_of_isHexDigit (isHexDigit_of_base n.base h)
      · decide
    · rcases n.mark_eq c (Option.mem_toList.mp hc) with rfl | rfl <;> decide

end Numeral

theorem isUnsignedNumber_of_head (hd : Text.isDecimalDigit c = false) (hp : c ≠ '.') :
    isUnsignedNumber (c :: cs) = false := by
  rw [isUnsignedNumber_eq_isDecimal, isDecimal.eq_2 _ _ fun _ _ hc _ => hp hc, hd, Bool.false_and]
  intro hzero
  obtain rfl : c = '0' := Option.some.inj hzero
  exact absurd hd (by decide +kernel)

theorem isNumber_of_head (hplus : c ≠ '+') (hminus : c ≠ '-') :
    isNumber (c :: cs) = isUnsignedNumber (c :: cs) := by
  unfold isNumber
  split
  · exact absurd (List.cons.inj ‹_›).1 hplus
  · exact absurd (List.cons.inj ‹_›).1 hminus
  · rfl

theorem not_number_of_head (h : Text.isDecimalDigit c = false ∧ c ≠ '.' ∧ c ≠ '+' ∧ c ≠ '-') :
    isNumber (c :: cs) = false := by
  rw [isNumber_of_head h.2.2.1 h.2.2.2, isUnsignedNumber_of_head h.1 h.2.1]

theorem isNumber_signed {sign : Char} (h : sign = '+' ∨ sign = '-') :
    isNumber (sign :: cs) = isUnsignedNumber cs := by
  rcases h with rfl | rfl <;> rfl

theorem not_number_of_gap (h : isSpace c = true ∨ c = '#' ∨ c = '\\') :
    Text.isDecimalDigit c = false ∧ c ≠ '.' := by
  rcases h with h | rfl | rfl
  · constructor
    · simp only [isSpace, Text.isBlank, Bool.or_eq_true, Bool.and_eq_true, decide_eq_true_eq] at h
      simp only [Text.isDecimalDigit, Char.isDigit, Text.digitZeros, Char.toNat] at h ⊢
      simp [UInt32.le_iff_toNat_le] at h ⊢
      omega
    · rintro rfl
      cases h
  · decide +kernel
  · decide +kernel

theorem isQuoted_of_head (hm : isQuoteMark c = false) (hl : isStringLetter c = false) :
    isQuoted (c :: cs) = false := by
  change (isQuoteMark c || (isStringLetter c && _)) = false
  rw [hm, hl, Bool.false_and, Bool.or_false]

theorem isQuoted_of_isDigit (h : c.isDigit = true) : isQuoted (c :: cs) = false := by
  have hlower : c.toLower = c := by
    simp only [Char.isDigit, Bool.and_eq_true, decide_eq_true_eq, UInt32.le_iff_toNat_le] at h
    refine dif_neg ?_
    intro hupper
    simp [UInt32.le_iff_toNat_le] at h hupper
    omega
  have hne : ∀ d : Char, d.isDigit = false → (c == d) = false := by
    intro d hd
    apply beq_eq_false_iff_ne.mpr
    rintro rfl
    exact absurd h (hd ▸ Bool.false_ne_true)
  apply isQuoted_of_head
  · rw [isQuoteMark, hne _ rfl, hne _ rfl, Bool.or_false]
  · rw [isStringLetter, hlower, hne _ rfl, hne _ rfl, hne _ rfl, hne _ rfl, Bool.or_false,
      Bool.or_false, Bool.or_false]

theorem letter_cases (h : Source.isStringLetter c = true) :
    c = 'f' ∨ c = 'F' ∨ c = 'r' ∨ c = 'R' ∨ c = 'b' ∨ c = 'B' ∨ c = 'u' ∨ c = 'U' := by
  simpa [Source.isStringLetter, or_assoc] using h

theorem isStringLetter_of_letter (h : Source.isStringLetter c = true) :
    isQuoteMark c = false ∧ isStringLetter c = true := by
  rcases letter_cases h with rfl | rfl | rfl | rfl | rfl | rfl | rfl | rfl <;> decide

theorem mark_cases (h : isQuote c = true) : c = '"' ∨ c = '\'' ∨ c = '\x60' := by
  simpa [isQuote, or_assoc] using h

theorem isQuoted_letters {letters : List Char} {mark : Char}
    (hl : ∀ c ∈ letters, Source.isStringLetter c = true) (hm : isQuote mark = true) :
    isQuoted (letters ++ mark :: tail) = (decide (letters.length ≤ 2) && isQuoteMark mark) := by
  have hmark : isStringLetter mark = false := by
    rcases mark_cases hm with rfl | rfl | rfl <;> decide
  rcases letters with _ | ⟨c, _ | ⟨d, _ | ⟨e, letters⟩⟩⟩
  · simp [isQuoted, hmark]
  · obtain ⟨hc, hc'⟩ := isStringLetter_of_letter (hl c (by simp))
    simp [isQuoted, hc, hc', hmark]
  · obtain ⟨hc, hc'⟩ := isStringLetter_of_letter (hl c (by simp))
    obtain ⟨hd, hd'⟩ := isStringLetter_of_letter (hl d (by simp))
    simp [isQuoted, hc, hc', hd, hd']
  · obtain ⟨hc, hc'⟩ := isStringLetter_of_letter (hl c (by simp))
    obtain ⟨hd, hd'⟩ := isStringLetter_of_letter (hl d (by simp))
    obtain ⟨he, -⟩ := isStringLetter_of_letter (hl e (by simp))
    simp [isQuoted, hc, hd, he]

theorem Quotation.exists_mark (q : Quotation) (tail : List Char) :
    ∃ cs, q.chars ++ tail = q.letters ++ q.quote.mark :: cs := by
  unfold chars Source.Quote.marks
  cases q.quote.triple <;> exact ⟨_, by simp [List.replicate]; rfl⟩

theorem Quotation.exists_last (q : Quotation) : ∃ cs, q.chars = cs ++ [q.quote.mark] := by
  unfold chars Source.Quote.marks
  cases q.quote.triple with
  | false => exact ⟨_, rfl⟩
  | true =>
    refine ⟨q.letters ++ List.replicate 3 q.quote.mark ++ q.inside ++ List.replicate 2 q.quote.mark, ?_⟩
    simp [List.replicate]

theorem length_le_escape (cs : List Char) : cs.length ≤ (escape cs).length := by
  fun_induction escape cs with
  | case1 => exact Nat.le_refl _
  | case2 rest ih | case3 rest ih | case4 rest ih => exact Nat.le_succ_of_le (Nat.succ_le_succ ih)
  | case5 c rest _ _ _ ih => exact Nat.succ_le_succ ih

theorem quote_ne (s : String) : quote s ≠ s := by
  intro h
  have hlength := congrArg (fun t : String => t.toList.length) h
  have hle := length_le_escape s.toList
  simp only [quote, String.toList_ofList, List.length_cons, List.length_append] at hlength
  omega

def constantChars : List (List Char) :=
  [['T', 'r', 'u', 'e'], ['F', 'a', 'l', 's', 'e'], ['N', 'o', 'n', 'e'], ['.', '.', '.']]

theorem toList_mem_constantChars {word : String} (h : word ∈ constants) :
    word.toList ∈ constantChars :=
  List.mem_map_of_mem h

theorem isLiteral_of_head (h : (c.isDigit = true ∨ c = '.' ∧ cs ≠ ['.', '.']) ∨ c = '+' ∨ c = '-') :
    isLiteral (String.ofList (c :: cs)) = isNumber (c :: cs) := by
  have hconstant : String.ofList (c :: cs) ∉ constants := by
    intro hmem
    have hchars := toList_mem_constantChars hmem
    simp only [String.toList_ofList, constantChars, List.mem_cons, List.cons.injEq,
      List.not_mem_nil, or_false] at hchars
    rcases hchars with ⟨rfl, -⟩ | ⟨rfl, -⟩ | ⟨rfl, -⟩ | ⟨rfl, rfl⟩ <;> simp at h
  have hquoted : isQuoted (c :: cs) = false := by
    rcases h with (h | ⟨rfl, -⟩) | rfl | rfl
    · exact isQuoted_of_isDigit h
    · exact isQuoted_of_head rfl rfl
    · exact isQuoted_of_head rfl rfl
    · exact isQuoted_of_head rfl rfl
  rw [isLiteral, String.toList_ofList, hquoted, decide_eq_false hconstant, Bool.false_or,
    Bool.or_false]

theorem isLiteral_letters {letters : List Char} {mark : Char}
    (hl : ∀ c ∈ letters, Source.isStringLetter c = true) (hm : isQuote mark = true) :
    isLiteral (String.ofList (letters ++ mark :: tail)) = isQuoted (letters ++ mark :: tail) := by
  have hconstant : String.ofList (letters ++ mark :: tail) ∉ constants := by
    intro hmem
    have hmark : mark ∈ letters ++ mark :: tail := List.mem_append_right _ List.mem_cons_self
    have hchars := toList_mem_constantChars hmem
    rw [String.toList_ofList] at hchars
    generalize letters ++ mark :: tail = cs at hmark hchars
    simp only [constantChars, List.mem_cons, List.not_mem_nil, or_false] at hchars
    rcases hchars with rfl | rfl | rfl | rfl <;>
      rcases mark_cases hm with rfl | rfl | rfl <;> simp at hmark
  have hnumber : isNumber (letters ++ mark :: tail) = false := by
    cases letters with
    | nil =>
      rcases mark_cases hm with rfl | rfl | rfl <;> exact not_number_of_head (by decide +kernel)
    | cons c letters =>
      rcases letter_cases (hl c List.mem_cons_self) with
        rfl | rfl | rfl | rfl | rfl | rfl | rfl | rfl <;>
        exact not_number_of_head (by decide +kernel)
  rw [isLiteral, String.toList_ofList, hnumber, decide_eq_false hconstant, Bool.false_or,
    Bool.false_or]

namespace Form

theorem isLiteral_text (f : Form) : isLiteral f.text = f.unquoted := by
  rw [text]
  cases f with
  | constant word h =>
    rw [chars, String.ofList_toList, isLiteral, decide_eq_true h, Bool.true_or, Bool.true_or]
    rfl
  | number n =>
    obtain ⟨c, cs, hchars, hc⟩ := n.exists_head
    have hsign : c ≠ '+' ∧ c ≠ '-' := by
      constructor <;>
      · rintro rfl
        rcases hc with hc | ⟨hc, -⟩ <;> cases hc
    rw [chars, hchars, isLiteral_of_head (.inl hc), isNumber_of_head hsign.1 hsign.2, ← hchars,
      n.isUnsignedNumber_chars]
    rfl
  | signed sign h gap n =>
    rw [chars, isLiteral_of_head (.inr h), isNumber_signed h, unquoted]
    obtain ⟨gap, hgap⟩ := gap
    cases gap with
    | nil => exact n.isUnsignedNumber_chars
    | cons c gap =>
      obtain ⟨hd, hp⟩ := not_number_of_gap hgap.head
      exact isUnsignedNumber_of_head hd hp
  | strings first others =>
    obtain ⟨cs, hcs⟩ := first.exists_mark (others.flatMap fun p => p.1.1 ++ p.2.chars)
    rw [chars, hcs, isLiteral_letters first.letters_all first.mark_isQuote,
      isQuoted_letters first.letters_all first.mark_isQuote]
    rfl

theorem trimmed_chars (f : Form) : Text.Trimmed f.chars := by
  cases f with
  | constant word h =>
    have hchars := toList_mem_constantChars h
    simp only [constantChars, List.mem_cons, List.not_mem_nil, or_false] at hchars
    rw [chars]
    rcases hchars with h | h | h | h <;>
    · rw [h]
      constructor <;>
      · intro c hc
        cases hc
        rfl
  | number n =>
    exact ⟨fun c hc => n.not_blank c (List.mem_of_head? hc),
      fun c hc => n.not_blank c (List.mem_of_getLast? hc)⟩
  | signed sign h gap n =>
    constructor
    · intro c hc
      obtain rfl : sign = c := Option.some.inj hc
      rcases h with rfl | rfl <;> decide
    · intro c hc
      obtain ⟨d, ds, hchars, -⟩ := n.exists_head
      have hlast : n.chars.getLast? = some c := by
        rw [chars, ← List.cons_append, List.getLast?_append, hchars] at hc
        rw [hchars]
        simpa using hc
      exact n.not_blank c (List.mem_of_getLast? hlast)
  | strings first others =>
    have hmark : ∀ q : Quotation, Text.isBlank q.quote.mark = false := by
      intro q
      rcases mark_cases q.mark_isQuote with h | h | h <;>
      · rw [h]
        decide
    constructor
    · intro c hc
      obtain ⟨cs, hcs⟩ := first.exists_mark (others.flatMap fun p => p.1.1 ++ p.2.chars)
      rw [chars, hcs] at hc
      cases hl : first.letters with
      | nil =>
        rw [hl] at hc
        obtain rfl : first.quote.mark = c := Option.some.inj hc
        exact hmark first
      | cons d letters =>
        rw [hl] at hc
        obtain rfl : d = c := Option.some.inj hc
        rcases letter_cases (first.letters_all d (hl ▸ List.mem_cons_self)) with
          rfl | rfl | rfl | rfl | rfl | rfl | rfl | rfl <;> decide
    · intro c hc
      have hlast : ∃ q : Quotation, ∃ cs, chars (.strings first others) = cs ++ [q.quote.mark] := by
        rcases others.eq_nil_or_concat with rfl | ⟨front, ⟨gap, q⟩, rfl⟩
        · obtain ⟨cs, hcs⟩ := first.exists_last
          exact ⟨first, cs, by rw [chars, hcs, List.flatMap_nil, List.append_nil]⟩
        · obtain ⟨cs, hcs⟩ := q.exists_last
          refine ⟨q, first.chars ++ (front.flatMap fun p => p.1.1 ++ p.2.chars) ++ (gap.1 ++ cs), ?_⟩
          simp [chars, hcs]
      obtain ⟨q, cs, hcs⟩ := hlast
      rw [hcs, List.getLast?_concat] at hc
      obtain rfl := Option.some.inj hc
      exact hmark q

theorem trim_text (f : Form) : Text.trim f.text = f.text := by
  rw [Text.trim, text, String.toList_ofList, Text.trimChars_of_trimmed f.trimmed_chars]

theorem text_text (f : Form) : Literal.text f.text = if f.unquoted then f.text else quote f.text := by
  rw [Literal.text, f.trim_text, f.isLiteral_text]

theorem text_eq_self_iff (f : Form) : Literal.text f.text = f.text ↔ f.unquoted = true := by
  rw [f.text_text]
  cases f.unquoted with
  | false => exact iff_of_false (quote_ne f.text) Bool.false_ne_true
  | true => exact iff_of_true rfl rfl

end Form

theorem gap_of_space (h : IsGap (c :: cs)) (hc : isSpace c = true) : IsGap cs := by
  cases h with
  | space _ rest => exact rest
  | comment _ _ _ | continued _ | returned _ | last => cases hc

theorem gap_of_slash (h : IsGap ('\\' :: cs)) :
    (∃ rest, cs = '\n' :: rest ∧ IsGap rest) ∨
      (∃ rest, cs = '\r' :: '\n' :: rest ∧ IsGap rest) ∨ cs = [] := by
  cases h with
  | space hc _ => cases hc
  | continued rest => exact .inl ⟨_, rfl, rest⟩
  | returned rest => exact .inr (.inl ⟨_, rfl, rest⟩)
  | last => exact .inr (.inr rfl)

theorem inLine_of_space (hc : isSpace c = true) (h : inLine (c :: cs) = true) :
    inLine cs = true := by
  have hslash : c ≠ '\\' := by
    rintro rfl
    cases hc
  rw [inLine] at h
  · exact (Bool.and_eq_true_iff.mp h).2
  · intro _ hc' _
    exact hslash hc'
  · intro _ hc' _
    exact hslash hc'

/-- A text that begins with a token, and not with a gap. -/
def BeginsToken (cs : List Char) : Prop :=
  cs ≠ [] ∧ ∀ c ∈ cs.head?, isSpace c = false ∧ c ≠ '#' ∧ c ≠ '\\'

/-- A gap that ends no line is determined by the text: it goes on up to the next token. -/
theorem gap_eq_of_inLine {gap gap' : List Char} (hgap : IsGap gap) (hgap' : IsGap gap')
    (hline : inLine gap' = true) (hcs : BeginsToken cs) (htail : BeginsToken tail)
    (heq : gap ++ cs = gap' ++ tail) : gap = gap' := by
  have hstart : ∀ {c : Char} {rest : List Char}, cs = c :: rest →
      isSpace c = false ∧ c ≠ '#' ∧ c ≠ '\\' := fun h => hcs.2 _ (h ▸ rfl)
  have hend : ∀ {c : Char} {rest : List Char}, tail = c :: rest →
      isSpace c = false ∧ c ≠ '#' ∧ c ≠ '\\' := fun h => htail.2 _ (h ▸ rfl)
  induction hgap' generalizing gap with
  | nil =>
    cases gap with
    | nil => rfl
    | cons c gap =>
      obtain ⟨hspace, hcomment, hslash⟩ := hend heq.symm
      rcases hgap.head with h | h | h
      · exact absurd h (hspace ▸ Bool.false_ne_true)
      · exact absurd h hcomment
      · exact absurd h hslash
  | space hc _ ih =>
    cases gap with
    | nil => exact absurd hc ((hstart heq).1 ▸ Bool.false_ne_true)
    | cons d gap =>
      obtain ⟨hd, hrest⟩ := List.cons.inj heq
      subst hd
      rw [ih (gap_of_space hgap hc) (inLine_of_space hc hline) hrest]
  | comment _ _ _ _ => cases hline
  | continued _ ih =>
    cases gap with
    | nil => exact absurd rfl (hstart heq).2.2
    | cons d gap =>
      obtain ⟨hd, hrest⟩ := List.cons.inj heq
      subst hd
      rcases gap_of_slash hgap with ⟨rest, rfl, hafter⟩ | ⟨rest, rfl, -⟩ | rfl
      · rw [ih hafter hline (List.cons.inj hrest).2]
      · exact absurd (List.cons.inj hrest).1 (by decide)
      · exact absurd (hstart hrest).1 (by decide)
  | returned _ ih =>
    cases gap with
    | nil => exact absurd rfl (hstart heq).2.2
    | cons d gap =>
      obtain ⟨hd, hrest⟩ := List.cons.inj heq
      subst hd
      rcases gap_of_slash hgap with ⟨rest, rfl, -⟩ | ⟨rest, rfl, hafter⟩ | rfl
      · exact absurd (List.cons.inj hrest).1 (by decide)
      · rw [ih hafter hline (List.cons.inj (List.cons.inj hrest).2).2]
      · exact absurd (hstart hrest).1 (by decide)
  | last =>
    cases gap with
    | nil => exact absurd rfl (hstart heq).2.2
    | cons d gap =>
      obtain ⟨hd, hrest⟩ := List.cons.inj heq
      subst hd
      rcases gap_of_slash hgap with ⟨rest, rfl, -⟩ | ⟨rest, rfl, -⟩ | rfl
      · exact absurd (hend hrest.symm).1 (by decide)
      · exact absurd (hend hrest.symm).1 (by decide)
      · rfl

theorem Quotation.beginsToken (q : Quotation) (tail : List Char) :
    BeginsToken (q.chars ++ tail) := by
  obtain ⟨cs, hcs⟩ := q.exists_mark tail
  rw [hcs]
  cases hl : q.letters with
  | nil =>
    refine ⟨List.cons_ne_nil _ _, ?_⟩
    rintro c ⟨⟩
    rcases mark_cases q.mark_isQuote with h | h | h <;>
    · rw [h]
      decide
  | cons d letters =>
    refine ⟨List.cons_ne_nil _ _, ?_⟩
    rintro c ⟨⟩
    rcases letter_cases (q.letters_all d (hl ▸ List.mem_cons_self)) with
      rfl | rfl | rfl | rfl | rfl | rfl | rfl | rfl <;> decide

/-- Strings side by side that are the same but for their gaps: if the text is the same and the gaps of
one end no line, those of the other end none. -/
theorem inLine_of_flatMap_eq {others others' : List (Gap × Quotation)}
    (hstrings : others.map (·.2.chars) = others'.map (·.2.chars))
    (hline : (others'.all fun p => inLine p.1.1) = true)
    (heq : (others.flatMap fun p => p.1.1 ++ p.2.chars) =
      others'.flatMap fun p => p.1.1 ++ p.2.chars) :
    (others.all fun p => inLine p.1.1) = true := by
  induction others generalizing others' with
  | nil => rfl
  | cons p others ih =>
    cases others' with
    | nil => cases hstrings
    | cons p' others' =>
      obtain ⟨⟨gap, hgap⟩, q⟩ := p
      obtain ⟨⟨gap', hgap'⟩, q'⟩ := p'
      obtain ⟨hfirst, hothers⟩ := Bool.and_eq_true_iff.mp hline
      simp only [List.map_cons, List.cons.injEq] at hstrings
      simp only [List.flatMap_cons, List.append_assoc] at heq
      obtain rfl := gap_eq_of_inLine hgap hgap' hfirst (q.beginsToken _) (q'.beginsToken _) heq
      rw [List.append_cancel_left_eq, hstrings.1, List.append_cancel_left_eq] at heq
      exact Bool.and_eq_true_iff.mpr ⟨hfirst, ih hstrings.2 hothers heq⟩

namespace Form

theorem isLiteral_of_quote (h : cs.head? = some '\'') : isLiteral (String.ofList cs) = true := by
  cases cs with
  | nil => cases h
  | cons c cs =>
    obtain rfl := Option.some.inj h
    rw [isLiteral, String.toList_ofList]
    exact Bool.or_true _

theorem head?_chars (f : Form) : f.chars.head? = f.tokens.head?.bind List.head? := by
  cases f with
  | constant | number | signed => rfl
  | strings first others =>
    obtain ⟨cs, hcs⟩ := first.exists_mark []
    rw [List.append_nil] at hcs
    change (first.chars ++ _).head? = first.chars.head?
    rw [hcs, List.append_assoc]
    cases first.letters <;> rfl

/-- The writer writes an expression of one logical line with the tokens of the literal, and so with
its value, exactly if the form is kept. -/
theorem kept_iff (f : Form) : f.kept = true ↔
    ∃ w : Form, w.text = Literal.text f.text ∧ w.oneLine = true ∧ w.tokens = f.tokens := by
  constructor
  · intro hkept
    obtain ⟨hunquoted, hline⟩ := Bool.and_eq_true_iff.mp hkept
    exact ⟨f, (f.text_eq_self_iff.mpr hunquoted).symm, hline, rfl⟩
  rintro ⟨w, htext, hline, htokens⟩
  have hunquoted : f.unquoted = true := by
    rcases Bool.eq_false_or_eq_true f.unquoted with h | hquoted
    · exact h
    rw [f.text_text, hquoted] at htext
    have hhead : f.chars.head? = some '\'' := by
      rw [f.head?_chars, ← htokens, ← w.head?_chars]
      have hquote : w.text.toList.head? = some '\'' := by
        rw [htext, if_neg Bool.false_ne_true, quote, String.toList_ofList]
        rfl
      rwa [text, String.toList_ofList] at hquote
    rw [← f.isLiteral_text]
    exact isLiteral_of_quote hhead
  have hchars : w.chars = f.chars := by
    rw [f.text_eq_self_iff.mpr hunquoted] at htext
    exact String.ofList_injective htext
  refine Bool.and_eq_true_iff.mpr ⟨hunquoted, ?_⟩
  cases f with
  | constant | number => rfl
  | signed sign h gap n =>
    have hempty : gap.1 = [] := List.isEmpty_iff.mp (Bool.and_eq_true_iff.mp hunquoted).1
    rw [oneLine, hempty]
    rfl
  | strings first others =>
    cases w with
    | constant | number =>
      have hnone : others = [] := List.map_eq_nil_iff.mp (List.cons.inj htokens).2.symm
      rw [hnone]
      rfl
    | signed sign h gap n =>
      obtain ⟨cs, hcs⟩ := first.exists_mark []
      rw [List.append_nil, ← (List.cons.inj htokens).1] at hcs
      have hmark : first.quote.mark ∈ [sign] := by
        rw [hcs]
        exact List.mem_append_right _ List.mem_cons_self
      have hquote := first.mark_isQuote
      rw [List.mem_singleton.mp hmark] at hquote
      rcases h with rfl | rfl <;> cases hquote
    | strings first' others' =>
      obtain ⟨hfirst, hothers⟩ := List.cons.inj htokens
      rw [chars, chars, show first'.chars = first.chars from hfirst] at hchars
      exact inLine_of_flatMap_eq hothers.symm hline (List.append_cancel_left hchars).symm

end Form

end Literal

end ScopedFlow
