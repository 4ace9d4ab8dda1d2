import ScopedFlow.Proofs.Stored
import ScopedFlow.Synthesis.Literal

/-!
# Quoted literals and their values

What the writer of literals quotes is read back as the label, so a label is lost as a string only
where it passes for a constant or for a number. Written again, the text of a literal stays as it is.
-/

namespace ScopedFlow.Literal

variable {c : Char} {cs : List Char} {s : String}

/-- What a letter behind a backslash stands for; none for the escapes that are not used here. -/
def unescape (c : Char) : Option Char :=
  if c = 'n' then some '\n' else if c = '\\' ∨ isQuoteMark c = true then some c else none

/-- The characters of a string up to its closing mark, which ends the text. A line may not end
before. -/
def readMarked (mark : Char) : List Char → Option (List Char)
  | [] => none
  | [c] => if c = mark then some [] else none
  | c :: d :: rest =>
    if c = '\\' then (unescape d).bind fun e => (readMarked mark rest).map (e :: ·)
    else if c = mark ∨ c = '\n' ∨ c = '\r' then none
    else (readMarked mark (d :: rest)).map (c :: ·)

theorem trimmed_between {mark : Char} (h : Text.isBlank mark = false) (cs : List Char) :
    Text.Trimmed (mark :: (cs ++ [mark])) := by
  refine ⟨fun c hc => Option.some.inj hc ▸ h, fun c hc => ?_⟩
  rw [← List.cons_append, List.getLast?_concat] at hc
  exact Option.some.inj hc ▸ h

/-- The value of a string literal in one line, with one mark at each end and no letters in front. -/
def stringValue (literal : String) : Option String :=
  match literal.toList with
  | [] => none
  | mark :: rest =>
    if isQuoteMark mark then (readMarked mark rest).map String.ofList else none

theorem readMarked_plain {mark : Char} {rest : List Char} (hslash : c ≠ '\\') (hmark : c ≠ mark)
    (hline : c ≠ '\n' ∧ c ≠ '\r') (hrest : rest ≠ []) :
    readMarked mark (c :: rest) = (readMarked mark rest).map (c :: ·) := by
  obtain ⟨d, rest, rfl⟩ := List.exists_cons_of_ne_nil hrest
  have hstop : ¬(c = mark ∨ c = '\n' ∨ c = '\r') := by
    rintro (h | h | h)
    · exact hmark h
    · exact hline.1 h
    · exact hline.2 h
  rw [readMarked, if_neg hslash, if_neg hstop]

theorem readMarked_escape (h : '\r' ∉ cs) : readMarked '\'' (escape cs ++ ['\'']) = some cs := by
  induction cs using escape.induct with
  | case1 => rfl
  | case2 rest ih =>
    have ih := ih (List.not_mem_of_not_mem_cons h)
    simp only [escape, List.cons_append, readMarked, ih]
    rfl
  | case3 rest ih =>
    have ih := ih (List.not_mem_of_not_mem_cons h)
    simp only [escape, List.cons_append, readMarked, ih]
    rfl
  | case4 rest ih =>
    have ih := ih (List.not_mem_of_not_mem_cons h)
    simp only [escape, List.cons_append, readMarked, ih]
    rfl
  | case5 c rest hslash hmark hline ih =>
    have hreturn : c ≠ '\r' := (List.ne_of_not_mem_cons h).symm
    rw [escape, List.cons_append,
      readMarked_plain hslash hmark ⟨hline, hreturn⟩ (List.append_ne_nil_of_right_ne_nil _ (by simp)),
      ih (List.not_mem_of_not_mem_cons h)]
    · rfl
    · exact hslash
    · exact hmark
    · exact hline

theorem stringValue_quote (h : '\r' ∉ s.toList) : stringValue (quote s) = some s := by
  rw [stringValue, quote, String.toList_ofList]
  simp only [readMarked_escape h, Option.map_some, String.ofList_toList]
  rfl

theorem stringValue_unmarked (h : ∀ c ∈ s.toList.head?, isQuoteMark c = false) :
    stringValue s = none := by
  unfold stringValue
  split
  · rfl
  · rename_i mark rest heq
    rw [if_neg]
    rw [h mark (heq ▸ rfl)]
    exact Bool.false_ne_true

theorem exists_mark_of_isQuoted (h : isQuoted cs = true) : ∃ c ∈ cs, isQuoteMark c = true := by
  rcases cs with _ | ⟨c, _ | ⟨d, rest⟩⟩
  · cases h
  · refine ⟨c, List.mem_cons_self, ?_⟩
    simpa [isQuoted] using h
  · simp only [isQuoted, Bool.or_eq_true, Bool.and_eq_true, Option.any_eq_true] at h
    rcases h with hc | ⟨-, hd | ⟨-, e, he, hmark⟩⟩
    · exact ⟨c, List.mem_cons_self, hc⟩
    · exact ⟨d, List.mem_cons_of_mem _ List.mem_cons_self, hd⟩
    · have hmem := List.mem_of_head? he
      exact ⟨e, List.mem_cons_of_mem _ (List.mem_cons_of_mem _ hmem), hmark⟩

/-- Whether the writer takes a label for a constant or for a number. -/
def isPlain (label : String) : Bool :=
  decide (Text.trim label ∈ constants) || isNumber (Text.trim label).toList

theorem mem_of_mem_trimChars (h : c ∈ Text.trimChars cs) : c ∈ cs := by
  have h := (List.dropWhile_sublist _).subset (List.mem_reverse.mp h)
  exact (List.dropWhile_sublist _).subset (List.mem_reverse.mp h)

theorem mem_of_mem_trim (h : c ∈ (Text.trim s).toList) : c ∈ s.toList := by
  rw [Text.trim, String.toList_ofList] at h
  exact mem_of_mem_trimChars h

section Unmarked

variable {label : String} (hmarks : ∀ c ∈ label.toList, isQuoteMark c = false)

include hmarks

theorem text_unmarked : text label = if isPlain label then Text.trim label else quote label := by
  have hquoted : isQuoted (Text.trim label).toList = false := by
    apply Bool.eq_false_iff.mpr
    intro h
    obtain ⟨c, hc, hmark⟩ := exists_mark_of_isQuoted h
    rw [hmarks c (mem_of_mem_trim hc)] at hmark
    cases hmark
  rw [text, isLiteral, hquoted, Bool.or_false]
  rfl

/-- A label without quotation marks comes back as its string exactly if it is not plain. -/
theorem stringValue_text_iff (hreturn : '\r' ∉ label.toList) :
    stringValue (text label) = some label ↔ isPlain label = false := by
  rw [text_unmarked hmarks]
  cases hplain : isPlain label with
  | false => simp [stringValue_quote hreturn]
  | true =>
    have hnone : stringValue (Text.trim label) = none := by
      apply stringValue_unmarked
      intro c hc
      exact hmarks c (mem_of_mem_trim (List.mem_of_head? hc))
    simp [hnone]

end Unmarked

def replace (c : Char) (out cs : List Char) : List Char :=
  cs.flatMap fun d => if d = c then out else [d]

theorem replace_plain {d : Char} (h : c ≠ d) (out : List Char) :
    replace d out (c :: cs) = c :: replace d out cs := by
  rw [replace, List.flatMap_cons, if_neg h]
  rfl

/-- What stands behind the first apostrophe that is not escaped. -/
def behindMark : List Char → Option (List Char)
  | '\\' :: _ :: rest => behindMark rest
  | '\'' :: rest => some rest
  | _ :: rest => behindMark rest
  | [] => none

/-- Undoes the escapes in one pass from left to right. -/
def undo : List Char → List Char
  | '\\' :: '\\' :: rest => '\\' :: undo rest
  | '\\' :: '\'' :: rest => '\'' :: undo rest
  | '\\' :: 'n' :: rest => '\n' :: undo rest
  | c :: rest => c :: undo rest
  | [] => []

/-- What quoting makes of a text between the marks: the backslashes are replaced first, so that no
escape is escaped again. -/
structure Escapes (cs body : List Char) : Prop where
  replaced : body = replace '\n' ['\\', 'n'] (replace '\'' ['\\', '\''] (replace '\\' ['\\', '\\'] cs))
  line : '\n' ∉ body
  closed : behindMark (body ++ ['\'']) = some []
  undone : undo body = cs

theorem escapes_escape (cs : List Char) : Escapes cs (escape cs) := by
  induction cs using escape.induct with
  | case1 => exact ⟨rfl, List.not_mem_nil, rfl, rfl⟩
  | case2 rest ih | case3 rest ih | case4 rest ih =>
    obtain ⟨hreplaced, hline, hclosed, hundone⟩ := ih
    rw [escape]
    refine ⟨?_, ?_, hclosed, congrArg _ hundone⟩
    · rw [hreplaced]
      rfl
    · simpa using hline
  | case5 c rest hslash hmark hline ih =>
    obtain ⟨hreplaced, hfree, hclosed, hundone⟩ := ih
    have hself : escape (c :: rest) = c :: escape rest := by
      rw [escape] <;> assumption
    rw [hself]
    refine ⟨?_, ?_, ?_, ?_⟩
    · rw [hreplaced, replace_plain hslash, replace_plain hmark, replace_plain hline]
    · exact List.not_mem_cons_of_ne_of_not_mem (Ne.symm hline) hfree
    · rwa [List.cons_append, behindMark]
      · intro d tail h
        exact absurd h hslash
      · exact hmark
    · rw [undo, hundone] <;>
      · intro tail h
        exact absurd h hslash

theorem isLiteral_quote (s : String) : isLiteral (quote s) = true := by
  have hquoted : isQuoted (quote s).toList = true := by
    rw [quote, String.toList_ofList]
    rfl
  rw [isLiteral, hquoted, Bool.or_true]

theorem trim_quote (s : String) : Text.trim (quote s) = quote s := by
  rw [Text.trim, quote, String.toList_ofList, Text.trimChars_of_trimmed (trimmed_between rfl _)]

theorem text_text (label : String) : text (text label) = text label := by
  unfold text
  split
  · rename_i h
    have htrim : Text.trim (Text.trim label) = Text.trim label := by
      rw [Text.trim, Text.trim, String.toList_ofList,
        Text.trimChars_of_trimmed (Text.trimmed_trimChars _)]
    rw [htrim, if_pos h]
  · rw [trim_quote, if_pos (isLiteral_quote label)]

/-- Writing a literal again changes nothing. A label that passes for no literal stands between two
apostrophes, escaped so that it can be read back. -/
theorem text_reversible (label : String) : text (text label) = text label ∧
    (isLiteral (Text.trim label) = false →
      ∃ body, (text label).toList = '\'' :: (body ++ ['\'']) ∧ Escapes label.toList body) := by
  refine ⟨text_text label, fun h => ⟨escape label.toList, ?_, escapes_escape _⟩⟩
  rw [text, h, if_neg Bool.false_ne_true, quote, String.toList_ofList]

/-- A label with everything that is escaped, and blanks around it. -/
theorem text_reversible_mixed : isLiteral (Text.trim " \\n'\\'\n") = false ∧
    (∃ body, (text " \\n'\\'\n").toList = '\'' :: (body ++ ['\'']) ∧
      Escapes " \\n'\\'\n".toList body) ∧ text (text " '' ") = text " '' " := by
  have h : isLiteral (Text.trim " \\n'\\'\n") = false := by decide +kernel
  exact ⟨h, (text_reversible _).2 h, (text_reversible _).1⟩

end ScopedFlow.Literal
