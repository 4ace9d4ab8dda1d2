import ScopedFlow.Source.Format

/-!
# Readers move forward

Whatever a reader takes, it takes off the front of the text that is left; for gaps and for strings
also the form of what it takes is known.
-/

namespace ScopedFlow.Source

variable {cs : List Char} {indent fuel : Nat} {found found' : List String}

/-- From the place `c` on the text `w` stands, and `c'` is the place behind it. -/
def Cursor.Spans (c : Cursor) (w : List Char) (c' : Cursor) : Prop :=
  ∃ n, c' = c.advance n ∧ w = c.rest.take n

namespace Cursor.Spans

variable {a b c : Cursor} {v w text : List Char}

theorem advance (c : Cursor) (n : Nat) : c.Spans (c.rest.take n) (c.advance n) := ⟨n, rfl, rfl⟩

theorem refl (c : Cursor) : c.Spans [] c := ⟨0, rfl, rfl⟩

theorem trans (h : a.Spans v b) (h' : b.Spans w c) : a.Spans (v ++ w) c := by
  obtain ⟨n, rfl, rfl⟩ := h
  obtain ⟨m, rfl, rfl⟩ := h'
  refine ⟨n + m, ?_, List.take_add.symm⟩
  simp [Cursor.advance, Nat.add_assoc]

theorem append_rest (h : a.Spans w b) : w ++ b.rest = a.rest := by
  obtain ⟨n, rfl, rfl⟩ := h
  exact List.take_append_drop n a.rest

theorem suffix (h : a.Spans w b) (ha : a.rest <:+ text) : b.rest <:+ text :=
  (h.append_rest ▸ List.suffix_append w b.rest).trans ha

theorem isInfix (h : a.Spans w b) (ha : a.rest <:+ text) : w <:+: text :=
  List.IsInfix.trans (h.append_rest ▸ List.infix_append [] w b.rest) ha.isInfix

theorem slice_eq (h : a.Spans w b) : a.slice b = String.ofList w := by
  obtain ⟨n, rfl, rfl⟩ := h
  simp [Cursor.slice, Cursor.advance]

end Cursor.Spans

/-- A reader moves forward wherever it goes through. -/
class Moves {α : Type} (p : Reader α) : Prop where
  spans : ∀ ⦃c a c'⦄, p c = some (a, c') → ∃ w, c.Spans w c'

variable {α β : Type}

namespace Reader

variable {c c' : Cursor} {b : β} {p : Reader α}

theorem bind_eq_some {f : α → Reader β} :
    (p >>= f) c = some (b, c') ↔ ∃ a d, p c = some (a, d) ∧ f a d = some (b, c') := by
  change (p c).bind (fun r => f r.1 r.2) = some (b, c') ↔ _
  rw [Option.bind_eq_some_iff]
  constructor
  · rintro ⟨⟨a, d⟩, h, h'⟩
    exact ⟨a, d, h, h'⟩
  · rintro ⟨a, d, h, h'⟩
    exact ⟨(a, d), h, h'⟩

theorem attempt_cases {a : Option α} (h : p.attempt c = some (a, c')) :
    (∃ r, a = some r ∧ p c = some (r, c')) ∨ a = none ∧ c = c' := by
  unfold attempt at h
  split at h
  · rename_i r d hp
    obtain ⟨rfl, rfl⟩ := Prod.mk.inj (Option.some.inj h)
    exact .inl ⟨r, rfl, hp⟩
  · obtain ⟨rfl, rfl⟩ := Prod.mk.inj (Option.some.inj h)
    exact .inr ⟨rfl, rfl⟩

theorem orElse_cases {q : Reader α} {a : α} (h : (p <|> q) c = some (a, c')) :
    p c = some (a, c') ∨ q c = some (a, c') := by
  change (p c).orElse (fun _ => q c) = some (a, c') at h
  cases hp : p c with
  | none =>
    rw [hp] at h
    exact .inr h
  | some r =>
    rw [hp] at h
    exact .inl h

theorem require_eq_some {t : Bool} {u : Unit} (h : require t c = some (u, c')) :
    t = true ∧ c = c' := by
  unfold require at h
  split at h
  · obtain ⟨-, rfl⟩ := Prod.mk.inj (Option.some.inj h)
    exact ⟨‹_›, rfl⟩
  · cases h

end Reader

namespace Moves

variable {p q : Reader α}

theorem of_stays (h : ∀ {c a c'}, p c = some (a, c') → c' = c) : Moves p where
  spans c _ _ hp := ⟨[], h hp ▸ .refl c⟩

instance pure (a : α) : Moves (pure a : Reader α) := .of_stays fun h => by
  cases h
  rfl

theorem seq {f : α → Reader β} [Moves p] (hf : ∀ a, Moves (f a)) : Moves (p >>= f) where
  spans c b c' h := by
    obtain ⟨a, d, hp, h⟩ := Reader.bind_eq_some.mp h
    obtain ⟨v, hv⟩ := spans hp
    obtain ⟨w, hw⟩ := (hf a).spans h
    exact ⟨v ++ w, hv.trans hw⟩

instance bind {f : α → Reader β} [Moves p] [∀ a, Moves (f a)] : Moves (p >>= f) :=
  .seq inferInstance

instance ite {t : Prop} [Decidable t] [Moves p] [Moves q] : Moves (if t then p else q) := by
  split <;> assumption

instance orElse [Moves p] [Moves q] : Moves (p <|> q) where
  spans c a c' h := by
    rcases Reader.orElse_cases h with h | h
    · exact spans h
    · exact spans h

instance refuse : Moves (Reader.refuse : Reader α) := .of_stays fun h => by cases h

instance here : Moves Reader.here := .of_stays fun h => by
  cases h
  rfl

instance rest : Moves Reader.rest := .of_stays fun h => by
  cases h
  rfl

instance advance (n : Nat) : Moves (Reader.advance n) where
  spans c a c' h := by
    cases h
    exact ⟨_, .advance c n⟩

instance sliceFrom (start : Cursor) : Moves (Reader.sliceFrom start) := .of_stays fun h => by
  cases h
  rfl

instance require (t : Bool) : Moves (Reader.require t) :=
  .of_stays fun h => (Reader.require_eq_some h).2.symm

instance looksAt (text : String) : Moves (Reader.looksAt text) := by
  unfold Reader.looksAt
  infer_instance

instance symbol (text : String) : Moves (Reader.symbol text) := by
  unfold Reader.symbol
  infer_instance

instance word : Moves Reader.word := by
  unfold Reader.word
  infer_instance

instance keyword (text : String) : Moves (Reader.keyword text) := by
  unfold Reader.keyword
  infer_instance

instance attempt [Moves p] : Moves p.attempt where
  spans c a c' h := by
    rcases Reader.attempt_cases h with ⟨r, -, hp⟩ | ⟨-, rfl⟩
    · exact spans hp
    · exact ⟨[], .refl _⟩

instance wouldRead : Moves p.wouldRead := .of_stays fun h => by
  cases h
  rfl

instance repeated [Moves p] (fuel : Nat) : Moves (p.repeated fuel) := by
  induction fuel with
  | zero => exact inferInstanceAs (Moves (Pure.pure []))
  | succ fuel ih =>
    unfold Reader.repeated
    refine .seq fun next => ?_
    split <;> infer_instance

instance equals : Moves Reader.equals := by
  unfold Reader.equals
  infer_instance

instance colon : Moves Reader.colon := by
  unfold Reader.colon
  infer_instance

instance star : Moves Reader.star := by
  unfold Reader.star
  infer_instance

end Moves

/-- What may stand between two tokens: spaces, comments up to the end of their line, and
continued lines. -/
inductive IsGap : List Char → Prop where
  | nil : IsGap []
  | space {c : Char} {cs : List Char} (h : isSpace c = true) (rest : IsGap cs) : IsGap (c :: cs)
  | comment {text cs : List Char} (h : '\n' ∉ text) (stop : ∀ c ∈ cs.head?, c = '\n')
      (rest : IsGap cs) : IsGap ('#' :: (text ++ cs))
  | continued {cs : List Char} (rest : IsGap cs) : IsGap ('\\' :: '\n' :: cs)
  | returned {cs : List Char} (rest : IsGap cs) : IsGap ('\\' :: '\r' :: '\n' :: cs)
  | last : IsGap ['\\']

namespace IsGap

theorem spaces {s : List Char} (h : ∀ c ∈ s, isSpace c = true) (hcs : IsGap cs) :
    IsGap (s ++ cs) := by
  induction s with
  | nil => exact hcs
  | cons c s ih =>
    obtain ⟨hc, hs⟩ := List.forall_mem_cons.mp h
    exact .space hc (ih hs)

theorem head {c : Char} {cs : List Char} (h : IsGap (c :: cs)) :
    isSpace c = true ∨ c = '#' ∨ c = '\\' := by
  cases h with
  | space hc _ => exact .inl hc
  | comment _ _ _ => exact .inr (.inl rfl)
  | continued _ | returned _ | last => exact .inr (.inr rfl)

end IsGap

theorem Cursor.Spans.cons {x : Char} {cs w : List Char} {offset : Nat} {d : Cursor}
    (h : (Cursor.mk cs (offset + 1)).Spans w d) : (Cursor.mk (x :: cs) offset).Spans (x :: w) d :=
  (Cursor.Spans.advance ⟨x :: cs, offset⟩ 1).trans h

theorem layoutFrom_stop (comments : Bool) (cs : List Char) (inside ended : Bool)
    (indent offset : Nat) :
    ∃ w, (Cursor.mk cs offset).Spans w (layoutFrom comments cs inside ended indent offset).stop ∧
      (comments = false → inside = false → IsGap w) := by
  have hspace : ∀ {c : Char} {cs : List Char} {offset : Nat} {d : Cursor}, isSpace c = true →
      (∃ w, (Cursor.mk cs (offset + 1)).Spans w d ∧ (comments = false → false = false → IsGap w)) →
      ∀ inside, ∃ w, (Cursor.mk (c :: cs) offset).Spans w d ∧
        (comments = false → inside = false → IsGap w) := by
    rintro c cs offset d hc ⟨w, hw, hgap⟩ inside
    exact ⟨c :: w, hw.cons, fun hcomments _ => .space hc (hgap hcomments rfl)⟩
  fun_induction layoutFrom comments cs inside ended indent offset with
  | case1 inside ended indent offset => exact ⟨[], .refl _, fun _ _ => .nil⟩
  | case2 inside ended indent cs offset ih => exact hspace (by decide) ih inside
  | case3 indent c cs ended offset hc ih =>
    obtain ⟨w, hw, -⟩ := ih
    refine ⟨c :: w, hw.cons, ?_⟩
    intro _ h
    cases h
  | case4 cs ended indent offset ih => exact hspace (by decide) ih false
  | case5 cs ended indent offset ih => exact hspace (by decide) ih false
  | case6 indent cs ended offset ih => exact hspace (by decide) ih false
  | case7 indent cs ended offset ih => exact hspace (by decide) ih false
  | case8 cs ended indent offset ih =>
    obtain ⟨w, hw, hgap⟩ := ih
    exact ⟨_, hw.cons.cons, fun hcomments _ => .continued (hgap hcomments rfl)⟩
  | case9 cs ended indent offset ih =>
    obtain ⟨w, hw, hgap⟩ := ih
    exact ⟨_, hw.cons.cons.cons, fun hcomments _ => .returned (hgap hcomments rfl)⟩
  | case10 ended indent offset => exact ⟨['\\'], .advance ⟨['\\'], offset⟩ 1, fun _ _ => .last⟩
  | case11 cs ended indent offset h ih =>
    obtain ⟨w, hw, -⟩ := ih
    refine ⟨'#' :: w, hw.cons, ?_⟩
    rintro rfl
    cases h
  | case12 cs ended indent offset h => exact ⟨[], .refl _, fun _ _ => .nil⟩
  | case13 c cs ended indent offset => exact ⟨[], .refl _, fun _ _ => .nil⟩

theorem Cursor.layout_stop (c : Cursor) (comments : Bool) :
    ∃ w, c.Spans w (c.layout comments).stop ∧ (comments = false → IsGap w) := by
  obtain ⟨w, hw, hgap⟩ := layoutFrom_stop comments c.rest false false 0 c.offset
  exact ⟨w, hw, fun h => hgap h rfl⟩

theorem Cursor.skipWhile_spans (c : Cursor) (p : Char → Bool) :
    c.Spans (c.rest.takeWhile p) (c.skipWhile p) :=
  ⟨_, rfl, (List.prefix_iff_eq_take.mp (List.takeWhile_prefix p))⟩

theorem pieceAt_comment {length : Nat} (h : pieceAt cs = .comment length) :
    ∃ text rest, cs = '#' :: (text ++ rest) ∧ '\n' ∉ text ∧ (∀ c ∈ rest.head?, c = '\n') ∧
      length = text.length + 1 := by
  unfold pieceAt at h
  split at h
  · rename_i rest
    refine ⟨rest.takeWhile (· ≠ '\n'), rest.dropWhile (· ≠ '\n'), ?_, ?_, ?_, ?_⟩
    · rw [List.takeWhile_append_dropWhile]
    · intro hmem
      simpa using List.all_eq_true.mp List.all_takeWhile _ hmem
    · intro c hc
      have hstop := List.head?_dropWhile_not (· ≠ '\n') rest
      rw [Option.mem_def.mp hc] at hstop
      simpa using hstop
    · cases h
      rfl
  · split at h <;> cases h

theorem pieceAt_continuation {text : String} (h : pieceAt cs = .continuation text) :
    (∃ rest, cs = '\\' :: '\n' :: rest ∧ text = "\\\n") ∨
      (∃ rest, cs = '\\' :: '\r' :: '\n' :: rest ∧ text = "\\\r\n") ∨
      cs = ['\\'] ∧ text = "\\" := by
  unfold pieceAt at h
  split at h
  · cases h
  · split at h
    · rename_i found hfound
      cases h
      unfold continuation? at hfound
      split at hfound
      · cases hfound
        exact .inl ⟨_, rfl, rfl⟩
      · cases hfound
        exact .inr (.inl ⟨_, rfl, rfl⟩)
      · cases hfound
        exact .inr (.inr ⟨rfl, rfl⟩)
      · cases hfound
    · cases h

section Pieces

variable {c d : Cursor} {v : List Char}

theorem Cursor.Spans.after_spaces (h : (c.skipWhile isSpace).Spans v d) (hv : IsGap v) :
    ∃ w, c.Spans w d ∧ IsGap w :=
  ⟨_, (c.skipWhile_spans isSpace).trans h,
    .spaces (List.all_eq_true.mp List.all_takeWhile) hv⟩

theorem gap_comment {length : Nat} (h : pieceAt (c.skipWhile isSpace).rest = .comment length)
    (hv : ((c.skipWhile isSpace).advance length).Spans v d) (hgap : IsGap v) :
    ∃ w, c.Spans w d ∧ IsGap w := by
  obtain ⟨text, rest, hrest, htext, hstop, rfl⟩ := pieceAt_comment h
  have htake : (c.skipWhile isSpace).rest.take (text.length + 1) = '#' :: text := by
    rw [hrest]
    simp
  have hspan := (Cursor.Spans.advance (c.skipWhile isSpace) (text.length + 1)).trans hv
  rw [htake] at hspan
  refine hspan.after_spaces (.comment htext ?_ hgap)
  intro x hx
  have hfront : v ++ d.rest = rest := by
    rw [hv.append_rest, Cursor.advance, hrest]
    simp
  apply hstop x
  cases v with
  | nil => cases hx
  | cons y v => exact hfront ▸ hx

theorem gap_continuation {text : String}
    (h : pieceAt (c.skipWhile isSpace).rest = .continuation text)
    (hv : ((c.skipWhile isSpace).advance text.length).Spans v d) (hgap : IsGap v) :
    ∃ w, c.Spans w d ∧ IsGap w := by
  have hspan := (Cursor.Spans.advance (c.skipWhile isSpace) text.length).trans hv
  refine hspan.after_spaces ?_
  rcases pieceAt_continuation h with ⟨rest, hrest, rfl⟩ | ⟨rest, hrest, rfl⟩ | ⟨hrest, rfl⟩
  · rw [hrest]
    exact .continued hgap
  · rw [hrest]
    exact .returned hgap
  · have hnil : v = [] := by
      obtain ⟨n, -, hn⟩ := hv
      rw [hn, Cursor.advance, hrest]
      exact List.take_nil
    rw [hrest, hnil]
    exact .last

end Pieces

theorem gapFrom_token {lineEnd : LineEnd} {string : Bool} {c d : Cursor}
    (h : gapFrom lineEnd indent string fuel found c = .token found' d) :
    ∃ w, c.Spans w d ∧ IsGap w := by
  induction fuel generalizing found c with
  | zero => cases h
  | succ fuel ih =>
    unfold gapFrom at h
    dsimp only at h
    split at h
    · cases h
    split at h
    · cases h
    split at h
    · obtain ⟨w, hw, hgap⟩ := c.layout_stop false
      cases h
      exact ⟨w, hw, hgap rfl⟩
    split at h
    · rename_i length hpiece
      obtain ⟨v, hv, hgap⟩ := ih h
      exact gap_comment hpiece hv hgap
    · rename_i text hpiece
      obtain ⟨v, hv, hgap⟩ := ih h
      exact gap_continuation hpiece hv hgap
    · split at h
      · cases h
      · cases h
        exact (Cursor.Spans.refl _).after_spaces .nil

theorem Reader.gap_spans {ctx : Context} {string : Bool} {c d : Cursor}
    (h : Reader.gap ctx string c = some (found, d)) : ∃ w, c.Spans w d ∧ IsGap w := by
  unfold Reader.gap at h
  split at h
  · rename_i found next hgap
    cases h
    exact gapFrom_token hgap
  · cases h

namespace Moves

variable (ctx : Context)

instance gap (string : Bool) : Moves (Reader.gap ctx string) where
  spans c found d h := by
    obtain ⟨w, hw, -⟩ := Reader.gap_spans h
    exact ⟨w, hw⟩

instance before : Moves (Reader.before ctx) := gap ctx.checked false

instance beforeOperand : Moves (Reader.beforeOperand ctx) := gap ctx.checked true

instance beforeItem : Moves (Reader.beforeItem ctx) := gap ctx.free true

instance after : Moves (Reader.after ctx) := gap ctx false

instance atLineEnd : Moves Reader.atLineEnd := .of_stays fun h => by
  unfold Reader.atLineEnd at h
  split at h <;>
  · cases h
    rfl

instance follow? (p : Reader α) [Moves p] : Moves (Reader.follow? ctx p) := by
  unfold Reader.follow?
  infer_instance

end Moves

theorem Cursor.spans_of_piece {c d : Cursor} {n : Nat}
    (h : ∃ w, ((c.skipWhile isSpace).advance n).Spans w d) : ∃ w, c.Spans w d := by
  obtain ⟨w, hw⟩ := h
  exact ⟨_, ((c.skipWhile_spans isSpace).trans (.advance _ n)).trans hw⟩

theorem lineStartFrom_statement {c d : Cursor}
    (h : lineStartFrom indent fuel found c = .statement found' d) : ∃ w, c.Spans w d := by
  induction fuel generalizing found c with
  | zero => cases h
  | succ fuel ih =>
    unfold lineStartFrom at h
    dsimp only at h
    split at h
    · cases h
    split at h
    · obtain ⟨w, hw, -⟩ := c.layout_stop true
      cases h
      exact ⟨w, hw⟩
    split at h
    · exact Cursor.spans_of_piece (ih h)
    · exact Cursor.spans_of_piece (ih h)
    · split at h
      · cases h
      · cases h
        exact ⟨_, c.skipWhile_spans isSpace⟩

theorem suiteStartFrom_inline {c d : Cursor}
    (h : suiteStartFrom indent fuel found c = .inline found' d) : ∃ w, c.Spans w d := by
  induction fuel generalizing found c with
  | zero => cases h
  | succ fuel ih =>
    unfold suiteStartFrom at h
    dsimp only at h
    split at h
    · split at h <;> cases h
    split at h
    · obtain ⟨w, hw, -⟩ := c.layout_stop true
      cases h
      exact ⟨w, hw⟩
    split at h
    · exact Cursor.spans_of_piece (ih h)
    · exact Cursor.spans_of_piece (ih h)
    · cases h
      exact ⟨_, c.skipWhile_spans isSpace⟩

end ScopedFlow.Source
