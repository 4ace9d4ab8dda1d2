import ScopedFlow.Proofs.Arguments
import ScopedFlow.Proofs.Likeness

/-!
# Texts and lines that say what they should

A text is faithful if it has the wanted form as soon as it has no defects, and has none if nothing
is allowed to be missing.
-/

namespace ScopedFlow

namespace Rendered

/-- Without defects the text is as wanted, and if `c` holds it has no defects. -/
def Faithful (c : Prop) (P : String → Prop) (r : Rendered) : Prop :=
  (r.defects = [] → P r.text) ∧ (c → r.defects = [])

namespace Faithful

variable {c : Prop} {P Q R : String → Prop} {r s : Rendered}

theorem plain {text : String} (h : P text) : Faithful c P (.plain text) :=
  ⟨fun _ => h, fun _ => rfl⟩

theorem mono (h : Faithful c P r) (hf : ∀ text, P text → Q text) : Faithful c Q r :=
  ⟨fun hd => hf _ (h.1 hd), h.2⟩

theorem map {f : String → String} (h : Faithful c P r) (hf : ∀ text, P text → Q (f text)) :
    Faithful c Q (r.map f) :=
  ⟨fun hd => hf _ (h.1 hd), h.2⟩

theorem both {f : String → String → String} (hr : Faithful c P r) (hs : Faithful c Q s)
    (hf : ∀ text other, P text → Q other → R (f text other)) : Faithful c R (r.both f s) := by
  refine ⟨fun hd => ?_, fun hc => ?_⟩
  · obtain ⟨hrd, hsd⟩ := List.append_eq_nil_iff.mp hd
    exact hf _ _ (hr.1 hrd) (hs.1 hsd)
  · exact List.append_eq_nil_iff.mpr ⟨hr.2 hc, hs.2 hc⟩

theorem lacking (hc : ¬ c) (style : CodeStyle) (n : Node) (reason : Reason) :
    Faithful c P (Graph.lacking style n reason) :=
  ⟨fun hd => (nomatch hd), fun h => absurd h hc⟩

theorem join_lacking {β : Type} {render : β → Rendered} {xs : List β} (hc : ¬ c) {x : β}
    (hx : x ∈ xs) (hd : (render x).defects ≠ []) (separator : String) :
    Faithful c P (Rendered.join separator (xs.map render)) :=
  ⟨fun hn => absurd (List.flatMap_eq_nil_iff.mp hn _ (List.mem_map.mpr ⟨x, hx, rfl⟩)) hd,
    fun h => absurd h hc⟩

theorem join {β : Type} {render : β → Rendered} {W : β → String → Prop} {xs : List β}
    (h : ∀ x ∈ xs, Faithful c (W x) (render x)) (separator : String) :
    Faithful c (fun text => ∃ texts, List.Forall₂ W xs texts ∧
      text = separator.intercalate texts) (Rendered.join separator (xs.map render)) := by
  refine ⟨fun hd => ⟨xs.map fun x => (render x).text, ?_, ?_⟩, fun hc => ?_⟩
  · rw [List.forall₂_map_right_iff, List.forall₂_same]
    intro x hx
    exact (h x hx).1 (List.flatMap_eq_nil_iff.mp hd _ (List.mem_map.mpr ⟨x, hx, rfl⟩))
  · simp only [Rendered.join, List.map_map]
    rfl
  · refine List.flatMap_eq_nil_iff.mpr fun r hr => ?_
    obtain ⟨x, hx, rfl⟩ := List.mem_map.mp hr
    exact (h x hx).2 hc

end Faithful

end Rendered

variable {L : Likeness} {texts : List String}

def Expr.Writes (L : Likeness) (e : Expr) (text : String) : Prop :=
  ∃ e', e.Like L e' ∧ text = e'.print

def Given.arg (g : Given Expr) : Arg :=
  match g.keyword with
  | none => .positional g.value
  | some name => .keyword name g.value

/-- The arguments of a call, without the unpacked ones. -/
def Arg.givens : List Arg → List (Given Expr)
  | [] => []
  | .positional value :: args => ⟨none, value⟩ :: Arg.givens args
  | .keyword name value :: args => ⟨some name, value⟩ :: Arg.givens args
  | .unpacked :: args => Arg.givens args

def Given.Writes (L : Likeness) (g : Given Expr) (text : String) : Prop :=
  ∃ e', g.value.Like L e' ∧
    text = match g.keyword with
      | none => e'.print
      | some name => name ++ "=" ++ e'.print

theorem Given.writes_all {gs : List (Given Expr)} (h : List.Forall₂ (Given.Writes L) gs texts) :
    ∃ args, Arg.AllLike L (gs.map Given.arg) args ∧ texts = Arg.prints args := by
  induction h with
  | nil => exact ⟨[], .nil, rfl⟩
  | @cons g text gs texts hg _ ih =>
    obtain ⟨args, hargs, rfl⟩ := ih
    obtain ⟨keyword, e⟩ := g
    obtain ⟨e', he, rfl⟩ := hg
    cases keyword with
    | none => exact ⟨.positional e' :: args, .positional he hargs, rfl⟩
    | some name => exact ⟨.keyword name e' :: args, .keyword name he hargs, rfl⟩

theorem Expr.writes_all {items : List Expr} (h : List.Forall₂ (Expr.Writes L) items texts) :
    ∃ items', Expr.AllLike L items items' ∧ texts = Expr.prints items' := by
  induction h with
  | nil => exact ⟨[], .nil, rfl⟩
  | cons ha _ ih =>
    obtain ⟨items', hitems, rfl⟩ := ih
    obtain ⟨e', he, rfl⟩ := ha
    exact ⟨e' :: items', .cons he hitems, rfl⟩

def Pair.parts : Pair → Expr × Expr
  | .mk key value => (key, value)

def Pair.Writes (L : Likeness) : Pair → String → Prop
  | .mk key value, text => ∃ key' value', key.Like L key' ∧ value.Like L value' ∧
      text = key'.print ++ ": " ++ value'.print

theorem Pair.writes_all {entries : List Pair} (h : List.Forall₂ (Pair.Writes L) entries texts) :
    ∃ entries', Pair.AllLike L entries entries' ∧ texts = Pair.prints entries' := by
  induction h with
  | nil => exact ⟨[], .nil, rfl⟩
  | @cons entry text entries texts hp _ ih =>
    obtain ⟨entries', hentries, rfl⟩ := ih
    obtain ⟨key, value⟩ := entry
    obtain ⟨key', value', hk, hv, rfl⟩ := hp
    exact ⟨.mk key' value' :: entries', .cons hk hv hentries, rfl⟩

theorem unaryText_eq {op : String} (h : unaryOperators.contains op = true) (operand : String) :
    Graph.unaryText op operand =
      "(" ++ op ++ (if op = "not" then " " else "") ++ operand ++ ")" := by
  simp only [unaryOperators, List.contains_cons, List.contains_nil, Bool.or_false, Bool.or_eq_true,
    beq_iff_eq] at h
  rcases h with rfl | rfl | rfl | rfl
  · rfl
  · rfl
  · rfl
  · rfl

namespace Code

theorem concat_append (xs ys : List (Option Code)) :
    concat (xs ++ ys) = (concat xs).bind fun d => (concat ys).map d.append := by
  induction xs with
  | nil =>
    rw [List.nil_append]
    cases concat ys <;> rfl
  | cons x xs ih =>
    cases x with
    | none => rfl
    | some d =>
      rw [List.cons_append, concat, ih, concat]
      cases concat xs with
      | none => rfl
      | some e => cases concat ys <;> simp [append]

theorem concat_of_empty {xs : List (Option Code)} (h : ∀ x ∈ xs, x = some .empty) :
    concat xs = some .empty := by
  induction xs with
  | nil => rfl
  | cons x xs ih =>
    rw [h x List.mem_cons_self, concat, ih fun y hy => h y (List.mem_cons_of_mem _ hy)]
    rfl

/-- There are lines; without defects they are as wanted, and if `c` holds there are no defects. -/
def Faithful (c : Prop) (P : List CodeLine → Prop) (code : Option Code) : Prop :=
  ∃ d, code = some d ∧ (d.defects = [] → P d.lines) ∧ (c → d.defects = [])

namespace Faithful

variable {c : Prop} {P Q R : List CodeLine → Prop} {x : Option Code} {xs ys : List (Option Code)}

theorem empty (h : P []) : Faithful c P (some .empty) := ⟨.empty, rfl, fun _ => h, fun _ => rfl⟩

theorem mono (h : Faithful c P x) (hf : ∀ lines, P lines → Q lines) : Faithful c Q x := by
  obtain ⟨d, hd, hp, hc⟩ := h
  exact ⟨d, hd, fun hn => hf _ (hp hn), hc⟩

theorem line {r : Rendered} {W : String → Prop} (h : r.Faithful c W)
    (hf : ∀ text, W text → P [⟨0, text⟩]) : Faithful c P (some (.line r)) :=
  ⟨_, rfl, fun hn => hf _ (h.1 hn), h.2⟩

theorem line_map {r : Rendered} {W : String → Prop} {g : String → String} (h : r.Faithful c W)
    (hf : ∀ text, W text → P [⟨0, g text⟩]) : Faithful c P (some (.line (r.map g))) :=
  ⟨_, rfl, fun hn => hf _ (h.1 hn), h.2⟩

theorem append (hx : Faithful c P (concat xs)) (hy : Faithful c Q (concat ys))
    (hf : ∀ lines more, P lines → Q more → R (lines ++ more)) :
    Faithful c R (concat (xs ++ ys)) := by
  obtain ⟨d, hd, hp, hc⟩ := hx
  obtain ⟨e, he, hq, hc'⟩ := hy
  refine ⟨d.append e, by rw [concat_append, hd, he]; rfl, fun hn => ?_, fun h => ?_⟩
  · obtain ⟨hdn, hen⟩ := List.append_eq_nil_iff.mp hn
    exact hf _ _ (hp hdn) (hq hen)
  · exact List.append_eq_nil_iff.mpr ⟨hc h, hc' h⟩

theorem cons (hx : Faithful c P x) (hy : Faithful c Q (concat ys))
    (hf : ∀ lines more, P lines → Q more → R (lines ++ more)) :
    Faithful c R (concat (x :: ys)) := by
  have hone : Faithful c P (concat [x]) := by
    obtain ⟨d, rfl, hd⟩ := hx
    refine ⟨d, ?_, hd⟩
    simp [concat, Code.append, Code.empty]
  exact hone.append hy hf

theorem block {header : Rendered} {W : String → Prop} (hh : header.Faithful c W)
    (hb : Faithful c P x) (hf : ∀ text lines, W text → P lines → R (⟨0, text⟩ :: suite lines)) :
    Faithful c R (Code.block header (x.map orPass)) := by
  obtain ⟨d, rfl, hp, hc⟩ := hb
  have hdefects : d.orPass.defects = d.defects := by
    unfold orPass
    split <;> rfl
  have hlines : d.orPass.nest.lines = suite d.lines := by
    unfold orPass suite
    split <;> rfl
  refine ⟨(Code.line header).append d.orPass.nest, rfl, fun hn => ?_, fun h => ?_⟩
  · obtain ⟨hhn, hdn⟩ := List.append_eq_nil_iff.mp hn
    have hwanted := hf _ _ (hh.1 hhn) (hp (hdefects.symm.trans hdn))
    rw [← hlines] at hwanted
    exact hwanted
  · exact List.append_eq_nil_iff.mpr ⟨hh.2 h, hdefects.trans (hc h)⟩

end Faithful

end Code

def Stmt.Writes (L : Likeness) (stmt : Stmt) (lines : List CodeLine) : Prop :=
  ∃ stmt', stmt.Like L stmt' ∧ lines = stmt'.lines

def Stmt.WritesAll (L : Likeness) (stmts : List Stmt) (lines : List CodeLine) : Prop :=
  ∃ stmts', Stmt.AllLike L stmts stmts' ∧ lines = Stmt.allLines stmts'

def Alternatives.Writes (L : Likeness) (rest : Alternatives) (lines : List CodeLine) : Prop :=
  ∃ rest', rest.Like L rest' ∧ lines = rest'.lines

def Handler.WritesAll (L : Likeness) (clauses : List Handler) (lines : List CodeLine) : Prop :=
  ∃ clauses', Handler.AllLike L clauses clauses' ∧ lines = Handler.allLines clauses'

def Phrase.Writes (L : Likeness) (p : Phrase) (text : String) : Prop :=
  ∃ p', p.Like L p' ∧ text = p'.expr.print

theorem Text.trim_blank (text : String) : Text.trim (" " ++ text) = Text.trim text := by
  simp [Text.trim, Text.trimChars, String.toList_append, Text.isBlank]

theorem Graph.behindWords_label (words text : String) :
    Graph.behindWords words (words ++ " " ++ text) =
      if Text.trim text = "" then none else some (Text.trim text) := by
  have hpre : words.toList.isPrefixOf (words ++ " " ++ text).toList = true := by
    rw [List.isPrefixOf_iff_prefix, String.toList_append, String.toList_append, List.append_assoc]
    exact List.prefix_append ..
  have hrest : String.ofList ((words ++ " " ++ text).toList.drop words.length) = " " ++ text := by
    rw [String.toList_append, String.toList_append, List.append_assoc, ← String.length_toList,
      List.drop_left]
    simp
  rw [Graph.behindWords, if_pos hpre, hrest, Text.trim_blank]

end ScopedFlow
