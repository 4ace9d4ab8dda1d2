import Mathlib.Data.List.Nodup
import ScopedFlow.Link
import ScopedFlow.Proofs.Distinct
import ScopedFlow.Synthesis.Arguments

/-!
# Arguments that fit their parameters

When the positional arguments stay before a bare star, fill no parameter that a keyword names too
and leave no required one open, a call is written with all its arguments: the positional ones in
their order, then the keywords in the order of the parameters, then those keywords that name no
parameter. A required parameter that is left open is written as missing.
-/

namespace ScopedFlow

variable {params : List Param} {index : Nat}

/-- An argument as it is given: by position, or with a keyword. -/
structure Given (α : Type) where
  keyword : Option String
  value : α

namespace Given

variable {α β : Type}

def map (f : α → β) (g : Given α) : Given β := ⟨g.keyword, f g.value⟩

def positional (gs : List (Given α)) : List α :=
  gs.filterMap fun g => if g.keyword.isNone then some g.value else none

def keywords (gs : List (Given α)) : List (String × α) :=
  gs.filterMap fun g => g.keyword.map (·, g.value)

/-- The keyword arguments that name some parameters, in the order of the parameters. -/
def named (names : List String) (ks : List (String × α)) : List (String × α) :=
  names.filterMap fun name => ks.find? fun k => k.1 = name

theorem named_append (names names' : List String) (ks : List (String × α)) :
    named (names ++ names') ks = named names ks ++ named names' ks := List.filterMap_append

theorem named_singleton (name : String) (ks : List (String × α)) :
    named [name] ks = (ks.find? fun k => k.1 = name).toList := by
  cases hf : ks.find? (fun k => k.1 = name) <;> simp [named, hf]

/-- Keyword arguments in the order of the parameters, the others behind them. -/
def sorted (names : List String) (ks : List (String × α)) : List (String × α) :=
  named names ks ++ ks.filter fun k => k.1 ∉ names

/-- Positional arguments first, keyword arguments in the order of the parameters. -/
def arranged (names : List String) (gs : List (Given α)) : List (Given α) :=
  (positional gs).map (⟨none, ·⟩) ++ (sorted names (keywords gs)).map fun k => ⟨some k.1, k.2⟩

end Given

namespace Param

/-- The parameters that a keyword can name: none before a slash. -/
def byKeyword : (slash : Bool) → List Param → List String
  | _, [] => []
  | slash, p :: rest =>
    match p.kind with
    | .positional => if slash then byKeyword slash rest else p.name :: byKeyword slash rest
    | .positionalOnly => byKeyword false rest
    | _ => byKeyword slash rest

/-- Whether a slash is still to come. -/
def hasSlash (params : List Param) : Bool := params.any fun p => p.kind = .positionalOnly

/-- Arguments find their parameters: a parameter that a positional one goes to is not named by a
keyword, and a parameter that nothing is given for is optional, or else `lenient` holds. `left`
positional ones are still to be taken, and `kws` are the keywords of the call. -/
def Takes (lenient : Prop) (kws : List String) : (slash : Bool) → (left : Nat) → List Param → Prop
  | _, _, [] => True
  | slash, left, p :: rest =>
    match p.kind with
    | .positional =>
      match left with
      | 0 => (lenient ∨ p.optional = true ∨ slash = false ∧ p.name ∈ kws) ∧
        Takes lenient kws slash 0 rest
      | left + 1 => (slash = true ∨ p.name ∉ kws) ∧ Takes lenient kws slash left rest
    | .varArgs => slash = false ∧ Takes lenient kws slash 0 rest
    | .keywordOnly => left = 0 ∧ Takes lenient kws slash 0 rest
    | .positionalOnly => Takes lenient kws false left rest
    | .kwArgs => Takes lenient kws slash left rest

end Param

/-- The wiring of positional and keyword arguments. -/
def Wiring.of (ps : List NodeId) (ks : List (String × NodeId)) : Wiring :=
  ⟨ps.zipIdx.map Prod.swap, ks⟩

namespace Wiring

variable (ps : List NodeId) (ks : List (String × NodeId))

theorem positional?_of (i : Nat) : (Wiring.of ps ks).positional? i = ps[i]? := by
  have hgen (j : Nat) : (((ps.zipIdx j).map Prod.swap).find? fun p => p.1 = j + i).map (·.2) =
      ps[i]? := by
    induction ps generalizing j i with
    | nil => rfl
    | cons p ps ih =>
      cases i with
      | zero => simp
      | succ i =>
        have hrest := ih i (j + 1)
        simp only [List.zipIdx_cons, List.map_cons, List.getElem?_cons_succ]
        rw [List.find?_cons_of_neg (by simp), ← hrest]
        simp only [Nat.add_assoc, Nat.add_comm 1 i]
  simpa [Wiring.positional?, Wiring.of] using hgen 0

theorem filter_positional (m : Nat) :
    (Wiring.of ps ks).positional.filter (fun p => m ≤ p.1) =
      ((ps.drop m).zipIdx m).map Prod.swap := by
  have hgen (j : Nat) : ((ps.zipIdx j).map Prod.swap).filter (fun p => j + m ≤ p.1) =
      ((ps.drop m).zipIdx (j + m)).map Prod.swap := by
    induction ps generalizing j m with
    | nil => simp
    | cons p ps ih =>
      cases m with
      | zero =>
        refine List.filter_eq_self.mpr fun x hx => ?_
        obtain ⟨y, hy, rfl⟩ := List.mem_map.mp hx
        simpa using List.le_snd_of_mem_zipIdx hy
      | succ m =>
        have hrest := ih m (j + 1)
        simp only [List.zipIdx_cons, List.map_cons, List.drop_succ_cons]
        rw [List.filter_cons_of_neg (by simp), show j + (m + 1) = j + 1 + m by omega]
        exact hrest
  simpa [Wiring.of] using hgen 0

end Wiring

def WrittenArgument.isMissing (a : WrittenArgument) : Bool :=
  match a.source with
  | .missing _ => true
  | _ => false

namespace Placement
open Given

theorem written_bind (w : Wiring) (overrides : Overrides) (s : Placement) (p : Param) :
    s.written <+: (bind w overrides s p).written := by
  have hplain : s.written <+: (s.bindPlain w overrides p).written := by
    simp only [bindPlain]
    generalize (if s.beforeSlash = true then none else w.keyword? p.name) = keyword
    generalize valueOf (overrides.get? p.name) keyword _ = value
    obtain ⟨value, uses⟩ := value
    generalize (!s.beforeSlash && (s.byKeyword || keyword.isSome)) = named
    cases value with
    | some source => cases named <;> simp [write, writeByPosition]
    | none =>
      cases p.optional with
      | true => cases s.beforeSlash <;> simp
      | false => cases named <;> simp [write, writeByPosition]
  unfold bind
  split
  · simp [pastStars, takeRest]
  · exact List.prefix_rfl
  · exact List.prefix_rfl
  · exact List.prefix_rfl
  · exact hplain

theorem written_all (w : Wiring) (overrides : Overrides) (params : List Param) (s : Placement) :
    s.written <+: (params.foldl (bind w overrides) s).written := by
  induction params generalizing s with
  | nil => exact List.prefix_rfl
  | cons p params ih => exact (written_bind w overrides s p).trans (ih _)

def plain (id : NodeId) : WrittenArgument := ⟨none, .node id⟩

def worded (k : String × NodeId) : WrittenArgument := ⟨some k.1, .node k.2⟩

/-- The state after some parameters, when `left` positional arguments are still to be taken and
`names` are the parameters so far that a keyword can name. -/
structure Filling (ps : List NodeId) (ks : List (String × NodeId)) (slash : Bool) (left : Nat)
    (names : List String) (s : Placement) : Prop where
  written : s.written = (ps.take (ps.length - left)).map plain ++ (named names ks).map worded
  positions : ∀ i < ps.length, (i ∈ s.usedPositions ↔ i < ps.length - left)
  keywords : ∀ k ∈ ks, (k.1 ∈ s.usedKeywords ↔ k.1 ∈ names)
  beforeSlash : s.beforeSlash = slash
  waiting : slash = false → s.pending = []
  /-- While positional arguments are left, nothing is written with a keyword. -/
  early : 0 < left → s.slot + left = ps.length ∧ s.pending = [] ∧ s.byKeyword = false ∧
    s.pastStar = false ∧ named names ks = []
  late : left = 0 → s.pastStar = true ∨ ps.length ≤ s.slot

variable {ps : List NodeId} {ks : List (String × NodeId)} {slash : Bool} {left : Nat}
  {names : List String} {s : Placement} {p : Param}

theorem filling_start (ps : List NodeId) (ks : List (String × NodeId)) (params : List Param) :
    Filling ps ks (Param.hasSlash params) ps.length [] (start params) where
  written := by simp [start, named]
  positions := by simp [start]
  keywords := by simp [start]
  beforeSlash := rfl
  waiting _ := rfl
  early _ := ⟨Nat.zero_add _, rfl, rfl, rfl, rfl⟩
  late h := .inr (by simp [h])

namespace Filling

theorem unused_eq (h : Filling ps ks slash left names s) :
    ((Wiring.of ps ks).positional.filter fun p => !s.usedPositions.contains p.1) =
      ((ps.drop (ps.length - left)).zipIdx (ps.length - left)).map Prod.swap := by
  rw [← Wiring.filter_positional ps ks]
  refine List.filter_congr fun p hp => ?_
  obtain ⟨⟨id, i⟩, hi, rfl⟩ := List.mem_map.mp hp
  have hlt : i < ps.length := by simpa using List.snd_lt_add_of_mem_zipIdx hi
  have hused := h.positions i hlt
  simp only [Prod.fst_swap, List.contains_eq_mem, hused, ← decide_not, Nat.not_lt]

theorem rest_eq (h : Filling ps ks slash left names s) :
    ((Wiring.of ps ks).positional.filter fun p => decide (s.slot ≤ p.1) &&
      !s.usedPositions.contains p.1) =
      ((ps.drop (ps.length - left)).zipIdx (ps.length - left)).map Prod.swap := by
  rw [← h.unused_eq]
  refine List.filter_congr fun p hp => ?_
  obtain ⟨⟨id, i⟩, hi, rfl⟩ := List.mem_map.mp hp
  have hlt : i < ps.length := by simpa using List.snd_lt_add_of_mem_zipIdx hi
  by_cases hu : i ∈ s.usedPositions
  · simp [hu]
  · have hge : ps.length - left ≤ i := Nat.not_lt.mp fun hn => hu ((h.positions i hlt).mpr hn)
    have hslot : s.slot ≤ i := by
      obtain ⟨hs, -⟩ := h.early (by omega)
      omega
    simp [hu, hslot]

theorem written_rest (h : Filling ps ks slash left names s) :
    s.written ++ (((ps.drop (ps.length - left)).zipIdx (ps.length - left)).map Prod.swap).map
      (fun p => (⟨none, .node p.2⟩ : WrittenArgument)) =
      ps.map plain ++ (named names ks).map worded := by
  have hrest : (((ps.drop (ps.length - left)).zipIdx (ps.length - left)).map Prod.swap).map
      (fun p => (⟨none, .node p.2⟩ : WrittenArgument)) =
      (ps.drop (ps.length - left)).map plain := by
    conv_rhs => rw [← List.zipIdx_map_fst (ps.length - left) (ps.drop (ps.length - left))]
    rw [List.map_map, List.map_map]
    rfl
  rw [h.written, hrest]
  rcases Nat.eq_zero_or_pos left with rfl | hleft
  · simp
  · rw [(h.early hleft).2.2.2.2, List.map_nil, List.append_nil, List.append_nil,
      ← List.map_append, List.take_append_drop]

theorem varArgs (h : Filling ps ks false left names s) :
    Filling ps ks false 0 names (s.takeRest (.of ps ks)).pastStars := by
  refine ⟨?_, ?_, h.keywords, h.beforeSlash, fun _ => rfl, by simp, fun _ => .inl rfl⟩
  · simp only [pastStars, takeRest, h.rest_eq, h.waiting rfl, List.append_nil, h.written_rest,
      Nat.sub_zero, List.take_length]
  · intro i hi
    simp only [pastStars, takeRest, h.rest_eq, List.mem_append, h.positions i hi, Nat.sub_zero]
    refine ⟨fun _ => hi, fun _ => ?_⟩
    rcases Nat.lt_or_ge i (ps.length - left) with hlt | hge
    · exact .inl hlt
    · refine .inr (List.mem_map.mpr ⟨(i, ps[i]), List.mem_map.mpr ⟨(ps[i], i), ?_, rfl⟩, rfl⟩)
      refine List.mk_mem_zipIdx_iff_le_and_getElem?_sub.mpr ⟨hge, ?_⟩
      rw [List.getElem?_drop, Nat.add_sub_cancel' hge, List.getElem?_eq_getElem hi]

theorem keywordOnly (h : Filling ps ks slash 0 names s) :
    Filling ps ks slash 0 names { s with pending := [] }.pastStars :=
  ⟨h.written, h.positions, h.keywords, h.beforeSlash, fun _ => rfl, by simp, fun _ => .inl rfl⟩

theorem positionalOnly (h : Filling ps ks slash left names s) :
    Filling ps ks false left names { s with
      pending := [], byKeyword := s.byKeyword || !s.pending.isEmpty, beforeSlash := false } := by
  refine ⟨h.written, h.positions, h.keywords, rfl, fun _ => rfl, fun hl => ?_, h.late⟩
  obtain ⟨hslot, hpending, hkey, hstar, hnamed⟩ := h.early hl
  exact ⟨hslot, rfl, by simp [hkey, hpending], hstar, hnamed⟩

theorem find_eq_none {name : String} (h : name ∉ ks.map Prod.fst) :
    ks.find? (fun k => k.1 = name) = none := by
  refine List.find?_eq_none.mpr fun k hk he => h ?_
  exact List.mem_map.mpr ⟨k, hk, by simpa using he⟩

/-- The names so far, with those that the next parameter adds. -/
def more (slash : Bool) (names : List String) (p : Param) : List String :=
  names ++ if slash then [] else [p.name]

theorem named_more (hp : slash = true ∨ p.name ∉ ks.map Prod.fst) :
    named (more slash names p) ks = named names ks := by
  unfold more
  split
  · rw [List.append_nil]
  · rename_i hs
    rw [named_append, named_singleton, find_eq_none (hp.resolve_left hs), Option.toList_none,
      List.append_nil]

theorem mem_more (hp : slash = true ∨ p.name ∉ ks.map Prod.fst) {k : String × NodeId}
    (hk : k ∈ ks) : k.1 ∈ more slash names p ↔ k.1 ∈ names := by
  unfold more
  split
  · rw [List.append_nil]
  · rename_i hs
    have hne : k.1 ≠ p.name := fun he =>
      hp.resolve_left hs (he ▸ List.mem_map.mpr ⟨k, hk, rfl⟩)
    simp [hne]

theorem keyword?_eq (h : Filling ps ks slash left names s) (p : Param) :
    (if s.beforeSlash then none else (Wiring.of ps ks).keyword? p.name) =
      if slash then none else (ks.find? fun k => k.1 = p.name).map (·.2) := by
  rw [h.beforeSlash]
  rfl

theorem keyword?_eq_none (h : Filling ps ks slash left names s)
    (hp : slash = true ∨ p.name ∉ ks.map Prod.fst) :
    (if s.beforeSlash then none else (Wiring.of ps ks).keyword? p.name) = none := by
  rw [h.keyword?_eq]
  split
  · rfl
  · rename_i hs
    rw [find_eq_none (hp.resolve_left hs), Option.map_none]

theorem byPosition (h : Filling ps ks slash (left + 1) names s)
    (hp : slash = true ∨ p.name ∉ ks.map Prod.fst) :
    Filling ps ks slash left (more slash names p) (s.bindPlain (.of ps ks) .empty p) := by
  obtain ⟨hslot, hpending, hkey, hstar, hnamed⟩ := h.early (Nat.succ_pos _)
  have hlt : s.slot < ps.length := by omega
  have hkeyword := h.keyword?_eq_none hp
  have hposition : (if s.pastStar then none else (Wiring.of ps ks).positional? s.slot) =
      some ps[s.slot] := by
    rw [hstar, Wiring.positional?_of, List.getElem?_eq_getElem hlt]
    rfl
  have hbind : s.bindPlain (.of ps ks) .empty p = { s with
      written := s.written ++ [plain ps[s.slot]]
      slot := s.slot + 1
      usedPositions := s.slot :: s.usedPositions } := by
    simp only [bindPlain, hkeyword, hposition]
    simp [Overrides.get?, Overrides.empty, valueOf, hkey, hstar, hpending, writeByPosition, plain]
  have htake : ps.take (ps.length - (left + 1)) ++ [ps[s.slot]] = ps.take (ps.length - left) := by
    have hs : ps.length - (left + 1) = s.slot := by omega
    have hs' : ps.length - left = s.slot + 1 := by omega
    rw [hs, hs', List.take_append_getElem]
  rw [hbind]
  refine ⟨?_, ?_, ?_, h.beforeSlash, h.waiting, fun _ => ⟨?_, hpending, hkey, hstar, ?_⟩,
    fun hl => .inr ?_⟩
  · rw [h.written, named_more hp, hnamed, List.map_nil, List.append_nil, List.append_nil, ← htake,
      List.map_append]
    rfl
  · intro i hi
    have hused := h.positions i hi
    simp only [List.mem_cons, hused]
    omega
  · intro k hk
    rw [mem_more hp hk]
    exact h.keywords k hk
  · change s.slot + 1 + left = ps.length
    omega
  · rw [named_more hp, hnamed]
  · change ps.length ≤ s.slot + 1
    omega

theorem position?_eq (h : Filling ps ks slash 0 names s) :
    (if s.pastStar then none else (Wiring.of ps ks).positional? s.slot) = none := by
  rcases h.late rfl with hstar | hslot
  · rw [if_pos hstar]
  · rw [Wiring.positional?_of, List.getElem?_eq_none hslot, ite_self]

theorem late_next (h : Filling ps ks slash 0 names s) :
    s.pastStar = true ∨ ps.length ≤ if s.pastStar then s.slot else s.slot + 1 := by
  rcases h.late rfl with hstar | hslot
  · exact .inl hstar
  · refine .inr ?_
    split <;> omega

theorem byKeyword (h : Filling ps ks false 0 names s) (hp : p.name ∈ ks.map Prod.fst) :
    Filling ps ks false 0 (more false names p) (s.bindPlain (.of ps ks) .empty p) := by
  obtain ⟨k, hf, hk⟩ : ∃ k, ks.find? (fun k => k.1 = p.name) = some k ∧ k.1 = p.name := by
    cases hf : ks.find? (fun k => k.1 = p.name) with
    | none =>
      obtain ⟨k, hk, he⟩ := List.mem_map.mp hp
      exact absurd he (by simpa using List.find?_eq_none.mp hf k hk)
    | some k => exact ⟨k, rfl, by simpa using List.find?_some hf⟩
  have hkeyword : (if s.beforeSlash then none else (Wiring.of ps ks).keyword? p.name) =
      some k.2 := by
    rw [h.keyword?_eq, if_neg Bool.false_ne_true, hf, Option.map_some]
  have hbind : s.bindPlain (.of ps ks) .empty p = { s with
      written := s.written ++ [worded k]
      byKeyword := true
      slot := if s.pastStar then s.slot else s.slot + 1
      usedKeywords := p.name :: s.usedKeywords } := by
    simp only [bindPlain, hkeyword, h.position?_eq]
    simp [Overrides.get?, Overrides.empty, valueOf, h.beforeSlash, write, worded, hk]
  rw [hbind]
  refine ⟨?_, h.positions, ?_, h.beforeSlash, h.waiting, by simp, fun _ => h.late_next⟩
  · have hmore : named (more false names p) ks = named names ks ++ [k] := by
      rw [more, if_neg Bool.false_ne_true, named_append, named_singleton, hf, Option.toList_some]
    rw [h.written, hmore, List.map_append, List.append_assoc]
    rfl
  · intro j hj
    have hused := h.keywords j hj
    simp [more, hused, or_comm]

theorem leftOut (h : Filling ps ks slash 0 names s) (ho : p.optional = true)
    (hp : slash = true ∨ p.name ∉ ks.map Prod.fst) :
    Filling ps ks slash 0 (more slash names p) (s.bindPlain (.of ps ks) .empty p) := by
  have hkeyword := h.keyword?_eq_none hp
  have hbind : ∃ pending flag, s.bindPlain (.of ps ks) .empty p = { s with
      pending := pending
      byKeyword := flag
      slot := if s.pastStar then s.slot else s.slot + 1 } ∧ (slash = false → pending = []) := by
    simp only [bindPlain, hkeyword, h.position?_eq, ho]
    cases hs : slash with
    | true => simp [Overrides.get?, Overrides.empty, valueOf, h.beforeSlash, hs]
    | false =>
      refine ⟨s.pending, true, ?_, fun _ => h.waiting hs⟩
      simp [Overrides.get?, Overrides.empty, valueOf, h.beforeSlash, hs]
  obtain ⟨pending, flag, hbind, hpending⟩ := hbind
  rw [hbind]
  refine ⟨?_, h.positions, ?_, h.beforeSlash, hpending, by simp, fun _ => h.late_next⟩
  · rw [named_more hp]
    exact h.written
  · intro k hk
    rw [mem_more hp hk]
    exact h.keywords k hk

theorem missing (h : Filling ps ks slash 0 names s) (ho : p.optional = false)
    (hp : slash = true ∨ p.name ∉ ks.map Prod.fst) :
    ∃ a ∈ (s.bindPlain (.of ps ks) .empty p).written, a.isMissing = true := by
  have hkeyword := h.keyword?_eq_none hp
  simp only [bindPlain, hkeyword, h.position?_eq, ho]
  refine ⟨⟨if !s.beforeSlash && s.byKeyword then some p.name else none, .missing p.name⟩, ?_, rfl⟩
  cases hnamed : !s.beforeSlash && s.byKeyword <;>
    simp [Overrides.get?, Overrides.empty, valueOf, hnamed, write, writeByPosition]

theorem step (h : Filling ps ks slash left names s) {lenient : Prop}
    (ht : Param.Takes lenient (ks.map Prod.fst) slash left (p :: params)) :
    (∃ slash' left' names', Filling ps ks slash' left' names' (bind (.of ps ks) .empty s p) ∧
      Param.Takes lenient (ks.map Prod.fst) slash' left' params ∧
      names' ++ Param.byKeyword slash' params = names ++ Param.byKeyword slash (p :: params)) ∨
    lenient ∧ ∃ a ∈ (bind (.of ps ks) .empty s p).written, a.isMissing = true := by
  have hmore : more slash names p ++ Param.byKeyword slash params =
      names ++ if slash then Param.byKeyword slash params
        else p.name :: Param.byKeyword slash params := by
    unfold more
    split <;> simp
  cases hk : p.kind with
  | positional =>
    simp only [bind, Param.Takes, Param.byKeyword, hk] at ht ⊢
    cases left with
    | succ left => exact .inl ⟨slash, left, _, h.byPosition ht.1, ht.2, hmore⟩
    | zero =>
      by_cases hp : slash = true ∨ p.name ∉ ks.map Prod.fst
      · have hnot : ¬ (slash = false ∧ p.name ∈ ks.map Prod.fst) := by
          rintro ⟨hs, hin⟩
          rcases hp with hp | hp
          · exact Bool.noConfusion (hs.symm.trans hp)
          · exact hp hin
        cases ho : p.optional with
        | true => exact .inl ⟨slash, 0, _, h.leftOut ho hp, ht.2, hmore⟩
        | false =>
          refine .inr ⟨ht.1.resolve_right fun hn => ?_, h.missing ho hp⟩
          rcases hn with hn | hn
          · exact Bool.noConfusion (ho.symm.trans hn)
          · exact hnot hn
      · obtain ⟨hs, hin⟩ := not_or.mp hp
        obtain rfl : slash = false := by simpa using hs
        exact .inl ⟨false, 0, _, h.byKeyword (not_not.mp hin), ht.2, hmore⟩
  | varArgs =>
    simp only [bind, Param.Takes, Param.byKeyword, hk] at ht ⊢
    obtain ⟨rfl, ht⟩ := ht
    exact .inl ⟨false, 0, names, h.varArgs, ht, rfl⟩
  | keywordOnly =>
    simp only [bind, Param.Takes, Param.byKeyword, hk] at ht ⊢
    obtain ⟨rfl, ht⟩ := ht
    exact .inl ⟨slash, 0, names, h.keywordOnly, ht, rfl⟩
  | positionalOnly =>
    simp only [bind, Param.Takes, Param.byKeyword, hk] at ht ⊢
    exact .inl ⟨false, left, names, h.positionalOnly, ht, rfl⟩
  | kwArgs =>
    simp only [bind, Param.Takes, Param.byKeyword, hk] at ht ⊢
    exact .inl ⟨slash, left, names, h, ht, rfl⟩

theorem all (params : List Param) {lenient : Prop} (h : Filling ps ks slash left names s)
    (ht : Param.Takes lenient (ks.map Prod.fst) slash left params) :
    (∃ slash' left', Filling ps ks slash' left' (names ++ Param.byKeyword slash params)
      (params.foldl (bind (.of ps ks) .empty) s)) ∨
    lenient ∧ ∃ a ∈ (params.foldl (bind (.of ps ks) .empty) s).written, a.isMissing = true := by
  induction params generalizing slash left names s with
  | nil =>
    rw [Param.byKeyword, List.append_nil]
    exact .inl ⟨slash, left, h⟩
  | cons p params ih =>
    rcases h.step ht with ⟨slash', left', names', h', ht', hn⟩ | ⟨hl, a, ha, hm⟩
    · rw [List.foldl_cons, ← hn]
      exact ih h' ht'
    · exact .inr ⟨hl, a, (written_all _ _ params _).subset ha, hm⟩

end Filling

end Placement

open Placement in
theorem writtenArguments_eq {ps : List NodeId} {ks : List (String × NodeId)} {lenient : Prop}
    (ht : Param.Takes lenient (ks.map Prod.fst) (Param.hasSlash params) ps.length params) :
    writtenArguments params (.of ps ks) .empty =
      ps.map plain ++ (Given.sorted (Param.byKeyword (Param.hasSlash params) params) ks).map
        worded ∨
    lenient ∧ ∃ a ∈ writtenArguments params (.of ps ks) .empty, a.isMissing = true := by
  rcases (filling_start ps ks params).all params ht with ⟨slash, left, h⟩ | ⟨hl, a, ha, hm⟩
  case inr => exact .inr ⟨hl, a, List.mem_append_left _ (List.mem_append_left _ ha), hm⟩
  refine .inl ?_
  rw [List.nil_append] at h
  have hkeywords : (Wiring.of ps ks).keywords.filter (fun k =>
      !(params.foldl (bind (.of ps ks) .empty) (start params)).usedKeywords.contains k.1) =
      ks.filter fun k => k.1 ∉ Param.byKeyword (Param.hasSlash params) params := by
    refine List.filter_congr fun k hk => ?_
    simp only [List.contains_eq_mem, h.keywords k hk, decide_not]
  simp only [writtenArguments, h.unused_eq, hkeywords, h.written_rest, Given.sorted,
    List.map_append, List.append_assoc]
  rfl

def Given.written (g : Given NodeId) : WrittenArgument := ⟨g.keyword, .node g.value⟩

theorem writtenArguments_arranged {gs : List (Given NodeId)} {lenient : Prop}
    (ht : Param.Takes lenient ((Given.keywords gs).map Prod.fst) (Param.hasSlash params)
      (Given.positional gs).length params) :
    writtenArguments params (.of (Given.positional gs) (Given.keywords gs)) .empty =
      (Given.arranged (Param.byKeyword (Param.hasSlash params) params) gs).map Given.written ∨
    lenient ∧ ∃ a ∈ writtenArguments params (.of (Given.positional gs) (Given.keywords gs)) .empty,
      a.isMissing = true := by
  refine (writtenArguments_eq ht).imp_left fun h => ?_
  rw [h, Given.arranged, List.map_append, List.map_map, List.map_map]
  rfl

namespace Given

variable {α : Type}

/-- What the arguments of a call are wired as, counted by position from `index`. -/
def wires (index : Nat) : List (Given α) → List (α × EdgeKind)
  | [] => []
  | ⟨none, a⟩ :: gs => (a, .positional index) :: wires (index + 1) gs
  | ⟨some name, a⟩ :: gs => (a, .keyword name) :: wires index gs

@[simp] theorem positional_cons_none (a : α) (gs : List (Given α)) :
    positional (⟨none, a⟩ :: gs) = a :: positional gs := rfl

@[simp] theorem positional_cons_some (name : String) (a : α) (gs : List (Given α)) :
    positional (⟨some name, a⟩ :: gs) = positional gs := rfl

@[simp] theorem keywords_cons_none (a : α) (gs : List (Given α)) :
    keywords (⟨none, a⟩ :: gs) = keywords gs := rfl

@[simp] theorem keywords_cons_some (name : String) (a : α) (gs : List (Given α)) :
    keywords (⟨some name, a⟩ :: gs) = (name, a) :: keywords gs := rfl

end Given

namespace Wiring

theorem insertAt_last {source : NodeId} {es : List (Nat × NodeId)} (h : ∀ e ∈ es, e.1 < index) :
    insertAt index source es = es ++ [(index, source)] := by
  induction es with
  | nil => rfl
  | cons e es ih =>
    have he := h e List.mem_cons_self
    rw [insertAt, if_neg (by omega), if_neg (by omega),
      ih fun f hf => h f (List.mem_cons_of_mem _ hf)]
    rfl

theorem add_positional (ps : List NodeId) (ks : List (String × NodeId)) (source target : NodeId) :
    (Wiring.of ps ks).add ⟨source, target, .positional ps.length⟩ = .of (ps ++ [source]) ks := by
  have hlast : insertAt ps.length source (ps.zipIdx.map Prod.swap) =
      ps.zipIdx.map Prod.swap ++ [(ps.length, source)] := by
    refine insertAt_last fun e he => ?_
    obtain ⟨⟨id, i⟩, hi, rfl⟩ := List.mem_map.mp he
    simpa using List.snd_lt_add_of_mem_zipIdx hi
  simp [add, EdgeKind.positional, Wiring.of, hlast, List.zipIdx_append]

theorem add_keyword (ps : List NodeId) {ks : List (String × NodeId)} {name : String}
    (hn : name ∉ ks.map Prod.fst) (source target : NodeId) :
    (Wiring.of ps ks).add ⟨source, target, .keyword name⟩ = .of ps (ks ++ [(name, source)]) := by
  have hnone : (ks.any fun k => k.1 = name) = false := by
    refine List.any_eq_false.mpr fun k hk he => hn ?_
    exact List.mem_map.mpr ⟨k, hk, by simpa using he⟩
  simp [add, EdgeKind.keyword, Wiring.of, hnone]

end Wiring

namespace Given

theorem foldl_wires (target : NodeId) (gs : List (Given NodeId)) (ps : List NodeId)
    (ks : List (String × NodeId)) (hk : ((ks ++ keywords gs).map Prod.fst).Nodup) :
    ((wires ps.length gs).map fun p => (⟨p.1, target, p.2⟩ : Edge)).foldl Wiring.add (.of ps ks) =
      .of (ps ++ positional gs) (ks ++ keywords gs) := by
  induction gs generalizing ps ks with
  | nil => simp [wires, positional, keywords]
  | cons g gs ih =>
    obtain ⟨keyword, a⟩ := g
    cases keyword with
    | none =>
      rw [wires, List.map_cons, List.foldl_cons, Wiring.add_positional]
      have hrest := ih (ps ++ [a]) ks hk
      rw [List.length_append] at hrest
      rw [positional_cons_none, keywords_cons_none, ← List.singleton_append (l := positional gs),
        ← List.append_assoc]
      exact hrest
    | some name =>
      rw [keywords_cons_some] at hk
      have hn : name ∉ ks.map Prod.fst := by
        rw [List.map_append, List.map_cons] at hk
        exact fun hm => (List.nodup_append.mp hk).2.2 name hm name (by simp) rfl
      rw [wires, List.map_cons, List.foldl_cons, Wiring.add_keyword ps hn,
        positional_cons_some, keywords_cons_some, ← List.singleton_append (l := keywords gs),
        ← List.append_assoc]
      exact ih ps (ks ++ [(name, a)]) (by simpa using hk)

theorem ofEdges_wires {es : List Edge} (target : NodeId) {gs : List (Given NodeId)}
    (hes : ∀ e ∈ es, ∀ index keyword, e.kind ≠ .argument index keyword)
    (hk : ((keywords gs).map Prod.fst).Nodup) :
    Wiring.ofEdges (es ++ (wires 0 gs).map fun p => ⟨p.1, target, p.2⟩) =
      .of (positional gs) (keywords gs) := by
  have hnone : es.foldl Wiring.add ⟨[], []⟩ = .of [] [] := by
    induction es with
    | nil => rfl
    | cons e es ih =>
      have he : Wiring.add ⟨[], []⟩ e = ⟨[], []⟩ := by
        unfold Wiring.add
        split
        · rename_i hkind
          exact absurd hkind (hes e List.mem_cons_self _ _)
        · rename_i hkind
          exact absurd hkind (hes e List.mem_cons_self _ _)
        · rfl
      rw [List.foldl_cons, he, ih fun e he => hes e (List.mem_cons_of_mem _ he)]
  rw [Wiring.ofEdges, List.foldl_append, hnone]
  exact foldl_wires target gs [] [] hk

end Given

namespace Given

variable {α β : Type} {names : List String} {gs : List (Given α)} {ks : List (String × α)}

theorem wires_map (f : α → β) (index : Nat) (gs : List (Given α)) :
    wires index (gs.map (map f)) = (wires index gs).map (Prod.map f id) := by
  induction gs generalizing index with
  | nil => rfl
  | cons g gs ih =>
    obtain ⟨keyword, a⟩ := g
    cases keyword <;> simp [map, wires, ih]

theorem wires_lift {f : α → β} {hs : List (Given β)} {es : List (α × EdgeKind)}
    (h : wires index hs = es.map (Prod.map f id)) :
    ∃ gs, hs = gs.map (map f) ∧ es = wires index gs := by
  induction hs generalizing index es with
  | nil => exact ⟨[], rfl, List.map_eq_nil_iff.mp h.symm⟩
  | cons g hs ih =>
    obtain ⟨keyword, b⟩ := g
    cases keyword with
    | none =>
      obtain ⟨⟨a, kind⟩, es, rfl, he, hrest⟩ := List.map_eq_cons_iff.mp h.symm
      obtain ⟨rfl, rfl⟩ := Prod.mk.inj he
      obtain ⟨gs, rfl, rfl⟩ := ih hrest.symm
      exact ⟨⟨none, a⟩ :: gs, rfl, rfl⟩
    | some name =>
      obtain ⟨⟨a, kind⟩, es, rfl, he, hrest⟩ := List.map_eq_cons_iff.mp h.symm
      obtain ⟨rfl, rfl⟩ := Prod.mk.inj he
      obtain ⟨gs, rfl, rfl⟩ := ih hrest.symm
      exact ⟨⟨some name, a⟩ :: gs, rfl, rfl⟩

theorem mem_wires {g : Given α} (h : g ∈ gs) (index : Nat) :
    ∃ kind, (g.value, kind) ∈ wires index gs := by
  induction gs generalizing index with
  | nil => cases h
  | cons g' gs ih =>
    obtain ⟨keyword, a⟩ := g'
    cases keyword with
    | none =>
      rcases List.mem_cons.mp h with rfl | h
      · exact ⟨_, List.mem_cons_self⟩
      · obtain ⟨kind, hk⟩ := ih h (index + 1)
        exact ⟨kind, List.mem_cons_of_mem _ hk⟩
    | some name =>
      rcases List.mem_cons.mp h with rfl | h
      · exact ⟨_, List.mem_cons_self⟩
      · obtain ⟨kind, hk⟩ := ih h index
        exact ⟨kind, List.mem_cons_of_mem _ hk⟩

theorem kind_of_wires {p : α × EdgeKind} (h : p ∈ wires index gs) :
    (∃ i, index ≤ i ∧ p.2 = .positional i) ∨
      ∃ name ∈ (keywords gs).map Prod.fst, p.2 = .keyword name := by
  induction gs generalizing index with
  | nil => cases h
  | cons g gs ih =>
    obtain ⟨keyword, a⟩ := g
    cases keyword with
    | none =>
      rcases List.mem_cons.mp h with rfl | h
      · exact .inl ⟨index, Nat.le_refl _, rfl⟩
      · rcases ih h with ⟨i, hi, hp⟩ | hp
        · exact .inl ⟨i, Nat.le_of_succ_le hi, hp⟩
        · exact .inr hp
    | some name =>
      rcases List.mem_cons.mp h with rfl | h
      · exact .inr ⟨name, List.mem_cons_self, rfl⟩
      · rcases ih h with hp | ⟨other, ho, hp⟩
        · exact .inl hp
        · exact .inr ⟨other, List.mem_cons_of_mem _ ho, hp⟩

theorem nodup_kinds (hk : ((keywords gs).map Prod.fst).Nodup) (index : Nat) :
    ((wires index gs).map Prod.snd).Nodup := by
  induction gs generalizing index with
  | nil => exact .nil
  | cons g gs ih =>
    obtain ⟨keyword, a⟩ := g
    cases keyword with
    | none =>
      refine List.nodup_cons.mpr ⟨fun hm => ?_, ih hk (index + 1)⟩
      obtain ⟨p, hp, he⟩ := List.mem_map.mp hm
      rcases kind_of_wires hp with ⟨i, hi, hp⟩ | ⟨name, -, hp⟩
      · have hki : EdgeKind.positional i = .positional index := hp.symm.trans he
        simp only [EdgeKind.positional, EdgeKind.argument.injEq, Option.some.injEq] at hki
        omega
      · exact nomatch hp.symm.trans he
    | some name =>
      obtain ⟨hn, hk⟩ := List.nodup_cons.mp hk
      refine List.nodup_cons.mpr ⟨fun hm => ?_, ih hk index⟩
      obtain ⟨p, hp, he⟩ := List.mem_map.mp hm
      rcases kind_of_wires hp with ⟨i, -, hp⟩ | ⟨other, ho, hp⟩
      · exact nomatch hp.symm.trans he
      · have hki : EdgeKind.keyword other = .keyword name := hp.symm.trans he
        simp only [EdgeKind.keyword, EdgeKind.argument.injEq, Option.some.injEq, true_and] at hki
        exact hn (hki ▸ ho)

theorem positional_map (f : α → β) (gs : List (Given α)) :
    positional (gs.map (map f)) = (positional gs).map f := by
  induction gs with
  | nil => rfl
  | cons g gs ih =>
    obtain ⟨keyword, a⟩ := g
    cases keyword <;> simp [map, ih]

theorem keywords_map (f : α → β) (gs : List (Given α)) :
    keywords (gs.map (map f)) = (keywords gs).map (Prod.map id f) := by
  induction gs with
  | nil => rfl
  | cons g gs ih =>
    obtain ⟨keyword, a⟩ := g
    cases keyword <;> simp [map, ih]

theorem sorted_map (f : α → β) (names : List String) (ks : List (String × α)) :
    sorted names (ks.map (Prod.map id f)) = (sorted names ks).map (Prod.map id f) := by
  have hnamed : named names (ks.map (Prod.map id f)) =
      (named names ks).map (Prod.map id f) := by
    simp only [named, List.find?_map, List.map_filterMap]
    rfl
  rw [sorted, sorted, List.map_append, hnamed, List.filter_map]
  rfl

theorem arranged_map (f : α → β) (names : List String) (gs : List (Given α)) :
    arranged names (gs.map (map f)) = (arranged names gs).map (map f) := by
  simp only [arranged, positional_map, keywords_map, sorted_map, List.map_append, List.map_map]
  rfl

theorem mem_named {k : String × α} (h : k ∈ named names ks) : k ∈ ks ∧ k.1 ∈ names := by
  obtain ⟨name, hn, hk⟩ := List.mem_filterMap.mp h
  have hname : k.1 = name := by simpa using List.find?_some hk
  exact ⟨List.mem_of_find?_eq_some hk, hname ▸ hn⟩

theorem mem_arranged {g : Given α} (h : g ∈ arranged names gs) : g ∈ gs := by
  have hpositional {a : α} (ha : a ∈ positional gs) : ⟨none, a⟩ ∈ gs := by
    obtain ⟨⟨keyword, b⟩, hb, he⟩ := List.mem_filterMap.mp ha
    cases keyword with
    | none => exact Option.some.inj he ▸ hb
    | some name => cases he
  have hkeywords {k : String × α} (hk : k ∈ keywords gs) : ⟨some k.1, k.2⟩ ∈ gs := by
    obtain ⟨⟨keyword, b⟩, hb, he⟩ := List.mem_filterMap.mp hk
    obtain ⟨name, rfl, rfl⟩ := Option.map_eq_some_iff.mp he
    exact hb
  rcases List.mem_append.mp h with h | h
  · obtain ⟨a, ha, rfl⟩ := List.mem_map.mp h
    exact hpositional ha
  · obtain ⟨k, hk, rfl⟩ := List.mem_map.mp h
    rcases List.mem_append.mp hk with hk | hk
    · exact hkeywords (mem_named hk).1
    · exact hkeywords (List.mem_of_mem_filter hk)

theorem find_self (hk : (ks.map Prod.fst).Nodup) {k : String × α} (hm : k ∈ ks) :
    ks.find? (fun j => j.1 = k.1) = some k := by
  cases hf : ks.find? (fun j => j.1 = k.1) with
  | none => simpa using List.find?_eq_none.mp hf k hm
  | some j =>
    have hj : j.1 = k.1 := by simpa using List.find?_some hf
    rw [List.inj_on_of_nodup_map hk (List.mem_of_find?_eq_some hf) hm hj]

/-- Arguments by position, then arguments with keywords. -/
def row (ps : List α) (ks : List (String × α)) : List (Given α) :=
  ps.map (⟨none, ·⟩) ++ ks.map fun k => ⟨some k.1, k.2⟩

theorem positional_row (ps : List α) (ks : List (String × α)) : positional (row ps ks) = ps := by
  have hks : (ks.map fun k => (⟨some k.1, k.2⟩ : Given α)).filterMap
      (fun g => if g.keyword.isNone then some g.value else none) = [] := by simp
  rw [positional, row, List.filterMap_append, hks, List.append_nil, List.filterMap_map]
  exact List.filterMap_some

theorem keywords_row (ps : List α) (ks : List (String × α)) : keywords (row ps ks) = ks := by
  have hps : (ps.map fun v => (⟨none, v⟩ : Given α)).filterMap
      (fun g => g.keyword.map (·, g.value)) = [] := by simp
  rw [keywords, row, List.filterMap_append, hps, List.nil_append, List.filterMap_map]
  exact List.filterMap_some

theorem pairwise_row (ps : List α) (ks : List (String × α)) :
    ((row ps ks).map (·.keyword)).Pairwise fun a b => a.isSome = true → b.isSome = true := by
  rw [row, List.map_append, List.map_map, List.map_map, List.pairwise_append]
  refine ⟨?_, ?_, ?_⟩
  · exact List.pairwise_map.mpr (List.pairwise_of_forall fun _ _ hsome => Bool.noConfusion hsome)
  · exact List.pairwise_map.mpr (List.pairwise_of_forall fun _ _ _ => rfl)
  · intro a ha b _ hsome
    obtain ⟨v, -, rfl⟩ := List.mem_map.mp ha
    cases hsome

theorem row_self (h : (gs.map (·.keyword)).Pairwise fun a b => a.isSome = true → b.isSome = true) :
    row (positional gs) (keywords gs) = gs := by
  induction gs with
  | nil => rfl
  | cons g gs ih =>
    obtain ⟨hhead, htail⟩ := List.pairwise_cons.mp h
    have hrest := ih htail
    obtain ⟨keyword, a⟩ := g
    cases keyword with
    | none => exact congrArg (⟨none, a⟩ :: ·) hrest
    | some name =>
      have hnone : positional gs = [] := by
        refine List.filterMap_eq_nil_iff.mpr fun g hg => if_neg ?_
        rw [Option.isNone_eq_false_iff.mpr (hhead g.keyword (List.mem_map_of_mem hg) rfl)]
        exact Bool.false_ne_true
      rw [hnone] at hrest
      rw [positional_cons_some, keywords_cons_some, hnone]
      exact congrArg (⟨some name, a⟩ :: ·) hrest

/-- The names of the positions of some arguments. -/
def positionNames (gs : List (Given α)) : List String :=
  (List.range (positional gs).length).map fun i => "arg" ++ toString i

/-- The parameters that some arguments suggest: one for each position, one for each keyword. -/
def suggested (gs : List (Given α)) : List Param :=
  (positionNames gs ++ (keywords gs).map Prod.fst).map Param.required

theorem suggested_map (f : α → β) (gs : List (Given α)) :
    suggested (gs.map (map f)) = suggested gs := by
  simp only [suggested, positionNames, positional_map, keywords_map, List.length_map, List.map_map]
  rfl

theorem argumentIndices_wires (target : NodeId) (index : Nat) (gs : List (Given NodeId)) :
    Graph.argumentIndices ((wires index gs).map fun p => ⟨p.1, target, p.2⟩) =
      List.range' index (positional gs).length := by
  induction gs generalizing index with
  | nil => rfl
  | cons g gs ih =>
    obtain ⟨keyword, a⟩ := g
    cases keyword with
    | none => exact congrArg (index :: ·) (ih (index + 1))
    | some name => exact ih index

theorem argumentKeywords_wires (target : NodeId) (index : Nat) (gs : List (Given NodeId)) :
    Graph.argumentKeywords ((wires index gs).map fun p => ⟨p.1, target, p.2⟩) =
      (keywords gs).map Prod.fst := by
  induction gs generalizing index with
  | nil => rfl
  | cons g gs ih =>
    obtain ⟨keyword, a⟩ := g
    cases keyword with
    | none => exact ih (index + 1)
    | some name => exact congrArg (name :: ·) (ih index)

theorem foldl_max_range' (index n : Nat) :
    (List.range' index n).foldl (fun m i => max m (i + 1)) index = index + n := by
  induction n generalizing index with
  | zero => rfl
  | succ n ih =>
    rw [List.range'_succ, List.foldl_cons, Nat.max_eq_right (Nat.le_succ index), ih]
    omega

theorem suggestedParams_eq {g : Graph} {id : NodeId} {es : List Edge} {gs : List (Given NodeId)}
    (he : g.edgesTo id = es ++ (wires 0 gs).map fun p => ⟨p.1, id, p.2⟩)
    (hes : ∀ e ∈ es, ∀ index keyword, e.kind ≠ .argument index keyword)
    (hk : ((keywords gs).map Prod.fst).Nodup) : g.suggestedParams id = suggested gs := by
  have hindices : Graph.argumentIndices (g.edgesTo id) = List.range' 0 (positional gs).length := by
    have hnone : Graph.argumentIndices es = [] := by
      refine List.filterMap_eq_nil_iff.mpr fun e hm => ?_
      split
      · rename_i index keyword hkind
        exact absurd hkind (hes e hm index keyword)
      · rfl
    rw [he, ← argumentIndices_wires id 0 gs]
    exact List.filterMap_append.trans (congrArg (· ++ _) hnone)
  have hkeywords : Graph.argumentKeywords (g.edgesTo id) = (keywords gs).map Prod.fst := by
    have hnone : Graph.argumentKeywords es = [] := by
      refine List.filterMap_eq_nil_iff.mpr fun e hm => ?_
      split
      · rename_i index keyword hkind
        exact absurd hkind (hes e hm index keyword)
      · rfl
    rw [he, ← argumentKeywords_wires id 0 gs]
    exact List.filterMap_append.trans (congrArg (· ++ _) hnone)
  rw [Graph.suggestedParams, hindices, hkeywords, foldl_max_range', Nat.zero_add,
    Graph.distinct_eq_self hk, suggested, positionNames, List.map_append, List.map_map,
    List.map_map (l := List.range _)]
  rfl

theorem hasSlash_required (names : List String) :
    Param.hasSlash (names.map Param.required) = false := by
  refine List.any_eq_false.mpr fun p hp => ?_
  obtain ⟨name, -, rfl⟩ := List.mem_map.mp hp
  simp [Param.required]

theorem byKeyword_required (names : List String) :
    Param.byKeyword false (names.map Param.required) = names := by
  induction names with
  | nil => rfl
  | cons name names ih => exact congrArg (name :: ·) ih

theorem takes_required {kws front back : List String} (hf : ∀ name ∈ front, name ∉ kws)
    (hb : ∀ name ∈ back, name ∈ kws) (lenient : Prop) :
    Param.Takes lenient kws false front.length ((front ++ back).map Param.required) := by
  induction front with
  | cons name front ih =>
    exact ⟨.inr (hf name List.mem_cons_self), ih fun other ho => hf other (List.mem_cons_of_mem _ ho)⟩
  | nil =>
    induction back with
    | nil => trivial
    | cons name back ih =>
      exact ⟨.inr (.inr ⟨rfl, hb name List.mem_cons_self⟩),
        ih fun other ho => hb other (List.mem_cons_of_mem _ ho)⟩

/-- Arguments fit the parameters that they suggest, unless a keyword is the name of a position. -/
theorem takes_suggested (hn : ∀ name ∈ positionNames gs, name ∉ (keywords gs).map Prod.fst)
    (lenient : Prop) : Param.Takes lenient ((keywords gs).map Prod.fst)
      (Param.hasSlash (suggested gs)) (positional gs).length (suggested gs) := by
  have hlen : (positionNames gs).length = (positional gs).length := by simp [positionNames]
  rw [suggested, hasSlash_required, ← hlen]
  exact takes_required hn (fun name hm => hm) lenient

theorem named_self (hk : (ks.map Prod.fst).Nodup) : named (ks.map Prod.fst) ks = ks := by
  rw [named, List.filterMap_map]
  exact (List.filterMap_congr fun k hm => find_self hk hm).trans List.filterMap_some

theorem sorted_suggested (hn : ∀ name ∈ positionNames gs, name ∉ (keywords gs).map Prod.fst)
    (hk : ((keywords gs).map Prod.fst).Nodup) :
    sorted (Param.byKeyword (Param.hasSlash (suggested gs)) (suggested gs)) (keywords gs) =
      keywords gs := by
  have hnone : named (positionNames gs) (keywords gs) = [] := by
    refine List.eq_nil_iff_forall_not_mem.mpr fun k hm => ?_
    obtain ⟨hin, hname⟩ := mem_named hm
    exact hn k.1 hname (List.mem_map.mpr ⟨k, hin, rfl⟩)
  have hrest : (keywords gs).filter (fun k =>
      k.1 ∉ positionNames gs ++ (keywords gs).map Prod.fst) = [] := by
    refine List.filter_eq_nil_iff.mpr fun k hm => ?_
    have hin : k.1 ∈ (keywords gs).map Prod.fst := List.mem_map.mpr ⟨k, hm, rfl⟩
    simp only [List.mem_append, hin, or_true, not_true_eq_false, decide_false, Bool.false_eq_true,
      not_false_eq_true]
  rw [suggested, hasSlash_required, byKeyword_required, sorted, named_append, named_self hk, hnone,
    hrest, List.nil_append, List.append_nil]

end Given

end ScopedFlow
