import ScopedFlow.Proofs.Arguments
import ScopedFlow.Synthesis.Expression

/-!
# Plain parameters and the arguments that are theirs

A plain parameter has a seat: the position that goes to it, none behind a star, and whether a
keyword can name it, not before a slash. What one parameter adds to a written call follows from its
seat and from whether keywords are in use already.
-/

namespace ScopedFlow

/-- How an argument is wired to a call. -/
inductive ArgKey where
  | position (index : Nat)
  | keyword (name : String)
  deriving DecidableEq, Repr

/-- The key of an edge that carries an argument; the keyword counts if there is one. -/
def EdgeKind.argKey? : EdgeKind → Option ArgKey
  | .argument _ (some name) => some (.keyword name)
  | .argument (some index) none => some (.position index)
  | _ => none

/-- The source of the first edge into a call that carries the argument of a key. -/
def Graph.wired (g : Graph) (call : NodeId) (key : ArgKey) : Option NodeId :=
  g.input call fun k => k.argKey? = some key

def Graph.callArguments (g : Graph) (n : Node) (site : CallSite) : List WrittenArgument :=
  writtenArguments (g.callParams site) (.ofEdges (g.edgesTo n.id)) site.overrides

namespace Graph

def argKeys (g : Graph) (call : NodeId) : List ArgKey :=
  distinct ((g.edgesTo call).filterMap fun e => e.kind.argKey?)

theorem nodup_argKeys (g : Graph) (call : NodeId) : (g.argKeys call).Nodup := nodup_distinct _

theorem mem_argKeys {g : Graph} {call : NodeId} {key : ArgKey} :
    key ∈ g.argKeys call ↔ (g.wired call key).isSome = true := by
  rw [argKeys, mem_distinct, List.mem_filterMap, wired, input, Option.isSome_map,
    List.find?_isSome]
  simp

end Graph

namespace Wiring

variable {w : Wiring} {ps : List (Nat × NodeId)}

def get? (w : Wiring) : ArgKey → Option NodeId
  | .position index => w.positional? index
  | .keyword name => w.keyword? name

structure Sorted (w : Wiring) : Prop where
  positional : w.positional.Pairwise fun a b => a.1 < b.1
  keywords : (w.keywords.map Prod.fst).Nodup

theorem fst_of_mem_insertAt {index : Nat} {source : NodeId} {p : Nat × NodeId}
    (h : p ∈ insertAt index source ps) : p.1 = index ∨ p ∈ ps := by
  induction ps with
  | nil =>
    obtain rfl := List.mem_singleton.mp h
    exact Or.inl rfl
  | cons q ps ih =>
    unfold insertAt at h
    split at h
    · rcases List.mem_cons.mp h with rfl | h
      · exact Or.inl rfl
      · exact Or.inr h
    · split at h
      · exact Or.inr h
      · rcases List.mem_cons.mp h with rfl | h
        · exact Or.inr List.mem_cons_self
        · exact (ih h).imp_right (List.mem_cons_of_mem _)

theorem pairwise_insertAt (index : Nat) (source : NodeId) (h : ps.Pairwise fun a b => a.1 < b.1) :
    (insertAt index source ps).Pairwise fun a b => a.1 < b.1 := by
  induction ps with
  | nil => exact List.pairwise_singleton ..
  | cons q ps ih =>
    obtain ⟨hq, hps⟩ := List.pairwise_cons.mp h
    unfold insertAt
    split
    · rename_i hlt
      refine List.pairwise_cons.mpr ⟨?_, h⟩
      intro p hp
      rcases List.mem_cons.mp hp with rfl | hp
      · exact hlt
      · have := hq p hp
        omega
    · split
      · exact h
      · refine List.pairwise_cons.mpr ⟨?_, ih hps⟩
        intro p hp
        rcases fst_of_mem_insertAt hp with he | hp
        · omega
        · exact hq p hp

theorem find?_insertAt (index : Nat) (source : NodeId) (h : ps.Pairwise fun a b => a.1 < b.1)
    (i : Nat) : (insertAt index source ps).find? (fun p => p.1 = i) =
      (ps.find? fun p => p.1 = i).or (if index = i then some (index, source) else none) := by
  induction ps with
  | nil => by_cases hi : index = i <;> simp [insertAt, hi]
  | cons q ps ih =>
    obtain ⟨hq, hps⟩ := List.pairwise_cons.mp h
    unfold insertAt
    split
    · rename_i hlt
      by_cases hi : index = i
      · have hnone : (q :: ps).find? (fun p => p.1 = i) = none := by
          apply List.find?_eq_none.mpr
          intro p hp he
          have he : p.1 = i := of_decide_eq_true he
          rcases List.mem_cons.mp hp with rfl | hp
          · omega
          · have := hq p hp
            omega
        rw [List.find?_cons_of_pos (by simpa using hi), hnone, if_pos hi, Option.none_or]
      · rw [List.find?_cons_of_neg (by simpa using hi), if_neg hi, Option.or_none]
    · split
      · rename_i heq
        by_cases hi : index = i
        · rw [List.find?_cons_of_pos (by simpa using heq.symm.trans hi), Option.some_or]
        · rw [if_neg hi, Option.or_none]
      · by_cases hi : q.1 = i
        · rw [List.find?_cons_of_pos (by simpa using hi), List.find?_cons_of_pos (by simpa using hi),
            Option.some_or]
        · rw [List.find?_cons_of_neg (by simpa using hi), List.find?_cons_of_neg (by simpa using hi),
            ih hps]

theorem keyword?_eq_none_iff {name : String} :
    w.keyword? name = none ↔ (w.keywords.any fun k => k.1 = name) = false := by
  simp [keyword?]

theorem find?_fst_iff {α β : Type} [DecidableEq α] {ps : List (α × β)} (h : (ps.map Prod.fst).Nodup)
    {a : α} {b : β} : (ps.find? fun p => p.1 = a).map (·.2) = some b ↔ (a, b) ∈ ps := by
  constructor
  · intro hf
    obtain ⟨p, hp, rfl⟩ := Option.map_eq_some_iff.mp hf
    have hfst : p.1 = a := by simpa using List.find?_some hp
    rw [← hfst]
    exact List.mem_of_find?_eq_some hp
  · intro hm
    cases hf : ps.find? (fun p => p.1 = a) with
    | none => simpa using List.find?_eq_none.mp hf _ hm
    | some p =>
      have hfst : p.1 = a := by simpa using List.find?_some hf
      rw [List.inj_on_of_nodup_map h (List.mem_of_find?_eq_some hf) hm hfst, Option.map_some]

theorem positional?_isSome {i : Nat} :
    (w.positional? i).isSome = true ↔ i ∈ w.positional.map (·.1) := by
  simp [positional?]

theorem keyword?_isSome {name : String} :
    (w.keyword? name).isSome = true ↔ name ∈ w.keywords.map (·.1) := by
  simp [keyword?]

theorem Sorted.add (h : w.Sorted) (e : Edge) : (w.add e).Sorted := by
  obtain ⟨source, target, kind⟩ := e
  cases kind with
  | argument index keyword =>
    cases keyword with
    | some name =>
      simp only [Wiring.add]
      split
      · exact h
      · rename_i hnew
        refine ⟨h.positional, ?_⟩
        rw [List.map_append, List.nodup_append]
        refine ⟨h.keywords, List.nodup_singleton _, ?_⟩
        rintro a ha b hb rfl
        obtain ⟨k, hk, rfl⟩ := List.mem_map.mp ha
        apply hnew
        exact List.any_eq_true.mpr ⟨k, hk, by simpa using hb⟩
    | none =>
      cases index with
      | none => exact h
      | some index => exact ⟨pairwise_insertAt index source h.positional, h.keywords⟩
  | _ => exact h

theorem get?_add (h : w.Sorted) (e : Edge) (key : ArgKey) :
    (w.add e).get? key =
      (w.get? key).or (if e.kind.argKey? = some key then some e.source else none) := by
  obtain ⟨source, target, kind⟩ := e
  cases kind with
  | argument index keyword =>
    cases keyword with
    | some name =>
      simp only [add, EdgeKind.argKey?, Option.some.injEq]
      cases hknown : w.keywords.any fun k => k.1 = name with
      | true =>
        rw [if_pos rfl]
        split
        · rename_i hkey
          subst hkey
          cases hk : w.get? (.keyword name) with
          | none =>
            have hnone := keyword?_eq_none_iff.mp hk
            rw [hknown] at hnone
            cases hnone
          | some id => rfl
        · rw [Option.or_none]
      | false =>
        rw [if_neg Bool.false_ne_true]
        cases key with
        | position i => exact (Option.or_none).symm
        | keyword other =>
          simp only [get?, keyword?, List.find?_append, ArgKey.keyword.injEq]
          by_cases ho : name = other
          · subst ho
            cases w.keywords.find? (fun k => k.1 = name) <;> simp
          · simp [ho]
    | none =>
      cases index with
      | none => exact (Option.or_none).symm
      | some index =>
        cases key with
        | keyword name => exact (Option.or_none).symm
        | position i =>
          simp only [add, EdgeKind.argKey?, get?, positional?, find?_insertAt index source h.positional,
            Option.some.injEq, ArgKey.position.injEq]
          cases w.positional.find? (fun p => p.1 = i) <;> split <;> rfl
  | _ => exact (Option.or_none).symm

theorem sorted_ofEdges (es : List Edge) : (ofEdges es).Sorted := by
  apply List.foldlRecOn es add
  · exact ⟨.nil, .nil⟩
  · intro w hw e _
    exact hw.add e

theorem get?_ofEdges (es : List Edge) (key : ArgKey) : (ofEdges es).get? key =
    (es.find? fun e => e.kind.argKey? = some key).map (·.source) := by
  induction es using List.reverseRecOn with
  | nil => cases key <;> rfl
  | append_singleton es e ih =>
    have hadd : ofEdges (es ++ [e]) = (ofEdges es).add e := List.foldl_concat ..
    rw [hadd, get?_add (sorted_ofEdges es), ih, List.find?_append]
    by_cases he : e.kind.argKey? = some key
    · cases es.find? (fun e => e.kind.argKey? = some key) <;> simp [he]
    · simp [he]

theorem get?_edgesTo (g : Graph) (call : NodeId) (key : ArgKey) :
    (ofEdges (g.edgesTo call)).get? key = g.wired call key := get?_ofEdges ..

end Wiring

structure Seat where
  param : Param
  /-- The position that goes to the parameter. -/
  slot : Option Nat
  /-- Whether a keyword can name the parameter. -/
  byName : Bool
  deriving DecidableEq, Repr

namespace Param

/-- The seats of the plain parameters, if a slash is still to come, a star has been passed, and so
many positions are taken. -/
def seatsFrom : (slash star : Bool) → (slot : Nat) → List Param → List Seat
  | _, _, _, [] => []
  | slash, star, slot, p :: rest =>
    match p.kind with
    | .positional => ⟨p, if star then none else some slot, !slash⟩ ::
        seatsFrom slash star (if star then slot else slot + 1) rest
    | .varArgs | .keywordOnly => seatsFrom slash true slot rest
    | .positionalOnly => seatsFrom false star slot rest
    | .kwArgs => seatsFrom slash star slot rest

def seats (params : List Param) : List Seat := seatsFrom (hasSlash params) false 0 params

def plainNames (params : List Param) : List String :=
  (params.filter fun p => p.kind = .positional).map (·.name)

theorem map_param_seatsFrom (params : List Param) (slash star : Bool) (slot : Nat) :
    (seatsFrom slash star slot params).map (·.param) =
      params.filter fun p => p.kind = .positional := by
  induction params generalizing slash star slot with
  | nil => rfl
  | cons p params ih =>
    unfold seatsFrom
    cases hk : p.kind with
    | positional =>
      rw [List.filter_cons_of_pos (by simp [hk])]
      exact congrArg (p :: ·) (ih ..)
    | _ =>
      rw [List.filter_cons_of_neg (by simp [hk])]
      exact ih ..

theorem names_seats (params : List Param) :
    (seats params).map (·.param.name) = plainNames params := by
  rw [plainNames, ← map_param_seatsFrom, List.map_map]
  rfl

/-- The default of a parameter, to be written for it. -/
def waiting (p : Param) : ArgSource :=
  match p.default with
  | some text => .text text
  | none => .unknownDefault

end Param

namespace Seat

/-- Whether the argument of a key belongs to the parameter. -/
def Holds (q : Seat) : ArgKey → Prop
  | .position i => q.slot = some i
  | .keyword name => q.byName = true ∧ q.param.name = name

instance (q : Seat) : DecidablePred q.Holds
  | .position _ => inferInstanceAs (Decidable (_ = _))
  | .keyword _ => inferInstanceAs (Decidable (_ ∧ _))

variable (w : Wiring) (o : Overrides) (q : Seat)

def keyword : Option NodeId := if q.byName then w.keyword? q.param.name else none

def position : Option NodeId := q.slot.bind w.positional?

/-- What is written for the parameter, if it is not left out. -/
def given : Option ArgSource :=
  match o.get? q.param.name, q.keyword w, q.position w with
  | some text, _, _ => some (.text text)
  | none, some id, _ => some (.node id)
  | none, none, some id => some (.node id)
  | none, none, none => if q.param.optional then none else some (.missing q.param.name)

/-- Whether the positional argument of the parameter is used up. -/
def fills : Bool :=
  (q.position w).isSome && ((o.get? q.param.name).isSome || (q.keyword w).isNone)

variable {w q}

theorem keyword_eq_some_iff {id : NodeId} :
    q.keyword w = some id ↔ q.byName = true ∧ w.keyword? q.param.name = some id := by
  unfold keyword
  cases q.byName <;> simp

theorem keyword_eq_none (h : q.byName = true → w.keyword? q.param.name = none) :
    q.keyword w = none := by
  unfold keyword
  split
  · rename_i hname
    exact h hname
  · rfl

end Seat

namespace Placement

variable (w : Wiring) (o : Overrides) (s : Placement) (p : Param)

def seat : Seat := ⟨p, if s.pastStar then none else some s.slot, !s.beforeSlash⟩

/-- The seats of the parameters that follow. -/
def seats (params : List Param) : List Seat :=
  Param.seatsFrom s.beforeSlash s.pastStar s.slot params

/-- The positions and keywords that are used behind a plain parameter. -/
def advance : Placement :=
  { s with
    slot := if s.pastStar then s.slot else s.slot + 1
    usedPositions := if (s.seat p).fills w o then s.slot :: s.usedPositions else s.usedPositions
    usedKeywords := if ((s.seat p).keyword w).isSome then p.name :: s.usedKeywords
      else s.usedKeywords }

/-- Whether a value of the parameter is written with its name. -/
def named : Bool := (s.seat p).byName && (s.byKeyword || ((s.seat p).keyword w).isSome)

theorem keyword_seat : (s.seat p).keyword w = if s.beforeSlash then none else w.keyword? p.name := by
  cases hs : s.beforeSlash <;> simp [seat, Seat.keyword, hs]

theorem position_seat :
    (s.seat p).position w = if s.pastStar then none else w.positional? s.slot := by
  cases hs : s.pastStar <;> simp [seat, Seat.position, hs]

/-- What a plain parameter does: a value is written with the name or by position, behind the defaults
that wait; nothing at all turns keywords on, or before a slash lets the default wait. -/
theorem bindPlain_eq : s.bindPlain w o p =
    match (s.seat p).given w o with
    | some source =>
      if s.named w p then { s.advance w o p with byKeyword := true }.write (some p.name) source
      else (s.advance w o p).writeByPosition source
    | none =>
      if (s.seat p).byName then { s.advance w o p with byKeyword := true }
      else { s.advance w o p with pending := s.pending ++ [⟨none, p.waiting⟩] } := by
  have hkeyword := keyword_seat w s p
  have hposition := position_seat w s p
  have hparam : (s.seat p).param = p := rfl
  have hname : (s.seat p).byName = !s.beforeSlash := rfl
  simp only [bindPlain, ← hkeyword, ← hposition, named, advance, Seat.given, Seat.fills, Param.waiting,
    hparam, hname]
  cases s.byKeyword <;> cases o.get? p.name <;> cases (s.seat p).keyword w <;>
    cases (s.seat p).position w <;> cases s.beforeSlash <;> cases p.optional <;>
    cases p.default <;> simp [valueOf, write, writeByPosition]

/-- What a plain parameter adds to a call: its value, behind the defaults that wait for a value. -/
def addition : List WrittenArgument :=
  match (s.seat p).given w o with
  | some source => if s.named w p then [⟨some p.name, source⟩] else s.pending ++ [⟨none, source⟩]
  | none => []

theorem bindPlain_written : (s.bindPlain w o p).written = s.written ++ s.addition w o p := by
  rw [bindPlain_eq, addition]
  cases (s.seat p).given w o with
  | none =>
    dsimp only
    split <;> exact (List.append_nil _).symm
  | some source =>
    dsimp only
    split
    · rfl
    · exact List.append_assoc ..

theorem bindPlain_pending : (s.bindPlain w o p).pending =
    match (s.seat p).given w o with
    | some _ => if s.named w p then s.pending else []
    | none => if (s.seat p).byName then s.pending else s.pending ++ [⟨none, p.waiting⟩] := by
  rw [bindPlain_eq]
  cases (s.seat p).given w o <;> dsimp only <;> split <;> rfl

theorem bindPlain_byKeyword : (s.bindPlain w o p).byKeyword = (s.byKeyword ||
    ((s.seat p).byName && (((s.seat p).keyword w).isSome || ((s.seat p).given w o).isNone))) := by
  rw [bindPlain_eq, named]
  cases hgiven : (s.seat p).given w o <;> cases hname : (s.seat p).byName <;>
    cases hkeyword : (s.seat p).keyword w <;> cases hon : s.byKeyword <;>
    simp [hon, advance, write, writeByPosition]

@[simp] theorem bindPlain_pastStar : (s.bindPlain w o p).pastStar = s.pastStar := by
  rw [bindPlain_eq]
  split <;> split <;> rfl

@[simp] theorem bindPlain_beforeSlash : (s.bindPlain w o p).beforeSlash = s.beforeSlash := by
  rw [bindPlain_eq]
  split <;> split <;> rfl

@[simp] theorem bindPlain_slot :
    (s.bindPlain w o p).slot = if s.pastStar then s.slot else s.slot + 1 := by
  rw [bindPlain_eq]
  split <;> split <;> rfl

variable {w o s p}

theorem seats_plain (h : p.kind = .positional) (params : List Param) :
    s.seats (p :: params) = s.seat p :: (bind w o s p).seats params := by
  simp [seats, Param.seatsFrom, bind, h, seat]

theorem seats_other (h : p.kind ≠ .positional) (params : List Param) :
    s.seats (p :: params) = (bind w o s p).seats params := by
  cases hk : p.kind with
  | positional => exact absurd hk h
  | _ => simp [seats, Param.seatsFrom, bind, hk, pastStars, takeRest]

theorem seats_append (s : Placement) (front back : List Param) :
    s.seats (front ++ back) = s.seats front ++ (front.foldl (bind w o) s).seats back := by
  induction front generalizing s with
  | nil => rfl
  | cons p front ih =>
    rw [List.cons_append, List.foldl_cons]
    by_cases hk : p.kind = .positional
    · rw [seats_plain (w := w) (o := o) hk, seats_plain (w := w) (o := o) hk, ih, List.cons_append]
    · rw [seats_other (w := w) (o := o) hk, seats_other (w := w) (o := o) hk, ih]

theorem pastStar_of_fills (h : (s.seat p).fills w o = true) : s.pastStar = false := by
  unfold Seat.fills at h
  rw [position_seat] at h
  cases hstar : s.pastStar with
  | false => rfl
  | true => simp [hstar] at h

theorem foldl_bind_induction {P : List Param → List Seat → Placement → Prop} {s : Placement}
    (nil : P [] [] s)
    (plain : ∀ front done s' p, p.kind = .positional → P front done s' →
      P (front ++ [p]) (done ++ [s'.seat p]) (s'.bindPlain w o p))
    (varArgs : ∀ front done s' p, p.kind = .varArgs → P front done s' →
      P (front ++ [p]) done (s'.takeRest w).pastStars)
    (bareStar : ∀ front done s' p, p.kind = .keywordOnly → P front done s' →
      P (front ++ [p]) done { s' with pending := [] }.pastStars)
    (slash : ∀ front done s' p, p.kind = .positionalOnly → P front done s' →
      P (front ++ [p]) done { s' with
        pending := [], byKeyword := s'.byKeyword || !s'.pending.isEmpty, beforeSlash := false })
    (kwArgs : ∀ front done s' p, p.kind = .kwArgs → P front done s' → P (front ++ [p]) done s')
    (params : List Param) : P params (s.seats params) (params.foldl (bind w o) s) := by
  induction params using List.reverseRecOn with
  | nil => exact nil
  | append_singleton front p ih =>
    rw [List.foldl_concat, seats_append (w := w) (o := o)]
    generalize front.foldl (bind w o) s = s' at ih ⊢
    simp only [seats, Param.seatsFrom, bind]
    cases hk : p.kind with
    | positional => exact plain front _ s' p hk ih
    | varArgs => exact (List.append_nil _).symm ▸ varArgs front _ s' p hk ih
    | keywordOnly => exact (List.append_nil _).symm ▸ bareStar front _ s' p hk ih
    | positionalOnly => exact (List.append_nil _).symm ▸ slash front _ s' p hk ih
    | kwArgs => exact (List.append_nil _).symm ▸ kwArgs front _ s' p hk ih

/-- Whether the argument of a key is used up. -/
def Used (s : Placement) : ArgKey → Prop
  | .position i => i ∈ s.usedPositions
  | .keyword name => name ∈ s.usedKeywords

instance (s : Placement) : DecidablePred s.Used
  | .position _ => inferInstanceAs (Decidable (_ ∈ _))
  | .keyword _ => inferInstanceAs (Decidable (_ ∈ _))

theorem used_bindPlain (s : Placement) (p : Param) {key : ArgKey} :
    (s.bindPlain w o p).Used key ↔ s.Used key ∨
      match key with
      | .position i => (s.seat p).fills w o = true ∧ i = s.slot
      | .keyword name => ((s.seat p).keyword w).isSome = true ∧ name = p.name := by
  have hadvance : (s.bindPlain w o p).Used key ↔ (s.advance w o p).Used key := by
    rw [bindPlain_eq]
    cases key <;> split <;> split <;> exact Iff.rfl
  rw [hadvance]
  cases key with
  | position i =>
    simp only [Used, advance]
    split
    · rename_i hfills
      simp [hfills, or_comm]
    · rename_i hfills
      simp [hfills]
  | keyword name =>
    simp only [Used, advance]
    split
    · rename_i hkeyword
      simp [hkeyword, or_comm]
    · rename_i hkeyword
      simp [hkeyword]

/-- The positional arguments that a star sweeps up. -/
def swept (w : Wiring) (s : Placement) : List (Nat × NodeId) :=
  w.positional.filter fun p => decide (s.slot ≤ p.1) && !s.usedPositions.contains p.1

theorem mem_swept {p : Nat × NodeId} :
    p ∈ swept w s ↔ p ∈ w.positional ∧ s.slot ≤ p.1 ∧ p.1 ∉ s.usedPositions := by
  simp [swept]

theorem slot_seat {i : Nat} : (s.seat p).slot = some i ↔ s.pastStar = false ∧ s.slot = i := by
  unfold seat
  cases s.pastStar <;> simp

theorem slot_seat_eq_none (s : Placement) (p : Param) :
    (s.seat p).slot = none ↔ s.pastStar = true := by
  unfold seat
  cases s.pastStar <;> simp

/-- What the parameters `front` with the seats `done` have used up: positions by seats that they
fill, and all further positions if a star collects them; keywords by the seats that they name. -/
structure Tally (w : Wiring) (o : Overrides) (front : List Param) (done : List Seat)
    (s : Placement) : Prop where
  slots : ∀ i, i < s.slot ↔ ∃ q ∈ done, q.slot = some i
  positions : ∀ i, s.Used (.position i) ↔ (∃ q ∈ done, q.slot = some i ∧ q.fills w o = true) ∨
    (∃ p ∈ front, p.kind = .varArgs) ∧ (w.positional? i).isSome = true ∧ s.slot ≤ i
  keywords : ∀ name, s.Used (.keyword name) ↔
    ∃ q ∈ done, (q.keyword w).isSome = true ∧ q.param.name = name
  star : (∃ p ∈ front, p.kind = .varArgs) → s.pastStar = true

namespace Tally

variable {front : List Param} {done : List Seat}

theorem plain (h : Tally w o front done s) (hk : p.kind = .positional) :
    Tally w o (front ++ [p]) (done ++ [s.seat p]) (s.bindPlain w o p) := by
  have hfront : (∃ p' ∈ front ++ [p], p'.kind = .varArgs) ↔ ∃ p' ∈ front, p'.kind = .varArgs := by
    simp [hk]
  refine ⟨?_, ?_, ?_, ?_⟩
  · intro i
    rw [bindPlain_slot]
    simp only [List.mem_append, List.mem_singleton, or_and_right, exists_or, exists_eq_left,
      slot_seat, ← h.slots]
    cases s.pastStar with
    | true => simp
    | false =>
      simp only [Bool.false_eq_true, if_false, true_and]
      omega
  · intro i
    rw [used_bindPlain, h.positions, hfront, bindPlain_slot]
    simp only [List.mem_append, List.mem_singleton, or_and_right, exists_or, exists_eq_left,
      slot_seat]
    cases hstar : s.pastStar with
    | false =>
      have hnone : ¬ ∃ p ∈ front, p.kind = .varArgs := by
        intro hsome
        rw [h.star hsome] at hstar
        cases hstar
      simp only [hnone, false_and, or_false, true_and]
      rw [and_comm, eq_comm (a := i)]
    | true =>
      have hno : (s.seat p).fills w o ≠ true := by
        intro hf
        rw [pastStar_of_fills hf] at hstar
        cases hstar
      simp [hno]
  · intro name
    rw [used_bindPlain, h.keywords]
    simp only [List.mem_append, List.mem_singleton, or_and_right, exists_or, exists_eq_left]
    show _ ∨ _ ∧ name = p.name ↔ _ ∨ _ ∧ p.name = name
    rw [eq_comm (a := name)]
  · rw [hfront, bindPlain_pastStar]
    exact h.star

theorem varArgs (h : Tally w o front done s) (hk : p.kind = .varArgs) :
    Tally w o (front ++ [p]) done (s.takeRest w).pastStars := by
  have hfront : ∃ p' ∈ front ++ [p], p'.kind = .varArgs := ⟨p, by simp, hk⟩
  refine ⟨h.slots, ?_, h.keywords, fun _ => rfl⟩
  intro i
  have hused : (s.takeRest w).pastStars.Used (.position i) ↔
      s.Used (.position i) ∨ i ∈ (swept w s).map (·.1) := List.mem_append
  have hswept : i ∈ (swept w s).map (·.1) ↔
      (w.positional? i).isSome = true ∧ s.slot ≤ i ∧ ¬ s.Used (.position i) := by
    rw [Wiring.positional?_isSome]
    constructor
    · intro hm
      obtain ⟨e, he, rfl⟩ := List.mem_map.mp hm
      exact ⟨List.mem_map_of_mem (mem_swept.mp he).1, (mem_swept.mp he).2⟩
    · rintro ⟨hm, hnew⟩
      obtain ⟨e, he, rfl⟩ := List.mem_map.mp hm
      exact List.mem_map_of_mem (mem_swept.mpr ⟨he, hnew⟩)
  have hslot : (s.takeRest w).pastStars.slot = s.slot := rfl
  rw [hused, hswept, hslot]
  constructor
  · rintro (hold | ⟨hsome, hle, -⟩)
    · exact ((h.positions i).mp hold).imp_right fun hrest => ⟨hfront, hrest.2⟩
    · exact Or.inr ⟨hfront, hsome, hle⟩
  · rintro (hseat | ⟨-, hsome, hle⟩)
    · exact Or.inl ((h.positions i).mpr (Or.inl hseat))
    · by_cases hold : s.Used (.position i)
      · exact Or.inl hold
      · exact Or.inr ⟨hsome, hle, hold⟩

theorem other (h : Tally w o front done s) (hk : p.kind ≠ .varArgs) {s' : Placement}
    (hpositions : s'.usedPositions = s.usedPositions) (hkeywords : s'.usedKeywords = s.usedKeywords)
    (hslot : s'.slot = s.slot) (hstar : s.pastStar = true → s'.pastStar = true) :
    Tally w o (front ++ [p]) done s' := by
  have hfront : (∃ p' ∈ front ++ [p], p'.kind = .varArgs) ↔ ∃ p' ∈ front, p'.kind = .varArgs := by
    simp [hk]
  refine ⟨?_, ?_, ?_, ?_⟩
  · rw [hslot]
    exact h.slots
  · intro i
    rw [hfront, hslot, ← h.positions i, Used, Used, hpositions]
  · intro name
    rw [← h.keywords name, Used, Used, hkeywords]
  · rw [hfront]
    exact fun hsome => hstar (h.star hsome)

/-- A star has nothing to sweep up behind another star, or if there is a slot for every position. -/
theorem swept_eq_nil_iff (h : Tally w o front done s) : swept w s = [] ↔
    (∃ p ∈ front, p.kind = .varArgs) ∨ ∀ i, (w.positional? i).isSome = true → i < s.slot := by
  have hswept : swept w s = [] ↔
      ∀ i, (w.positional? i).isSome = true → s.slot ≤ i → s.Used (.position i) := by
    rw [List.eq_nil_iff_forall_not_mem]
    constructor
    · intro hnone i hsome hle
      obtain ⟨e, he, rfl⟩ := List.mem_map.mp (Wiring.positional?_isSome.mp hsome)
      by_contra hunused
      exact hnone e (mem_swept.mpr ⟨he, hle, hunused⟩)
    · intro hall e he
      obtain ⟨he, hle, hunused⟩ := mem_swept.mp he
      exact hunused (hall e.1 (Wiring.positional?_isSome.mpr (List.mem_map_of_mem he)) hle)
  rw [hswept]
  constructor
  · intro hall
    by_cases hstar : ∃ p ∈ front, p.kind = .varArgs
    · exact Or.inl hstar
    · refine Or.inr fun i hsome => ?_
      by_contra hlt
      rcases (h.positions i).mp (hall i hsome (by omega)) with ⟨q, hq, hslot, -⟩ | ⟨hsome, -⟩
      · exact hlt ((h.slots i).mpr ⟨q, hq, hslot⟩)
      · exact hstar hsome
  · rintro (hstar | hall) i hsome hle
    · exact (h.positions i).mpr (Or.inr ⟨hstar, hsome, hle⟩)
    · have := hall i hsome
      omega

end Tally

theorem tally_foldl (w : Wiring) (o : Overrides) (params front : List Param) :
    Tally w o front ((start params).seats front) (front.foldl (bind w o) (start params)) := by
  apply foldl_bind_induction (P := Tally w o)
  · exact ⟨by simp [start], by simp [start, Used], by simp [start, Used], by simp⟩
  · intro front done s p hk h
    exact h.plain hk
  · intro front done s p hk h
    exact h.varArgs hk
  · intro front done s p hk h
    exact h.other (by simp [hk]) rfl rfl rfl fun _ => rfl
  · intro front done s p hk h
    exact h.other (by simp [hk]) rfl rfl rfl id
  · intro front done s p hk h
    exact h.other (by simp [hk]) rfl rfl rfl id

end Placement

end ScopedFlow
