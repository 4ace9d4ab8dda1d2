import ScopedFlow.Proofs.SlotBinding

/-!
# Slots in the editor and in written calls

The editor counts the plain parameters in front of a star to find the slot of one; a call is written
by binding the parameters one after the other. Both come to the seat of the parameter.
-/

namespace ScopedFlow

namespace Placement

variable {w : Wiring} {o : Overrides} {params front back : List Param} {p : Param} {i : Nat}

theorem pastStar_foldl (w : Wiring) (o : Overrides) (params front : List Param) :
    (front.foldl (bind w o) (start params)).pastStar = true ↔
      ∃ p ∈ front, p.kind = .varArgs ∨ p.kind = .keywordOnly := by
  refine foldl_bind_induction (w := w) (o := o) (s := start params)
    (P := fun front _ s => s.pastStar = true ↔ ∃ p ∈ front, p.kind = .varArgs ∨ p.kind = .keywordOnly)
    ?_ ?_ ?_ ?_ ?_ ?_ front
  · simp [start]
  · intro front done s p hk h
    rw [bindPlain_pastStar, h]
    simp [hk]
  · intro front done s p hk h
    simp [hk, pastStars]
  · intro front done s p hk h
    simp [hk, pastStars]
  · intro front done s p hk h
    simpa [hk] using h
  · intro front done s p hk h
    simpa [hk] using h

/-- A parameter takes the argument at a position as its value: it uses the position up, and the
source of that argument is written last, with the name of the parameter or without. -/
structure Takes (w : Wiring) (o : Overrides) (s : Placement) (p : Param) (i : Nat)
    (source : NodeId) : Prop where
  wired : w.positional? i = some source
  unused : ¬ s.Used (.position i)
  used : (bind w o s p).Used (.position i)
  written : ∃ keyword, (keyword = none ∨ keyword = some p.name) ∧
    (bind w o s p).written.getLast? = some ⟨keyword, .node source⟩

section Split

variable (hsplit : params = front ++ p :: back) (hp : p.kind = .positional)
  (hnames : (Param.plainNames params).Nodup)
include hsplit hp hnames

theorem positionalSlot_seat (w : Wiring) (o : Overrides) : Param.positionalSlot params p.name =
    ((front.foldl (bind w o) (start params)).seat p).slot := by
  have hmem : (front.foldl (bind w o) (start params)).seat p ∈ Param.seats params := by
    have hseats : Param.seats params = (start params).seats (front ++ p :: back) :=
      congrArg (start params).seats hsplit
    rw [hseats, seats_append (w := w) (o := o), seats_plain (w := w) (o := o) hp]
    exact List.mem_append_right _ List.mem_cons_self
  exact Param.positionalSlot_eq hmem (Param.names_seats params ▸ hnames)

theorem takes_iff (hkeywords : ∀ name, w.keyword? name = none) (ho : ∀ name, o.get? name = none)
    (source : NodeId) : Takes w o (front.foldl (bind w o) (start params)) p i source ↔
      Param.positionalSlot params p.name = some i ∧ w.positional? i = some source := by
  have htally := tally_foldl w o params front
  rw [positionalSlot_seat hsplit hp hnames w o]
  generalize front.foldl (bind w o) (start params) = s at htally ⊢
  have hbind : bind w o s p = s.bindPlain w o p := by rw [bind, hp]
  constructor
  · rintro ⟨hwired, hunused, hused, -⟩
    rw [hbind] at hused
    obtain ⟨hfills, rfl⟩ := ((used_bindPlain s p).mp hused).resolve_left hunused
    exact ⟨slot_seat.mpr ⟨pastStar_of_fills hfills, rfl⟩, hwired⟩
  · rintro ⟨hslot, hwired⟩
    have hposition : (s.seat p).position w = some source := by
      rw [Seat.position, hslot]
      exact hwired
    have hkeyword : (s.seat p).keyword w = none := Seat.keyword_eq_none fun _ => hkeywords _
    have hgiven : (s.seat p).given w o = some (.node source) := by
      rw [Seat.given, ho, hkeyword, hposition]
    obtain ⟨hstar, rfl⟩ := slot_seat.mp hslot
    refine ⟨hwired, fun hused => ?_, ?_, ?_⟩
    · rcases (htally.positions _).mp hused with ⟨q, hq, hi, -⟩ | ⟨hsome, -⟩
      · exact Nat.lt_irrefl _ ((htally.slots _).mpr ⟨q, hq, hi⟩)
      · cases hstar.symm.trans (htally.star hsome)
    · rw [hbind, used_bindPlain]
      refine .inr ⟨?_, rfl⟩
      rw [Seat.fills, hposition, hkeyword, ho]
      rfl
    · rw [hbind, bindPlain_written, addition, hgiven]
      dsimp only
      split
      · exact ⟨_, .inr rfl, List.getLast?_concat⟩
      · exact ⟨_, .inl rfl, by rw [← List.append_assoc, List.getLast?_concat]⟩

end Split

end Placement

/-- The editor and the writer of calls agree about slots. The slot of a plain parameter is the position
of the argument that it takes in every call with these parameters, without keywords and overrides, and
a parameter has no slot exactly if a star stands before it. -/
theorem Param.positionalSlot_takes {params front back : List Param} {p : Param}
    (hsplit : params = front ++ p :: back) (hp : p.kind = .positional)
    (hnames : (plainNames params).Nodup) :
    (∀ (g : Graph) (n : Node) (site : CallSite), g.callParams site = params →
      (∀ name, g.wired n.id (.keyword name) = none) → (∀ name, site.overrides.get? name = none) →
      let w := Wiring.ofEdges (g.edgesTo n.id)
      ∀ i source, Placement.Takes w site.overrides
          (front.foldl (Placement.bind w site.overrides) (.start (g.callParams site))) p i source ↔
        positionalSlot params p.name = some i ∧ g.wired n.id (.position i) = some source) ∧
    (positionalSlot params p.name = none ↔
      ∃ star ∈ front, star.kind = .varArgs ∨ star.kind = .keywordOnly) := by
  constructor
  · intro g n site hparams hkeywords ho w i source
    rw [hparams, ← Wiring.get?_edgesTo]
    refine Placement.takes_iff hsplit hp hnames (fun name => ?_) ho source
    exact (Wiring.get?_edgesTo g n.id (.keyword name)).trans (hkeywords name)
  · rw [Placement.positionalSlot_seat hsplit hp hnames ⟨[], []⟩ .empty,
      Placement.slot_seat_eq_none, Placement.pastStar_foldl]

/-- A slash does not count, and nothing goes to a parameter behind a star. -/
theorem Param.positionalSlot_takes_second :
    let params := [required "a", separator .positionalOnly, required "b", separator .keywordOnly,
      withDefault "c" "1"]
    let site : CallSite := ⟨false, none, params, .empty⟩
    let n : Node := ⟨⟨"call"⟩, "f", .root, .call site⟩
    let g : Graph := ⟨[n], [⟨⟨"x"⟩, n.id, .positional 0⟩, ⟨⟨"y"⟩, n.id, .positional 1⟩]⟩
    let w := Wiring.ofEdges (g.edgesTo n.id)
    (plainNames params).Nodup ∧
      Placement.Takes w .empty ((params.take 2).foldl (Placement.bind w .empty) (.start params))
        (required "b") 1 ⟨"y"⟩ ∧ positionalSlot params "c" = none := by
  intro params site n g w
  have hnames : (plainNames params).Nodup := by decide
  have hb : params = params.take 2 ++ required "b" :: params.drop 3 := rfl
  have hc : params = params.take 4 ++ withDefault "c" "1" :: [] := rfl
  refine ⟨hnames, ?_, ?_⟩
  · exact ((positionalSlot_takes hb rfl hnames).1 g n site rfl (fun _ => rfl) (fun _ => rfl) 1 _).mpr
      ⟨rfl, rfl⟩
  · exact (positionalSlot_takes hc rfl hnames).2.mpr ⟨separator .keywordOnly, by decide, .inr rfl⟩

end ScopedFlow
