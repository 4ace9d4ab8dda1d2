import ScopedFlow.Proofs.CallLayout

/-!
# The rules of a call

Positions go to the parameters in their order, keywords to the parameters that they name; what is
left goes to the parameters with stars. A call that is written for arguments that fit is accepted,
and every parameter gets back the argument that is wired to it, its override or its default.
-/

namespace ScopedFlow

variable {α : Type} {v : α}

/-- What the parameters of a function get from a call. -/
structure Bound (α : Type) where
  plain : List (String × α)
  rest : List α
  extra : List (String × α)

/-- The value of a parameter in a call with the positions `ps` and the keywords `ks`. Two values are
one too many, and without a value there has to be a default. -/
def Seat.receive (q : Seat) (text : String → α) (ps : List α) (ks : List (String × α)) : Option α :=
  match q.slot.bind fun i => ps[i]?,
    if q.byName then (ks.find? fun k => k.1 = q.param.name).map (·.2) else none with
  | some _, some _ => none
  | some v, none => some v
  | none, some v => some v
  | none, none => q.param.default.map text

namespace Param

def slotCount (params : List Param) : Nat := ((seats params).filter (·.slot.isSome)).length

/-- Whether the arguments of a call have the right form: no position comes behind a keyword, no keyword
occurs twice, and what belongs to no plain parameter is collected. -/
def Admits (params : List Param) (args : List (Given α)) : Prop :=
  (args.map (·.keyword)).Pairwise (fun a b => a.isSome = true → b.isSome = true) ∧
    ((Given.keywords args).map Prod.fst).Nodup ∧
    (((Given.positional args).drop (slotCount params)).isEmpty = true ∨
      ∃ p ∈ params, p.kind = .varArgs) ∧
    ((unnamed params (Given.keywords args)).isEmpty = true ∨ ∃ p ∈ params, p.kind = .kwArgs)

instance (params : List Param) (args : List (Given α)) : Decidable (Admits params args) :=
  inferInstanceAs (Decidable (_ ∧ _ ∧ _ ∧ _))

/-- Binds the arguments of a call. It is refused if they have the wrong form or a parameter has no
value. -/
def bindCall (params : List Param) (text : String → α) (args : List (Given α)) : Option (Bound α) :=
  if Admits params args then
    ((seats params).mapM fun q : Seat =>
      (q.receive text (Given.positional args) (Given.keywords args)).map (q.param.name, ·)).map
        fun plain => ⟨plain, (Given.positional args).drop (slotCount params),
          unnamed params (Given.keywords args)⟩
  else none

end Param

namespace Seat

variable {q : Seat} {text : String → α} {ps : List α} {ks : List (String × α)}

theorem find?_eq_none (h : q.byName = true → q.param.name ∉ ks.map Prod.fst) :
    (if q.byName then (ks.find? fun k => k.1 = q.param.name).map (·.2) else none) = none := by
  split
  · rename_i hname
    rw [Option.map_eq_none_iff, List.find?_eq_none]
    intro k hk heq
    exact h hname (List.mem_map.mpr ⟨k, hk, of_decide_eq_true heq⟩)
  · rfl

theorem position_eq_none (h : ∀ i, q.slot = some i → ps.length ≤ i) :
    (q.slot.bind fun i => ps[i]?) = none := by
  cases hslot : q.slot with
  | none => rfl
  | some i => exact List.getElem?_eq_none (h i hslot)

theorem receive_of_position {i : Nat} (hslot : q.slot = some i) (hv : ps[i]? = some v)
    (hno : q.byName = true → q.param.name ∉ ks.map Prod.fst) : q.receive text ps ks = some v := by
  rw [receive, hslot, find?_eq_none hno, Option.bind_some, hv]

theorem receive_of_keyword (hslot : ∀ i, q.slot = some i → ps.length ≤ i) (hname : q.byName = true)
    (hks : (ks.map Prod.fst).Nodup) (hv : (q.param.name, v) ∈ ks) :
    q.receive text ps ks = some v := by
  rw [receive, position_eq_none hslot, if_pos hname, (Wiring.find?_fst_iff hks).mpr hv]

theorem receive_of_default {s : String} (hslot : ∀ i, q.slot = some i → ps.length ≤ i)
    (hno : q.byName = true → q.param.name ∉ ks.map Prod.fst) (hs : q.param.default = some s) :
    q.receive text ps ks = some (text s) := by
  rw [receive, position_eq_none hslot, find?_eq_none hno, hs]
  rfl

section Left

variable {w : Wiring} {o : Overrides}

theorem filled_of_given {source : ArgSource} (h : q.given w o = some source) :
    q.filled w o = source := by
  rw [filled, h, Option.getD_some]

theorem filled_of_default (h : q.given w o = none) {t : String} (ht : q.param.default = some t) :
    q.filled w o = .text t := by
  rw [filled, h, Option.getD_none, Param.waiting, ht]

theorem optional_of_given (h : q.given w o = none) : q.param.optional = true := by
  unfold given at h
  split at h
  · cases h
  · cases h
  · cases h
  · cases hoptional : q.param.optional with
    | true => rfl
    | false => simp [hoptional] at h

end Left

end Seat

namespace Param

theorem mapM_eq_some {β γ : Type} {f : β → Option γ} {v : β → γ} {xs : List β}
    (h : ∀ x ∈ xs, f x = some (v x)) : xs.mapM f = some (xs.map v) := by
  induction xs with
  | nil => rfl
  | cons x xs ih =>
    rw [List.mapM_cons, h x List.mem_cons_self, ih fun y hy => h y (List.mem_cons_of_mem _ hy)]
    rfl

/-- A row of arguments is accepted if all of them have a place and all parameters have a value. -/
theorem bindCall_row {params : List Param} {text : String → α} {ps : List α}
    {ks : List (String × α)} {value : Seat → α} (hks : (ks.map Prod.fst).Nodup)
    (hrest : ps.drop (slotCount params) = [] ∨ ∃ p ∈ params, p.kind = .varArgs)
    (hextra : unnamed params ks = [] ∨ ∃ p ∈ params, p.kind = .kwArgs)
    (hvalue : ∀ q ∈ seats params, q.receive text ps ks = some (value q)) :
    bindCall params text (Given.row ps ks) =
      some ⟨(seats params).map fun q => (q.param.name, value q), ps.drop (slotCount params),
        unnamed params ks⟩ := by
  have hplain : ((seats params).mapM fun q : Seat => (q.receive text ps ks).map (q.param.name, ·)) =
      some ((seats params).map fun q => (q.param.name, value q)) := by
    apply mapM_eq_some
    intro q hq
    rw [hvalue q hq, Option.map_some]
  have hadmits : Admits params (Given.row ps ks) := by
    rw [Admits, Given.positional_row, Given.keywords_row]
    refine ⟨Given.pairwise_row ps ks, hks, ?_, ?_⟩
    · exact hrest.imp_left List.isEmpty_iff.mpr
    · exact hextra.imp_left List.isEmpty_iff.mpr
  rw [bindCall, if_pos hadmits, Given.positional_row, Given.keywords_row, hplain, Option.map_some]

end Param

namespace Layout

open Seat

variable {params : List Param} {w : Wiring} {o : Overrides} {front behind : List Seat} {c : Nat}

section Rows

variable (params w o front behind c) (f : ArgSource → α)

/-- The values that are written by position. -/
def positions : List α :=
  (front.take c).map (fun q => f (q.filled w o)) ++
    (w.positional.drop front.length).map fun p => f (.node p.2)

def named : List (String × α) :=
  (front.drop c ++ behind).filterMap fun q => (q.given w o).map fun source => (q.param.name, f source)

def extras : List (String × α) :=
  (Param.unnamed params w.keywords).map fun k => (k.1, f (.node k.2))

/-- All values that are written with keywords. -/
def words : List (String × α) := named w o front behind c f ++ extras params w f

end Rows

variable (h : Layout params w o front behind c) (f : ArgSource → α)

theorem not_held_of_mem_extras {k : String × α} (hk : k ∈ extras params w f) :
    ¬ ∃ q ∈ Param.seats params, q.Holds (.keyword k.1) := by
  obtain ⟨k', hk', rfl⟩ := List.mem_map.mp hk
  exact of_decide_eq_true (List.mem_filter.mp hk').2

include h

theorem written_row : (writtenArguments params w o).map (fun a => (⟨a.keyword, f a.source⟩ : Given α)) =
    Given.row (positions w o front c f) (words params w o front behind c f) := by
  rw [h.written, Given.row, positions, words, named, extras]
  simp only [List.map_append, List.map_map, List.map_filterMap, List.append_assoc, withName,
    Option.map_map]
  rfl

theorem seats_split : Param.seats params = front.take c ++ (front.drop c ++ behind) := by
  rw [h.seats, ← List.append_assoc, List.take_append_drop]

theorem slot_getElem {i : Nat} (hi : i < front.length) : front[i].slot = some i := by
  have hmap := congrArg (·[i]?) h.slots
  simpa [hi] using hmap

theorem slotCount_eq : Param.slotCount params = front.length := by
  have hfront : front.filter (·.slot.isSome) = front := by
    apply List.filter_eq_self.mpr
    intro q hq
    obtain ⟨i, -, hi⟩ := slot_of_mem h.slots hq
    rw [hi]
    rfl
  have hbehind : behind.filter (·.slot.isSome) = [] := by
    apply List.filter_eq_nil_iff.mpr
    intro q hq
    simp [(h.behind_seats q hq).1]
  rw [Param.slotCount, h.seats, List.filter_append, hfront, hbehind, List.append_nil]

theorem drop_positions : (positions w o front c f).drop front.length =
    (w.positional.drop front.length).map fun p => f (.node p.2) := by
  have hle := h.le
  have hlength : ((front.take c).map fun q => f (q.filled w o)).length = c := by simp [hle]
  rcases h.rest with hnil | hc
  · rw [positions, hnil, List.map_nil, List.append_nil]
    exact List.drop_eq_nil_of_le (by omega)
  · rw [positions, ← hc]
    exact List.drop_left' hlength

theorem byName_of_given {q : Seat} (hq : q ∈ front.drop c ++ behind) (hgiven : q.given w o ≠ none) :
    q.byName = true := by
  rcases List.mem_append.mp hq with hq | hq
  · cases hname : q.byName with
    | true => rfl
    | false => exact absurd (h.leftOut q hq hname) hgiven
  · exact (h.behind_seats q hq).2

theorem mem_seats {q : Seat} (hq : q ∈ front.drop c ++ behind) : q ∈ Param.seats params := by
  rw [h.seats_split]
  exact List.mem_append_right _ hq

theorem held_of_mem_named {k : String × α} (hk : k ∈ named w o front behind c f) :
    ∃ q ∈ Param.seats params, q.Holds (.keyword k.1) := by
  obtain ⟨q, hq, hsome⟩ := List.mem_filterMap.mp hk
  obtain ⟨source, hsource, rfl⟩ := Option.map_eq_some_iff.mp hsome
  exact ⟨q, h.mem_seats hq, h.byName_of_given hq (by simp [hsource]), rfl⟩

theorem unnamed_words :
    Param.unnamed params (words params w o front behind c f) = extras params w f := by
  have hnamed : Param.unnamed params (named w o front behind c f) = [] := by
    apply List.filter_eq_nil_iff.mpr
    intro k hk
    simpa using h.held_of_mem_named f hk
  have hextras : Param.unnamed params (extras params w f) = extras params w f := by
    apply List.filter_eq_self.mpr
    intro k hk
    exact decide_eq_true (not_held_of_mem_extras f hk)
  calc Param.unnamed params (words params w o front behind c f)
      = Param.unnamed params (named w o front behind c f) ++
          Param.unnamed params (extras params w f) := List.filter_append ..
    _ = extras params w f := by rw [hnamed, hextras, List.nil_append]

section Names

variable (hnames : ((Param.seats params).map (·.param.name)).Nodup) {q : Seat}

include hnames

theorem nodup_words (hw : w.Sorted) :
    ((words params w o front behind c f).map Prod.fst).Nodup := by
  rw [words, List.map_append, List.nodup_append]
  refine ⟨?_, ?_, ?_⟩
  · have hpairwise : (front.drop c ++ behind).Pairwise fun a b => a.param.name ≠ b.param.name := by
      rw [h.seats] at hnames
      exact List.Pairwise.sublist ((List.drop_sublist c front).append_right behind)
        (List.pairwise_map.mp hnames)
    apply List.pairwise_map.mpr
    apply List.pairwise_filterMap.mpr
    apply hpairwise.imp
    intro a b hne x hx y hy
    obtain ⟨source, -, rfl⟩ := Option.map_eq_some_iff.mp hx
    obtain ⟨source', -, rfl⟩ := Option.map_eq_some_iff.mp hy
    exact hne
  · rw [extras, List.map_map]
    exact hw.keywords.sublist (List.filter_sublist.map _)
  · intro a ha b hb heq
    obtain ⟨k, hk, rfl⟩ := List.mem_map.mp ha
    obtain ⟨k', hk', rfl⟩ := List.mem_map.mp hb
    apply not_held_of_mem_extras f hk'
    rw [← heq]
    exact h.held_of_mem_named f hk

theorem eq_of_mem_words (hq : q ∈ Param.seats params) (hname : q.byName = true)
    (hv : (q.param.name, v) ∈ words params w o front behind c f) :
    q ∈ front.drop c ++ behind ∧ q.given w o ≠ none := by
  rcases List.mem_append.mp hv with hv | hv
  · obtain ⟨q', hq', hsome⟩ := List.mem_filterMap.mp hv
    obtain ⟨source, hsource, heq⟩ := Option.map_eq_some_iff.mp hsome
    have hsame : q'.param.name = q.param.name := congrArg Prod.fst heq
    obtain rfl := List.inj_on_of_nodup_map hnames (h.mem_seats hq') hq hsame
    exact ⟨hq', by simp [hsource]⟩
  · exact absurd ⟨q, hq, hname, rfl⟩ (not_held_of_mem_extras f hv)

theorem receive_of_mem_take (text : String → α) (hq : q ∈ front.take c) :
    q.receive text (positions w o front c f) (words params w o front behind c f) =
      some (f (q.filled w o)) := by
  obtain ⟨i, hi, rfl⟩ := List.mem_iff_getElem.mp hq
  have hslot : (front.take c)[i].slot = some i := by
    rw [List.length_take] at hi
    rw [List.getElem_take, h.slot_getElem (by omega)]
  apply receive_of_position hslot
  · rw [positions, List.getElem?_append_left (by simpa using hi), List.getElem?_map,
      List.getElem?_eq_getElem hi, Option.map_some]
  · intro hname hmem
    obtain ⟨k, hk, heq⟩ := List.mem_map.mp hmem
    have hseat : (front.take c)[i] ∈ Param.seats params := by
      rw [h.seats_split]
      exact List.mem_append_left _ hq
    have hlate := (h.eq_of_mem_words f hnames hseat hname (v := k.2) (by rw [← heq]; exact hk)).1
    have hnodup := hnames.of_map
    rw [h.seats_split] at hnodup
    exact List.disjoint_of_nodup_append hnodup hq hlate

theorem receive_of_mem_drop (hw : w.Sorted) {text : String → α} (htext : ∀ t, f (.text t) = text t)
    (hdefaults : ∀ q ∈ Param.seats params, q.param.optional = true → q.param.default.isSome = true)
    (hq : q ∈ front.drop c ++ behind) :
    q.receive text (positions w o front c f) (words params w o front behind c f) =
      some (f (q.filled w o)) := by
  have hseat := h.mem_seats hq
  have hslot : ∀ i, q.slot = some i → (positions w o front c f).length ≤ i := by
    intro i hi
    rcases List.mem_append.mp hq with hq | hq
    · obtain ⟨j, hj, rfl⟩ := List.mem_iff_getElem.mp hq
      rw [List.length_drop] at hj
      rw [List.getElem_drop, h.slot_getElem (by omega)] at hi
      obtain rfl := Option.some.inj hi
      rcases h.rest with hnil | hc
      · simp [positions, hnil]
      · omega
    · rw [(h.behind_seats q hq).1] at hi
      cases hi
  cases hgiven : q.given w o with
  | some source =>
    rw [filled_of_given hgiven]
    apply receive_of_keyword hslot (h.byName_of_given hq (by simp [hgiven]))
      (h.nodup_words f hnames hw)
    apply List.mem_append_left
    exact List.mem_filterMap.mpr ⟨q, hq, by rw [hgiven]; rfl⟩
  | none =>
    obtain ⟨t, ht⟩ := Option.isSome_iff_exists.mp (hdefaults q hseat (optional_of_given hgiven))
    rw [filled_of_default hgiven ht, htext]
    apply receive_of_default hslot _ ht
    intro hname hmem
    obtain ⟨k, hk, heq⟩ := List.mem_map.mp hmem
    exact (h.eq_of_mem_words f hnames hseat hname (v := k.2) (by rw [← heq]; exact hk)).2 hgiven

end Names

/-- Whatever comes with the values of a call comes once with the values that the parameters get. -/
theorem flatMap_written {β : Type} (hdefaults : ∀ q ∈ Param.seats params, q.param.optional = true →
      q.param.default.isSome = true) (d : α → List β) (hplain : ∀ t, d (f (.text t)) = []) :
    ((writtenArguments params w o).flatMap fun a => d (f a.source)).Perm
      (((Param.seats params).flatMap fun q => d (f (q.filled w o))) ++
        ((w.positional.drop front.length).flatMap fun p => d (f (.node p.2))) ++
        (Param.unnamed params w.keywords).flatMap fun k => d (f (.node k.2))) := by
  have hwords (qs : List Seat) (hqs : qs ⊆ Param.seats params) :
      (qs.filterMap (withName w o)).flatMap (fun a => d (f a.source)) =
        qs.flatMap fun q => d (f (q.filled w o)) := by
    induction qs with
    | nil => rfl
    | cons q qs ih =>
      rw [List.cons_subset] at hqs
      rw [List.flatMap_cons, ← ih hqs.2]
      cases hgiven : q.given w o with
      | some source =>
        rw [List.filterMap_cons_some (by rw [withName, hgiven]; rfl), List.flatMap_cons,
          filled_of_given hgiven]
      | none =>
        obtain ⟨t, ht⟩ := Option.isSome_iff_exists.mp (hdefaults q hqs.1 (optional_of_given hgiven))
        rw [List.filterMap_cons_none (by rw [withName, hgiven]; rfl), filled_of_default hgiven ht,
          hplain, List.nil_append]
  have hseats : (Param.seats params).flatMap (fun q => d (f (q.filled w o))) =
      (front.take c).flatMap (fun q => d (f (q.filled w o))) ++
        (front.drop c ++ behind).flatMap fun q => d (f (q.filled w o)) := by
    rw [h.seats_split, List.flatMap_append]
  rw [h.written, List.flatMap_append, List.flatMap_append, List.flatMap_append,
    hwords _ fun q hq => h.mem_seats hq, hseats]
  simp only [List.flatMap_map]
  apply List.Perm.append_right
  rw [List.append_assoc, List.append_assoc]
  exact List.perm_append_comm.append_left _

end Layout

namespace Signature

theorem map_param_seats (sig : Signature) :
    (Param.seats sig.params).map (·.param) = sig.leading ++ sig.middle ++ sig.named := by
  have hplain (ps : List Param) (hps : ∀ p ∈ ps, p ∈ sig.leading ++ sig.middle ++ sig.named) :
      ps.filter (fun p => p.kind = .positional) = ps := by
    apply List.filter_eq_self.mpr
    intro p hp
    exact decide_eq_true (sig.plain p (hps p hp))
  have hother {p? : Option Param} (hp : ∀ p ∈ p?, p.kind ≠ .positional) :
      p?.toList.filter (fun p => p.kind = .positional) = [] := by
    apply List.filter_eq_nil_iff.mpr
    intro p hmem
    simpa using hp p (by simpa using hmem)
  rw [Param.seats, Param.map_param_seatsFrom, params, front]
  simp only [List.filter_append]
  rw [hplain sig.leading (by simp +contextual), hplain sig.middle (by simp +contextual),
    hplain sig.named (by simp +contextual), hother, hother, hother]
  · simp
  · intro p hp
    simp [sig.rest_kind p hp]
  · intro p hp
    rcases sig.star_kind p hp with hk | hk <;> simp [hk]
  · intro p hp
    simp [sig.slash_kind p hp]

theorem nodup_names (sig : Signature) : ((Param.seats sig.params).map (·.param.name)).Nodup := by
  have hmap := congrArg (·.map (·.name)) sig.map_param_seats
  rw [List.map_map] at hmap
  exact hmap ▸ sig.names

theorem default_of_optional (sig : Signature) {q : Seat} (hq : q ∈ Param.seats sig.params)
    (hoptional : q.param.optional = true) : q.param.default.isSome = true := by
  apply sig.defaults q.param _ hoptional
  rw [← sig.map_param_seats]
  exact List.mem_map_of_mem hq

theorem bindCall_written (sig : Signature) {w : Wiring} (hw : w.Sorted) (o : Overrides) {count : Nat}
    (hfits : Param.Fits sig.params w.get? count) (f : ArgSource → α) (text : String → α)
    (htext : ∀ t, f (.text t) = text t) :
    Param.bindCall sig.params text
        ((writtenArguments sig.params w o).map fun a => ⟨a.keyword, f a.source⟩) =
      some ⟨(Param.seats sig.params).map fun q => (q.param.name, f (q.filled w o)),
        (w.positional.drop (Param.slotCount sig.params)).map fun p => f (.node p.2),
        (Param.unnamed sig.params w.keywords).map fun k => (k.1, f (.node k.2))⟩ := by
  obtain ⟨front, behind, c, h⟩ := sig.exists_layout hw o hfits
  have hnames := sig.nodup_names
  have hrest : (Layout.positions w o front c f).drop (Param.slotCount sig.params) = [] ∨
      ∃ p ∈ sig.params, p.kind = .varArgs := by
    by_cases hstar : ∃ p ∈ sig.params, p.kind = .varArgs
    · exact Or.inr hstar
    · left
      rw [h.slotCount_eq, h.drop_positions, sig.drop_eq_nil hw hfits h.seats h.slots h.behind_seats hstar,
        List.map_nil]
  have hextra : Param.unnamed sig.params (Layout.words sig.params w o front behind c f) = [] ∨
      ∃ p ∈ sig.params, p.kind = .kwArgs := by
    by_cases hstars : ∃ p ∈ sig.params, p.kind = .kwArgs
    · exact Or.inr hstars
    · left
      rw [h.unnamed_words, Layout.extras, List.map_eq_nil_iff, Param.unnamed,
        List.filter_eq_nil_iff]
      intro k hk
      have hsome := Wiring.keyword?_isSome.mpr (List.mem_map_of_mem hk)
      simpa using (hfits.placed (.keyword k.1) hsome).resolve_right hstars
  have hvalue : ∀ q ∈ Param.seats sig.params, q.receive text (Layout.positions w o front c f)
      (Layout.words sig.params w o front behind c f) = some (f (q.filled w o)) := by
    intro q hq
    rw [h.seats_split] at hq
    rcases List.mem_append.mp hq with hq | hq
    · exact h.receive_of_mem_take f hnames text hq
    · exact h.receive_of_mem_drop f hnames hw htext (fun q => sig.default_of_optional) hq
  rw [h.written_row f, Param.bindCall_row (h.nodup_words f hnames hw) hrest hextra hvalue,
    h.unnamed_words, h.slotCount_eq, h.drop_positions]
  rfl

end Signature

/-- A rendered argument as it stands in a call. -/
def Given.spelled (a : Given Rendered) : Rendered :=
  match a.keyword with
  | some name => a.value.map fun text => name ++ "=" ++ text
  | none => a.value

theorem Given.spelled_defects (a : Given Rendered) : a.spelled.defects = a.value.defects := by
  unfold spelled
  cases a.keyword <;> rfl

def Bound.defects (b : Bound Rendered) : List Defect :=
  (b.plain.flatMap fun p => p.2.defects) ++ (b.rest.flatMap fun r => r.defects) ++
    b.extra.flatMap fun k => k.2.defects

namespace Graph

def renderSource (style : CodeStyle) (sub : NodeId → Rendered) (n : Node) : ArgSource → Rendered
  | .node id => sub id
  | .text s => .plain s
  | .unknownDefault => .plain style.placeholder
  | .missing name => lacking style n (.missingArgument name)

def givenArguments (g : Graph) (style : CodeStyle) (sub : NodeId → Rendered) (n : Node)
    (site : CallSite) : List (Given Rendered) :=
  (g.callArguments n site).map fun a => ⟨a.keyword, renderSource style sub n a.source⟩

/-- What a parameter is to get: its override, else the value at its keyword, else the value at its
position, else its default. A required parameter with none of these is missing. -/
def argumentFor (g : Graph) (style : CodeStyle) (sub : NodeId → Rendered) (n : Node) (site : CallSite)
    (q : Seat) : Rendered :=
  match site.overrides.get? q.param.name,
    if q.byName then g.wired n.id (.keyword q.param.name) else none,
    q.slot.bind fun i => g.wired n.id (.position i) with
  | some text, _, _ => .plain text
  | none, some id, _ => sub id
  | none, none, some id => sub id
  | none, none, none =>
    if q.param.optional then .plain (q.param.default.getD style.placeholder)
    else lacking style n (.missingArgument q.param.name)

variable (g : Graph) (style : CodeStyle) (sub : NodeId → Rendered) (n : Node) (site : CallSite)

theorem renderArguments_eq : g.renderArguments style sub n site =
    .join ", " ((g.givenArguments style sub n site).map Given.spelled) := by
  rw [givenArguments, List.map_map]
  rfl

theorem renderSource_filled (q : Seat) :
    renderSource style sub n (q.filled (.ofEdges (g.edgesTo n.id)) site.overrides) =
      g.argumentFor style sub n site q := by
  have hkeyword : q.keyword (.ofEdges (g.edgesTo n.id)) =
      if q.byName then g.wired n.id (.keyword q.param.name) else none := by
    rw [Seat.keyword, ← Wiring.get?_edgesTo]
    rfl
  have hposition : q.position (.ofEdges (g.edgesTo n.id)) =
      q.slot.bind fun i => g.wired n.id (.position i) := by
    simp only [Seat.position, ← Wiring.get?_edgesTo]
    rfl
  rw [argumentFor, ← hkeyword, ← hposition, Seat.filled, Seat.given]
  cases site.overrides.get? q.param.name with
  | some text => rfl
  | none =>
    cases q.keyword (.ofEdges (g.edgesTo n.id)) with
    | some id => rfl
    | none =>
      cases q.position (.ofEdges (g.edgesTo n.id)) with
      | some id => rfl
      | none =>
        cases q.param.optional with
        | false => rfl
        | true =>
          simp only [if_true, Option.getD_none, Param.waiting]
          cases q.param.default <;> rfl

theorem renderArguments_defects : (g.renderArguments style sub n site).defects =
    (g.callArguments n site).flatMap fun a => (renderSource style sub n a.source).defects := by
  rw [renderArguments_eq, Rendered.join, givenArguments]
  simp only [List.map_map, List.flatMap_map, Function.comp_apply, Given.spelled_defects]

variable {g style sub n site}

/-- A call is written so that it means what is wired. If the arguments of a call fit the header of
its function, then the written arguments are accepted, whatever the overrides are, and every plain
parameter gets its override, the value at its keyword, the value at its position or its default, or a
placeholder if it is required and has none of these. Further positions and keywords go to the
parameters that collect them. The defects are those of the values that arrive, each reported once. -/
theorem givenArguments_bind {sig : Signature} (hparams : g.callParams site = sig.params) {count : Nat}
    (hfits : Param.Fits sig.params (g.wired n.id) count) :
    let w := Wiring.ofEdges (g.edgesTo n.id)
    let bound : Bound Rendered :=
      ⟨(Param.seats sig.params).map fun q => (q.param.name, g.argumentFor style sub n site q),
        (w.positional.drop (Param.slotCount sig.params)).map fun p => sub p.2,
        (Param.unnamed sig.params w.keywords).map fun k => (k.1, sub k.2)⟩
    g.renderArguments style sub n site =
        .join ", " ((g.givenArguments style sub n site).map Given.spelled) ∧
      Param.bindCall sig.params Rendered.plain (g.givenArguments style sub n site) = some bound ∧
      (g.renderArguments style sub n site).defects.Perm bound.defects := by
  intro w bound
  have hw : w.Sorted := Wiring.sorted_ofEdges (g.edgesTo n.id)
  have hget : w.get? = g.wired n.id := funext (Wiring.get?_edgesTo g n.id)
  rw [← hget] at hfits
  refine ⟨renderArguments_eq .., ?_, ?_⟩
  · have hbound := sig.bindCall_written hw site.overrides hfits (renderSource style sub n)
      Rendered.plain fun _ => rfl
    simp only [w, renderSource_filled] at hbound
    rw [givenArguments, callArguments, hparams]
    exact hbound
  · obtain ⟨front, behind, c, hlayout⟩ := sig.exists_layout hw site.overrides hfits
    have hperm := hlayout.flatMap_written (renderSource style sub n)
      (fun _ => sig.default_of_optional) Rendered.defects fun _ => rfl
    rw [renderArguments_defects, callArguments, hparams]
    simp only [w, renderSource_filled] at hperm
    simp only [bound, Bound.defects, List.flatMap_map, hlayout.slotCount_eq]
    exact hperm

/-- The header is `f(a, b=2, /, c=3, *rest, k, m=5, **more)`, the call has an argument by position,
one with the keyword `m` and one with the keyword `x`, and `c` has an override. The call is written
`f(1, c=9, k=__missing__, m=7, x=8)`. -/
theorem givenArguments_bind_mixed :
    let sig : Signature :=
      ⟨[.required "a", .withDefault "b" "2"], some (.separator .positionalOnly), [.withDefault "c" "3"],
        some (.variadic "rest" .varArgs), [.required "k", .withDefault "m" "5"],
        some (.variadic "more" .kwArgs), nofun, nofun, by decide, by decide, by decide, by decide,
        by decide, by decide, by decide⟩
    let site : CallSite := ⟨false, some (.body ⟨"f"⟩), [], Overrides.empty.insert "c" "9"⟩
    let n : Node := ⟨⟨"call"⟩, "f", .root, .call site⟩
    let g : Graph := ⟨[⟨⟨"f"⟩, "f", .root, .functionDef sig.params⟩, ⟨⟨"1"⟩, "1", .root, .literal⟩,
        ⟨⟨"7"⟩, "7", .root, .literal⟩, ⟨⟨"8"⟩, "8", .root, .literal⟩, n],
      [⟨⟨"1"⟩, ⟨"call"⟩, .positional 0⟩, ⟨⟨"8"⟩, ⟨"call"⟩, .argument none (some "x")⟩,
        ⟨⟨"7"⟩, ⟨"call"⟩, .argument none (some "m")⟩]⟩
    g.callParams site = sig.params ∧ Param.Fits sig.params (g.wired n.id) 1 ∧
      (g.resolve .default [] n.id).text = "f(1, c=9, k=__missing__, m=7, x=8)" ∧
      ∀ style sub, Param.bindCall sig.params Rendered.plain (g.givenArguments style sub n site) =
        some ⟨[("a", sub ⟨"1"⟩), ("b", .plain "2"), ("c", .plain "9"),
          ("k", lacking style n (.missingArgument "k")), ("m", sub ⟨"7"⟩)], [], [("x", sub ⟨"8"⟩)]⟩ := by
  intro sig site n g
  have hparams : g.callParams site = sig.params := by decide +kernel
  have hkeys : g.argKeys n.id = [.position 0, .keyword "x", .keyword "m"] := by decide +kernel
  have hwired (key : ArgKey) : (g.wired n.id key).isSome = true ↔
      key ∈ [ArgKey.position 0, .keyword "x", .keyword "m"] := by
    rw [← mem_argKeys, hkeys]
  have hfits : Param.Fits sig.params (g.wired n.id) 1 := by
    refine ⟨?_, ?_, by decide +kernel⟩
    · intro i
      rw [hwired]
      simp
    · intro key hkey
      rw [hwired] at hkey
      revert key
      decide +kernel
  refine ⟨hparams, hfits, by decide +kernel, ?_⟩
  intro style sub
  exact (givenArguments_bind hparams hfits).2.1

end Graph

end ScopedFlow
