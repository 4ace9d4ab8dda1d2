import ScopedFlow.Proofs.Reached

/-!
# Versions of variables

In one world the variables of a name have increasing versions, injected ones too. The module always
has this order. Another world has it for the names that no import binds: an import counts for the
world it stands in while its text is read, and for the module alone when names are entered again.
-/

namespace ScopedFlow

/-- The version of a variable of the name that a header or an assignment made. -/
def Node.version? (name : String) (n : Node) : Option Nat :=
  match n.payload with
  | .variable ⟨.param, version, _⟩ | .variable ⟨.write, version, _⟩ =>
    if n.label = name then some version else none
  | _ => none

def versions (ns : List Node) (v : World) (name : String) : List Nat :=
  (ns.filter fun n => n.world = v).filterMap (Node.version? name)

/-- How often a name is entered for a world. -/
def entered (ns : List Node) (v : World) (name : String) : Nat :=
  (Symbols.entriesOf (scopeOf ns v) name).length

/-- Imports do not disturb the count of a name in a world. -/
def Unimported (ns : List Node) (v : World) (name : String) : Prop :=
  v = .root ∨ ∀ n ∈ ns, n.kind = .importStmt → ¬ n.Binds name

/-- The versions of every name increase in every world, and stay below what is counted. -/
def Ascending (ns : List Node) : Prop :=
  ∀ v name, Unimported ns v name →
    (versions ns v name).Pairwise (· < ·) ∧ ∀ x ∈ versions ns v name, x ≤ entered ns v name

section Lists

variable {ns ms : List Node} {v : World} {name : String}

theorem versions_append (ns ms : List Node) (v : World) (name : String) :
    versions (ns ++ ms) v name = versions ns v name ++ versions ms v name := by
  rw [versions, List.filter_append, List.filterMap_append]
  rfl

theorem entered_append (ns ms : List Node) (v : World) (name : String) :
    entered (ns ++ ms) v name = entered ns v name + entered ms v name := by
  rw [entered, scopeOf_append, Symbols.entriesOf_append, List.length_append]
  rfl

theorem Unimported.of_append (h : Unimported (ns ++ ms) v name) : Unimported ns v name :=
  h.imp_right fun h n hn => h n (List.mem_append_left _ hn)

theorem versions_eq_nil (h : ∀ n ∈ ns, n.world = v → n.version? name = none) :
    versions ns v name = [] := by
  rw [versions, List.filterMap_eq_nil_iff]
  intro n hn
  obtain ⟨hn, hv⟩ := List.mem_filter.mp hn
  exact h n hn (of_decide_eq_true hv)

theorem versions_singleton (n : Node) (v : World) (name : String) : versions [n] v name =
    if n.world = v then (n.version? name).toList else [] := by
  by_cases h : n.world = v
  · cases hversion : n.version? name <;> simp [versions, h, hversion]
  · simp [versions, h]

theorem entered_singleton (n : Node) (v : World) (name : String) : entered [n] v name =
    if n.countsFor v then ((n.entries v).filter fun e => e.name = name).length else 0 := by
  cases h : n.countsFor v <;> simp [entered, scopeOf, Symbols.entriesOf, h]

theorem le_of_mem_append {xs ys : List Nat} {bound next : Nat} (hx : ∀ x ∈ xs, x ≤ bound)
    (hle : bound ≤ next) (hy : ys = [] ∨ ys = [next]) : ∀ x ∈ xs ++ ys, x ≤ next := by
  intro x hmem
  rcases List.mem_append.mp hmem with hmem | hmem
  · exact Nat.le_trans (hx x hmem) hle
  · rcases hy with rfl | rfl
    · cases hmem
    · exact Nat.le_of_eq (List.mem_singleton.mp hmem)

theorem ascending_append {xs ys : List Nat} {bound next : Nat} (ha : xs.Pairwise (· < ·))
    (hx : ∀ x ∈ xs, x ≤ bound) (hy : ys = [] ∨ ys = [next] ∧ bound < next) :
    (xs ++ ys).Pairwise (· < ·) := by
  rcases hy with rfl | ⟨rfl, hlt⟩
  · rw [List.append_nil]
    exact ha
  · refine List.pairwise_append.mpr ⟨ha, List.pairwise_singleton .., ?_⟩
    intro x hmem y hy
    obtain rfl := List.mem_singleton.mp hy
    exact Nat.lt_of_le_of_lt (hx x hmem) hlt

end Lists

namespace Builder

/-- During a run in the world `w` behind the nodes `base`: the versions of a name increase and are
at most what will be counted; in the world of the run they are at most what was counted so far. -/
structure Ranked (base : List Node) (name : String) (w : World) (b : Builder) : Prop where
  ascending : ∀ v, Unimported (base ++ b.graph.nodes) v name →
    (versions (base ++ b.graph.nodes) v name).Pairwise (· < ·)
  counted : ∀ v, Unimported (base ++ b.graph.nodes) v name →
    ∀ x ∈ versions (base ++ b.graph.nodes) v name, x ≤ entered (base ++ b.graph.nodes) v name
  bounded : Unimported (base ++ b.graph.nodes) w name →
    ∀ x ∈ versions (base ++ b.graph.nodes) w name, x ≤ b.symbols.version name
  version : Unimported (base ++ b.graph.nodes) w name →
    b.symbols.version name ≤ entered (base ++ b.graph.nodes) w name

namespace Ranked

variable {base : List Node} {name : String} {w : World} {b b' b'' : Builder} {payload : Payload}
  {label : String}

theorem extend (h : Ranked base name w b) {new : List Node}
    (hn : b'.graph.nodes = b.graph.nodes ++ new) (hother : ∀ v ≠ w, versions new v name = [])
    (hown : versions new w name = [] ∨ versions new w name = [b'.symbols.version name] ∧
      b.symbols.version name < b'.symbols.version name)
    (hle : b.symbols.version name ≤ b'.symbols.version name)
    (hcount : Unimported new w name →
      b'.symbols.version name ≤ b.symbols.version name + entered new w name) :
    Ranked base name w b' := by
  have hnodes : base ++ b'.graph.nodes = (base ++ b.graph.nodes) ++ new := by
    rw [hn, List.append_assoc]
  have hlast : Unimported (base ++ b'.graph.nodes) w name →
      b'.symbols.version name ≤ entered (base ++ b'.graph.nodes) w name := by
    intro hu
    rw [hnodes] at hu ⊢
    have hnew : Unimported new w name := hu.imp_right fun hu n hn => hu n (List.mem_append_right _ hn)
    have := h.version hu.of_append
    have := hcount hnew
    rw [entered_append]
    omega
  have hbound : Unimported (base ++ b'.graph.nodes) w name →
      ∀ x ∈ versions (base ++ b'.graph.nodes) w name, x ≤ b'.symbols.version name := by
    intro hu
    rw [hnodes] at hu ⊢
    rw [versions_append]
    exact le_of_mem_append (h.bounded hu.of_append) hle (hown.imp_right And.left)
  refine ⟨fun v hu => ?_, fun v hu x hx => ?_, hbound, hlast⟩ <;> by_cases hv : v = w
  · subst hv
    rw [hnodes] at hu ⊢
    rw [versions_append]
    exact ascending_append (h.ascending v hu.of_append) (h.bounded hu.of_append) hown
  · rw [hnodes] at hu ⊢
    rw [versions_append, hother v hv, List.append_nil]
    exact h.ascending v hu.of_append
  · subst hv
    exact Nat.le_trans (hbound hu x hx) (hlast hu)
  · rw [hnodes] at hu hx ⊢
    rw [versions_append, hother v hv, List.append_nil] at hx
    have := h.counted v hu.of_append x hx
    rw [entered_append]
    omega

theorem silent (h : Ranked base name w b) {new : List Node}
    (hn : b'.graph.nodes = b.graph.nodes ++ new) (hnew : ∀ n ∈ new, n.version? name = none)
    (hs : b'.symbols.version name = b.symbols.version name) : Ranked base name w b' := by
  have hnil : ∀ v, versions new v name = [] := fun v => versions_eq_nil fun n hm _ => hnew n hm
  refine h.extend hn (fun v _ => hnil v) (.inl (hnil w)) (Nat.le_of_eq hs.symm) fun _ => ?_
  omega

theorem version?_of_nameless (h : payload.isNameless = true) (id : NodeId) (label : String)
    (v : World) : (⟨id, label, v, payload⟩ : Node).version? name = none := by
  cases payload with
  | «variable» _ => cases h
  | _ => rfl

theorem unversioned (h : Evaluates w b b') : ∃ new, b'.graph.nodes = b.graph.nodes ++ new ∧
    ∀ n ∈ new, ∀ name, n.version? name = none := by
  induction h with
  | refl b => exact ⟨[], (List.append_nil _).symm, List.forall_mem_nil _⟩
  | trans _ _ ih ih' =>
    obtain ⟨new, hn, hnew⟩ := ih
    obtain ⟨new', hn', hnew'⟩ := ih'
    refine ⟨new ++ new', by rw [hn', hn, List.append_assoc], ?_⟩
    intro n hm
    exact (List.mem_append.mp hm).elim (hnew n) (hnew' n)
  | add b nameless label =>
    refine ⟨[_], rfl, ?_⟩
    intro n hm name
    obtain rfl := List.mem_singleton.mp hm
    exact version?_of_nameless nameless ..
  | wire b source target kind => exact ⟨[], by simp, List.forall_mem_nil _⟩
  | @standIn b name binding found away absent =>
    refine ⟨[_], nodes_standIn .., ?_⟩
    intro n hm name
    obtain rfl := List.mem_singleton.mp hm
    rfl

theorem evaluates (h : Ranked base name w b) (he : Evaluates w b b') : Ranked base name w b' := by
  obtain ⟨new, hn, hnew⟩ := unversioned he
  exact h.silent hn (fun n hm => hnew n hm name) (by rw [he.symbols_eq])

theorem nodes_heads (h : Heads w payload label b b') :
    ∃ new, b'.graph.nodes = b.graph.nodes ++ ⟨b.fresh payload.kind, label, w, payload⟩ :: new ∧
      ∀ n ∈ new, ∀ name, n.version? name = none := by
  have hadd : ∀ {b' : Builder}, Evaluates w (b.add payload label w) b' → ∃ new,
      b'.graph.nodes = b.graph.nodes ++ ⟨b.fresh payload.kind, label, w, payload⟩ :: new ∧
        ∀ n ∈ new, ∀ name, n.version? name = none := by
    intro b' value
    obtain ⟨new, hn, hnew⟩ := unversioned value
    exact ⟨new, hn.trans (by simp [add, Graph.addNode]), hnew⟩
  cases h with
  | plain _ value => exact hadd value
  | @binding b'' _ value =>
    have hvalue := hadd value
    exact hvalue

theorem introduced {version : Nat} (h : payload.Introduces version) (id : NodeId)
    (label name : String) (w : World) :
    entered [⟨id, label, w, payload⟩] w name = (if label = name then 1 else 0) ∧
      (versions [⟨id, label, w, payload⟩] w name = [] ∨
        label = name ∧ versions [⟨id, label, w, payload⟩] w name = [version]) := by
  have hcounts : (⟨id, label, w, payload⟩ : Node).countsFor w = true := by simp [Node.countsFor]
  rw [entered_singleton, if_pos hcounts]
  cases payload with
  | «variable» v =>
    obtain ⟨mode, number, optional⟩ := v
    cases mode with
    | param | write =>
      obtain rfl : number = version := h
      by_cases hl : label = name <;> simp [Node.entries, versions, Node.version?, hl]
    | closureRead _ _ => cases h
  | functionDef _ | classDef _ =>
    by_cases hl : label = name <;> simp [Node.entries, versions, Node.version?, hl]
  | _ => cases h

theorem heads (h : Ranked base name w b) (hh : Heads w payload label b b') :
    Ranked base name w b' := by
  cases hh with
  | plain nameless value =>
    have hadd : Ranked base name w (b.add payload label w) := by
      refine h.silent rfl ?_ rfl
      intro n hm
      obtain rfl := List.mem_singleton.mp hm
      exact version?_of_nameless nameless ..
    exact hadd.evaluates value
  | @binding b'' introduces value =>
    obtain ⟨new, hnodes, hnew⟩ := nodes_heads (.binding introduces value)
    let node : Node := ⟨b.fresh payload.kind, label, w, payload⟩
    have hversion : (b''.define label (b.fresh payload.kind) w).symbols.version name =
        b.symbols.version name + if label = name then 1 else 0 := by
      change (b''.symbols.write label _ w).version name = _
      rw [Symbols.version_write, value.symbols_eq]
      rfl
    have hrest : ∀ v, versions new v name = [] := fun v => versions_eq_nil fun n hm _ => hnew n hm name
    have hcons : ∀ v, versions (node :: new) v name = versions [node] v name := by
      intro v
      rw [← List.singleton_append, versions_append, hrest, List.append_nil]
    obtain ⟨hentered, hown⟩ := introduced introduces (b.fresh payload.kind) label name w
    refine h.extend hnodes ?_ ?_ ?_ ?_
    · intro v hv
      rw [hcons]
      refine versions_eq_nil fun n hm he => absurd he ?_
      obtain rfl := List.mem_singleton.mp hm
      exact fun he => hv he.symm
    · rw [hcons, hversion]
      rcases hown with hown | ⟨rfl, hown⟩
      · exact .inl hown
      · rw [if_pos rfl, ← Symbols.nextVersion_eq]
        exact .inr ⟨hown, Symbols.nextVersion_eq .. ▸ Nat.lt_succ_self _⟩
    · rw [hversion]
      exact Nat.le_add_right ..
    · intro _
      rw [hversion, ← List.singleton_append, entered_append, hentered]
      omega

theorem version_defineAll (names : List String) (id : NodeId) (v : World) (b : Builder) :
    (names.foldl (fun b name => b.define name id v) b).symbols.version name =
      b.symbols.version name + names.count name := by
  induction names generalizing b with
  | nil => rfl
  | cons other names ih =>
    have hdefine : (b.define other id v).symbols.version name =
        b.symbols.version name + if other = name then 1 else 0 := Symbols.version_write ..
    rw [List.foldl_cons, ih, hdefine, List.count_cons]
    simp only [beq_iff_eq]
    omega

theorem imports (h : Ranked base name w b) (text : String) (names : List String) :
    Ranked base name w (names.foldl (fun b' name => b'.define name (b.fresh .importStmt) .imports)
      (b.add (.importStmt names) text .imports)) := by
  let node : Node := ⟨b.fresh .importStmt, text, .imports, .importStmt names⟩
  have hnodes : (names.foldl (fun b' name => b'.define name (b.fresh .importStmt) .imports)
      (b.add (.importStmt names) text .imports)).graph.nodes = b.graph.nodes ++ [node] := by
    obtain ⟨scope, hdefine⟩ := foldl_imports b text names
    rw [hdefine]
    rfl
  have hnil : ∀ v, versions [node] v name = [] := by
    intro v
    refine versions_eq_nil fun n hm _ => ?_
    obtain rfl := List.mem_singleton.mp hm
    rfl
  have hversion : (names.foldl (fun b' name => b'.define name (b.fresh .importStmt) .imports)
      (b.add (.importStmt names) text .imports)).symbols.version name =
        b.symbols.version name + names.count name := version_defineAll ..
  refine h.extend hnodes (fun v _ => hnil v) (.inl (hnil w)) ?_ ?_
  · rw [hversion]
    exact Nat.le_add_right ..
  · intro hu
    rw [hversion]
    rcases hu with rfl | hu
    · have hentered : entered [node] .root name = names.count name := by
        have hcounts : node.countsFor .root = true := rfl
        have hentries : node.entries .root = names.map fun name => ⟨name, node.id, .imports⟩ := rfl
        rw [entered_singleton, if_pos hcounts, hentries, List.filter_map, List.length_map,
          List.count_eq_length_filter]
        rfl
      exact Nat.add_le_add_left (Nat.le_of_eq hentered.symm) _
    · have hnone : names.count name = 0 := List.count_eq_zero.mpr (hu node List.mem_cons_self rfl)
      rw [hnone]
      exact Nat.le_add_right ..

theorem versions_grows {v : World} (hg : Grows w b b') (hv : v ≠ w) (hi : v ≠ .imports)
    (hc : b.supply.Covers v) :
    versions (base ++ b'.graph.nodes) v name = versions (base ++ b.graph.nodes) v name := by
  obtain ⟨new, hn, hnew⟩ := hg.nodes
  have hnil : versions new v name = [] := by
    refine versions_eq_nil fun n hm he => absurd he ?_
    rintro rfl
    rcases (hnew n hm).2 with ⟨-, he⟩ | ⟨-, he | ⟨d, hd, he⟩⟩
    · exact hi he
    · exact hv he
    · rw [he] at hc
      exact (hnew d hd).1.not_spent hc
  rw [hn, ← List.append_assoc, versions_append, hnil, List.append_nil]

theorem enter (h : Ranked base name w b') (hs : Graph.Sound (base ++ b.graph.nodes) b.supply)
    (hc : b.supply.Covers w) (head : Heads w payload label b b') :
    Ranked base name (.body (b.fresh payload.kind)) b'.enter := by
  have hfresh := (Grows.issued_fresh b payload label w).not_spent
  have hnil : versions (base ++ b'.graph.nodes) (.body (b.fresh payload.kind)) name = [] := by
    obtain ⟨new, hn, hnew⟩ := nodes_heads head
    rw [hn, ← List.append_assoc]
    refine versions_eq_nil fun n hm he => ?_
    rcases List.mem_append.mp hm with hm | hm
    · have hcovers := hs.covers n hm
      rw [he] at hcovers
      exact absurd hcovers hfresh
    · rcases List.mem_cons.mp hm with rfl | hm
      · rw [show w = _ from he] at hc
        exact absurd hc hfresh
      · exact hnew n hm name
  refine ⟨h.ascending, h.counted, fun _ x hx => ?_, fun _ => Nat.zero_le _⟩
  exact absurd (hnil ▸ hx) List.not_mem_nil

/-- Back in the world around a body, the versions and the table are those before the body. -/
theorem leave {v : World} (h : Ranked base name w b) (hbody : Executes v b.enter b')
    (hin : Ranked base name v b') (hne : w ≠ v) (hw : w ≠ .imports) (hc : b.supply.Covers w) :
    Ranked base name w b'.leave := by
  obtain ⟨new, hn, -⟩ := hbody.grows.nodes
  have hnodes : base ++ b'.graph.nodes = (base ++ b.graph.nodes) ++ new := by
    rw [hn, List.append_assoc]
    rfl
  refine ⟨hin.ascending, hin.counted, ?_, ?_⟩ <;> intro hu <;> rw [hbody.symbols_leave]
  · have hsame : versions (base ++ b'.graph.nodes) w name =
        versions (base ++ b.enter.graph.nodes) w name := versions_grows hbody.grows hne hw hc
    intro x hx
    exact h.bounded (hnodes ▸ hu).of_append x (hsame ▸ hx)
  · have := h.version (hnodes ▸ hu).of_append
    change _ ≤ entered (base ++ b'.graph.nodes) w name
    rw [hnodes, entered_append]
    omega

theorem executes (he : Executes w b b') (h : Ranked base name w b)
    (hs : Graph.Sound (base ++ b.graph.nodes) b.supply) (hw : w ≠ .imports)
    (hc : b.supply.Covers w) : Ranked base name w b' := by
  induction he with
  | evaluate value => exact h.evaluates value
  | trans first _ ih ih' =>
    exact ih' (ih h hs hw hc) (hs.grows first.grows hw hc) hw (hc.mono first.grows.supply)
  | head head => exact h.heads head
  | imports w b text names => exact h.imports text names
  | @block w payload label b b' b'' head body ih =>
    have hgrows := (Grows.head head).1.trans (Grows.head head).2
    have hfresh : Supply.Issued b.supply b'.supply (b.fresh payload.kind) :=
      (Grows.issued_fresh b payload label w).mono (Nat.le_refl _) (Grows.head head).2.supply
    have hne : w ≠ .body (b.fresh payload.kind) := by
      rintro rfl
      exact hfresh.not_spent hc
    have hhead := h.heads head
    have hsound : Graph.Sound (base ++ b'.graph.nodes) b'.supply := hs.grows hgrows hw hc
    have hbody := ih (hhead.enter hs hc head) hsound nofun hfresh.spent
    exact hhead.leave body hbody hne hw (hc.mono hgrows.supply)

end Ranked

end Builder

theorem versions_bare (ns : List Node) (v : World) (name : String) :
    versions (ns.map Node.bare) v name = versions ns v name := by
  induction ns with
  | nil => rfl
  | cons n ns ih =>
    have hversion : n.bare.version? name = n.version? name := by
      obtain ⟨id, label, world, payload⟩ := n
      cases payload <;> rfl
    rw [List.map_cons, ← List.singleton_append, versions_append, ih, versions_singleton, hversion,
      n.world_bare, ← versions_singleton, ← versions_append, List.singleton_append]

theorem entered_bare (ns : List Node) (v : World) (name : String) :
    entered (ns.map Node.bare) v name = entered ns v name := by
  induction ns with
  | nil => rfl
  | cons n ns ih =>
    have hcounts : n.bare.countsFor v = n.countsFor v := by simp [Node.countsFor]
    have hentries : n.bare.entries v = n.entries v := by
      obtain ⟨id, label, world, payload⟩ := n
      cases payload <;> rfl
    rw [List.map_cons, ← List.singleton_append, entered_append, ih, entered_singleton, hcounts,
      hentries, ← entered_singleton, ← entered_append, List.singleton_append]

namespace Graph
open Builder

theorem version_ofWorld (g : Graph) (w : World) (name : String) :
    (Symbols.ofWorld g w).version name = entered g.nodes w name := by
  rw [Symbols.version, Symbols.innermost_ofWorld, Symbols.get?_tableOf, entered]
  cases hl : (Symbols.entriesOf (scopeOf g.nodes w) name).getLast? with
  | none => rw [List.getLast?_eq_none_iff.mp hl]; rfl
  | some e => rfl

/-- The versions of a name in a world increase, in the order in which the nodes were made, for the
module and for every name that no import binds. -/
theorem Reached.versions_ascend {k : Nat} {g : Graph} {supply : Supply} (h : Reached k g supply)
    {w : World} {name : String} (hu : Unimported g.nodes w name) :
    (versions g.nodes w name).Pairwise (· < ·) := by
  have hall : Ascending g.nodes := by
    refine h.nodes_induction (P := fun _ ns => Ascending ns) ?_ ?_ ?_
    · intro supply b hb v name hu
      have hstart : Ranked [] name .root (.start supply) :=
        ⟨fun _ _ => .nil, fun _ _ => nofun, fun _ => nofun, fun _ => Nat.zero_le _⟩
      have hend := hstart.executes hb ⟨nofun, nofun, nofun⟩ nofun trivial
      exact ⟨hend.ascending v hu, hend.counted v hu⟩
    · intro k g supply w b hg hs hw hb v name hu
      have hnodes : g.nodes ++ (g.snippetStart supply w).graph.nodes = g.nodes := List.append_nil _
      have hstart : Ranked g.nodes name w (g.snippetStart supply w) := by
        have hversion : (g.snippetStart supply w).symbols.version name = entered g.nodes w name :=
          version_ofWorld ..
        refine ⟨?_, ?_, ?_, ?_⟩ <;> rw [hnodes]
        · exact fun v hu => (hg v name hu).1
        · exact fun v hu => (hg v name hu).2
        · exact fun hu => hversion ▸ (hg w name hu).2
        · exact fun _ => Nat.le_of_eq hversion
      have hend := hstart.executes hb (hs.snippetStart w) (ne_imports_of_accepts hw)
        (covers_of_accepts hs.spent hw)
      exact ⟨hend.ascending v hu, hend.counted v hu⟩
    · intro k ns ms hbare hns v name hu
      have hu' : Unimported ns v name := by
        refine hu.imp_right fun hu n hn hk => ?_
        have hcall : n.kind ≠ .call := by rw [hk]; decide
        exact hu n (Node.mem_of_bare hbare hn hcall) hk
      rw [← versions_bare ms, ← entered_bare ms, ← hbare, versions_bare, entered_bare]
      exact hns v name hu'
  exact (hall w name hu).1

/-- A function that writes a name of the module, and writes it once more by an injection: the
stand-in between the two counts too. -/
theorem Reached.versions_ascend_rewritten :
    let w := World.body (Supply.idOf .functionDef 2)
    ∃ g supply, Reached 1 g supply ∧ Unimported g.nodes w "x" ∧ versions g.nodes w "x" = [1, 3] ∧
      (versions g.nodes w "x").Pairwise (· < ·) := by
  let module : List Stmt := [.assign "x" (.literal "1"),
    .function "f" [] [.assign "x" (.binary "+" (.name "x") (.literal "1"))]]
  let g := (build ⟨0⟩ module).1.link.1
  let supply := (build ⟨0⟩ module).2
  let w := World.body (Supply.idOf .functionDef 2)
  have hsource : ofSourceLinked ⟨0⟩ "x = 1\ndef f():\n    x = x + 1\n" = .ok (g, supply) := by
    decide +kernel
  have hinject : g.inject supply "x = 2" w =
      .ok (g.grafted supply [.assign "x" (.literal "2")] w, 2, ⟨9⟩) := by decide +kernel
  have hreached := Reached.injected (.parsed hsource) hinject
  have himports : ∀ n ∈ (g.grafted supply [.assign "x" (.literal "2")] w).nodes,
      n.kind ≠ .importStmt := by decide +kernel
  have hu : Unimported (g.grafted supply [.assign "x" (.literal "2")] w).nodes w "x" :=
    .inr fun n hn hk => absurd hk (himports n hn)
  exact ⟨_, _, hreached, hu, by decide +kernel, hreached.versions_ascend hu⟩

end Graph

end ScopedFlow
