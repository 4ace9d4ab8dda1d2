import ScopedFlow.Proofs.Resolution

/-!
# Where the steps of a tree reach

The steps of an expression or a statement join only nodes that are numbered among themselves, apart
from the port they are read for or the clause they follow, and add nodes only to their world, to the
bodies among themselves and to the imports. So what comes before and after a piece of text does not
meet its nodes.
-/

namespace ScopedFlow

namespace Steps

variable {m k k' m' : Nat}

def sources : Step → List Nat
  | .wire source _ => [source]
  | _ => []

def targets : Step → List Nat
  | .wire _ port | .read _ _ _ port => [port.target]
  | _ => []

/-- The world that a step adds nodes to. -/
def home? : Step → Option Place
  | .node sketch => some sketch.home
  | .read _ w _ _ => some w
  | _ => none

/-- Steps that wire only such sources and targets and add nodes only to such worlds. -/
structure Keeps (P Q : Nat → Prop) (H : Place → Prop) (ss : List Step) : Prop where
  sources : ∀ s ∈ ss, ∀ n ∈ sources s, P n
  targets : ∀ s ∈ ss, ∀ n ∈ targets s, Q n
  homes : ∀ s ∈ ss, ∀ p ∈ home? s, H p

namespace Keeps

variable {P Q P' Q' : Nat → Prop} {H H' : Place → Prop} {ss ts : List Step}

theorem nil : Keeps P Q H [] := ⟨by simp, by simp, by simp⟩

theorem append (hs : Keeps P Q H ss) (ht : Keeps P Q H ts) : Keeps P Q H (ss ++ ts) where
  sources s h := (List.mem_append.mp h).elim (hs.sources s) (ht.sources s)
  targets s h := (List.mem_append.mp h).elim (hs.targets s) (ht.targets s)
  homes s h := (List.mem_append.mp h).elim (hs.homes s) (ht.homes s)

theorem mono (h : Keeps P Q H ss) (hP : ∀ n, P n → P' n) (hQ : ∀ n, Q n → Q' n)
    (hH : ∀ p, H p → H' p) : Keeps P' Q' H' ss where
  sources s hs n hn := hP n (h.sources s hs n hn)
  targets s hs n hn := hQ n (h.targets s hs n hn)
  homes s hs p hp := hH p (h.homes s hs p hp)

theorem node {sketch : Sketch} (h : H sketch.home) : Keeps P Q H [.node sketch] where
  sources := by simp [Steps.sources]
  targets := by simp [Steps.targets]
  homes := by simpa [home?] using h

theorem wire {source : Nat} {port : Port} (hs : P source) (ht : Q port.target) :
    Keeps P Q H [.wire source port] where
  sources := by simpa [Steps.sources] using hs
  targets := by simpa [Steps.targets] using ht
  homes := by simp [home?]

theorem read {name : String} {w : Place} {outer : List Place} {port : Port} (ht : Q port.target)
    (hw : H w) : Keeps P Q H [.read name w outer port] where
  sources := by simp [Steps.sources]
  targets := by simpa [Steps.targets] using ht
  homes := by simpa [home?] using hw

theorem bind (name : String) (body : Place) (node : Nat) (home : Place) :
    Keeps P Q H [.bind name body node home] :=
  ⟨by simp [Steps.sources], by simp [Steps.targets], by simp [home?]⟩

theorem enclosed (h : Keeps P Q H ss) : Keeps P Q H (enclosed k ss) := by
  have he : Keeps P Q H [.enter (.body k)] :=
    ⟨by simp [Steps.sources], by simp [Steps.targets], by simp [home?]⟩
  have hl : Keeps P Q H [.leave] :=
    ⟨by simp [Steps.sources], by simp [Steps.targets], by simp [home?]⟩
  exact (he.append h).append hl

end Keeps

/-- The numbers of `m` nodes from `k` on. -/
def Span (k m n : Nat) : Prop := k ≤ n ∧ n < k + m

theorem Span.self (k : Nat) (h : 0 < m) : Span k m k := ⟨Nat.le_refl k, by omega⟩

theorem Span.sub {n : Nat} (h : Span k m n) (hk : k' ≤ k) (hm : k + m ≤ k' + m') :
    Span k' m' n := by
  obtain ⟨hl, hr⟩ := h
  exact ⟨by omega, by omega⟩

/-- Steps of an expression in the world `w`: `m` nodes from `k` on, and one more target. -/
def Local (w : Place) (target : Option Nat) (k m : Nat) (ss : List Step) : Prop :=
  Keeps (Span k m) (fun n => n ∈ target ∨ Span k m n) (· = w) ss

variable {w : Place} {outer : List Place}

theorem Local.part {target' : Option Nat} {k' m' : Nat} {ss : List Step}
    (h : Local w target' k' m' ss) {target : Option Nat} {k m : Nat}
    (ht : ∀ j ∈ target', j ∈ target ∨ Span k m j) (hk : k ≤ k') (hm : k' + m' ≤ k + m) :
    Local w target k m ss := by
  refine Keeps.mono h (fun n hn => hn.sub hk hm) ?_ fun p hp => hp
  rintro n (hn | hn)
  · exact ht n hn
  · exact .inr (hn.sub hk hm)

theorem source_mem {source : Option Nat} (k : Nat) (hm : 0 < m) :
    ∀ j ∈ some k, j ∈ source ∨ Span k m j := by
  intro j hj
  obtain rfl := Option.mem_some.mp hj
  exact .inr (.self k hm)

theorem local_place (label : String) (content : Content) (k : Nat) (port : Option Port) (hm : 0 < m) :
    Local w (port.map (·.target)) k m (place w label content k port) := by
  cases port with
  | none => exact .node rfl
  | some port =>
    have hnode : Local w (some port.target) k m [.node ⟨w, label, content⟩] := .node rfl
    have hwire : Local w (some port.target) k m [.wire k port] :=
      .wire (.self k hm) (.inl rfl)
    exact hnode.append hwire

theorem Feeds.local {K : EdgeKind → Prop} {target : Option Nat} {ss : List Step}
    (h : Feeds w outer K target k ss) : Local w target k (count ss) ss := by
  induction h with
  | nil => exact .nil
  | append _ _ ih ih' =>
    rw [count_append]
    refine (ih.part (fun _ => .inl) ?_ ?_).append (ih'.part (fun _ => .inl) ?_ ?_) <;> omega
  | read => exact .read (.inl rfl) rfl
  | @node e label content _ port _ k _ ih =>
    rw [count_append, count_place]
    refine (local_place label content k port ?_).append (ih.part (source_mem k ?_) ?_ ?_) <;> omega

theorem local_expr (port : Option Port) (k : Nat) (e : Expr) :
    Local w (port.map (·.target)) k (count (expr w outer port k e)) (expr w outer port k e) :=
  (feeds_port port k e).local

theorem local_operand (owner : Nat) (kind : EdgeKind) (k : Nat) (e : Expr) :
    Local w (some owner) k (count (expr w outer (some ⟨owner, kind⟩) k e))
      (expr w outer (some ⟨owner, kind⟩) k e) := local_expr (some ⟨owner, kind⟩) k e

/-- Steps of statements in the world `w`: `m` nodes from `k` on, and one more source. -/
def Contained (w : Place) (source : Option Nat) (k m : Nat) (ss : List Step) : Prop :=
  Keeps (fun n => n ∈ source ∨ Span k m n) (Span k m)
    (fun p => p = w ∨ p = .imports ∨ ∃ j, p = .body j ∧ Span k m j) ss

variable {source : Option Nat}

theorem Local.contained {target : Option Nat} {ss : List Step} (h : Local w target k' m' ss)
    (hj : ∀ j ∈ target, Span k m j) (hk : k ≤ k') (hm : k' + m' ≤ k + m) :
    Contained w source k m ss := by
  refine Keeps.mono h (fun n hn => .inr (hn.sub hk hm)) ?_ fun p hp => .inl hp
  rintro n (hn | hn)
  · exact hj n hn
  · exact hn.sub hk hm

theorem Contained.part {source' : Option Nat} {k' m' : Nat} {ss : List Step}
    (h : Contained w source' k' m' ss) {k m : Nat} (hs : ∀ j ∈ source', j ∈ source ∨ Span k m j)
    (hk : k ≤ k') (hm : k' + m' ≤ k + m) : Contained w source k m ss := by
  refine Keeps.mono h ?_ (fun n hn => hn.sub hk hm) ?_
  · rintro n (hn | hn)
    · exact hs n hn
    · exact .inr (hn.sub hk hm)
  · rintro p (hp | hp | ⟨j, hp, hj⟩)
    · exact .inl hp
    · exact .inr (.inl hp)
    · exact .inr (.inr ⟨j, hp, hj.sub hk hm⟩)

theorem Contained.body {j k' m' : Nat} {ss : List Step} (h : Contained (.body j) none k' m' ss)
    {k m : Nat} (hj : Span k m j) (hk : k ≤ k') (hm : k' + m' ≤ k + m) :
    Contained w source k m (enclosed j ss) := by
  refine Keeps.enclosed (Keeps.mono h ?_ (fun n hn => hn.sub hk hm) ?_)
  · rintro n (hn | hn)
    · cases hn
    · exact .inr (hn.sub hk hm)
  · rintro p (hp | hp | ⟨i, hp, hi⟩)
    · exact .inr (.inr ⟨j, hp, hj⟩)
    · exact .inr (.inl hp)
    · exact .inr (.inr ⟨i, hp, hi.sub hk hm⟩)

theorem Contained.node (label : String) (content : Content) (k m : Nat) :
    Contained w source k m [.node ⟨w, label, content⟩] := Keeps.node (.inl rfl)

theorem Contained.bind (name : String) (body : Place) (node : Nat) (home : Place) (k m : Nat) :
    Contained w source k m [.bind name body node home] := Keeps.bind name body node home

theorem contained_header (names : List (String × Bool)) (k : Nat) :
    Contained w source k' m (header w k names) := by
  induction names generalizing k with
  | nil => exact .nil
  | cons p names ih =>
    obtain ⟨name, optional⟩ := p
    exact ((Contained.node name (.param optional) k' m).append (.bind name w k w)).append (ih (k + 1))

theorem Contained.suite {j : Nat} {ss : List Step} (h : Contained (.body j) none k' m' ss)
    (names : List (String × Bool)) (i : Nat) (hj : Span k m j) (hk : k ≤ k') (hm : k' + m' ≤ k + m) :
    Contained w source k m (enclosed j (header (.body j) i names ++ ss)) :=
  Contained.body ((contained_header names i).append h) hj hk hm

theorem contained_binds (names : List String) (k : Nat) (home : Place) :
    Contained w source k' m (names.map fun name => .bind name w k home) := by
  induction names with
  | nil => exact .nil
  | cons name names ih => exact (Contained.bind name w k home k' m).append ih

theorem Feeds.contained {K : EdgeKind → Prop} {ss : List Step}
    (h : Feeds w outer K (some k) (k + 1) ss) (hm : 1 + count ss ≤ m) :
    Contained w source k m ss := by
  refine h.local.contained (fun n hn => ?_) ?_ ?_
  · obtain rfl := Option.mem_some.mp hn
    exact .self _ (by omega)
  all_goals omega

theorem Preamble.contained {label : String} {payload : Payload} {ss : List Step}
    (h : Preamble w outer label payload source k ss) (hm : 1 + count ss ≤ m) :
    Contained w source k m ss := by
  cases h with
  | names => exact .bind ..
  | feeds parts => exact parts.contained hm
  | behind ho index parts => exact Keeps.append (.wire (.inl ho) (.self k (by omega))) (parts.contained hm)

/-- By induction on the shape. -/
theorem Suite.contained {ss : List Step} (h : Suite w outer source k ss) :
    Contained w source k (count ss) ss := by
  induction h with
  | nil => exact .nil
  | append _ hs _ ih ih' =>
    rw [count_append]
    refine (ih.part (fun _ => .inl) ?_ ?_).append (ih'.part (fun j hj => ?_) ?_ ?_)
    case refine_3 => exact (hs j hj).imp_right fun hj => ⟨hj.1, by omega⟩
    all_goals omega
  | plain source label _ parts =>
    rw [count_append, count_place]
    exact (Contained.node ..).append (parts.contained (Nat.le_refl _))
  | write source name parts =>
    rw [count_append, count_append, count_place]
    exact (Contained.node ..).append ((parts.contained (by omega)).append (.bind ..))
  | imports w outer source k text names =>
    exact Keeps.append (.node (.inr (.inl rfl))) (contained_binds names k .imports)
  | block label _ preamble names _ ih =>
    simp only [count_append, count_place, count_enclosed]
    refine (Contained.node ..).append ((preamble.contained ?_).append
      (ih.suite names _ (.self _ ?_) ?_ ?_)) <;> omega
  | @joined w outer source k ss previous hp made _ ih =>
    rw [count_append]
    exact ih.append (.wire (.inl hp) (.self k (by omega)))

theorem contained_statements (w : Place) (outer : List Place) (k : Nat) (stmts : List Stmt) :
    Contained w none k (count (statements w outer k stmts)) (statements w outer k stmts) :=
  (suite_statements ..).contained

theorem contained_alternatives (w : Place) (outer : List Place) (previous k : Nat)
    (rest : Alternatives) : Contained w (some previous) k
      (count (alternatives w outer previous k rest)) (alternatives w outer previous k rest) :=
  (suite_alternatives ..).contained

theorem contained_handlers (w : Place) (outer : List Place) (owner index k : Nat)
    (clauses : List Handler) : Contained w (some owner) k
      (count (handlers w outer owner index k clauses)) (handlers w outer owner index k clauses) :=
  (suite_handlers ..).contained

end Steps

end ScopedFlow
