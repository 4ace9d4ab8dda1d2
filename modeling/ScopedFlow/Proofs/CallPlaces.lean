import ScopedFlow.Proofs.Chains

/-!
# Calls in their places

Each call of a text stands there as an expression: the steps behind its node are those of its
receiver and its arguments, and what comes later does not meet them.
-/

namespace ScopedFlow

variable {e : Expr}

namespace Steps

theorem front_unique {front front' back back' : List Step} {sketch sketch' : Sketch}
    (h : front ++ .node sketch :: back = front' ++ .node sketch' :: back')
    (hc : count front = count front') : front = front' := by
  induction front generalizing front' with
  | nil =>
    cases front' with
    | nil => rfl
    | cons s front' =>
      obtain ⟨rfl, -⟩ := List.cons.inj h
      rw [count_cons, sketch?, Option.toList_some, List.length_singleton, count_nil] at hc
      omega
  | cons s front ih =>
    cases front' with
    | nil =>
      obtain ⟨rfl, -⟩ := List.cons.inj h
      rw [count_cons, sketch?, Option.toList_some, List.length_singleton, count_nil] at hc
      omega
    | cons s' front' =>
      obtain ⟨rfl, hrest⟩ := List.cons.inj h
      rw [count_cons, count_cons] at hc
      rw [ih hrest (Nat.add_left_cancel hc)]

theorem call_of_face {label : String} {isMethod : Bool} {args : List Arg}
    (h : face e = some (label, .call isMethod args)) : (e = .call label args ∧ isMethod = false) ∨
      ∃ object, e = .methodCall object label args ∧ isMethod = true := by
  cases e with
  | call callee args =>
    obtain ⟨rfl, hcontent⟩ := Prod.mk.inj (Option.some.inj h)
    obtain ⟨rfl, rfl⟩ := Content.call.inj hcontent
    exact .inl ⟨rfl, rfl⟩
  | methodCall object method args =>
    obtain ⟨rfl, hcontent⟩ := Prod.mk.inj (Option.some.inj h)
    obtain ⟨rfl, rfl⟩ := Content.call.inj hcontent
    exact .inr ⟨object, rfl, rfl⟩
  | name id => cases h
  | unsupported => cases h
  | _ => cases (Prod.mk.inj (Option.some.inj h)).2

theorem isCall_of_face {label : String} {isMethod : Bool} {args : List Arg}
    (h : face e = some (label, .call isMethod args)) : e.isCall = true := by
  rcases call_of_face h with ⟨rfl, -⟩ | ⟨object, rfl, -⟩ <;> rfl

end Steps

namespace Run
open Steps

/-- The node with the number `c`, if it is a call, is that of an expression in its place. -/
def CallStands (q : Run) (all : List Step) (c : Nat) : Prop :=
  ∀ w label isMethod args, (sketches all)[c]? = some ⟨w, label, .call isMethod args⟩ →
    ∃ before after outer port e, face e = some (label, .call isMethod args) ∧
      (∀ p ∈ port, p.target < c) ∧ Standing q all before (expr w outer port c e) after w outer c

theorem callStands_ofModule (supply : Supply) (module : List Stmt) (c : Nat) :
    (ofModule supply module).CallStands (Steps.ofModule module) c := by
  intro w label isMethod args hs
  cases site_ofModule supply module (lt_count_of_sketch hs) with
  | part made hp stands =>
    obtain ⟨rfl, rfl, rfl⟩ := Sketch.mk.inj (Option.some.inj (stands.located.sketch_place.symm.trans hs))
    rw [← expr_eq_place made _ c (.inr (isCall_of_face made))] at stands
    exact ⟨_, _, _, _, _, made, hp, stands⟩
  | «variable» made hc =>
    obtain rfl := Option.some.inj (made.symm.trans hs)
    rcases hc with hc | ⟨_, hc⟩ <;> cases hc
  | statement made chains => cases made.symm.trans hs

end Run

end ScopedFlow
