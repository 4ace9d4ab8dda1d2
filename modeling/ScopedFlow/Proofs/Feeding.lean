import ScopedFlow.Proofs.Steps

/-!
# How expressions feed a node

Whatever an expression looks like, its steps read names into the node that uses it, or make nodes of
their own for it that are fed in the same way. What holds of all expressions is proved along these
few shapes.
-/

namespace ScopedFlow

/-- Nodes of expressions that are no calls. -/
def Payload.isPart : Payload → Bool
  | .literal | .operator _ | .listDisplay | .dictDisplay | .accessor | .attribute => true
  | _ => false

/-- What the nodes of expressions hold. -/
def Content.isPart : Content → Bool
  | .plain payload => payload.isPart
  | .call _ _ => true
  | _ => false

theorem Content.ne_import {content : Content} (h : content.isPart = true) (names : List String) :
    content ≠ .plain (.importStmt names) := by
  rintro rfl
  cases h

namespace Steps

/-- Label and content of the node that an expression makes, if it makes one. -/
def face : Expr → Option (String × Content)
  | .name _ | .unsupported => none
  | .literal text => some (text, .plain .literal)
  | .unary op _ => some (op, .plain (.operator true))
  | .binary op _ _ => some (op, .plain (.operator false))
  | .call callee args => some (callee, .call false args)
  | .methodCall _ method args => some (method, .call true args)
  | .attribute _ name => some (name, .plain .attribute)
  | .subscript _ _ => some ("[]", .plain .accessor)
  | .list _ => some ("[]", .plain .listDisplay)
  | .dict _ => some ("\x7b\x7d", .plain .dictDisplay)

/-- The steps behind the node of an expression: those of its parts. -/
def parts (w : Place) (outer : List Place) (k : Nat) : Expr → List Step
  | .unary _ operand => expr w outer (some ⟨k, .operand 0⟩) (k + 1) operand
  | .binary _ left right =>
    let first := expr w outer (some ⟨k, .operand 0⟩) (k + 1) left
    first ++ expr w outer (some ⟨k, .operand 1⟩) (k + 1 + count first) right
  | .call _ args => arguments w outer k 0 (k + 1) args
  | .methodCall receiver _ args =>
    let first := expr w outer (some ⟨k, .attributeValue⟩) (k + 1) receiver
    first ++ arguments w outer k 0 (k + 1 + count first) args
  | .attribute object _ => expr w outer (some ⟨k, .attributeValue⟩) (k + 1) object
  | .subscript value key =>
    let first := expr w outer (some ⟨k, .accessValue⟩) (k + 1) value
    first ++ expr w outer (some ⟨k, .accessKey⟩) (k + 1 + count first) key
  | .list items => elements w outer k 0 (k + 1) items
  | .dict entries => pairs w outer k 0 (k + 1) entries
  | .name _ | .literal _ | .unsupported => []

theorem expr_eq_place {w : Place} {outer : List Place} {e : Expr} {label : String}
    {content : Content} (hf : face e = some (label, content)) (port : Option Port) (k : Nat)
    (hp : port.isSome ∨ e.isCall) :
    expr w outer port k e = place w label content k port ++ parts w outer k e := by
  cases e with
  | name id => cases hf
  | unsupported => cases hf
  | literal text =>
    obtain ⟨rfl, rfl⟩ := Prod.mk.inj (Option.some.inj hf)
    have hp' : port.isSome := hp.resolve_right (by simp [Expr.isCall])
    rw [expr, if_pos hp', parts, List.append_nil]
  | _ =>
    obtain ⟨rfl, rfl⟩ := Prod.mk.inj (Option.some.inj hf)
    simp only [expr, parts, List.append_assoc]

theorem isPart_of_face {e : Expr} {label : String} {content : Content}
    (h : face e = some (label, content)) : content.isPart = true := by
  cases e with
  | name id => cases h
  | unsupported => cases h
  | _ =>
    obtain ⟨-, rfl⟩ := Prod.mk.inj (Option.some.inj h)
    rfl

/-- Steps that feed the node `target` in the world `w` and give numbers from `k` on. The edges are
of kinds in `K`. -/
inductive Feeds (w : Place) (outer : List Place) (K : EdgeKind → Prop) :
    Option Nat → Nat → List Step → Prop where
  | nil (target : Option Nat) (k : Nat) : Feeds w outer K target k []
  | append {target : Option Nat} {k : Nat} {ss ts : List Step} (first : Feeds w outer K target k ss)
    (second : Feeds w outer K target (k + count ss) ts) : Feeds w outer K target k (ss ++ ts)
  | read (name : String) {port : Port} (hk : K port.kind) (k : Nat) :
    Feeds w outer K (some port.target) k [.read name w outer port]
  | node {e : Expr} {label : String} {content : Content} (made : face e = some (label, content))
    {port : Option Port} (hp : ∀ p ∈ port, K p.kind) {k : Nat}
    (inner : Feeds w outer K (some k) (k + 1) (parts w outer k e)) :
    Feeds w outer K (port.map (·.target)) k (place w label content k port ++ parts w outer k e)

@[simp] theorem count_place (w : Place) (label : String) (content : Content) (k : Nat)
    (port : Option Port) : count (place w label content k port) = 1 := by
  cases port <;> rfl

theorem of_mem_some {α : Type} {P : α → Prop} {a : α} (h : P a) : ∀ b ∈ some a, P b := by
  intro b hb
  obtain rfl := Option.mem_some.mp hb
  exact h

section

variable {w : Place} {outer : List Place} {K : EdgeKind → Prop}

theorem Feeds.of_parts {port : Option Port} (hp : ∀ p ∈ port, K p.kind) {k : Nat} {e : Expr}
    (h : Feeds w outer K (some k) (k + 1) (parts w outer k e)) :
    Feeds w outer K (port.map (·.target)) k (expr w outer port k e) := by
  cases e with
  | name id =>
    cases port with
    | none => exact .nil ..
    | some port => exact .read id (hp port rfl) k
  | unsupported => exact .nil ..
  | literal text =>
    by_cases hport : port.isSome = true
    · rw [expr_eq_place rfl port k (.inl hport)]
      exact .node rfl hp h
    · rw [expr, if_neg hport]
      exact .nil ..
  | _ => simpa only [expr, parts, List.append_assoc] using Feeds.node rfl hp h

theorem Feeds.operand {owner k : Nat} {kind : EdgeKind} (hk : K kind) {e : Expr}
    (h : Feeds w outer K (some k) (k + 1) (parts w outer k e)) :
    Feeds w outer K (some owner) k (expr w outer (some ⟨owner, kind⟩) k e) :=
  have hport : ∀ p ∈ some (⟨owner, kind⟩ : Port), K p.kind := of_mem_some hk
  .of_parts hport h

variable (hK : ∀ kind, kind.isData = true → K kind)

include hK

set_option linter.unusedSectionVars false in
mutual
theorem feeds_operand (owner : Nat) {kind : EdgeKind} (hd : kind.isData = true) (k : Nat) :
    (e : Expr) → Feeds w outer K (some owner) k (expr w outer (some ⟨owner, kind⟩) k e)
  | .name _ | .literal _ | .unsupported => .operand (hK kind hd) (.nil ..)
  | .unary _ operand => .operand (hK kind hd) (feeds_operand k rfl _ operand)
  | .binary _ left right => .operand (hK kind hd)
    (.append (feeds_operand k rfl _ left) (feeds_operand k rfl _ right))
  | .call _ args => .operand (hK kind hd) (feeds_arguments k 0 _ args)
  | .methodCall receiver _ args => .operand (hK kind hd)
    (.append (feeds_operand k rfl _ receiver) (feeds_arguments k 0 _ args))
  | .attribute object _ => .operand (hK kind hd) (feeds_operand k rfl _ object)
  | .subscript value key => .operand (hK kind hd)
    (.append (feeds_operand k rfl _ value) (feeds_operand k rfl _ key))
  | .list items => .operand (hK kind hd) (feeds_elements k 0 _ items)
  | .dict entries => .operand (hK kind hd) (feeds_pairs k 0 _ entries)

theorem feeds_arguments (owner index k : Nat) :
    (args : List Arg) → Feeds w outer K (some owner) k (arguments w outer owner index k args)
  | [] => .nil ..
  | .positional value :: args =>
    .append (feeds_operand owner rfl k value) (feeds_arguments owner _ _ args)
  | .keyword _ value :: args =>
    .append (feeds_operand owner rfl k value) (feeds_arguments owner _ _ args)
  | .unpacked :: args => by
    unfold arguments
    exact feeds_arguments owner index k args

theorem feeds_elements (owner index k : Nat) :
    (items : List Expr) → Feeds w outer K (some owner) k (elements w outer owner index k items)
  | [] => .nil ..
  | item :: items => .append (feeds_operand owner rfl k item) (feeds_elements owner _ _ items)

theorem feeds_pairs (owner index k : Nat) :
    (entries : List Pair) → Feeds w outer K (some owner) k (pairs w outer owner index k entries)
  | [] => .nil ..
  | .mk key value :: rest => by
    unfold pairs
    rw [List.append_assoc]
    exact .append (feeds_operand owner rfl k key)
      (.append (feeds_operand owner rfl _ value) (feeds_pairs owner _ _ rest))
end

theorem feeds_parts (k : Nat) (e : Expr) :
    Feeds w outer K (some k) (k + 1) (parts w outer k e) := by
  cases e with
  | name | literal | unsupported => exact .nil ..
  | unary | «attribute» => exact feeds_operand hK k rfl ..
  | call => exact feeds_arguments hK ..
  | list => exact feeds_elements hK ..
  | dict => exact feeds_pairs hK ..
  | binary | subscript => exact .append (feeds_operand hK k rfl ..) (feeds_operand hK k rfl ..)
  | methodCall => exact .append (feeds_operand hK k rfl ..) (feeds_arguments hK ..)

end

theorem feeds_port {w : Place} {outer : List Place} (port : Option Port) (k : Nat) (e : Expr) :
    Feeds w outer (fun _ => True) (port.map (·.target)) k (expr w outer port k e) :=
  .of_parts (fun _ _ => trivial) (feeds_parts (fun _ _ => trivial) k e)

end Steps

end ScopedFlow
