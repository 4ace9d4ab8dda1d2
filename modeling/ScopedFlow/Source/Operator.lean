import ScopedFlow.Source.Primary

/-!
# Operators

Signs, powers, binary operators and comparisons.
-/

namespace ScopedFlow.Source

open Reader

/-- A power; its exponent may carry a sign. -/
def power (fuel : Nat) (sub : ExprReader) (ctx : Context) : Reader Operand := do
  let base ← primary fuel sub ctx
  let raised ← attempt do
    let _ ← after ctx
    require (!(← looksAt "**="))
    symbol powerOperator
    let _ ← beforeOperand ctx
    sub .unary ctx
  match raised with
  | some exponent => return ⟨.binary powerOperator base.expr exponent.expr, .other⟩
  | none => return base

/-- `await` with its operand; without one it is a name. -/
def awaited (fuel : Nat) (sub : ExprReader) (ctx : Context) : Reader Operand := do
  let operand ← attempt do
    keyword "await"
    let _ ← gap ctx true
    sub .unary ctx
  match operand with
  | some _ => return .unsupported
  | none => power fuel sub ctx

/-- A sign before an operand. A number with a plus or minus sign is one literal. -/
def signed (fuel : Nat) (sub : ExprReader) (ctx : Context) : Reader Operand := do
  let start ← here
  match ← rest with
  | c :: _ =>
    if c == '-' || c == '+' || c == '~' then
      advance 1
      let _ ← beforeOperand ctx
      let operand ← sub .unary ctx
      match operand.form with
      | .number =>
        if c == '~' then return ⟨.unary "~" operand.expr, .other⟩
        else return ⟨.literal (← sliceFrom start), .other⟩
      | _ => return ⟨.unary (String.singleton c) operand.expr, .other⟩
    else awaited fuel sub ctx
  | [] => refuse

/-- Binary operators that bind at least as strongly as `weakest`, behind a left operand. -/
def operations (fuel : Nat) (sub : ExprReader) (ctx : Context) :
    (steps weakest : Nat) → Operand → Reader Operand
  | 0, _, left => pure left
  | steps + 1, weakest, left => do
    let next ← attempt do
      let _ ← after ctx
      match binaryOperatorAt (← rest) with
      | some (op, strength) =>
        require (weakest ≤ strength)
        advance op.length
        let _ ← beforeOperand ctx
        let right ← signed fuel sub ctx
        return (op, ← operations fuel sub ctx steps (strength + 1) right)
      | none => refuse
    match next with
    | some (op, right) =>
      operations fuel sub ctx steps weakest ⟨.binary op left.expr right.expr, .other⟩
    | none => pure left

def arithmetic (fuel : Nat) (sub : ExprReader) (ctx : Context) : Reader Operand := do
  operations fuel sub ctx fuel weakestBinary (← signed fuel sub ctx)

def comparisonOperator (ctx : Context) : Reader String := do
  match comparisonSignAt (← rest) with
  | some op =>
    advance op.length
    return op
  | none =>
    let start ← here
    let first ← word
    if first = "in" then return first
    else if first = "not" then
      let _ ← before ctx
      keyword "in"
      sliceFrom start
    else
      require (first = "is")
      let _ ← attempt do
        let _ ← beforeOperand ctx
        keyword "not"
      sliceFrom start

/-- One comparison behind an operand: whether a continuation stands in it, the operator and the
right operand. -/
def comparisonStep (fuel : Nat) (sub : ExprReader) (ctx : Context) :
    Reader (Bool × String × Operand) := do
  let behind ← after ctx
  let op ← comparisonOperator ctx
  let lead ← beforeOperand ctx
  let right ← arithmetic fuel sub ctx
  return (behind.isEmpty && lead.isEmpty, op, right)

/-- Comparisons. Only a single one without continuations has a meaning. -/
def comparison (fuel : Nat) (sub : ExprReader) (ctx : Context) : Reader Operand := do
  let left ← arithmetic fuel sub ctx
  match ← repeated (comparisonStep fuel sub ctx) fuel with
  | [] => return left
  | [(true, op, right)] => return ⟨.binary op left.expr right.expr, .other⟩
  | _ => return .unsupported

/-- A word that `:=` gives a value. -/
def named (sub : ExprReader) (ctx : Context) : Reader Operand := do
  let id ← word
  require (id ∉ reserved)
  let _ ← after ctx
  symbol ":="
  let _ ← beforeOperand ctx
  let _ ← sub .disjunction ctx
  return .unsupported

end ScopedFlow.Source
