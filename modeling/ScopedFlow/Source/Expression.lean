import ScopedFlow.Source.Parameter

/-!
# Whole expressions

The reader of inner expressions is the reader itself with less fuel. Inner expressions start behind
at least one character of the outer one, so the length of the text is fuel enough.
-/

namespace ScopedFlow.Source

open Reader

/-- `not` binds tighter than `and`, and looser than a comparison. -/
def inversion (fuel : Nat) (sub : ExprReader) (ctx : Context) : Reader Operand := do
  match String.ofList (leadingWord (← rest)) with
  | "not" =>
    keyword "not"
    let _ ← beforeOperand ctx
    return ⟨.unary "not" (← sub .inversion ctx).expr, .other⟩
  | "lambda" => anonymous fuel sub ctx
  | _ => named sub ctx <|> comparison fuel sub ctx

/-- Operands of one level with a word between them, grouped to the left. -/
def wordChain (op : String) (operand : Reader Operand) (ctx : Context) :
    (steps : Nat) → Operand → Reader Operand
  | 0, left => pure left
  | steps + 1, left => do
    let next ← attempt do
      let _ ← after ctx
      keyword op
      let _ ← beforeOperand ctx
      operand
    match next with
    | some right => wordChain op operand ctx steps ⟨.binary op left.expr right.expr, .other⟩
    | none => pure left

def conjunction (fuel : Nat) (sub : ExprReader) (ctx : Context) : Reader Operand := do
  wordChain "and" (inversion fuel sub ctx) ctx fuel (← inversion fuel sub ctx)

def disjunction (fuel : Nat) (sub : ExprReader) (ctx : Context) : Reader Operand := do
  wordChain "or" (conjunction fuel sub ctx) ctx fuel (← conjunction fuel sub ctx)

/-- An expression, possibly with a name that `as` gives it. -/
def unconditional (fuel : Nat) (sub : ExprReader) (ctx : Context) : Reader Operand := do
  let value ← disjunction fuel sub ctx
  let aliases ← repeated (do
    let _ ← after ctx
    keyword "as"
    let _ ← beforeOperand ctx
    sub .disjunction ctx) fuel
  if aliases.isEmpty then return value else return .unsupported

def conditional (fuel : Nat) (sub : ExprReader) (ctx : Context) : Reader Operand := do
  let value ← unconditional fuel sub ctx
  match ← follow? ctx (keyword "if") with
  | none => return value
  | some _ =>
    let _ ← beforeOperand ctx
    let _ ← sub .full ctx.checked
    let _ ← before ctx
    keyword "else"
    let _ ← beforeOperand ctx
    let _ ← sub .full ctx
    return .unsupported

def expression : (fuel : Nat) → ExprReader
  | 0, _, _ => refuse
  | fuel + 1, level, ctx =>
    let sub := expression fuel
    match level with
    | .full => conditional fuel sub ctx
    | .unconditional => unconditional fuel sub ctx
    | .disjunction => disjunction fuel sub ctx
    | .inversion => inversion fuel sub ctx
    | .unary => signed fuel sub ctx
    | .primary => primary fuel sub ctx

end ScopedFlow.Source
