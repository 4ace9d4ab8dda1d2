import ScopedFlow.Source.Bracket

/-!
# String literals with the expressions that they format
-/

namespace ScopedFlow.Source

open Reader

/-- The format behind the colon of an interpolation, up to the brace that ends it. -/
def formatSpec (interpolation : Reader Unit) : (fuel : Nat) → Reader Unit
  | 0 => refuse
  | fuel + 1 => do
    match ← rest with
    | [] => refuse
    | c :: _ =>
      if c == '\x7d' then pure ()
      else if c == '\x7b' then
        advance 1
        interpolation
        formatSpec interpolation fuel
      else
        advance 1
        formatSpec interpolation fuel

def conversion : Reader Unit := do
  symbol "!"
  match ← rest with
  | c :: _ => if c.isLower then advance 1 else refuse
  | [] => refuse

/-- An interpolation behind its opening brace. Formats may nest as deep as `fuel`. -/
def interpolation (sub : ExprReader) : (fuel : Nat) → Reader Unit
  | 0 => refuse
  | fuel + 1 => do
    let ctx : Context := ⟨0, .free⟩
    let _ ← beforeOperand ctx
    let yields ← attempt (yielded fuel sub ctx)
    if yields.isNone then
      let _ ← itemsOf (sub .full ctx) ctx fuel
    let _ ← follow? ctx equals
    let _ ← follow? ctx conversion
    let _ ← after ctx
    match ← attempt (symbol ":") with
    | some () =>
      formatSpec (interpolation sub fuel) ((← rest).length + 1)
      symbol "\x7d"
    | none => symbol "\x7d"

def stringLiteral (fuel : Nat) (sub : ExprReader) (ctx : Context) : Reader Operand := do
  let start ← here
  let inner := interpolation sub fuel
  quoted inner
  moreStrings ctx inner fuel
  return ⟨.literal (← sliceFrom start), .other⟩

end ScopedFlow.Source
