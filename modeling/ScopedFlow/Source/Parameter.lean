import ScopedFlow.Source.Operator

/-!
# Formal parameters in a text

They have types in the header of a definition, and none in an anonymous function.
-/

namespace ScopedFlow.Source

open Reader

def typeOf (sub : ExprReader) (ctx : Context) : Reader Unit := do
  match ← attempt (symbol "**") with
  | some () =>
    let _ ← before ctx
    let _ ← word
  | none =>
    let _ ← sub .full ctx

def starredParam (kind : ParamKind) (fuel : Nat) (sub : ExprReader) (ctx : Context) :
    Reader Param := do
  let found ← before ctx
  let start ← here
  let operand ← trailers fuel sub ctx false start fuel (.ofName (← word))
  require operand.form.isTarget
  let text ← sliceFrom start
  return .variadic (found.head?.getD text) kind

def declaredType (sub : ExprReader) (ctx : Context) : Reader Unit := do
  let _ ← after ctx
  colon
  let _ ← beforeOperand ctx
  typeOf sub ctx

def defaultValue (sub : ExprReader) (ctx : Context) : Reader String := do
  let _ ← after ctx
  equals
  let _ ← beforeOperand ctx
  let start ← here
  let _ ← sub .full ctx
  sliceFrom start

/-- A parameter, where `typed` allows types. A bracketed parameter without a default leaves
nothing behind. -/
def parameter (typed : Bool) (fuel : Nat) (sub : ExprReader) (ctx : Context) :
    Reader (Option Param) := do
  let types : Reader Unit := do
    if typed then
      let _ ← attempt (declaredType sub ctx)
  match ← rest with
  | '*' :: '*' :: _ =>
    advance 2
    let param ← starredParam .kwArgs fuel sub ctx
    types
    return some param
  | '*' :: _ =>
    advance 1
    match ← attempt (starredParam .varArgs fuel sub ctx) with
    | some param =>
      types
      return some param
    | none => return some (.separator .keywordOnly)
  | '/' :: _ =>
    advance 1
    return some (.separator .positionalOnly)
  | '(' :: _ =>
    let start ← here
    let operand ← roundBracket fuel sub ctx
    require operand.form.isTarget
    let name ← sliceFrom start
    let value ← attempt (defaultValue sub ctx)
    return value.map (Param.withDefault name)
  | _ =>
    let name ← word
    types
    match ← attempt (defaultValue sub ctx) with
    | some value => return some (.withDefault name value)
    | none => return some (.required name)

def parameters (typed : Bool) (fuel : Nat) (sub : ExprReader) (ctx : Context) :
    (steps : Nat) → Reader (List Param)
  | 0 => pure []
  | steps + 1 => do
    match ← attempt (parameter typed fuel sub ctx) with
    | none => return []
    | some param =>
      match ← follow? ctx (symbol ",") with
      | none => return param.toList
      | some _ =>
        let more ← attempt do
          let _ ← after ctx
          parameters typed fuel sub ctx steps
        return param.toList ++ more.getD []

def anonymous (fuel : Nat) (sub : ExprReader) (ctx : Context) : Reader Operand := do
  keyword "lambda"
  let head := ctx.checked
  let _ ← attempt do
    let _ ← before head
    parameters false fuel sub head fuel
  let _ ← before head
  symbol ":"
  let _ ← beforeOperand ctx
  let _ ← sub .full ctx
  return .unsupported

end ScopedFlow.Source
