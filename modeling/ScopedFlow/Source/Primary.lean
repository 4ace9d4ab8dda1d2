import ScopedFlow.Source.Format

/-!
# Operands with what binds to them

Names, literals and brackets, with the calls, attributes and subscripts behind them.
-/

namespace ScopedFlow.Source

open Reader

def argument (sub : ExprReader) (ctx : Context) : Reader Arg := do
  let stars ← attempt (symbol "**" <|> symbol "*")
  if stars.isSome then
    let _ ← beforeOperand ctx
    let _ ← sub .full ctx
    return .unpacked
  let named ← attempt do
    let name ← word
    let _ ← after ctx
    equals
    return name
  match named with
  | some name =>
    let _ ← beforeOperand ctx
    return .keyword name (← sub .full ctx).expr
  | none => return .positional (← sub .full ctx).expr

/-- An argument with its text; a continuation counts as an argument without a meaning. -/
abbrev WrittenArg := String × Arg

def gapArgs (found : List String) : List WrittenArg :=
  found.map fun text => (text, .positional .unsupported)

def writtenArg (sub : ExprReader) (ctx : Context) : Reader WrittenArg := do
  let start ← here
  let arg ← argument sub ctx
  return (← sliceFrom start, arg)

def argumentsTail (sub : ExprReader) (ctx : Context) : (fuel : Nat) → Reader (List WrittenArg)
  | 0 => refuse
  | fuel + 1 => do
    let lead ← beforeItem ctx
    match ← attempt (symbol ")") with
    | some () => return gapArgs lead
    | none =>
      let arg ← writtenArg sub ctx
      let behind ← after ctx
      let args := gapArgs lead ++ arg :: gapArgs behind
      match ← attempt (symbol ",") with
      | some () => return args ++ (← argumentsTail sub ctx fuel)
      | none =>
        symbol ")"
        return args

/-- An argument list. A comma may stand alone in it, and a generator may be the only argument; the
latter has no meaning, and leaves no list. -/
def arguments (fuel : Nat) (sub : ExprReader) (outer : Context) :
    Reader (Option (List WrittenArg)) := do
  symbol "("
  let ctx := outer.free
  let lead ← beforeItem ctx
  match ← rest with
  | ')' :: _ =>
    advance 1
    return some (gapArgs lead)
  | ',' :: _ =>
    advance 1
    let behind ← beforeItem ctx
    symbol ")"
    return some (gapArgs (lead ++ behind))
  | _ =>
    let first ← writtenArg sub ctx
    let clauses : Reader Unit := do
      require (match first.2 with | .positional _ => true | _ => false)
      comprehension fuel sub ctx
    match ← afterFirst clauses ")" ctx with
    | .comprehension => return none
    | .close found => return some (gapArgs lead ++ first :: gapArgs found)
    | .comma found =>
      return some (gapArgs lead ++ first :: gapArgs found ++ (← argumentsTail sub ctx fuel))

def subscriptKey (sub : ExprReader) (ctx : Context) : Reader Operand := do
  let bound : Reader Unit := do
    let _ ← attempt do
      let _ ← gap ctx true
      sub .full ctx
  let first ← attempt (sub .full ctx)
  let sliced ← follow? ctx colon
  match first, sliced with
  | some key, none => return key
  | none, none => refuse
  | _, some _ =>
    bound
    let step ← follow? ctx colon
    if step.isSome then bound
    return .unsupported

/-- A subscript; only a single key has a meaning. -/
def subscriptKeys (fuel : Nat) (sub : ExprReader) (outer : Context) : Reader Expr := do
  symbol "["
  let ctx := outer.free
  let _ ← beforeOperand ctx
  let keys ← itemsOf (subscriptKey sub ctx) ctx fuel
  let _ ← after ctx
  symbol "]"
  match keys.operands with
  | [key] => return key.expr
  | _ => return .unsupported

/-- The call of an operand with a text. An attribute without brackets around it is a method of its
object. -/
def callOf (operand : Operand) (label : String) (args : List Arg) : Operand :=
  match operand.form, operand.expr with
  | .place, .attribute object name => ⟨.methodCall object name args, .other⟩
  | _, _ => ⟨.call label args, .other⟩

/-- Attributes, subscripts and, if wanted, calls behind an operand that begins at `start`. -/
def trailers (fuel : Nat) (sub : ExprReader) (ctx : Context)
    (calls : Bool) (start : Cursor) : (steps : Nat) → Operand → Reader Operand
  | 0, operand => pure operand
  | steps + 1, operand => do
    let label ← sliceFrom start
    let next ← attempt do
      let _ ← after ctx
      match ← rest with
      | '.' :: _ =>
        advance 1
        let _ ← before ctx
        return ⟨.attribute operand.expr (← word), .place⟩
      | '[' :: _ => return ⟨.subscript operand.expr (← subscriptKeys fuel sub ctx), .place⟩
      | '(' :: _ =>
        require calls
        let args ← arguments fuel sub ctx
        return callOf operand label ((args.getD []).map (·.2))
      | _ => refuse
    match next with
    | some operand => trailers fuel sub ctx calls start steps operand
    | none => pure operand

def nameOrConstant : Reader Operand := do
  let id ← word
  if id ∈ constantWords then return ⟨.literal id, .other⟩
  require (id ∉ reserved)
  return .ofName id

def atom (fuel : Nat) (sub : ExprReader) (ctx : Context) :
    Reader Operand := do
  let cs ← rest
  if startsString cs then stringLiteral fuel sub ctx
  else if 0 < numberLength cs then
    let start ← here
    advance (numberLength cs)
    return ⟨.literal (← sliceFrom start), .number⟩
  else
    match cs with
    | '.' :: '.' :: '.' :: _ =>
      advance 3
      return ⟨.literal "...", .other⟩
    | '(' :: _ => roundBracket fuel sub ctx
    | '[' :: _ => squareBracket fuel sub ctx
    | '\x7b' :: _ => curlyBracket fuel sub ctx
    | _ => nameOrConstant

def starredPlace (fuel : Nat) (sub : ExprReader) (ctx : Context) :
    Reader Operand := do
  star
  let _ ← beforeOperand ctx
  let start ← here
  let operand ← trailers fuel sub ctx false start fuel (← atom fuel sub ctx)
  match operand.form with
  | .name _ | .place => return ⟨.unsupported, .unpack⟩
  | _ => refuse

def primary (fuel : Nat) (sub : ExprReader) (ctx : Context) : Reader Operand := do
  let start ← here
  let operand ← starredPlace fuel sub ctx <|> atom fuel sub ctx
  trailers fuel sub ctx true start fuel operand

end ScopedFlow.Source
