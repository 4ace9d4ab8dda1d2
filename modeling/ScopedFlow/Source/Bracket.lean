import ScopedFlow.Source.Operand

/-!
# Brackets

Lists, tuples, sets, dictionaries, groupings, and comprehensions of all of them. A reader here takes
the reader of inner expressions as `sub`, and a number `fuel` that bounds its loops.
-/

namespace ScopedFlow.Source

open Reader

def yielded (fuel : Nat) (sub : ExprReader) (ctx : Context) : Reader Operand := do
  keyword "yield"
  let delegated ← attempt do
    let _ ← gap ctx true
    keyword "from"
    let _ ← beforeOperand ctx
    sub .full ctx
  if delegated.isNone then
    let _ ← attempt do
      let _ ← gap ctx true
      itemsOf (sub .full ctx) ctx fuel
  return .unsupported

def element (fuel : Nat) (sub : ExprReader) (ctx : Context) : Reader Operand := do
  let starred ← attempt star
  if starred.isSome then
    let _ ← beforeOperand ctx
    let operand ← sub .full ctx
    return ⟨.unsupported, operand.form.starred⟩
  else yielded fuel sub ctx <|> sub .full ctx

/-- One clause of a comprehension; the first one is a loop. -/
def comprehensionClause (fuel : Nat) (sub : ExprReader) (ctx : Context) (head : Bool) :
    Reader Unit := do
  let _ ← after ctx
  let clause ← word
  if clause = "if" && !head then
    let _ ← beforeOperand ctx
    let _ ← sub .unconditional ctx
  else
    if clause = "async" then
      let _ ← before ctx
      keyword "for"
    else require (clause = "for")
    let _ ← beforeOperand ctx
    let targets ← itemsOf (sub .primary ctx.checked) ctx.checked fuel
    require targets.isTarget
    let _ ← before ctx
    keyword "in"
    let _ ← beforeOperand ctx
    let _ ← itemsOf (sub .unconditional ctx) ctx fuel

def comprehension (fuel : Nat) (sub : ExprReader) (ctx : Context) :
    Reader Unit := do
  comprehensionClause fuel sub ctx true
  let _ ← repeated (comprehensionClause fuel sub ctx false) fuel

/-- What may follow the first item of a bracket. -/
inductive AfterFirst where
  | comprehension
  | comma (continuations : List String)
  | close (continuations : List String)

def afterFirst (clauses : Reader Unit) (closing : String) (ctx : Context) : Reader AfterFirst := do
  match ← attempt clauses with
  | some () =>
    let _ ← after ctx
    symbol closing
    return .comprehension
  | none =>
    let found ← after ctx
    match ← attempt (symbol ",") with
    | some () => return .comma found
    | none =>
      symbol closing
      return .close found

/-- The items of a bracket behind a comma, up to its end. A continuation counts as an item that
is not there. -/
def bracketTail (item : Reader Operand) (closing : String) (ctx : Context) :
    (fuel : Nat) → Reader (List (Option Operand))
  | 0 => refuse
  | fuel + 1 => do
    let lead := (← beforeItem ctx).map fun _ => none
    match ← attempt (symbol closing) with
    | some () => return lead
    | none =>
      let operand ← item
      let behind ← after ctx
      let items := lead ++ some operand :: behind.map fun _ => none
      match ← attempt (symbol ",") with
      | some () => return items ++ (← bracketTail item closing ctx fuel)
      | none =>
        symbol closing
        return items

def itemForms (items : List (Option Operand)) : List Form :=
  items.filterMap fun item => item.map (·.form)

def itemExprs (items : List (Option Operand)) : List Expr :=
  items.map fun item => (item.map (·.expr)).getD .unsupported

/-- The rest of a round bracket: a grouping, a tuple or a generator. -/
def roundBracket (fuel : Nat) (sub : ExprReader) (outer : Context) :
    Reader Operand := do
  symbol "("
  let ctx := outer.free
  let lead ← beforeItem ctx
  match ← attempt (symbol ")") with
  | some () => return ⟨.unsupported, .group []⟩
  | none =>
    let item := element fuel sub ctx
    let first ← item
    match ← afterFirst (comprehension fuel sub ctx) ")" ctx with
    | .comprehension => return .unsupported
    | .close _ =>
      return ⟨if lead.isEmpty then first.expr else .unsupported, .group [first.form]⟩
    | .comma _ =>
      let others ← bracketTail item ")" ctx fuel
      return ⟨.unsupported, .group (first.form :: itemForms others)⟩

def squareBracket (fuel : Nat) (sub : ExprReader) (outer : Context) :
    Reader Operand := do
  symbol "["
  let ctx := outer.free
  let lead ← beforeItem ctx
  let gaps (found : List String) := found.map fun _ => Expr.unsupported
  match ← attempt (symbol "]") with
  | some () => return ⟨.list (gaps lead), .group []⟩
  | none =>
    let item := element fuel sub ctx
    let first ← item
    match ← afterFirst (comprehension fuel sub ctx) "]" ctx with
    | .comprehension => return .unsupported
    | .close found =>
      return ⟨.list (gaps lead ++ first.expr :: gaps found), .group [first.form]⟩
    | .comma found =>
      let others ← bracketTail item "]" ctx fuel
      return ⟨.list (gaps lead ++ first.expr :: gaps found ++ itemExprs others),
        .group (first.form :: itemForms others)⟩

/-- An entry of a dictionary; an unpacked one leaves no pair. -/
def entry (sub : ExprReader) (ctx : Context) : Reader (Option Pair) := do
  match ← attempt (symbol "**") with
  | some () =>
    let _ ← beforeOperand ctx
    let _ ← sub .full ctx
    return none
  | none =>
    let key ← sub .full ctx
    let _ ← after ctx
    colon
    let _ ← beforeOperand ctx
    let value ← sub .full ctx
    return some (.mk key.expr value.expr)

def entriesTail (sub : ExprReader) (ctx : Context) : (fuel : Nat) → Reader (List Pair)
  | 0 => refuse
  | fuel + 1 => do
    let _ ← beforeItem ctx
    match ← attempt (symbol "\x7d") with
    | some () => return []
    | none =>
      let pair ← entry sub ctx
      let _ ← after ctx
      match ← attempt (symbol ",") with
      | some () => return pair.toList ++ (← entriesTail sub ctx fuel)
      | none =>
        symbol "\x7d"
        return pair.toList

/-- An empty dictionary; a comma may stand alone in it. -/
def emptyBraces (ctx : Context) : Reader Unit := do
  match ← attempt (symbol ",") with
  | some () =>
    let _ ← beforeItem ctx
    symbol "\x7d"
  | none => symbol "\x7d"

def curlyBracket (fuel : Nat) (sub : ExprReader) (outer : Context) : Reader Operand := do
  symbol "\x7b"
  let ctx := outer.free
  let _ ← beforeItem ctx
  let clauses := comprehension fuel sub ctx
  let dictionary (pair : Option Pair) : Reader Operand := do
    match ← afterFirst clauses "\x7d" ctx with
    | .comprehension => return .unsupported
    | .close _ => return ⟨.dict pair.toList, .other⟩
    | .comma _ => return ⟨.dict (pair.toList ++ (← entriesTail sub ctx fuel)), .other⟩
  if (← attempt (emptyBraces ctx)).isSome then return ⟨.dict [], .other⟩
  if ← looksAt "**" then dictionary (← entry sub ctx)
  else
    let item := element fuel sub ctx
    let first ← item
    match ← follow? ctx colon with
    | some _ =>
      let _ ← beforeOperand ctx
      dictionary (some (.mk first.expr (← sub .full ctx).expr))
    | none =>
      match ← afterFirst clauses "\x7d" ctx with
      | .comma _ =>
        let _ ← bracketTail item "\x7d" ctx fuel
        return .unsupported
      | _ => return .unsupported

end ScopedFlow.Source
