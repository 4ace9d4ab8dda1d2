import ScopedFlow.Source.Simple

/-!
# Patterns of the cases of a `match`

They are read only to find their end.
-/

namespace ScopedFlow.Source

open Reader

def bracketedPatterns (item : Context → Reader Unit) (opening closing : String) (outer : Context) :
    Reader Unit := do
  symbol opening
  let ctx := outer.free
  let _ ← attempt do
    let _ ← beforeItem ctx
    item ctx
    let _ ← repeated (do
      let _ ← after ctx
      symbol ","
      let _ ← beforeItem ctx
      item ctx) ((← rest).length + 1)
    follow? ctx (symbol ",")
  let _ ← after ctx
  symbol closing

def numberPattern (ctx : Context) : Reader Unit := do
  let number : Reader Unit := do
    let length := numberLength (← rest)
    require (0 < length)
    advance length
  let _ ← attempt do
    symbol "-"
    before ctx
  number
  let _ ← follow? ctx do
    symbol "+" <|> symbol "-"
    let _ ← before ctx
    number

/-- A dotted name, possibly a class with patterns for its parts. -/
def classPattern (sub : Context → Reader Unit) (ctx : Context) : Reader Unit := do
  require (String.ofList (leadingWord (← rest)) ∉ reserved)
  let _ ← dottedName ctx
  let _ ← attempt do
    let _ ← after ctx
    bracketedPatterns sub "(" ")" ctx

def closedPattern (sub : Context → Reader Unit) (ctx : Context) : Reader Unit := do
  let cs ← rest
  if startsString cs then
    let _ ← stringLiteral (cs.length + 1) exprHere ctx
  else
    match cs with
    | '*' :: _ =>
      symbol "**" <|> symbol "*"
      let _ ← before ctx
      let _ ← word
    | '(' :: _ => bracketedPatterns sub "(" ")" ctx
    | '[' :: _ => bracketedPatterns sub "[" "]" ctx
    | '\x7b' :: _ =>
      let entry (ctx : Context) : Reader Unit := do
        sub ctx
        let _ ← follow? ctx do
          colon
          let _ ← beforeOperand ctx
          sub ctx
      bracketedPatterns entry "\x7b" "\x7d" ctx
    | _ => numberPattern ctx <|> classPattern sub ctx

/-- A pattern, possibly with alternatives and a name. -/
def casePattern : (fuel : Nat) → Context → Reader Unit
  | 0, _ => refuse
  | fuel + 1, ctx => do
    let sub := casePattern fuel
    let _ ← attempt do
      let _ ← word
      let _ ← after ctx
      equals
      beforeOperand ctx
    closedPattern sub ctx
    let _ ← repeated (do
      let _ ← after ctx
      symbol "|"
      let _ ← beforeOperand ctx
      closedPattern sub ctx) fuel
    let _ ← follow? ctx do
      keyword "as"
      let _ ← before ctx
      word

def casePatterns (ctx : Context) : Reader Unit := do
  let fuel := (← rest).length + 1
  casePattern fuel ctx
  let _ ← repeated (do
    let _ ← after ctx
    symbol ","
    let _ ← beforeOperand ctx
    casePattern fuel ctx) fuel
  let _ ← follow? ctx (symbol ",")
  let _ ← follow? ctx do
    keyword "if"
    let _ ← beforeOperand ctx
    exprHere .unconditional ctx

end ScopedFlow.Source
