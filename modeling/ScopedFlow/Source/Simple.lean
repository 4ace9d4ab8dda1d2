import ScopedFlow.Source.Expression

/-!
# Statements of one line

`print`, `exec` and `type` are statements only where the line has no reading as an expression, or
none without them.
-/

namespace ScopedFlow.Source

open Reader

def exprHere : ExprReader := fun level ctx c => expression (c.rest.length + 1) level ctx c

def exprItems (ctx : Context) : Reader Items := do
  itemsOf (exprHere .full ctx) ctx ((← rest).length + 1)

def separated {α : Type} (item : Reader α) (ctx : Context) : Reader Unit := do
  let _ ← item
  let _ ← repeated (do
    let _ ← after ctx
    symbol ","
    let _ ← beforeOperand ctx
    item) ((← rest).length + 1)

/-- A statement ends at the end of its line or at a semicolon. -/
def statementEnd (ctx : Context) : Reader Unit := do
  if ← atLineEnd then pure ()
  else
    require (← wouldRead do
      let _ ← after ctx
      symbol ";")

/-- A line of values, possibly with an assignment. -/
inductive Line where
  | values (items : Items)
  | assigned (stmt : Stmt)
  | augmented (stmt : Stmt)

def Line.value : Line → Expr
  | .values items => items.value
  | _ => .unsupported

/-- Only a single name can be assigned to, and only once in a line. -/
def Line.assign (items : Items) (right : Line) : Line :=
  match items.name?, right with
  | _, .assigned _ => .assigned .skip
  | some name, _ => .assigned (.assign name right.value)
  | none, _ => .assigned .skip

def Line.augment (items : Items) (op : String) (right : Line) : Line :=
  match items.name? with
  | some name => .augmented (.augment name op right.value)
  | none => .augmented .skip

/-- What stands between the target and the value of an assignment. -/
inductive Assignment where
  | equals
  | typed
  | operator (op : String)

def assignmentSign : Reader Assignment := do
  match assigningOperatorAt (← rest) with
  | some op =>
    advance (op.length + 1)
    return .operator op
  | none =>
    match ← attempt equals with
    | some () => return .equals
    | none =>
      colon
      return .typed

/-- Values, or targets with the values assigned to them. -/
def line (ctx : Context) : (fuel : Nat) → Reader Line
  | 0 => refuse
  | fuel + 1 => do
    match ← attempt (yielded fuel exprHere ctx) with
    | some operand => return .values ⟨[operand], false, []⟩
    | none =>
      let items ← exprItems ctx
      let right : Reader Line := do
        let _ ← beforeOperand ctx
        line ctx fuel
      match ← follow? ctx assignmentSign with
      | none => return .values items
      | some (_, sign) =>
        require items.isTarget
        match sign with
        | .equals => return Line.assign items (← right)
        | .operator op => return Line.augment items op (← right)
        | .typed =>
          let _ ← beforeOperand ctx
          typeOf exprHere ctx
          match ← follow? ctx equals with
          | some _ => return Line.assign items (← right)
          | none => return .assigned .skip

/-- An expression or an assignment as a statement. Several expressions are skipped. -/
def exprStatement (ctx : Context) : Reader Stmt := do
  match ← line ctx ((← rest).length + 1) with
  | .assigned stmt | .augmented stmt => return stmt
  | .values items =>
    match items.operands, items.continuations with
    | [operand], [] => return .eval operand.expr
    | _, _ => return .skip

def dottedName (ctx : Context) : Reader String := do
  let start ← here
  let _ ← word
  let _ ← repeated (do
    let _ ← after ctx
    symbol "."
    let _ ← before ctx
    word) ((← rest).length + 1)
  sliceFrom start

def importItem (ctx : Context) : Reader (String × Option String) := do
  let name ← dottedName ctx
  let given ← follow? ctx do
    keyword "as"
    let _ ← before ctx
    word
  return (name, given.map (·.2))

/-- Imported names with commas between them; the last comma may have none behind it. -/
def importItems (ctx : Context) : Reader (List (String × Option String)) := do
  let first ← importItem ctx
  let others ← repeated (do
    let _ ← after ctx
    symbol ","
    let _ ← after ctx
    importItem ctx) ((← rest).length + 1)
  let _ ← follow? ctx (symbol ",")
  return first :: others

def firstPart (name : String) : String := String.ofList (name.toList.takeWhile (· ≠ '.'))

def lastPart (name : String) : String :=
  String.ofList (name.toList.reverse.takeWhile (· ≠ '.')).reverse

def importStatement (ctx : Context) : Reader Stmt := do
  let start ← here
  keyword "import"
  let _ ← before ctx
  let items ← importItems ctx
  return .import (← sliceFrom start) (items.map fun item => item.2.getD (firstPart item.1))

/-- The module of a `from`: dots, a dotted name, or both. -/
def moduleName (ctx : Context) : Reader String := do
  let start ← here
  let dots ← repeated (do
    let _ ← before ctx
    symbol ".") ((← rest).length + 1)
  let name ← attempt do
    let _ ← before ctx
    require (leadingWord (← rest) ≠ "import".toList)
    dottedName ctx
  require (!dots.isEmpty || name.isSome)
  sliceFrom start

/-- Names imported from a module; none for all of them. -/
def importedNames (ctx : Context) : Reader (List (String × Option String)) := do
  match ← rest with
  | '*' :: _ =>
    advance 1
    return []
  | '(' :: _ =>
    advance 1
    let _ ← before ctx.free
    let items ← importItems ctx.free
    let _ ← after ctx.free
    symbol ")"
    return items
  | _ => importItems ctx

def fromStatement (ctx : Context) : Reader Stmt := do
  let start ← here
  keyword "from"
  let _ ← before ctx
  let module ← moduleName ctx
  let _ ← before ctx
  keyword "import"
  let _ ← before ctx
  let items ← importedNames ctx
  let bindings := items.map fun item => item.2.getD (lastPart item.1)
  return .import (← sliceFrom start) (if module = "__future__" then [] else bindings)

/-- A value counts only if nothing stands between it and `return`. -/
def returnStatement (ctx : Context) : Reader Stmt := do
  keyword "return"
  let value ← attempt do
    let found ← gap ctx true
    let items ← exprItems ctx
    return if found.isEmpty then items.value else .unsupported
  return .ret value

def wordWithItems (text : String) (ctx : Context) : Reader Unit := do
  keyword text
  let _ ← beforeOperand ctx
  let _ ← exprItems ctx

def raiseStatement (ctx : Context) : Reader Unit := do
  keyword "raise"
  let _ ← attempt do
    let _ ← gap ctx true
    exprItems ctx
  let _ ← follow? ctx do
    keyword "from"
    let _ ← beforeOperand ctx
    exprHere .full ctx

def printTo (ctx : Context) : Reader Unit := do
  keyword "print"
  let _ ← after ctx
  symbol ">>"
  let _ ← beforeOperand ctx
  let _ ← exprItems ctx

def execStatement (ctx : Context) : Reader Unit := do
  keyword "exec"
  let _ ← beforeOperand ctx
  let code ← exprHere .primary ctx
  require
    (match code.expr, code.form with
    | .name _, .name _ | .literal _, .other => true
    | _, _ => false)
  let _ ← follow? ctx do
    keyword "in"
    let _ ← beforeOperand ctx
    separated (exprHere .full ctx) ctx

def typeStatement (ctx : Context) : Reader Unit := do
  keyword "type"
  let _ ← after ctx
  typeOf exprHere ctx
  let _ ← after ctx
  equals
  let _ ← beforeOperand ctx
  typeOf exprHere ctx

def complete {α : Type} (p : Reader α) (ctx : Context) : Reader α := do
  let a ← p
  statementEnd ctx
  return a

def simpleStatement (ctx : Context) : Reader Stmt := do
  let skipping (p : Reader Unit) : Reader Stmt := do
    p
    return .skip
  match String.ofList (leadingWord (← rest)) with
  | "import" => importStatement ctx
  | "from" => fromStatement ctx
  | "return" => returnStatement ctx
  | "assert" => skipping do
    keyword "assert"
    let _ ← beforeOperand ctx
    separated (exprHere .full ctx) ctx
  | "del" => skipping (wordWithItems "del" ctx)
  | "raise" => skipping (raiseStatement ctx)
  | "pass" => skipping (keyword "pass")
  | "break" => skipping (keyword "break")
  | "continue" => skipping (keyword "continue")
  | "global" | "nonlocal" => skipping do
    let _ ← word
    let _ ← before ctx
    separated word ctx
  | "print" =>
    skipping (complete (printTo ctx) ctx) <|> complete (exprStatement ctx) ctx <|>
      skipping (wordWithItems "print" ctx)
  | "exec" => complete (exprStatement ctx) ctx <|> skipping (execStatement ctx)
  | "type" => skipping (complete (typeStatement ctx) ctx) <|> exprStatement ctx
  | _ => exprStatement ctx

/-- Simple statements with semicolons between them, up to the end of the line. -/
def simpleLine (ctx : Context) : (fuel : Nat) → Reader (List Stmt)
  | 0 => refuse
  | fuel + 1 => do
    let stmt ← simpleStatement ctx
    if ← atLineEnd then return [stmt]
    else
      let _ ← after ctx
      symbol ";"
      if ← atLineEnd then return [stmt]
      else
        let _ ← gap ctx true
        return stmt :: (← simpleLine ctx fuel)

end ScopedFlow.Source
