import ScopedFlow.Source.Pattern

/-!
# Statements with blocks

Every reader here takes the reader of inner blocks as `block`.
-/

namespace ScopedFlow.Source

open Reader

/-- A reader of the statements of a block with a given indentation, together with the
continuations before the first of them. -/
abbrev BlockReader := Nat → Reader (List Stmt × List String)

/-- What follows the colon of a header, together with the continuations before it. -/
def suite (block : BlockReader) (ctx : Context) : Reader (List Stmt × List String) := do
  match (← here).suiteStart ctx.indent with
  | .empty => return ([], [])
  | .block indent => block indent
  | .inline found place =>
    goTo place
    return (← simpleLine ctx.stops (place.rest.length + 1), found)

def body (block : BlockReader) (ctx : Context) : Reader (List Stmt) := do
  let _ ← before ctx
  symbol ":"
  return (← suite block ctx).1

/-- Goes to the next line of the same block. -/
def nextLine (ctx : Context) : Reader Unit := do
  match (← here).lineStart ctx.indent with
  | .blockEnd => refuse
  | .statement _ place => goTo place

def clause (ctx : Context) (text : String) : Reader Unit := do
  nextLine ctx
  keyword text

def phrase (level : Level) (ctx : Context) : Reader Phrase := do
  let start ← here
  let operand ← exprHere level ctx
  return ⟨← sliceFrom start, operand.expr⟩

def guarded (block : BlockReader) (ctx : Context) : Reader (Phrase × List Stmt) := do
  let _ ← beforeOperand ctx
  let test ← phrase .full ctx.checked
  return (test, ← body block ctx)

def elseClause (block : BlockReader) (ctx : Context) : Reader (List Stmt) := do
  clause ctx "else"
  body block ctx

def alternatives (block : BlockReader) (ctx : Context) : (fuel : Nat) → Reader Alternatives
  | 0 => pure .done
  | fuel + 1 => do
    match ← attempt (clause ctx "elif") with
    | some () =>
      let (test, stmts) ← guarded block ctx
      return .elif test stmts (← alternatives block ctx fuel)
    | none =>
      match ← attempt (clause ctx "else") with
      | some () => return .otherwise (← body block ctx)
      | none => return .done

def ifStatement (block : BlockReader) (ctx : Context) : Reader Stmt := do
  keyword "if"
  let (test, stmts) ← guarded block ctx
  return .branch test stmts (← alternatives block ctx ((← rest).length + 1))

def whileStatement (block : BlockReader) (ctx : Context) : Reader Stmt := do
  keyword "while"
  let (test, stmts) ← guarded block ctx
  if ← wouldRead (clause ctx "else") then
    let _ ← elseClause block ctx
  return .while test stmts

def forStatement (block : BlockReader) (ctx : Context) : Reader Stmt := do
  keyword "for"
  let head := ctx.checked
  let _ ← beforeOperand head
  let start ← here
  let targets ← itemsOf (exprHere .primary head) head (start.rest.length + 1)
  require targets.isTarget
  let target : Target := ⟨← sliceFrom start, boundNames targets.forms⟩
  let _ ← before head
  keyword "in"
  let _ ← beforeOperand head
  let start ← here
  let items ← exprItems head
  let source : Phrase := ⟨← sliceFrom start, items.value⟩
  let stmts ← body block ctx
  if ← wouldRead (clause ctx "else") then
    let _ ← elseClause block ctx
  return .each target source stmts

def withStatement (block : BlockReader) (ctx : Context) : Reader Unit := do
  keyword "with"
  let _ ← beforeOperand ctx
  let _ ← exprItems ctx.checked
  let _ ← body block ctx

/-- A part of the header of a handler; `inner` holds the parts of a value with a name. -/
structure HandlerPart where
  whole : Phrase
  inner : Option (Phrase × String)

namespace HandlerPart

def ofText (text : String) : HandlerPart := ⟨⟨text, .unsupported⟩, none⟩

/-- The exception that a handler is for, and the name it binds, by the parts of its header. -/
def resolve : List HandlerPart → Option Phrase × Option String
  | [] => (none, none)
  | part :: rest =>
    match part.inner with
    | some (value, name) => (some value, some name)
    | none => (some part.whole, rest.head?.map (·.whole.text))

end HandlerPart

/-- A value with a name that `as` gives it. Continuations between the two stand first among what
follows the value. -/
def namedException (ctx : Context) : Reader HandlerPart := do
  let start ← here
  let value ← phrase .disjunction ctx
  let behind ← after ctx
  keyword "as"
  let lead ← beforeOperand ctx
  let name ← phrase .disjunction ctx
  require (← wouldRead do
    let _ ← after ctx
    symbol ":" <|> symbol ",")
  return ⟨⟨← sliceFrom start, .unsupported⟩,
    some (value, ((behind ++ lead).head?.getD name.text))⟩

def handlerParts (ctx : Context) : Reader (List HandlerPart) := do
  let lead := (← beforeOperand ctx).map HandlerPart.ofText
  if ← looksAt ":" then return lead
  else
    let value ← namedException ctx <|> do
      return ⟨← phrase .full ctx, none⟩
    let second ← follow? ctx do
      symbol ","
      let found ← beforeOperand ctx
      return (found, ← phrase .full ctx)
    let others :=
      match second with
      | some (behind, found, name) => (behind ++ found).map HandlerPart.ofText ++ [⟨name, none⟩]
      | none => []
    let last ← after ctx
    return lead ++ value :: others ++ last.map HandlerPart.ofText

def handler (block : BlockReader) (ctx : Context) : Reader Handler := do
  let parts ← handlerParts ctx.checked
  symbol ":"
  let (stmts, found) ← suite block ctx
  let (exception, binding) := HandlerPart.resolve (parts ++ found.map HandlerPart.ofText)
  return .mk exception binding stmts

def groupHandler (block : BlockReader) (ctx : Context) : Reader Unit := do
  nextLine ctx
  symbol "except*"
  let _ ← beforeOperand ctx
  let _ ← exprHere .full ctx.checked
  let _ ← body block ctx

def finallyClause (block : BlockReader) (ctx : Context) : Reader Unit := do
  clause ctx "finally"
  let _ ← body block ctx

def handlers (block : BlockReader) (ctx : Context) : (fuel : Nat) → Reader (List Handler)
  | 0 => pure []
  | fuel + 1 => do
    match ← attempt (clause ctx "except") with
    | none => return []
    | some () => return (← handler block ctx) :: (← handlers block ctx fuel)

def groupHandlers (block : BlockReader) (ctx : Context) : (fuel : Nat) → Reader Unit
  | 0 => pure ()
  | fuel + 1 => do
    if ← wouldRead (do nextLine ctx; symbol "except*") then
      groupHandler block ctx
      groupHandlers block ctx fuel

def closingClauses (block : BlockReader) (ctx : Context) : Reader Unit := do
  if ← wouldRead (clause ctx "else") then
    let _ ← elseClause block ctx
  if ← wouldRead (clause ctx "finally") then
    finallyClause block ctx

/-- A `try` needs a handler or a `finally`. -/
def tryStatement (block : BlockReader) (ctx : Context) : Reader Stmt := do
  keyword "try"
  let stmts ← body block ctx
  let fuel := (← rest).length + 1
  if ← wouldRead (do nextLine ctx; symbol "except*") then
    groupHandlers block ctx fuel
    closingClauses block ctx
    return .attempt stmts []
  else
    let found ← handlers block ctx fuel
    if found.isEmpty then finallyClause block ctx
    else closingClauses block ctx
    return .attempt stmts found

def typeParameters (outer : Context) : Reader Unit := do
  symbol "["
  let ctx := outer.free
  let _ ← beforeItem ctx
  let item : Reader Unit := do
    typeOf exprHere ctx
    let _ ← attempt (declaredType exprHere ctx)
  separated item ctx
  let _ ← follow? ctx (symbol ",")
  let _ ← after ctx
  symbol "]"

def signature (outer : Context) : Reader (List Param) := do
  symbol "("
  let ctx := outer.free
  let fuel := (← rest).length + 1
  let _ ← after ctx
  let params ← parameters true fuel exprHere ctx fuel
  let _ ← after ctx
  symbol ")"
  return params

def functionStatement (block : BlockReader) (ctx : Context) : Reader Stmt := do
  keyword "def"
  let head := ctx.checked
  let _ ← before head
  let name ← word
  let _ ← follow? head (typeParameters head)
  let _ ← before head
  let params ← signature head
  let _ ← follow? head do
    symbol "->"
    let _ ← beforeOperand head
    typeOf exprHere head
  return .function name params (← body block ctx)

def classStatement (block : BlockReader) (ctx : Context) : Reader Stmt := do
  keyword "class"
  let head := ctx.checked
  let _ ← before head
  let name ← word
  let _ ← follow? head (typeParameters head)
  let bases ← follow? head do
    match ← arguments ((← rest).length + 1) exprHere head with
    | some args => return args.map (·.1)
    | none => refuse
  let texts := (bases.map (·.2)).getD []
  return .class name texts (← body block ctx)

def asyncStatement (block : BlockReader) (ctx : Context) : Reader Unit := do
  keyword "async"
  let _ ← before ctx
  match String.ofList (leadingWord (← rest)) with
  | "def" => let _ ← functionStatement block ctx
  | "for" => let _ ← forStatement block ctx
  | "with" => withStatement block ctx
  | _ => refuse

def decorated (block : BlockReader) (ctx : Context) : (fuel : Nat) → Reader Unit
  | 0 => refuse
  | fuel + 1 => do
    symbol "@"
    let _ ← beforeOperand ctx
    let _ ← exprHere .full ctx.stops
    require (← atLineEnd)
    nextLine ctx
    if ← looksAt "@" then decorated block ctx fuel
    else
      match String.ofList (leadingWord (← rest)) with
      | "def" => let _ ← functionStatement block ctx
      | "class" => let _ ← classStatement block ctx
      | "async" =>
        keyword "async"
        let _ ← before ctx
        let _ ← functionStatement block ctx
      | _ => refuse

/-- The cases of a `match`, all at one indentation. -/
def cases (block : BlockReader) (ctx : Context) : (fuel : Nat) → Reader Unit
  | 0 => refuse
  | fuel + 1 => do
    match (← here).lineStart ctx.indent with
    | .blockEnd => pure ()
    | .statement _ place =>
      goTo place
      keyword "case"
      let _ ← beforeOperand ctx
      casePatterns ctx.checked
      let _ ← body block ctx
      cases block ctx fuel

def matchStatement (block : BlockReader) (ctx : Context) : Reader Unit := do
  keyword "match"
  let _ ← beforeOperand ctx
  let _ ← exprItems ctx.checked
  let _ ← before ctx
  symbol ":"
  match (← here).suiteStart ctx.indent with
  | .empty => pure ()
  | .block indent => cases block { ctx with indent } ((← rest).length + 1)
  | .inline _ _ => refuse

/-- A statement of any kind; a line may hold several. -/
def statement (block : BlockReader) (ctx : Context) : Reader (List Stmt) := do
  let skipping (p : Reader Unit) : Reader (List Stmt) := do
    p
    return []
  let simple : Reader (List Stmt) := do simpleLine ctx.stops ((← rest).length + 1)
  match String.ofList (leadingWord (← rest)) with
  | "if" => return [← ifStatement block ctx]
  | "while" => return [← whileStatement block ctx]
  | "for" => return [← forStatement block ctx]
  | "try" => return [← tryStatement block ctx]
  | "def" => return [← functionStatement block ctx]
  | "class" => return [← classStatement block ctx]
  | "with" => skipping (withStatement block ctx)
  | "async" => skipping (asyncStatement block ctx) <|> simple
  | "match" => skipping (matchStatement block ctx) <|> simple
  | _ =>
    if ← looksAt "@" then skipping (decorated block ctx ((← rest).length + 1))
    else simple

/-- The statements of a block. Each takes at least one character, so the length of the text is fuel
enough. -/
def block : (fuel : Nat) → BlockReader
  | 0, _ => refuse
  | fuel + 1, indent => do
    match (← here).lineStart indent with
    | .blockEnd => return ([], [])
    | .statement found place =>
      goTo place
      let stmts ← statement (block fuel) ⟨indent, .checked⟩
      let (others, _) ← block fuel indent
      return (stmts ++ others, found)

end ScopedFlow.Source
