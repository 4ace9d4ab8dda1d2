import ScopedFlow.Source.Tree
import ScopedFlow.Synthesis.Source

/-!
# The text of a syntax tree

Every operator stands in brackets, an augmented assignment is written out, the imports come first,
and what means nothing here (a text on its own, `pass`) leaves no line; a body without a line gets a
`pass`.
-/

namespace ScopedFlow

def unaryOperators : List String := ["not", "-", "+", "~"]

mutual
def Expr.print : Expr → String
  | .name id => id
  | .literal text => text
  | .unary op operand =>
    "(" ++ op ++ (if op = "not" then " " else "") ++ operand.print ++ ")"
  | .binary op left right => "(" ++ left.print ++ " " ++ op ++ " " ++ right.print ++ ")"
  | .call callee args => callee ++ "(" ++ ", ".intercalate (Arg.prints args) ++ ")"
  | .methodCall receiver method args =>
    receiver.print ++ "." ++ method ++ "(" ++ ", ".intercalate (Arg.prints args) ++ ")"
  | .attribute object name => object.print ++ "." ++ name
  | .subscript value key => value.print ++ "[" ++ key.print ++ "]"
  | .list items => "[" ++ ", ".intercalate (Expr.prints items) ++ "]"
  | .dict entries => "\x7b" ++ ", ".intercalate (Pair.prints entries) ++ "\x7d"
  | .unsupported => ""

def Arg.prints : List Arg → List String
  | [] => []
  | .positional value :: args => value.print :: Arg.prints args
  | .keyword name value :: args => (name ++ "=" ++ value.print) :: Arg.prints args
  | .unpacked :: args => Arg.prints args

def Expr.prints : List Expr → List String
  | [] => []
  | item :: items => item.print :: Expr.prints items

def Pair.prints : List Pair → List String
  | [] => []
  | .mk key value :: rest => (key.print ++ ": " ++ value.print) :: Pair.prints rest
end

mutual
def Expr.isPlain : Expr → Bool
  | .name _ | .literal _ => true
  | .unary op operand => unaryOperators.contains op && operand.isPlain
  | .binary _ left right => left.isPlain && right.isPlain
  | .call _ args => Arg.arePlain args
  | .methodCall receiver _ args => receiver.isPlain && Arg.arePlain args
  | .attribute object _ => object.isPlain
  | .subscript value key => value.isPlain && key.isPlain
  | .list items => Expr.arePlain items
  | .dict entries => Pair.arePlain entries
  | .unsupported => false

def Arg.arePlain : List Arg → Bool
  | [] => true
  | .positional value :: args => value.isPlain && Arg.arePlain args
  | .keyword _ value :: args => value.isPlain && Arg.arePlain args
  | .unpacked :: _ => false

def Expr.arePlain : List Expr → Bool
  | [] => true
  | item :: items => item.isPlain && Expr.arePlain items

def Pair.arePlain : List Pair → Bool
  | [] => true
  | .mk key value :: rest => key.isPlain && value.isPlain && Pair.arePlain rest
end

def suite (lines : List CodeLine) : List CodeLine :=
  (if lines.isEmpty then [⟨0, "pass"⟩] else lines).map fun l => { l with depth := l.depth + 1 }

/-- What stands between the name of a class and the colon. -/
def basesText (bases : List String) : String :=
  if bases.isEmpty then "" else "(" ++ ", ".intercalate bases ++ ")"

def caughtText : Option Phrase → String
  | some e => " " ++ e.expr.print
  | none => ""

def aliasText : Option String → String
  | some name => " as " ++ name
  | none => ""

mutual
def Stmt.lines : Stmt → List CodeLine
  | .assign name value => [⟨0, name ++ " = " ++ value.print⟩]
  | .augment name op value =>
    [⟨0, name ++ " = " ++ ("(" ++ name ++ " " ++ op ++ " " ++ value.print ++ ")")⟩]
  | .eval e => if e.isCall then [⟨0, e.print⟩] else []
  | .ret none => [⟨0, "return"⟩]
  | .ret (some e) => [⟨0, "return " ++ e.print⟩]
  | .function name params body =>
    ⟨0, "def " ++ name ++ "(" ++ ", ".intercalate (params.map Param.header) ++ "):"⟩ ::
      suite (Stmt.allLines body)
  | .class name bases body =>
    ⟨0, "class " ++ name ++ basesText bases ++ ":"⟩ :: suite (Stmt.allLines body)
  | .branch test body rest =>
    ⟨0, "if " ++ test.expr.print ++ ":"⟩ :: suite (Stmt.allLines body) ++ rest.lines
  | .each target source body =>
    ⟨0, "for " ++ target.text ++ " in " ++ source.expr.print ++ ":"⟩ :: suite (Stmt.allLines body)
  | .while test body => ⟨0, "while " ++ test.expr.print ++ ":"⟩ :: suite (Stmt.allLines body)
  | .attempt body clauses => ⟨0, "try:"⟩ :: suite (Stmt.allLines body) ++ Handler.allLines clauses
  | .import _ _ => []
  | .skip => []

def Stmt.allLines : List Stmt → List CodeLine
  | [] => []
  | stmt :: rest => stmt.lines ++ Stmt.allLines rest

def Alternatives.lines : Alternatives → List CodeLine
  | .done => []
  | .elif test body rest =>
    ⟨0, "elif " ++ test.expr.print ++ ":"⟩ :: suite (Stmt.allLines body) ++ rest.lines
  | .otherwise body => ⟨0, "else:"⟩ :: suite (Stmt.allLines body)

def Handler.allLines : List Handler → List CodeLine
  | [] => []
  | .mk caught binding body :: rest =>
    ⟨0, "except" ++ caughtText caught ++ aliasText binding ++ ":"⟩ :: suite (Stmt.allLines body) ++
      Handler.allLines rest
end

mutual
def Stmt.imports : Stmt → List String
  | .import text _ => [text]
  | .function _ _ body | .class _ _ body | .each _ _ body | .while _ body => Stmt.allImports body
  | .branch _ body rest => Stmt.allImports body ++ rest.imports
  | .attempt body clauses => Stmt.allImports body ++ Handler.allImports clauses
  | .assign _ _ | .augment _ _ _ | .eval _ | .ret _ | .skip => []

def Stmt.allImports : List Stmt → List String
  | [] => []
  | stmt :: rest => stmt.imports ++ Stmt.allImports rest

def Alternatives.imports : Alternatives → List String
  | .done => []
  | .elif _ body rest => Stmt.allImports body ++ rest.imports
  | .otherwise body => Stmt.allImports body

def Handler.allImports : List Handler → List String
  | [] => []
  | .mk _ _ body :: rest => Stmt.allImports body ++ Handler.allImports rest
end

def printModule (style : CodeStyle) (module : List Stmt) : String :=
  Graph.printLines style ((Stmt.allImports module).map (⟨0, ·⟩) ++ Stmt.allLines module)

def caughtIsPlain : Option Phrase → Bool
  | some e => e.expr.isPlain
  | none => true

mutual
/-- Statements of the supported forms only: an expression on its own is a call or a literal, a loop
has a target, a `try` has a handler. -/
def Stmt.isPlain : Stmt → Bool
  | .assign _ value | .augment _ _ value => value.isPlain
  | .eval (.literal _) => true
  | .eval e => e.isCall && e.isPlain
  | .ret none => true
  | .ret (some e) => e.isPlain
  | .function _ _ body | .class _ _ body => Stmt.arePlain body
  | .branch test body rest => test.expr.isPlain && Stmt.arePlain body && rest.isPlain
  | .each target source body => target.text ≠ "" && source.expr.isPlain && Stmt.arePlain body
  | .while test body => test.expr.isPlain && Stmt.arePlain body
  | .attempt body clauses => Stmt.arePlain body && !clauses.isEmpty && Handler.arePlain clauses
  | .import _ _ | .skip => true

def Stmt.arePlain : List Stmt → Bool
  | [] => true
  | stmt :: rest => stmt.isPlain && Stmt.arePlain rest

def Alternatives.isPlain : Alternatives → Bool
  | .done => true
  | .elif test body rest => test.expr.isPlain && Stmt.arePlain body && rest.isPlain
  | .otherwise body => Stmt.arePlain body

def Handler.arePlain : List Handler → Bool
  | [] => true
  | .mk caught _ body :: rest => caughtIsPlain caught && Stmt.arePlain body && Handler.arePlain rest
end

end ScopedFlow
