import ScopedFlow.Node.Param

/-!
# Syntax trees of modules

They hold as much as the graph needs. Brackets that only group, comments and statements without a
meaning here have left no trace; an expression outside the supported forms is `unsupported`, a
statement outside them is `skip`.
-/

namespace ScopedFlow

mutual
inductive Expr where
  | name (id : String)
  /-- A number, a string or a constant, as it is written. -/
  | literal (text : String)
  | unary (op : String) (operand : Expr)
  | binary (op : String) (left right : Expr)
  | call (callee : String) (args : List Arg)
  | methodCall (receiver : Expr) (method : String) (args : List Arg)
  | attribute (object : Expr) (name : String)
  | subscript (value key : Expr)
  | list (items : List Expr)
  | dict (pairs : List Pair)
  | unsupported
  deriving Repr

inductive Arg where
  | positional (value : Expr)
  | keyword (name : String) (value : Expr)
  /-- An unpacked argument; it takes no position. -/
  | unpacked
  deriving Repr

inductive Pair where
  | mk (key value : Expr)
  deriving Repr
end

instance : Inhabited Expr := ⟨.unsupported⟩

def Expr.isCall : Expr → Bool
  | .call _ _ | .methodCall _ _ _ => true
  | _ => false

structure Phrase where
  text : String
  expr : Expr
  deriving Repr

/-- What a loop binds: the text and the names in it. -/
structure Target where
  text : String
  names : List String
  deriving Repr

mutual
inductive Stmt where
  | assign (name : String) (value : Expr)
  | augment (name op : String) (value : Expr)
  | eval (expr : Expr)
  | ret (value : Option Expr)
  | function (name : String) (params : List Param) (body : List Stmt)
  | class (name : String) (bases : List String) (body : List Stmt)
  | branch (test : Phrase) (body : List Stmt) (rest : Alternatives)
  | each (target : Target) (source : Phrase) (body : List Stmt)
  | while (test : Phrase) (body : List Stmt)
  | attempt (body : List Stmt) (handlers : List Handler)
  | import (text : String) (bindings : List String)
  | skip
  deriving Repr

/-- What follows the body of an `if`. -/
inductive Alternatives where
  | done
  | elif (test : Phrase) (body : List Stmt) (rest : Alternatives)
  | otherwise (body : List Stmt)
  deriving Repr

inductive Handler where
  | mk (exception : Option Phrase) (binding : Option String) (body : List Stmt)
  deriving Repr
end

instance : Inhabited Stmt := ⟨.skip⟩

end ScopedFlow
