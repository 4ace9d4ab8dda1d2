import ScopedFlow.Proofs.Gathering

/-!
# Literals in the order of the text

The literal nodes of a graph are the literals of the tree that something uses, one after the other
as the text writes them.
-/

namespace ScopedFlow

mutual
def Expr.literals : Expr → List String
  | .literal text => [text]
  | .unary _ operand => operand.literals
  | .binary _ left right => left.literals ++ right.literals
  | .call _ args => Arg.allLiterals args
  | .methodCall receiver _ args => receiver.literals ++ Arg.allLiterals args
  | .attribute object _ => object.literals
  | .subscript value key => value.literals ++ key.literals
  | .list items => Expr.allLiterals items
  | .dict pairs => Pair.allLiterals pairs
  | .name _ | .unsupported => []

def Arg.allLiterals : List Arg → List String
  | [] => []
  | .positional value :: args => value.literals ++ Arg.allLiterals args
  | .keyword _ value :: args => value.literals ++ Arg.allLiterals args
  | .unpacked :: args => Arg.allLiterals args

def Expr.allLiterals : List Expr → List String
  | [] => []
  | item :: items => item.literals ++ Expr.allLiterals items

def Pair.allLiterals : List Pair → List String
  | [] => []
  | .mk key value :: rest => key.literals ++ value.literals ++ Pair.allLiterals rest
end

mutual
/-- The literals of a statement that something uses. An expression on its own uses its parts only
if it is a call. -/
def Stmt.literals : Stmt → List String
  | .assign _ value | .augment _ _ value => value.literals
  | .eval e => if e.isCall then e.literals else []
  | .ret value => (value.map Expr.literals).getD []
  | .function _ _ body | .class _ _ body => Stmt.allLiterals body
  | .branch test body rest => test.expr.literals ++ (Stmt.allLiterals body ++ rest.literals)
  | .each _ source body => source.expr.literals ++ Stmt.allLiterals body
  | .while test body => test.expr.literals ++ Stmt.allLiterals body
  | .attempt body clauses => Stmt.allLiterals body ++ Handler.allLiterals clauses
  | .import _ _ | .skip => []

def Stmt.allLiterals : List Stmt → List String
  | [] => []
  | stmt :: rest => stmt.literals ++ Stmt.allLiterals rest

def Alternatives.literals : Alternatives → List String
  | .done => []
  | .elif test body rest => test.expr.literals ++ (Stmt.allLiterals body ++ rest.literals)
  | .otherwise body => Stmt.allLiterals body

def Handler.allLiterals : List Handler → List String
  | [] => []
  | .mk caught _ body :: rest =>
    (caught.map fun e => e.expr.literals).getD [] ++ (Stmt.allLiterals body ++ Handler.allLiterals rest)
end

namespace Steps

def Sketch.literal? (s : Sketch) : Option String :=
  match s.content with
  | .plain .literal => some s.label
  | _ => none

mutual
theorem literals_expr (w : Place) (outer : List Place) {port : Option Port} (k : Nat) :
    (e : Expr) → (port.isSome = true ∨ e.isCall = true) →
      gather Sketch.literal? (expr w outer port k e) = e.literals
  | .name id, _ => by
    cases port <;> rfl
  | .literal text, h => by
    have hport : port.isSome = true := h.resolve_right Bool.false_ne_true
    rw [expr, if_pos hport, gather_place]
    rfl
  | .unary op operand, _ => by
    rw [expr, gather_append, gather_place, literals_expr w outer (k + 1) operand (.inl rfl)]
    rfl
  | .binary op left right, _ => by
    rw [expr, gather_append, gather_append, gather_place,
      literals_expr w outer (k + 1) left (.inl rfl), literals_expr w outer _ right (.inl rfl)]
    rfl
  | .call callee args, _ => by
    rw [expr, gather_append, gather_place, literals_arguments]
    rfl
  | .methodCall receiver method args, _ => by
    rw [expr, gather_append, gather_append, gather_place,
      literals_expr w outer (k + 1) receiver (.inl rfl), literals_arguments]
    rfl
  | .attribute object name, _ => by
    rw [expr, gather_append, gather_place, literals_expr w outer (k + 1) object (.inl rfl)]
    rfl
  | .subscript value key, _ => by
    rw [expr, gather_append, gather_append, gather_place,
      literals_expr w outer (k + 1) value (.inl rfl), literals_expr w outer _ key (.inl rfl)]
    rfl
  | .list items, _ => by
    rw [expr, gather_append, gather_place, literals_elements]
    rfl
  | .dict entries, _ => by
    rw [expr, gather_append, gather_place, literals_pairs]
    rfl
  | .unsupported, _ => rfl

theorem literals_arguments (w : Place) (outer : List Place) (owner index k : Nat) :
    (args : List Arg) →
      gather Sketch.literal? (arguments w outer owner index k args) = Arg.allLiterals args
  | [] => rfl
  | .positional value :: args => by
    rw [arguments, gather_append, literals_expr w outer k value (.inl rfl), literals_arguments]
    rfl
  | .keyword name value :: args => by
    rw [arguments, gather_append, literals_expr w outer k value (.inl rfl), literals_arguments]
    rfl
  | .unpacked :: args => by
    rw [arguments, literals_arguments]
    rfl

theorem literals_elements (w : Place) (outer : List Place) (owner index k : Nat) :
    (items : List Expr) →
      gather Sketch.literal? (elements w outer owner index k items) = Expr.allLiterals items
  | [] => rfl
  | item :: items => by
    rw [elements, gather_append, literals_expr w outer k item (.inl rfl), literals_elements]
    rfl

theorem literals_pairs (w : Place) (outer : List Place) (owner index k : Nat) :
    (entries : List Pair) →
      gather Sketch.literal? (pairs w outer owner index k entries) = Pair.allLiterals entries
  | [] => rfl
  | .mk key value :: rest => by
    rw [pairs, gather_append, gather_append, literals_expr w outer k key (.inl rfl),
      literals_expr w outer _ value (.inl rfl), literals_pairs]
    rfl
end

theorem gathers_literals : Gathers Sketch.literal? (fun _ _ => []) Expr.literals (fun _ => [])
    Stmt.literals Stmt.allLiterals Alternatives.literals Handler.allLiterals where
  toWalks := by constructor <;> intros <;> rfl
  owner w label payload hp := by cases payload <;> first | rfl | cases hp
  used w outer port k e := literals_expr w outer k e
  loaded _ _ := rfl
  write _ _ := rfl
  param _ _ _ := rfl
  returns _ _ := rfl

end Steps

def Node.literal? (n : Node) : Option String :=
  match n.payload with
  | .literal => some n.label
  | _ => none

def Graph.literals (g : Graph) : List String := g.nodes.filterMap Node.literal?

namespace Run
open Steps

theorem Draws.literals {q : Run} {all : List Step} (h : Draws q all) :
    q.builder.graph.literals = gather Sketch.literal? all := by
  rw [Graph.literals, h.reflects.nodes]
  refine gather_items (fun k sketch version => ?_) (fun s => rfl) all
  obtain ⟨home, label, content⟩ := sketch
  cases content with
  | plain payload => cases payload <;> rfl
  | param | write => rfl
  | call isMethod args => cases isMethod <;> rfl

end Run

theorem Graph.literals_build (supply : Supply) (stmts : List Stmt) :
    (build supply stmts).1.literals = Stmt.allLiterals stmts := by
  rw [← Run.graph_ofModule, (Run.draws_ofModule supply stmts).literals]
  exact Steps.gather_statements Steps.gathers_literals stmts

end ScopedFlow
