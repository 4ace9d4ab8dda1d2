import ScopedFlow.Source.Quoted
import ScopedFlow.Source.Tree

/-!
# Operands

A reader of expressions returns the expression and the form it is written in. The form tells whether
the same text may also be assigned to.
-/

namespace ScopedFlow.Source

inductive Form where
  | name (id : String)
  | number
  /-- An attribute or an item of something. -/
  | place
  /-- A starred name or place. -/
  | unpack
  /-- A list in square brackets, or anything in round ones. -/
  | group (members : List Form)
  | other
  deriving Repr

mutual
/-- Whether the text may stand to the left of an assignment. -/
def Form.isTarget : Form → Bool
  | .name _ | .place | .unpack => true
  | .group members => allTargets members
  | .number | .other => false

def allTargets : List Form → Bool
  | [] => true
  | form :: rest => form.isTarget && allTargets rest
end

mutual
def Form.names : Form → List String
  | .name id => [id]
  | .group members => boundNames members
  | _ => []

def boundNames : List Form → List String
  | [] => []
  | form :: rest => form.names ++ boundNames rest
end

def Form.name? : Form → Option String
  | .name id => some id
  | _ => none

def Form.starred : Form → Form
  | .name _ | .place => .unpack
  | _ => .other

structure Operand where
  expr : Expr
  form : Form
  deriving Repr

namespace Operand

def ofName (id : String) : Operand := ⟨.name id, .name id⟩

def unsupported : Operand := ⟨.unsupported, .other⟩

end Operand

/-- How much of an expression is read, from the loosest to the tightest reading. -/
inductive Level where
  | full
  /-- An expression without a condition at its top. -/
  | unconditional
  | disjunction
  | inversion
  /-- An operand with signs before it. -/
  | unary
  /-- An operand with what binds to it directly. -/
  | primary
  deriving DecidableEq, Repr

abbrev ExprReader := Level → Context → Reader Operand

structure Items where
  operands : List Operand
  listed : Bool
  /-- The continuations that stand between the items. -/
  continuations : List String

namespace Items

/-- The value: several items, or one with a comma behind it, make a tuple. -/
def value (items : Items) : Expr :=
  match items.operands, items.listed with
  | [item], false => item.expr
  | _, _ => .unsupported

def forms (items : Items) : List Form := items.operands.map (·.form)

def isTarget (items : Items) : Bool := allTargets items.forms

/-- The name, if there is but one item and it is a name. -/
def name? (items : Items) : Option String :=
  match items.operands, items.listed with
  | [item], false => item.form.name?
  | _, _ => none

end Items

namespace Reader

/-- More items after the first one; the last comma may have none behind it. -/
def moreItems (item : Reader Operand) (ctx : Context) : (fuel : Nat) → Items → Reader Items
  | 0, items => pure items
  | fuel + 1, items => do
    match ← follow? ctx (symbol ",") with
    | none => pure items
    | some (found, ()) =>
      let next ← attempt do
        let before ← gap ctx true
        return (before, ← item)
      match next with
      | none => pure { items with listed := true, continuations := items.continuations ++ found }
      | some (before, operand) =>
        moreItems item ctx fuel
          ⟨items.operands ++ [operand], true, items.continuations ++ found ++ before⟩

def itemsOf (item : Reader Operand) (ctx : Context) (fuel : Nat) : Reader Items := do
  moreItems item ctx fuel ⟨[← item], false, []⟩

end Reader

end ScopedFlow.Source
