/-!
# Formal parameters
-/

namespace ScopedFlow

/-- How a parameter takes its arguments. The last two are the separators of a header: every
parameter after a bare star is given by keyword, every one before a slash by position. -/
inductive ParamKind where
  | positional
  | varArgs
  | kwArgs
  | keywordOnly
  | positionalOnly
  deriving DecidableEq, Repr

def ParamKind.name : ParamKind → String
  | positional => "positional"
  | varArgs => "var_args"
  | kwArgs => "kw_args"
  | keywordOnly => "keyword_only"
  | positionalOnly => "positional_only"

def ParamKind.all : List ParamKind := [positional, varArgs, kwArgs, keywordOnly, positionalOnly]

def ParamKind.ofName? (s : String) : Option ParamKind := all.find? fun k => k.name = s

theorem ParamKind.ofName?_name (k : ParamKind) : ofName? k.name = some k := by cases k <;> decide

structure Param where
  name : String
  optional : Bool
  default : Option String
  kind : ParamKind
  deriving DecidableEq, Repr

namespace Param

def required (name : String) : Param := ⟨name, false, none, .positional⟩

def withDefault (name value : String) : Param := ⟨name, true, some value, .positional⟩

def variadic (name : String) (kind : ParamKind) : Param := ⟨name, true, none, kind⟩

def separator (kind : ParamKind) : Param := ⟨"", true, none, kind⟩

def isSeparator (p : Param) : Bool :=
  match p.kind with
  | .keywordOnly | .positionalOnly => true
  | _ => false

def header (p : Param) : String :=
  match p.kind, p.default with
  | .keywordOnly, _ => "*"
  | .positionalOnly, _ => "/"
  | .varArgs, _ => "*" ++ p.name
  | .kwArgs, _ => "**" ++ p.name
  | .positional, some value => p.name ++ "=" ++ value
  | .positional, none => p.name

/-- Slot of the plain parameter `name`, counted from `slot`; none after a star. -/
def slotFrom (name : String) : List Param → Nat → Option Nat
  | [], _ => none
  | p :: rest, slot =>
    match p.kind with
    | .varArgs | .keywordOnly => none
    | .positional => if p.name = name then some slot else slotFrom name rest (slot + 1)
    | .positionalOnly | .kwArgs => slotFrom name rest slot

/-- Index of the positional argument that binds to `name`. -/
def positionalSlot (params : List Param) (name : String) : Option Nat := slotFrom name params 0

end Param

end ScopedFlow
