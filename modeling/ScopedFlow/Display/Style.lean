/-!
# Colours and weights of text on a terminal
-/

namespace ScopedFlow.Display

inductive Role where
  | header
  | success
  | error
  | warn
  | info
  | dim
  | id
  /-- What a node lacks. -/
  | missing
  deriving DecidableEq, Repr

namespace Role

def all : List Role := [header, success, error, warn, info, dim, id, missing]

def name : Role → String
  | header => "header"
  | success => "success"
  | error => "error"
  | warn => "warn"
  | info => "info"
  | dim => "dim"
  | id => "id"
  | missing => "missing"

def codes : Role → String
  | header => "36;1"
  | success => "32;1"
  | error => "31;1"
  | warn => "33;1"
  | info => "35"
  | dim => "37;2"
  | id => "90"
  | missing => "33;3"

end Role

/-- Colours are used on a terminal only, and not where they are unwanted. -/
def isColored (unwanted terminal : Bool) : Bool := terminal && !unwanted

/-- A text in the style of a role, plain without colours. -/
def styled (colored : Bool) (role : Role) (text : String) : String :=
  if colored then "\x1b[" ++ role.codes ++ "m" ++ text ++ "\x1b[0m" else text

end ScopedFlow.Display
