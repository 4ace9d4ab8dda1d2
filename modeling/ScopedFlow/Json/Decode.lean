import ScopedFlow.Json.Value

/-!
# Small decoders

The readers of records are put together from them. A field of a record may occur once at most;
unknown fields are passed over.
-/

namespace ScopedFlow.Json

def asString? : Json → Option String
  | str s => some s
  | _ => none

def asBool? : Json → Option Bool
  | .bool b => some b
  | _ => none

def asNat? (limit : Nat) : Json → Option Nat
  | .nat n => if n < limit then some n else none
  | _ => none

def asList? {α : Type} (f : Json → Option α) : Json → Option (List α)
  | arr items => items.mapM f
  | _ => none

def nullable {α : Type} (f : Json → Option α) : Json → Option (Option α)
  | null => some none
  | v => (f v).map some

/-- The value of a field: refused when the field occurs twice, empty when it is missing. -/
def unique (fields : List (String × Json)) (name : String) : Option (Option Json) :=
  match fields.filter fun f => f.1 = name with
  | [] => some none
  | [f] => some (some f.2)
  | _ => none

def requiredField {α : Type} (f : Json → Option α) (fields : List (String × Json)) (name : String) :
    Option α :=
  match unique fields name with
  | some (some v) => f v
  | _ => none

def optionalField {α : Type} (f : Json → Option α) (missing : α) (fields : List (String × Json))
    (name : String) : Option α :=
  match unique fields name with
  | some (some v) => f v
  | some none => some missing
  | none => none

/-- A variant is written as its name, or as an object whose one field is the name with the
content of the variant. -/
def asVariant? : Json → Option (String × Option Json)
  | str name => some (name, none)
  | obj [(name, v)] => some (name, some v)
  | _ => none

def isUnit : Option Json → Bool
  | none | some null | some (obj []) => true
  | _ => false

end ScopedFlow.Json
