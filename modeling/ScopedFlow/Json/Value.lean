/-!
# JSON values

Object fields keep their order and may repeat; of numbers only the natural ones written without
sign, fraction and exponent are told apart, since no other number has a meaning in the documents
read here.
-/

namespace ScopedFlow

inductive Json where
  | null
  | bool (b : Bool)
  | nat (n : Nat)
  /-- Any other number, with whether its size fits a double. -/
  | number (finite : Bool)
  | str (s : String)
  | arr (items : List Json)
  | obj (fields : List (String × Json))
  deriving Repr

namespace Json

/-- The numbers from here on round to the infinity of doubles. -/
def doubleLimit : Nat := Nat.pow 2 1024 - Nat.pow 2 970

mutual
def depth : Json → Nat
  | arr items => depthItems items + 1
  | obj fields => depthFields fields + 1
  | _ => 0

def depthItems : List Json → Nat
  | [] => 0
  | v :: rest => max (depth v) (depthItems rest)

def depthFields : List (String × Json) → Nat
  | [] => 0
  | (_, v) :: rest => max (depth v) (depthFields rest)
end

mutual
def isFinite : Json → Bool
  | nat n => n < doubleLimit
  | number finite => finite
  | arr items => isFiniteItems items
  | obj fields => isFiniteFields fields
  | _ => true

def isFiniteItems : List Json → Bool
  | [] => true
  | v :: rest => isFinite v && isFiniteItems rest

def isFiniteFields : List (String × Json) → Bool
  | [] => true
  | (_, v) :: rest => isFinite v && isFiniteFields rest
end

def insertField (f : String × Json) : List (String × Json) → List (String × Json)
  | [] => [f]
  | e :: rest => if f.1 < e.1 then f :: e :: rest else e :: insertField f rest

mutual
def sortFields : Json → Json
  | arr items => arr (sortItems items)
  | obj fields => obj (sortedFields fields)
  | v => v

def sortItems : List Json → List Json
  | [] => []
  | v :: rest => sortFields v :: sortItems rest

def sortedFields : List (String × Json) → List (String × Json)
  | [] => []
  | (k, v) :: rest => insertField (k, sortFields v) (sortedFields rest)
end

def ofOption {α : Type} (f : α → Json) : Option α → Json
  | some a => f a
  | none => null

/-- A field that is left out when there is no value. -/
def field? {α : Type} (name : String) (f : α → Json) : Option α → List (String × Json)
  | some a => [(name, f a)]
  | none => []

def strings (ss : List String) : Json := arr (ss.map str)

end Json

end ScopedFlow
