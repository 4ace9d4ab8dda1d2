import ScopedFlow.Graph.Basic

/-!
# Arguments of a call

Wired arguments, overrides and defaults are bound to a list of parameters.

For each parameter an override comes before a keyword argument, and that before a positional one.
Once an optional parameter is left out or a keyword is written, every later argument is written with
its keyword. Parameters behind a star take no positional argument; those before a slash are always
written by position, so the defaults of left out ones are written as soon as a later one has a
value.
-/

namespace ScopedFlow

/-- The arguments that are wired to a call: the first edge of each position, by position, and the
first edge of each keyword, in order of appearance. -/
structure Wiring where
  positional : List (Nat × NodeId)
  keywords : List (String × NodeId)
  deriving Repr

namespace Wiring

/-- Puts an argument at its position; the first one of a position stays. -/
def insertAt (index : Nat) (source : NodeId) : List (Nat × NodeId) → List (Nat × NodeId)
  | [] => [(index, source)]
  | (i, s) :: rest =>
    if index < i then (index, source) :: (i, s) :: rest
    else if index = i then (i, s) :: rest
    else (i, s) :: insertAt index source rest

def add (w : Wiring) (e : Edge) : Wiring :=
  match e.kind with
  | .argument _ (some name) =>
    if w.keywords.any fun k => k.1 = name then w
    else { w with keywords := w.keywords ++ [(name, e.source)] }
  | .argument (some index) none =>
    { w with positional := insertAt index e.source w.positional }
  | _ => w

def ofEdges (es : List Edge) : Wiring := es.foldl add ⟨[], []⟩

def keyword? (w : Wiring) (name : String) : Option NodeId :=
  (w.keywords.find? fun k => k.1 = name).map (·.2)

def positional? (w : Wiring) (index : Nat) : Option NodeId :=
  (w.positional.find? fun p => p.1 = index).map (·.2)

end Wiring

/-- Where the value of a written argument comes from. -/
inductive ArgSource where
  | node (id : NodeId)
  | text (s : String)
  /-- A default that is not known. -/
  | unknownDefault
  /-- A parameter that must have a value and has none. -/
  | missing (name : String)
  deriving DecidableEq, Repr

structure WrittenArgument where
  keyword : Option String
  source : ArgSource
  deriving DecidableEq, Repr

/-- What is known after the first parameters of a list. -/
structure Placement where
  written : List WrittenArgument
  /-- Defaults before a slash that wait for a later value. -/
  pending : List WrittenArgument
  usedPositions : List Nat
  usedKeywords : List String
  /-- Arguments are written with their keywords from here on. -/
  byKeyword : Bool
  /-- A star has been passed. -/
  pastStar : Bool
  /-- A slash is still to come. -/
  beforeSlash : Bool
  slot : Nat
  deriving Repr

namespace Placement

def start (params : List Param) : Placement :=
  ⟨[], [], [], [], false, false, params.any fun p => p.kind = .positionalOnly, 0⟩

def write (s : Placement) (keyword : Option String) (source : ArgSource) : Placement :=
  { s with written := s.written ++ [⟨keyword, source⟩] }

/-- Writes by position, behind the defaults that wait. -/
def writeByPosition (s : Placement) (source : ArgSource) : Placement :=
  { s with written := s.written ++ s.pending ++ [⟨none, source⟩], pending := [] }

def pastStars (s : Placement) : Placement := { s with byKeyword := true, pastStar := true }

def takeRest (s : Placement) (w : Wiring) : Placement :=
  let rest := w.positional.filter fun p => decide (s.slot ≤ p.1) && !s.usedPositions.contains p.1
  { s with
    written := s.written ++ s.pending ++ rest.map fun p => ⟨none, .node p.2⟩
    pending := []
    usedPositions := s.usedPositions ++ rest.map (·.1) }

/-- The value of a plain parameter, and whether it uses up the position of its slot. -/
def valueOf (overridden : Option String) (keyword position : Option NodeId) :
    Option ArgSource × Bool :=
  match overridden, keyword, position with
  | some text, _, position => (some (.text text), position.isSome)
  | none, some id, _ => (some (.node id), false)
  | none, none, some id => (some (.node id), true)
  | none, none, none => (none, false)

def bindPlain (s : Placement) (w : Wiring) (overrides : Overrides) (p : Param) : Placement :=
  let keyword := if s.beforeSlash then none else w.keyword? p.name
  let position := if s.pastStar then none else w.positional? s.slot
  let (value, usesPosition) := valueOf (overrides.get? p.name) keyword position
  let named := !s.beforeSlash && (s.byKeyword || keyword.isSome)
  let next :=
    { s with
      slot := if s.pastStar then s.slot else s.slot + 1
      usedPositions := if usesPosition then s.slot :: s.usedPositions else s.usedPositions
      usedKeywords := if keyword.isSome then p.name :: s.usedKeywords else s.usedKeywords }
  match value with
  | some source =>
    if named then { next with byKeyword := true }.write (some p.name) source
    else next.writeByPosition source
  | none =>
    if p.optional then
      if s.beforeSlash then
        let waiting : ArgSource :=
          match p.default with
          | some text => .text text
          | none => .unknownDefault
        { next with pending := next.pending ++ [⟨none, waiting⟩] }
      else { next with byKeyword := true }
    else if named then next.write (some p.name) (.missing p.name)
    else next.writeByPosition (.missing p.name)

def bind (w : Wiring) (overrides : Overrides) (s : Placement) (p : Param) : Placement :=
  match p.kind with
  | .varArgs => (s.takeRest w).pastStars
  | .keywordOnly => { s with pending := [] }.pastStars
  | .positionalOnly =>
    { s with pending := [], byKeyword := s.byKeyword || !s.pending.isEmpty, beforeSlash := false }
  | .kwArgs => s
  | .positional => s.bindPlain w overrides p

end Placement

/-- The arguments of a call as they are written: those of the parameters in order, then positional
and keyword arguments that no parameter has taken. -/
def writtenArguments (params : List Param) (w : Wiring) (overrides : Overrides) :
    List WrittenArgument :=
  let s := params.foldl (Placement.bind w overrides) (.start params)
  s.written ++
    ((w.positional.filter fun p => !s.usedPositions.contains p.1).map fun p => ⟨none, .node p.2⟩) ++
    ((w.keywords.filter fun k => !s.usedKeywords.contains k.1).map fun k =>
      ⟨some k.1, .node k.2⟩)

end ScopedFlow
