import ScopedFlow.Remaining
import ScopedFlow.Synthesis.Arguments
import ScopedFlow.Synthesis.Defect
import ScopedFlow.Synthesis.Literal
import ScopedFlow.Text.Letter

/-!
# Text of values

The value of a node is rebuilt from the edges that lead into it. Operators are always written in
brackets, so no operator binds wrongly. What is missing is written as a placeholder and reported; a
value that needs itself is missing too, so the text of every node is finite.
-/

namespace ScopedFlow

structure CodeStyle where
  indent : Nat
  /-- What is written for a value that the graph does not provide. -/
  placeholder : String
  deriving DecidableEq, Repr

namespace CodeStyle

def missing : String := "__missing__"

def default : CodeStyle := ⟨4, missing⟩

/-- A level of indentation has one blank at least. -/
def withIndent (n : Nat) : CodeStyle := ⟨max n 1, missing⟩

end CodeStyle

/-- A text with the defects met while it was written. -/
structure Rendered where
  text : String
  defects : List Defect
  deriving DecidableEq, Repr

namespace Rendered

def plain (text : String) : Rendered := ⟨text, []⟩

def map (f : String → String) (r : Rendered) : Rendered := ⟨f r.text, r.defects⟩

def both (f : String → String → String) (r s : Rendered) : Rendered :=
  ⟨f r.text s.text, r.defects ++ s.defects⟩

def join (separator : String) (rs : List Rendered) : Rendered :=
  ⟨separator.intercalate (rs.map (·.text)), rs.flatMap (·.defects)⟩

end Rendered

namespace Graph

def lacking (style : CodeStyle) (n : Node) (reason : Reason) : Rendered :=
  ⟨style.placeholder, [⟨n.id, n.label, reason⟩]⟩

def required (g : Graph) (style : CodeStyle) (sub : NodeId → Rendered) (n : Node) (kind : EdgeKind)
    (reason : Reason) : Rendered :=
  match g.input n.id fun k => k = kind with
  | some source => sub source
  | none => lacking style n reason

/-- Puts a numbered source behind those with the same or a smaller number. -/
def insertIndexed (entry : Nat × NodeId) : List (Nat × NodeId) → List (Nat × NodeId)
  | [] => [entry]
  | e :: rest => if entry.1 < e.1 then entry :: e :: rest else e :: insertIndexed entry rest

/-- Sources of the edges into a node that have a number, by number. -/
def indexed (g : Graph) (id : NodeId) (index : EdgeKind → Option Nat) : List (Nat × NodeId) :=
  ((g.edgesTo id).filterMap fun e => (index e.kind).map fun i => (i, e.source)).foldl
    (fun sorted entry => insertIndexed entry sorted) []

/-- Keys with their values, up to the first key without a value; of two values with the same number
the later one counts. -/
def keyedPairs (g : Graph) (id : NodeId) : List (NodeId × NodeId) :=
  let values := (g.indexed id EdgeKind.valueIndex?).reverse
  let paired := (g.indexed id EdgeKind.keyIndex?).map fun key =>
    (key.2, (values.find? fun v => v.1 = key.1).map (·.2))
  (paired.takeWhile fun p => p.2.isSome).filterMap fun p => p.2.map fun v => (p.1, v)

/-- The parameters that a call binds to: those of the function it goes to while that exists, and
otherwise its own. -/
def callParams (g : Graph) (site : CallSite) : List Param :=
  match (site.target.bind World.owner?).bind g.lookup with
  | some definition => if definition.kind = .functionDef then definition.params else site.params
  | none => site.params

def renderArgument (style : CodeStyle) (sub : NodeId → Rendered) (n : Node) (a : WrittenArgument) :
    Rendered :=
  let value :=
    match a.source with
    | .node id => sub id
    | .text s => .plain s
    | .unknownDefault => .plain style.placeholder
    | .missing name => lacking style n (.missingArgument name)
  match a.keyword with
  | some name => value.map fun text => name ++ "=" ++ text
  | none => value

def renderArguments (g : Graph) (style : CodeStyle) (sub : NodeId → Rendered) (n : Node)
    (site : CallSite) : Rendered :=
  let args := writtenArguments (g.callParams site) (.ofEdges (g.edgesTo n.id)) site.overrides
  .join ", " (args.map (renderArgument style sub n))

def renderCall (g : Graph) (style : CodeStyle) (sub : NodeId → Rendered) (n : Node)
    (site : CallSite) : Rendered :=
  let args := g.renderArguments style sub n site
  if site.isMethod then
    args.both (fun args receiver => receiver ++ "." ++ n.label ++ "(" ++ args ++ ")")
      (g.required style sub n .attributeValue .missingReceiver)
  else args.map fun args => n.label ++ "(" ++ args ++ ")"

/-- A sign stands next to its operand, a word has a blank behind it. -/
def unaryText (op operand : String) : String :=
  if op.toList.all Text.isLetter then "(" ++ op ++ " " ++ operand ++ ")"
  else "(" ++ op ++ operand ++ ")"

/-- The text of a node, where `sub` is that of the nodes whose values it takes. -/
def renderNode (g : Graph) (style : CodeStyle) (sub : NodeId → Rendered) (n : Node) : Rendered :=
  let operand (index : Nat) :=
    g.required style sub n (.operand index) (.missingOperand index)
  match n.payload with
  | .literal => .plain (Literal.text n.label)
  | .variable _ | .functionDef _ | .classDef _ | .importStmt _ => .plain n.label
  | .operator true => (operand 0).map (unaryText n.label)
  | .operator false =>
    (operand 0).both (fun l r => "(" ++ l ++ " " ++ n.label ++ " " ++ r ++ ")") (operand 1)
  | .call site => g.renderCall style sub n site
  | .listDisplay =>
    (Rendered.join ", " ((g.indexed n.id EdgeKind.elementIndex?).map fun e => sub e.2)).map fun items =>
      "[" ++ items ++ "]"
  | .dictDisplay =>
    (Rendered.join ", " ((g.keyedPairs n.id).map fun p =>
      (sub p.1).both (fun k v => k ++ ": " ++ v) (sub p.2))).map fun pairs =>
        "\x7b" ++ pairs ++ "\x7d"
  | .accessor =>
    (g.required style sub n .accessValue .missingAccessedValue).both
      (fun value key => value ++ "[" ++ key ++ "]")
      (g.required style sub n .accessKey .missingAccessKey)
  | .attribute =>
    (g.required style sub n .attributeValue .missingOwner).map fun owner =>
      owner ++ "." ++ n.label
  | _ => lacking style n (.noValue n.kind)

theorem mem_ids_of_lookup {g : Graph} {id : NodeId} {n : Node} (h : g.lookup id = some n) :
    id ∈ g.ids := by
  have hn := List.mem_of_find?_eq_some h
  have hid := List.find?_some h
  exact List.mem_map.2 ⟨n, List.mem_reverse.1 hn, by simpa using hid⟩

/-- The text of the value of a node, within the values of the nodes in `visiting`. -/
def resolve (g : Graph) (style : CodeStyle) (visiting : List NodeId) (id : NodeId) : Rendered :=
  match h : g.lookup id with
  | none => ⟨style.placeholder, [⟨id, "", .missingNode⟩]⟩
  | some n =>
    if hv : id ∈ visiting then lacking style n .cyclic
    else
      have := remaining_cons_lt (mem_ids_of_lookup h) hv
      g.renderNode style (fun source => g.resolve style (id :: visiting) source) n
termination_by remaining g.ids visiting

end Graph

end ScopedFlow
