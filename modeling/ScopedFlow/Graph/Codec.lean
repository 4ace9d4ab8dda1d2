import ScopedFlow.Graph.Stats
import ScopedFlow.Json.Decode
import ScopedFlow.Json.Reader
import ScopedFlow.Json.Writer

/-!
# Graphs as JSON documents

A node and an edge are flat objects: the fields of their own, the kind, and the fields that the kind
asks for.
-/

namespace ScopedFlow

open Json (asString? asBool? asNat? asList? nullable requiredField optionalField unique asVariant? isUnit)

def indexLimit : Nat := UInt64.size

def versionLimit : Nat := UInt32.size

def NodeId.toJson (id : NodeId) : Json := .str id.text

def World.toJson (w : World) : Json := .str w.text

def Param.toJson (p : Param) : Json :=
  .obj ([("name", .str p.name), ("optional", .bool p.optional)] ++
    Json.field? "default" .str p.default ++
    (if p.kind = .positional then [] else [("kind", .str p.kind.name)]))

def VariableMode.toJson : VariableMode → Json
  | .param => .str "param"
  | .write => .str "write"
  | .closureRead origin world =>
    .obj [("closure_read", .obj [("origin", origin.toJson), ("origin_world", world.toJson)])]

def Overrides.fields (o : Overrides) : List (String × Json) :=
  if o.isEmpty then []
  else [("overrides", .obj (o.entries.map fun e => (e.1, .str e.2)))]

def Payload.fields : Payload → List (String × Json)
  | .functionDef params => [("params", .arr (params.map Param.toJson))]
  | .classDef bases => [("bases", Json.strings bases)]
  | .variable v =>
    [("mode", v.mode.toJson), ("version", .nat v.version), ("optional", .bool v.optional)]
  | .call site =>
    [("is_method", .bool site.isMethod)] ++
    Json.field? "target_world" World.toJson site.target ++
    [("params", .arr (site.params.map Param.toJson))] ++
    site.overrides.fields
  | .operator unary => [("unary", .bool unary)]
  | .importStmt bindings => [("bindings", Json.strings bindings)]
  | .forBlock target => [("target", .str target)]
  | .exceptBlock exception binding =>
    [("exception", Json.ofOption .str exception), ("binding", Json.ofOption .str binding)]
  | _ => []

def Payload.toJson (p : Payload) : Json := .obj (("kind", .str p.kind.name) :: p.fields)

def Node.toJson (n : Node) : Json :=
  .obj ([("id", n.id.toJson), ("label", .str n.label), ("world", n.world.toJson),
    ("kind", .str n.kind.name)] ++ n.payload.fields)

def EdgeKind.fields : EdgeKind → List (String × Json)
  | .argument index word => Json.field? "index" .nat index ++ Json.field? "keyword" .str word
  | .operand index | .listElement index | .dictKey index | .dictValue index =>
    [("index", .nat index)]
  | .nextClause index => Json.field? "index" .nat index
  | _ => []

def Edge.toJson (e : Edge) : Json :=
  .obj ([("source", e.source.toJson), ("target", e.target.toJson), ("kind", .str e.kind.name)] ++
    e.kind.fields)

def Graph.toJson (g : Graph) : Json :=
  .obj [("nodes", .arr (g.nodes.map Node.toJson)), ("edges", .arr (g.edges.map Edge.toJson))]

def GraphStats.toJson (s : GraphStats) : Json :=
  .obj [("total_nodes", .nat s.nodes), ("total_edges", .nat s.edges), ("worlds", .nat s.worlds),
    ("by_kind", .obj (s.byKind.map fun c => (c.1.name, .nat c.2)))]

def NodeId.ofJson? (v : Json) : Option NodeId := (asString? v).map (⟨·⟩)

def World.ofJson? (v : Json) : Option World :=
  match asString? v with
  | some s =>
    match World.parse s with
    | .ok w => some w
    | .error _ => none
  | none => none

def ParamKind.ofJson? (v : Json) : Option ParamKind :=
  match asVariant? v with
  | some (name, content) => if isUnit content then ParamKind.ofName? name else none
  | none => none

/-- A parameter is an object, or the array of its fields in their order; trailing fields with a
default may be missing there. -/
def Param.ofJson? : Json → Option Param
  | .obj fields => do
    let name ← requiredField asString? fields "name"
    let opt ← optionalField asBool? false fields "optional"
    let value ← optionalField (nullable asString?) none fields "default"
    let kind ← optionalField ParamKind.ofJson? .positional fields "kind"
    return ⟨name, opt, value, kind⟩
  | .arr [name] => do
    return ⟨← asString? name, false, none, .positional⟩
  | .arr [name, opt] => do
    return ⟨← asString? name, ← asBool? opt, none, .positional⟩
  | .arr [name, opt, value] => do
    return ⟨← asString? name, ← asBool? opt, ← nullable asString? value, .positional⟩
  | .arr [name, opt, value, kind] => do
    return ⟨← asString? name, ← asBool? opt, ← nullable asString? value, ← ParamKind.ofJson? kind⟩
  | _ => none

def closureRead? : Option Json → Option VariableMode
  | some (.obj fields) => do
    let origin ← requiredField NodeId.ofJson? fields "origin"
    let world ← requiredField World.ofJson? fields "origin_world"
    return .closureRead origin world
  | some (.arr [origin, world]) => do
    return .closureRead (← NodeId.ofJson? origin) (← World.ofJson? world)
  | _ => none

def VariableMode.ofJson? (v : Json) : Option VariableMode :=
  match asVariant? v with
  | some (name, content) =>
    if name = "param" then if isUnit content then some .param else none
    else if name = "write" then if isUnit content then some .write else none
    else if name = "closure_read" then closureRead? content
    else none
  | none => none

/-- Texts by name; of a name that occurs twice the last text counts. -/
def Overrides.ofJson? : Json → Option Overrides
  | .obj fields =>
    (fields.mapM fun f => (asString? f.2).map fun text => (f.1, text)).map Overrides.ofList
  | _ => none

/-- A kind of node is its name, or its place in the order of kinds. -/
def NodeKind.ofJson? : Json → Option NodeKind
  | .str name => NodeKind.ofName? name
  | .nat position => NodeKind.all[position]?
  | _ => none

def Payload.ofFields? (kind : NodeKind) (fields : List (String × Json)) : Option Payload :=
  match kind with
  | .functionDef => do
    return .functionDef (← optionalField (asList? Param.ofJson?) [] fields "params")
  | .classDef => do
    return .classDef (← optionalField (asList? asString?) [] fields "bases")
  | .variable => do
    let mode ← requiredField VariableMode.ofJson? fields "mode"
    let version ← optionalField (asNat? versionLimit) 0 fields "version"
    let opt ← optionalField asBool? false fields "optional"
    return .variable ⟨mode, version, opt⟩
  | .call => do
    let isMethod ← optionalField asBool? false fields "is_method"
    let target ← optionalField (nullable World.ofJson?) none fields "target_world"
    let params ← optionalField (asList? Param.ofJson?) [] fields "params"
    let overrides ← optionalField Overrides.ofJson? .empty fields "overrides"
    return .call ⟨isMethod, target, params, overrides⟩
  | .operator => do
    return .operator (← optionalField asBool? false fields "unary")
  | .importStmt => do
    return .importStmt (← optionalField (asList? asString?) [] fields "bindings")
  | .forBlock => do
    return .forBlock (← optionalField asString? "" fields "target")
  | .exceptBlock => do
    let exception ← optionalField (nullable asString?) none fields "exception"
    let binding ← optionalField (nullable asString?) none fields "binding"
    return .exceptBlock exception binding
  | .literal => some .literal
  | .returnStmt => some .returnStmt
  | .ifBlock => some .ifBlock
  | .elifBlock => some .elifBlock
  | .elseBlock => some .elseBlock
  | .whileBlock => some .whileBlock
  | .tryBlock => some .tryBlock
  | .listDisplay => some .listDisplay
  | .dictDisplay => some .dictDisplay
  | .accessor => some .accessor
  | .attribute => some .attribute

def Node.ofJson? : Json → Option Node
  | .obj fields => do
    let id ← requiredField NodeId.ofJson? fields "id"
    let label ← requiredField asString? fields "label"
    let world ← requiredField World.ofJson? fields "world"
    let kind ← requiredField NodeKind.ofJson? fields "kind"
    let payload ← Payload.ofFields? kind fields
    return ⟨id, label, world, payload⟩
  | _ => none

def EdgeKind.names : List String :=
  ["argument", "operand", "writes_to", "input", "list_element", "dict_key", "dict_value",
    "access_value", "access_key", "attribute_value", "iterates_on", "next_clause", "closure_of"]

def EdgeKind.nameOfJson? : Json → Option String
  | .str name => some name
  | .nat position => EdgeKind.names[position]?
  | _ => none

def EdgeKind.ofFields? (fields : List (String × Json)) : Option EdgeKind := do
  let name ← requiredField EdgeKind.nameOfJson? fields "kind"
  let index := requiredField (asNat? indexLimit) fields "index"
  let index? := optionalField (nullable (asNat? indexLimit)) none fields "index"
  if name = "argument" then
    return .argument (← index?) (← optionalField (nullable asString?) none fields "keyword")
  else if name = "operand" then return .operand (← index)
  else if name = "writes_to" then return .writesTo
  else if name = "input" then return .input
  else if name = "list_element" then return .listElement (← index)
  else if name = "dict_key" then return .dictKey (← index)
  else if name = "dict_value" then return .dictValue (← index)
  else if name = "access_value" then return .accessValue
  else if name = "access_key" then return .accessKey
  else if name = "attribute_value" then return .attributeValue
  else if name = "iterates_on" then return .iteratesOn
  else if name = "next_clause" then return .nextClause (← index?)
  else if name = "closure_of" then return .closureOf
  else none

def EdgeKind.ofJson? : Json → Option EdgeKind
  | .obj fields => EdgeKind.ofFields? fields
  | _ => none

def Edge.ofJson? : Json → Option Edge
  | .obj fields => do
    let source ← requiredField NodeId.ofJson? fields "source"
    let target ← requiredField NodeId.ofJson? fields "target"
    let kind ← EdgeKind.ofFields? fields
    return ⟨source, target, kind⟩
  | _ => none

/-- A graph is an object, or the array of its nodes and its edges. -/
def Graph.ofJson? : Json → Option Graph
  | .obj fields => do
    let nodes ← requiredField (asList? Node.ofJson?) fields "nodes"
    let edges ← requiredField (asList? Edge.ofJson?) fields "edges"
    return ⟨nodes, edges⟩
  | .arr [nodes, edges] => do
    return ⟨← asList? Node.ofJson? nodes, ← asList? Edge.ofJson? edges⟩
  | _ => none

/-- How deep a document may nest what it keeps. -/
def depthLimit : Nat := 127

/-- Whether the lists of a graph stay within the limits of nesting and of numbers; they stand one
level below the document. -/
def withinLimits (v : Json) : Bool := v.depth + 1 ≤ depthLimit && v.isFinite

/-- The values of a document that a graph is made from. -/
def Graph.kept : Json → List Json
  | .obj fields => (fields.filter fun f => f.1 = "nodes" || f.1 = "edges").map (·.2)
  | .arr items => items
  | _ => []

def Graph.parse (text : String) : Option Graph :=
  match Json.parse text with
  | some v => if (Graph.kept v).all withinLimits then Graph.ofJson? v else none
  | none => none

def Graph.print (g : Graph) : String := g.toJson.pretty

end ScopedFlow
