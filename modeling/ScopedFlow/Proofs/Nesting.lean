import Mathlib.Data.List.Perm.Subperm
import ScopedFlow.Proofs.Numbering
import ScopedFlow.Proofs.Scoping

/-!
# How deep a body stands

The chain of a world goes from parent to parent until there is none or it would come back, whatever
the parents are. In the graph of a text it leads from a body to the module, and is as long as the
body is deep.
-/

namespace ScopedFlow

namespace WorldTree

variable {t : WorldTree} {seen : List World} {w p : World}

/-- The chain of a world: from each world on to its parent, as long as the parent is new. -/
structure Climbs (t : WorldTree) (w : World) (ws : List World) : Prop where
  first : ws.head? = some w
  once : ws.Nodup
  parents : ws.IsChain fun a b => t.parent? a = some b
  ends : ∀ v ∈ ws.getLast?, ∀ p, t.parent? v = some p → p ∈ ws
  bounded : ws.length ≤ t.parents.size + 1

/-- What is above a world when some worlds have been met. -/
structure Ascends (t : WorldTree) (seen : List World) (w : World) (ws : List World) : Prop where
  once : ws.Nodup
  new : ∀ v ∈ ws, v ∉ seen ∧ v ∈ t.parents.values
  parents : (w :: ws).IsChain fun a b => t.parent? a = some b
  ends : ∀ v ∈ (w :: ws).getLast?, ∀ p, t.parent? v = some p → p ∈ seen ∨ p ∈ ws

theorem Ascends.nil (h : ∀ p, t.parent? w = some p → p ∈ seen) : t.Ascends seen w [] where
  once := .nil
  new := List.forall_mem_nil _
  parents := .singleton _
  ends := by
    rintro v ⟨⟩ p hp
    exact .inl (h p hp)

theorem Ascends.cons (h : t.parent? w = some p) (hp : p ∉ seen) {ws : List World}
    (ha : t.Ascends (p :: seen) p ws) : t.Ascends seen w (p :: ws) where
  once := List.nodup_cons.mpr ⟨fun hmem => (ha.new p hmem).1 List.mem_cons_self, ha.once⟩
  new := List.forall_mem_cons.mpr ⟨⟨hp, Table.mem_values_of_get? h⟩, fun v hv =>
    ⟨fun hs => (ha.new v hv).1 (List.mem_cons_of_mem _ hs), (ha.new v hv).2⟩⟩
  parents := .cons_cons h ha.parents
  ends v hv u hu := by
    rw [List.getLast?_cons_cons] at hv
    rcases ha.ends v hv u hu with hmem | hmem
    · rcases List.mem_cons.mp hmem with rfl | hmem
      · exact .inr List.mem_cons_self
      · exact .inl hmem
    · exact .inr (List.mem_cons_of_mem _ hmem)

/-- By induction on the worlds that are still to be met. -/
theorem ascends_above (t : WorldTree) (seen : List World) (w : World) :
    t.Ascends seen w (t.above seen w) := by
  induction seen, w using above.induct t with
  | case1 seen w h =>
    rw [above_eq, h]
    exact .nil (by simp [h])
  | case2 seen w p h hs =>
    rw [above_eq, h, Option.elim_some, if_pos hs]
    exact .nil (by simp [h, hs])
  | case3 seen w p h hs _ ih =>
    rw [above_eq, h, Option.elim_some, if_neg hs]
    exact .cons h hs ih

theorem climbs_chain (t : WorldTree) (w : World) : t.Climbs w (t.chain w) := by
  have ha := t.ascends_above [w] w
  refine ⟨rfl, ?_, ha.parents, ?_, ?_⟩
  · exact List.nodup_cons.mpr ⟨fun hw => (ha.new w hw).1 List.mem_cons_self, ha.once⟩
  · intro v hv p hp
    exact (ha.ends v hv p hp).elim (fun hmem => List.mem_singleton.mp hmem ▸ List.mem_cons_self)
      (List.mem_cons_of_mem _)
  · have hle := (ha.once.subperm fun v hv => (ha.new v hv).2).length_le
    rw [Table.values, List.length_map] at hle
    exact Nat.succ_le_succ hle

end WorldTree

mutual
def Stmt.depths (d : Nat) : Stmt → List Nat
  | .function _ _ body | .class _ _ body | .each _ _ body | .while _ body =>
    (d + 1) :: Stmt.depthsOf (d + 1) body
  | .branch _ body rest => (d + 1) :: (Stmt.depthsOf (d + 1) body ++ rest.depths d)
  | .attempt body clauses => (d + 1) :: (Stmt.depthsOf (d + 1) body ++ Handler.depths d clauses)
  | .assign _ _ | .augment _ _ _ | .eval _ | .ret _ | .import _ _ | .skip => []

def Stmt.depthsOf (d : Nat) : List Stmt → List Nat
  | [] => []
  | stmt :: rest => stmt.depths d ++ Stmt.depthsOf d rest

def Alternatives.depths (d : Nat) : Alternatives → List Nat
  | .done => []
  | .elif _ body rest => (d + 1) :: (Stmt.depthsOf (d + 1) body ++ rest.depths d)
  | .otherwise body => (d + 1) :: Stmt.depthsOf (d + 1) body

def Handler.depths (d : Nat) : List Handler → List Nat
  | [] => []
  | .mk _ _ body :: rest => (d + 1) :: (Stmt.depthsOf (d + 1) body ++ Handler.depths d rest)
end

namespace Steps

variable {w : Place} {outer : List Place} {k : Nat} {all ss ts : List Step} {ds es : List Nat}

/-- Steps at `w` whose bodies are as deep as `ds` says, wherever they stand in `all`. -/
def Nests (all : List Step) (w : Place) (outer : List Place) (k : Nat) (ss : List Step)
    (ds : List Nat) : Prop :=
  ∀ before after, all = before ++ (ss ++ after) → count before = k → w.Below k →
    Ladder all (w :: outer) → List.Forall₂
      (fun j d => ∃ path, Ladder all (.body j :: path) ∧ path.length = d) (ownersFrom k ss) ds

namespace Nests

theorem append (h : Nests all w outer k ss ds) (h' : Nests all w outer (k + count ss) ts es) :
    Nests all w outer k (ss ++ ts) (ds ++ es) := by
  intro before after hall hk hw hl
  rw [ownersFrom_append]
  refine List.rel_append (h before (ts ++ after) ?_ hk hw hl) (h' (before ++ ss) after ?_ ?_ ?_ hl)
  · rw [hall, List.append_assoc]
  · rw [hall, List.append_assoc, List.append_assoc]
  · rw [count_append, hk]
  · exact hw.mono (Nat.le_add_right ..)

theorem of_carries {own : List WrittenBinding} (h : w.Below k → Carries w k ss own []) :
    Nests all w outer k ss [] := by
  intro before after hall hk hw hl
  rw [List.forall₂_nil_right_iff.mp (h hw).inside]
  exact .nil

theorem calm (h : Calm ss) : Nests all w outer k ss [] := of_carries fun _ => .of_calm h

theorem block {label : String} {payload : Payload} (ho : payload.kind.ownsWorld = true)
    {mid : List Step} {own : List WrittenBinding} (hmid : Carries w (k + 1) mid own [])
    {names : List (String × Bool)} {body : List Stmt}
    (hbody : ∀ k', Nests all (.body k) (w :: outer) k' (statements (.body k) (w :: outer) k' body)
      (Stmt.depthsOf (outer.length + 1) body)) :
    Nests all w outer k (Steps.block w outer k label payload mid names body)
      ((outer.length + 1) :: Stmt.depthsOf (outer.length + 1) body) := by
  have hheader : Nests all (.body k) (w :: outer) (k + 1 + count mid)
      (header (.body k) (k + 1 + count mid) names) [] := of_carries fun hk => .header hk names
  have hinner := hheader.append (hbody _)
  intro before after hall hk hw hl
  have hself : (sketches all)[k]? = some ⟨w, label, .plain payload⟩ := by
    rw [hall, ← hk]
    exact sketch_here ..
  have hladder : Ladder all (.body k :: w :: outer) := .body hself ho hl
  rw [Steps.block] at hall ⊢
  rw [Carries.ownersFrom_opens w label ho (List.forall₂_nil_right_iff.mp hmid.inside)]
  refine .cons ⟨_, hladder, rfl⟩ (hinner (before ++ (place w label (.plain payload) k none ++
    (mid ++ [.enter (.body k)]))) (.leave :: after) ?_ ?_ ?_ hladder)
  · simp [hall, enclosed]
  · rw [count_append, count_append, count_append, count_place, hk, ← Nat.add_assoc]
    rfl
  · exact show k < k + 1 + count mid by omega

end Nests

mutual
theorem nests_statement {w : Place} {outer : List Place} {k : Nat} : (stmt : Stmt) →
    Nests all w outer k (statement w outer k stmt) (stmt.depths outer.length)
  | .function name params body => by
    rw [statement_function]
    exact .block rfl (.bind w (k + 1) name k w) fun _ => nests_statements body
  | .class name bases body => by
    rw [statement_class]
    exact .block rfl (.bind w (k + 1) name k w) fun _ => nests_statements body
  | .branch test body rest => by
    rw [statement_branch]
    have hfirst : Nests all w outer k (conditional w outer k "if" .ifBlock test body) _ :=
      .block rfl (.of_calm (calm_expr ..)) fun _ => nests_statements body
    exact hfirst.append (nests_alternatives rest)
  | .each target source body => by
    rw [statement_each]
    exact .block rfl (.of_calm (calm_expr ..)) fun _ => nests_statements body
  | .while test body => by
    rw [statement_while]
    exact .block rfl (.of_calm (calm_expr ..)) fun _ => nests_statements body
  | .attempt body clauses => by
    rw [statement_attempt]
    have hfirst : Nests all w outer k (block w outer k "try" .tryBlock [] [] body) _ :=
      .block rfl (.of_calm calm_nil) fun _ => nests_statements body
    exact hfirst.append (nests_handlers clauses)
  | .assign name value => .of_carries fun hw => carries_statement outer hw (.assign name value)
  | .augment name op value => .of_carries fun hw => carries_statement outer hw (.augment name op value)
  | .eval e => .of_carries fun hw => carries_statement outer hw (.eval e)
  | .ret value => .of_carries fun hw => carries_statement outer hw (.ret value)
  | .import text names => .of_carries fun hw => carries_statement outer hw (.import text names)
  | .skip => .of_carries fun hw => carries_statement outer hw .skip

theorem nests_statements {w : Place} {outer : List Place} {k : Nat} : (stmts : List Stmt) →
    Nests all w outer k (statements w outer k stmts) (Stmt.depthsOf outer.length stmts)
  | [] => .calm rfl
  | stmt :: rest => by
    unfold statements
    exact (nests_statement stmt).append (nests_statements rest)

theorem nests_alternatives {w : Place} {outer : List Place} {previous k : Nat} :
    (rest : Alternatives) →
    Nests all w outer k (alternatives w outer previous k rest) (rest.depths outer.length)
  | .done => .calm rfl
  | .elif test body rest => by
    rw [alternatives_elif]
    have hfirst : Nests all w outer k (conditional w outer k "elif" .elifBlock test body) _ :=
      .block rfl (.of_calm (calm_expr ..)) fun _ => nests_statements body
    have hwire : Calm [.wire previous ⟨k, .nextClause none⟩] := rfl
    exact hfirst.append ((Nests.calm hwire).append (nests_alternatives rest))
  | .otherwise body => by
    rw [alternatives_otherwise]
    have hfirst : Nests all w outer k (block w outer k "else" .elseBlock [] [] body) _ :=
      .block rfl (.of_calm calm_nil) fun _ => nests_statements body
    have hwire : Calm [.wire previous ⟨k, .nextClause none⟩] := rfl
    have hall := hfirst.append (.calm hwire)
    rwa [List.append_nil] at hall

theorem nests_handlers {w : Place} {outer : List Place} {owner index k : Nat} :
    (clauses : List Handler) →
    Nests all w outer k (handlers w outer owner index k clauses) (Handler.depths outer.length clauses)
  | [] => .calm rfl
  | .mk caught binding body :: rest => by
    rw [handlers_cons]
    have hwire : Calm [.wire owner ⟨k, .nextClause (some index)⟩] := rfl
    have hfirst : Nests all w outer k (handlerBlock w outer k owner index caught binding body) _ :=
      .block rfl (.of_calm (hwire.append (calm_exception ..))) fun _ => nests_statements body
    exact hfirst.append (nests_handlers rest)
end

end Steps

/-- The chain of a world ends at the module and has `d` worlds around the first. -/
def WorldTree.Reaches (t : WorldTree) (w : World) (d : Nat) : Prop :=
  (t.chain w).length = d + 1 ∧ (t.chain w).getLast? = some .root

theorem Run.Draws.reaches {q : Run} {all : List Step} (h : Draws q all) {ds : List Nat}
    (hn : Steps.Nests all .root [] 0 all ds) :
    List.Forall₂ (WorldTree.ofGraph q.builder.graph).Reaches
      (q.builder.graph.nodes.filterMap Node.ownWorld?) ds := by
  rw [(List.cons.inj h.scopes_eq).2]
  refine List.forall₂_map_left_iff.mpr ?_
  refine (hn [] [] (List.append_nil all).symm rfl trivial .root).imp fun j d hj => ?_
  obtain ⟨path, hladder, rfl⟩ := hj
  rw [WorldTree.Reaches, h.chain_of_ladder hladder, List.length_map, List.getLast?_map,
    hladder.getLast?_eq]
  exact ⟨rfl, rfl⟩

namespace WorldTree

theorem ofGraph_link (g : Graph) : ofGraph g.link.1 = ofGraph g ∧
    g.link.1.nodes.filterMap Node.ownWorld? = g.nodes.filterMap Node.ownWorld? := by
  have hown (n : Node) : n.bare.ownWorld? = n.ownWorld? := by
    rw [Node.ownWorld?, n.kind_bare, n.id_bare, Node.ownWorld?]
  have hbare : g.link.1.nodes.map Node.bare = g.nodes.map Node.bare := Graph.bare_linkOn ..
  constructor
  · have hof (g : Graph) : ofGraph g = ofGraph ⟨g.nodes.map Node.bare, []⟩ := by
      simp only [ofGraph, List.foldl_map, hown, Node.world_bare]
    rw [hof, hbare, ← hof]
  · have hof (g : Graph) : g.nodes.filterMap Node.ownWorld? =
        (g.nodes.map Node.bare).filterMap Node.ownWorld? := by
      simp only [List.filterMap_map, Function.comp_def, hown]
    rw [hof, hbare, ← hof]

/-- Chains are finite and exact, also where parents go round in circles. In the graph of a text the
bodies, in the order of the text, lead to the module in as many steps as they are deep. -/
theorem chain_exact :
    (∀ (t : WorldTree) (w : World), t.Climbs w (t.chain w) ∧ t.path w = (t.chain w).reverse) ∧
    ∀ (supply : Supply) (text : String) (module : List Stmt), Source.parse text = .ok module →
      ∃ g rest, Graph.ofSourceLinked supply text = .ok (g, rest) ∧
        List.Forall₂ (ofGraph g).Reaches (g.nodes.filterMap Node.ownWorld?)
          (Stmt.depthsOf 0 module) := by
  refine ⟨fun t w => ⟨t.climbs_chain w, rfl⟩, fun supply text module h => ?_⟩
  refine ⟨_, _, by rw [Graph.ofSourceLinked, Graph.ofSource, h], ?_⟩
  have hreaches := (Run.draws_ofModule supply module).reaches (Steps.nests_statements module)
  rw [Run.graph_ofModule] at hreaches
  rw [(ofGraph_link _).1, (ofGraph_link _).2]
  exact hreaches

/-- Two worlds that are each other's parent, and a body of a handler in a loop. -/
theorem chain_exact_nested :
    let t := (empty.add (.body ⟨"a"⟩) (.body ⟨"b"⟩)).add (.body ⟨"b"⟩) (.body ⟨"a"⟩)
    let text := "def f():\n    while f:\n        try:\n            f()\n        except E:\n" ++
      "            pass\nclass C:\n    pass\n"
    t.Climbs (.body ⟨"a"⟩) [.body ⟨"a"⟩, .body ⟨"b"⟩] ∧
      ∃ g rest, Graph.ofSourceLinked ⟨0⟩ text = .ok (g, rest) ∧
        List.Forall₂ (ofGraph g).Reaches (g.nodes.filterMap Node.ownWorld?) [1, 2, 3, 3, 1] := by
  intro t text
  have hchain : t.chain (.body ⟨"a"⟩) = [.body ⟨"a"⟩, .body ⟨"b"⟩] := by decide +kernel
  have hdepths : (Source.parse text).map (Stmt.depthsOf 0) = .ok [1, 2, 3, 3, 1] := by
    decide +kernel
  obtain ⟨module, h, hmodule⟩ := exists_of_map_eq_ok hdepths
  have hall := chain_exact.2 ⟨0⟩ text module h
  rw [hmodule] at hall
  exact ⟨hchain ▸ (chain_exact.1 t _).1, hall⟩

end WorldTree
end ScopedFlow
