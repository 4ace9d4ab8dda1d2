import ScopedFlow.Proofs.Bodies
import ScopedFlow.Proofs.Origins

/-!
# Reads of an injected snippet

Its first statement finds the names as they are entered again for the world: a name stands for the
last variable, function or class of that name in the innermost world that has one. Stand-ins count
among the variables, so a read can find a stand-in where the text would give the node behind it, or
one of the reader's own world.
-/

namespace ScopedFlow

variable {e : Node}

namespace Run
open Steps

variable {k : Nat} {W : World}

/-- Every read in the world `p` finds the names as they were before the steps. -/
def Undisturbed (p : Place) (r : Run) (ss : List Step) : Prop :=
  ∀ before name outer port after, ss = before ++ .read name p outer port :: after →
    (r.all before).builder.symbols = r.builder.symbols

theorem symbols_quiet {ss : List Step} (h : Quiet ss) (r : Run) :
    (r.all ss).builder.symbols = r.builder.symbols := by
  induction ss generalizing r with
  | nil => rfl
  | cons s ss ih =>
    have hs : quiet s = true := h.of_mem List.mem_cons_self
    have hss : Quiet ss := List.all_eq_true.mpr fun t ht => h.of_mem (List.mem_cons_of_mem _ ht)
    rw [all_cons, ih hss]
    cases s with
    | node sketch => rfl
    | wire source port => rfl
    | read name w outer port => exact (Builder.evaluates_read ..).symbols_eq
    | bind | enter | leave => cases hs

namespace Undisturbed

variable {p : Place} {r : Run} {ss ts : List Step}

theorem quiet (h : Quiet ss) : Undisturbed p r ss := by
  rintro before name outer port after rfl
  refine symbols_quiet (List.all_eq_true.mpr fun s hs => ?_) r
  exact h.of_mem (List.mem_append_left _ hs)

theorem of_not_mem (h : ∀ name outer port, .read name p outer port ∉ ss) : Undisturbed p r ss := by
  rintro before name outer port after rfl
  exact absurd (List.mem_append_right _ List.mem_cons_self) (h name outer port)

theorem append (hs : Undisturbed p r ss) (hsame : (r.all ss).builder.symbols = r.builder.symbols)
    (ht : Undisturbed p (r.all ss) ts) : Undisturbed p r (ss ++ ts) := by
  intro before name outer port after heq
  rcases List.append_eq_append_iff.mp heq with ⟨front, rfl, hts⟩ | ⟨front, rfl, hfront⟩
  · rw [all_append, ht front name outer port after hts, hsame]
  · cases front with
    | nil =>
      rw [List.append_nil] at hsame ht
      exact hsame
    | cons s front =>
      obtain ⟨rfl, -⟩ := List.cons.inj hfront
      exact hs before name outer port front rfl

end Undisturbed

theorem read_not_mem_enclosed {p : Place} {n : Nat} (outer : List Place) (hk : k < n)
    (hp : p.Below k) (hi : p ≠ .imports) (names : List (String × Bool)) (body : List Stmt)
    (name : String) (outer' : List Place) (port : Port) :
    .read name p outer' port ∉ enclosed k (header (.body k) n names ++
      statements (.body k) outer (n + count (header (.body k) n names)) body) := by
  intro hmem
  have hcontained := Keeps.enclosed (k := k) (contained_suite outer k n names body)
  rcases hcontained.homes _ hmem p rfl with rfl | rfl | ⟨j, rfl, hj⟩
  · exact Nat.lt_irrefl k hp
  · exact hi rfl
  · have hlt : j < k := hp
    have := hj.1
    omega

theorem symbols_enclosed {r : Run} {n : Nat} (outer : List Place) (hn : r.made.length = n)
    (hk : k < n) (names : List (String × Bool)) (body : List Stmt) :
    (r.all (enclosed k (header (.body k) n names ++
      statements (.body k) outer (n + count (header (.body k) n names)) body))).builder.symbols =
        r.builder.symbols := by
  have hready : Ready r n .root .root := ⟨hn, trivial, rfl⟩
  have hknows : Knows r [(k, r.nodeId k)] := List.forall_mem_singleton.mpr ⟨hn ▸ hk, rfl⟩
  have hdoes : Does .root .root [(k, r.nodeId k)] n _ _ :=
    ((Does.header names).append (does_statements outer body)).enclosed (.head _)
  rw [hdoes r hready hknows]
  have hnames := Builder.performs_foldl (w := .body (r.nodeId k)) (fun b q =>
    Builder.performs_bindParam _ b q.1 q.2) names r.builder.enter
  exact (hnames.trans (Builder.performs_statements _ body _)).executes.symbols_leave

theorem undisturbed_block {p : Place} {r : Run} (h : Ready r k p W) (hi : p ≠ .imports)
    (outer : List Place) (label : String) (payload : Payload) {mid : List Step} (hmid : Quiet mid)
    (names : List (String × Bool)) (body : List Stmt) :
    Undisturbed p r (block p outer k label payload mid names body) ∧
      (r.all (block p outer k label payload mid names body)).builder.symbols =
        r.builder.symbols := by
  have hhead : Quiet (place p label (.plain payload) k none ++ mid) := (quiet_place ..).append hmid
  have hlength := (h.all (place p label (.plain payload) k none ++ mid)).length
  rw [count_append, count_place, ← Nat.add_assoc] at hlength
  rw [block, ← List.append_assoc]
  refine ⟨(Undisturbed.quiet hhead).append (symbols_quiet hhead r) (.of_not_mem ?_), ?_⟩
  · exact read_not_mem_enclosed (p :: outer) (by omega) h.below hi names body
  · rw [all_append, symbols_enclosed (p :: outer) hlength (by omega), symbols_quiet hhead]

theorem undisturbed_alternatives {p : Place} {r : Run} {k previous : Nat} {W : World}
    (h : Ready r k p W) (hi : p ≠ .imports) (outer : List Place) (rest : Alternatives) :
    Undisturbed p r (alternatives p outer previous k rest) := by
  cases rest with
  | done => exact .quiet rfl
  | elif test body rest =>
    obtain ⟨hfirst, hsame⟩ := undisturbed_block h hi outer ("elif" ++ " " ++ test.text) .elifBlock
      (quiet_expr p outer (some ⟨k, .input⟩) (k + 1) test.expr) [] body
    have hwire : Quiet [.wire previous ⟨k, .nextClause none⟩] := rfl
    have hready := (h.all (conditional p outer k "elif" .elifBlock test body)).all
      [.wire previous ⟨k, .nextClause none⟩]
    rw [alternatives_elif]
    refine hfirst.append hsame ((Undisturbed.quiet hwire).append (symbols_quiet hwire _) ?_)
    exact undisturbed_alternatives hready hi outer rest
  | otherwise body =>
    obtain ⟨hfirst, hsame⟩ := undisturbed_block h hi outer "else" .elseBlock quiet_nil [] body
    rw [alternatives_otherwise]
    exact hfirst.append hsame (.quiet rfl)

theorem quiet_caught {p : Place} {outer : List Place} (owner index : Nat) (caught : Option Phrase) :
    Quiet ([.wire owner ⟨k, .nextClause (some index)⟩] ++ exception p outer k caught) := by
  cases caught with
  | none => rfl
  | some e => exact Quiet.append rfl (quiet_expr ..)

theorem undisturbed_handlers {p : Place} {r : Run} {owner index : Nat} (h : Ready r k p W)
    (hi : p ≠ .imports) (outer : List Place) (clauses : List Handler) :
    Undisturbed p r (handlers p outer owner index k clauses) := by
  induction clauses generalizing r k index with
  | nil => exact .quiet rfl
  | cons clause rest ih =>
    obtain ⟨caught, binding, body⟩ := clause
    obtain ⟨hfirst, hsame⟩ := undisturbed_block h hi outer (Builder.handlerLabel caught binding)
      (.exceptBlock (caught.map (·.text)) binding) (quiet_caught owner index caught)
      (loopNames binding.toList) body
    have hready := h.all (handlerBlock p outer k owner index caught binding body)
    rw [handlers_cons]
    exact hfirst.append hsame (ih hready)

theorem undisturbed_definition {p : Place} {r : Run} (h : Ready r k p W) (hi : p ≠ .imports)
    (outer : List Place) (name : String) (payload : Payload) (names : List (String × Bool))
    (body : List Stmt) :
    Undisturbed p r (block p outer k name payload [.bind name p k p] names body) := by
  have hhead : Quiet (place p name (.plain payload) k none) := quiet_place ..
  rw [block]
  refine (Undisturbed.quiet hhead).append (symbols_quiet hhead r) (.of_not_mem ?_)
  intro other outer' port hmem
  rcases List.mem_append.mp hmem with hmem | hmem
  · simp at hmem
  · exact read_not_mem_enclosed (p :: outer) (by omega) h.below hi names body other outer' port hmem

theorem undisturbed_assign {p : Place} {r : Run} (outer : List Place) (name : String) (value : Expr) :
    Undisturbed p r (statement p outer k (.assign name value)) := by
  have hhead : Quiet (place p name .write k none ++ expr p outer (some ⟨k, .writesTo⟩) (k + 1) value) :=
    (quiet_place ..).append (quiet_expr ..)
  rw [statement_assign, ← List.append_assoc]
  exact (Undisturbed.quiet hhead).append (symbols_quiet hhead r) (.of_not_mem (by simp))

theorem undisturbed_statement {p : Place} {r : Run} (h : Ready r k p W) (hi : p ≠ .imports)
    (outer : List Place) (stmt : Stmt) : Undisturbed p r (statement p outer k stmt) := by
  cases stmt with
  | assign name value => exact undisturbed_assign outer name value
  | augment name op value =>
    rw [statement_augment]
    exact undisturbed_assign outer name _
  | eval e =>
    unfold statement
    split
    · exact .quiet (quiet_expr ..)
    · exact .quiet rfl
  | ret value =>
    cases value with
    | none => exact .quiet rfl
    | some e => exact .quiet (Quiet.append rfl (quiet_expr ..))
  | function name params body =>
    rw [statement_function]
    exact undisturbed_definition h hi outer name _ _ body
  | «class» name bases body =>
    rw [statement_class]
    exact undisturbed_definition h hi outer name _ _ body
  | branch test body rest =>
    obtain ⟨hfirst, hsame⟩ := undisturbed_block h hi outer ("if" ++ " " ++ test.text) .ifBlock
      (quiet_expr p outer (some ⟨k, .input⟩) (k + 1) test.expr) [] body
    have hready := h.all (conditional p outer k "if" .ifBlock test body)
    rw [statement_branch]
    exact hfirst.append hsame (undisturbed_alternatives hready hi outer rest)
  | each target source body =>
    rw [statement_each]
    exact (undisturbed_block h hi outer _ _ (quiet_expr ..) _ body).1
  | «while» test body =>
    rw [statement_while]
    exact (undisturbed_block h hi outer _ _ (quiet_expr ..) _ body).1
  | attempt body clauses =>
    obtain ⟨hfirst, hsame⟩ := undisturbed_block h hi outer "try" .tryBlock quiet_nil [] body
    have hready := h.all (block p outer k "try" .tryBlock [] [] body)
    rw [statement_attempt]
    exact hfirst.append hsame (undisturbed_handlers hready hi outer clauses)
  | «import» text names => exact .of_not_mem (by simp [statement])
  | skip => exact .quiet rfl

end Run

namespace Builder

theorem Evaluates.keeps {w : World} {b b' : Builder} (h : Evaluates w b b') :
    b.graph.nodes ⊆ b'.graph.nodes ∧ b.graph.edges ⊆ b'.graph.edges := by
  induction h with
  | refl b => exact ⟨List.Subset.refl _, List.Subset.refl _⟩
  | trans _ _ ih ih' => exact ⟨List.Subset.trans ih.1 ih'.1, List.Subset.trans ih.2 ih'.2⟩
  | add b nameless label => exact ⟨List.subset_append_left .., List.Subset.refl _⟩
  | wire b source target kind => exact ⟨by simp, Graph.subset_addEdge b.graph _⟩
  | @standIn b name binding found away absent =>
    have hedges : b.graph.edges ⊆ (b.standIn name binding w).graph.edges :=
      Graph.subset_addEdge (b.add _ name w).graph _
    exact ⟨by simp, hedges⟩

/-- The table of stand-ins names nodes that stand in for its keys. -/
def Backed (base : List Node) (b : Builder) : Prop :=
  ∀ v origin id, b.proxies.get? (v, origin) = some id →
    ∃ n ∈ base ++ b.graph.nodes, n.id = id ∧ n.standsAt? = some (v, origin)

namespace Backed

variable {base : List Node} {b b' : Builder}

theorem mono (h : Backed base b) (hp : b'.proxies = b.proxies)
    (hn : b.graph.nodes ⊆ b'.graph.nodes) : Backed base b' := by
  intro v origin id hid
  obtain ⟨n, hmem, hn'⟩ := h v origin id (hp ▸ hid)
  refine ⟨n, ?_, hn'⟩
  rcases List.mem_append.mp hmem with hmem | hmem
  · exact List.mem_append_left _ hmem
  · exact List.mem_append_right _ (hn hmem)

theorem evaluates (h : Backed base b) {w : World} (he : Evaluates w b b') : Backed base b' := by
  induction he with
  | refl b => exact h
  | trans _ _ ih ih' => exact ih' (ih h)
  | add b nameless label => exact h.mono rfl (List.subset_append_left ..)
  | wire b source target kind => exact h.mono rfl (by simp)
  | @standIn b name binding found away absent =>
    intro v origin id hid
    by_cases hkey : (w, binding.node) = (v, origin)
    · obtain ⟨rfl, rfl⟩ := Prod.mk.inj hkey
      have hnew : (b.standIn name binding w).proxies.get? (w, binding.node) =
          some (b.fresh .variable) := Table.get?_insert_self ..
      obtain rfl := Option.some.inj (hnew.symm.trans hid)
      rw [nodes_standIn]
      exact ⟨_, List.mem_append_right _ (List.mem_append_right _ List.mem_cons_self), rfl, rfl⟩
    · have hold : (b.standIn name binding w).proxies.get? (v, origin) =
          b.proxies.get? (v, origin) := Table.get?_insert_of_ne _ hkey _
      obtain ⟨n, hmem, hn⟩ := h v origin id (hold.symm.trans hid)
      have hkeeps := (Evaluates.standIn found away absent).keeps.1
      refine ⟨n, ?_, hn⟩
      exact (List.mem_append.mp hmem).elim (List.mem_append_left _)
        fun hm => List.mem_append_right _ (hkeeps hm)

end Backed

end Builder

namespace Run
open Builder

theorem keeps_step (r : Run) (s : Step) :
    r.builder.graph.nodes ⊆ (r.step s).builder.graph.nodes ∧
      r.builder.graph.edges ⊆ (r.step s).builder.graph.edges := by
  cases s with
  | node sketch => exact ⟨List.subset_append_left .., List.Subset.refl _⟩
  | wire source port => exact (evaluates_connect .root ..).keeps
  | read name w outer port => exact (evaluates_read ..).keeps
  | bind name body node home => exact ⟨List.Subset.refl _, List.Subset.refl _⟩
  | enter body => exact ⟨List.Subset.refl _, List.Subset.refl _⟩
  | leave => exact ⟨List.Subset.refl _, List.Subset.refl _⟩

theorem keeps_all (r : Run) (ss : List Step) :
    r.builder.graph.nodes ⊆ (r.all ss).builder.graph.nodes ∧
      r.builder.graph.edges ⊆ (r.all ss).builder.graph.edges := by
  induction ss generalizing r with
  | nil => exact ⟨List.Subset.refl _, List.Subset.refl _⟩
  | cons s ss ih =>
    obtain ⟨hn, he⟩ := keeps_step r s
    obtain ⟨hn', he'⟩ := ih (r.step s)
    exact ⟨List.Subset.trans hn hn', List.Subset.trans he he'⟩

theorem backed_step {base : List Node} {r : Run} (h : Backed base r.builder) (s : Step) :
    Backed base (r.step s).builder := by
  cases s with
  | node sketch => exact h.mono rfl (List.subset_append_left ..)
  | wire source port => exact h.evaluates (evaluates_connect .root r.builder _ (some _))
  | read name w outer port => exact h.evaluates (evaluates_read ..)
  | bind name body node home => exact h
  | enter body => exact h
  | leave => exact h

theorem backed_all {base : List Node} {r : Run} (h : Backed base r.builder) (ss : List Step) :
    Backed base (r.all ss).builder := by
  induction ss generalizing r with
  | nil => exact h
  | cons s ss ih => exact ih (backed_step h s)

end Run

/-- Whether a node is a variable, a function or a class of the name. -/
def Node.isNamed (name : String) (n : Node) : Bool :=
  match n.payload with
  | .variable _ | .functionDef _ | .classDef _ => n.label = name
  | _ => false

namespace Graph

variable {g : Graph} {name : String}

/-- The last node of the name in the innermost world around `w` that has one. -/
def carrier? (g : Graph) (w : World) (name : String) : Option Node :=
  ((WorldTree.ofGraph g).chain w).findSome? fun v =>
    ((g.nodesIn v).filter (Node.isNamed name)).getLast?

/-- The same among the nodes that bind names by themselves. -/
def binder? (g : Graph) (w : World) (name : String) : Option Node :=
  ((WorldTree.ofGraph g).chain w).findSome? fun v =>
    ((g.nodesIn v).filter fun n => n.isNamed name && n.origin?.isNone).getLast?

theorem binder_of_carrier {w : World} (h : g.carrier? w name = some e) (ho : e.origin? = none) :
    g.binder? w name = some e := by
  unfold carrier? at h
  unfold binder?
  generalize (WorldTree.ofGraph g).chain w = vs at h ⊢
  induction vs with
  | nil => cases h
  | cons v vs ih =>
    have hfilter : (g.nodesIn v).filter (fun n => n.isNamed name && n.origin?.isNone) =
        ((g.nodesIn v).filter (Node.isNamed name)).filter fun n => n.origin?.isNone := by
      rw [List.filter_filter]
      simp only [Bool.and_comm]
    rw [List.findSome?_cons] at h ⊢
    rw [hfilter]
    cases hl : ((g.nodesIn v).filter (Node.isNamed name)).getLast? with
    | none =>
      rw [hl] at h
      rw [List.getLast?_eq_none_iff.mp hl]
      exact ih h
    | some e' =>
      rw [hl] at h
      obtain rfl := Option.some.inj h
      obtain ⟨front, hfront⟩ := List.getLast?_eq_some_iff.mp hl
      rw [hfront, List.filter_append]
      simp [ho]

theorem entriesOf_node {n : Node} (hi : n.kind = .importStmt ↔ n.world = .imports)
    (hn : n.kind = .importStmt → ¬ n.Binds name) (v : World) :
    Symbols.entriesOf (scopeOf [n] v) name =
      if n.world = v ∧ n.isNamed name then [⟨name, n.id, v⟩] else [] := by
  have hscope : scopeOf [n] v = if n.countsFor v then n.entries v else [] := by
    cases hc : n.countsFor v <;> simp [scopeOf, hc]
  rw [hscope]
  by_cases hk : n.kind = .importStmt
  · have hnamed : n.isNamed name = false := by
      obtain ⟨id, label, world, payload⟩ := n
      cases payload with
      | importStmt names => rfl
      | _ => cases hk
    have hentries : Symbols.entriesOf (n.entries v) name = [] := by
      refine List.filter_eq_nil_iff.mpr fun e he => ?_
      have hbinds := (Node.binds_of_entry he).2.1
      simp only [decide_eq_true_eq]
      rintro rfl
      exact hn hk hbinds
    split
    · simp [hnamed, hentries]
    · simp [hnamed, Symbols.entriesOf]
  · have hcounts : n.countsFor v = true ↔ n.world = v := by
      have hworld : n.world ≠ .imports := fun he => hk (hi.mpr he)
      simp [Node.countsFor, hworld]
    simp only [hcounts]
    by_cases hv : n.world = v
    · obtain ⟨id, label, world, payload⟩ := n
      cases payload with
      | importStmt names => exact absurd rfl hk
      | «variable» _ | functionDef _ | classDef _ =>
        by_cases hl : label = name <;> simp [Symbols.entriesOf, Node.entries, Node.isNamed, hl]
      | _ => simp [Symbols.entriesOf, Node.entries, Node.isNamed]
    · simp [hv, Symbols.entriesOf]

theorem entriesOf_scopeOf {ns : List Node}
    (hi : ∀ n ∈ ns, n.kind = .importStmt ↔ n.world = .imports)
    (hn : ∀ n ∈ ns, n.kind = .importStmt → ¬ n.Binds name) (v : World) :
    Symbols.entriesOf (scopeOf ns v) name =
      ((ns.filter fun n => n.world = v).filter (Node.isNamed name)).map fun n => ⟨name, n.id, v⟩ := by
  induction ns with
  | nil => rfl
  | cons n ns ih =>
    have hhead := entriesOf_node (hi n List.mem_cons_self) (hn n List.mem_cons_self) v
    have htail := ih (fun m hm => hi m (List.mem_cons_of_mem _ hm))
      fun m hm => hn m (List.mem_cons_of_mem _ hm)
    have happend : Symbols.entriesOf (scopeOf (n :: ns) v) name =
        Symbols.entriesOf (scopeOf [n] v) name ++ Symbols.entriesOf (scopeOf ns v) name := by
      rw [← List.singleton_append, scopeOf_append, Symbols.entriesOf_append]
    rw [happend, hhead, htail]
    by_cases hv : n.world = v <;> by_cases hnamed : n.isNamed name = true <;> simp [hv, hnamed]

/-- For a name that no import binds, the carrier is what a read finds. -/
theorem read_of_carrier (hi : ∀ n ∈ g.nodes, n.kind = .importStmt ↔ n.world = .imports)
    (hn : ∀ n ∈ g.nodes, n.kind = .importStmt → ¬ n.Binds name) {w : World}
    (h : g.carrier? w name = some e) :
    ∃ version, (Symbols.ofWorld g w).read name = some ⟨e.id, version, e.world⟩ := by
  rw [Symbols.read_ofWorld]
  unfold carrier? at h
  generalize (WorldTree.ofGraph g).chain w = vs at h ⊢
  induction vs with
  | nil => cases h
  | cons v vs ih =>
    have htable := Symbols.get?_tableOf (scopeOf g.nodes v) name
    rw [entriesOf_scopeOf hi hn, List.getLast?_map] at htable
    rw [List.findSome?_cons] at h ⊢
    rw [htable]
    cases hl : ((g.nodesIn v).filter (Node.isNamed name)).getLast? with
    | none =>
      rw [hl] at h
      simp only [nodesIn] at hl
      rw [hl]
      exact ih h
    | some e' =>
      rw [hl] at h
      obtain rfl := Option.some.inj h
      have hworld : e'.world = v := by
        have hmem := List.mem_of_mem_filter (List.mem_of_getLast? hl)
        exact of_decide_eq_true (List.mem_filter.mp hmem).2
      simp only [nodesIn] at hl
      rw [hl, hworld]
      exact ⟨_, rfl⟩

theorem standsAt_of_proxies {key : World × NodeId} {id : NodeId} (h : g.proxies.get? key = some id) :
    ∃ n ∈ g.nodes, n.id = id ∧ n.standsAt? = some key := by
  obtain ⟨nodes, edges⟩ := g
  simp only [proxies] at h ⊢
  induction nodes using List.reverseRecOn with
  | nil => cases h
  | append_singleton nodes n ih =>
    have hold : ∀ {m}, m ∈ nodes → m ∈ nodes ++ [n] := List.mem_append_left _
    rw [List.foldl_append, List.foldl_cons, List.foldl_nil] at h
    split at h
    · rename_i origin home version optional hpayload
      by_cases hkey : (n.world, origin) = key
      · subst hkey
        rw [Table.get?_insert_self] at h
        refine ⟨n, List.mem_append_right _ List.mem_cons_self, Option.some.inj h, ?_⟩
        simp only [Node.standsAt?, Node.origin?, hpayload, Option.map_some]
      · rw [Table.get?_insert_of_ne _ hkey] at h
        obtain ⟨m, hm, hfound⟩ := ih h
        exact ⟨m, hold hm, hfound⟩
    · obtain ⟨m, hm, hfound⟩ := ih h
      exact ⟨m, hold hm, hfound⟩

theorem backed_snippetStart (g : Graph) (supply : Supply) (w : World) :
    Builder.Backed g.nodes (g.snippetStart supply w) := by
  intro v origin id hid
  obtain ⟨n, hn, hfound⟩ := standsAt_of_proxies hid
  exact ⟨n, List.mem_append_left _ hn, hfound⟩

end Graph

/-- The place of a world in the steps of a snippet, whose first number is the owner. -/
def World.place : World → Place
  | .root => .root
  | .imports => .imports
  | .body _ => .body 0

theorem World.place_ne_imports {w : World} (h : w ≠ .imports) : w.place ≠ .imports := by
  cases w with
  | root | body => exact Place.noConfusion
  | imports => exact absurd rfl h

namespace Graph
open Builder

variable {w : World}

/-- The run that a snippet in a world begins with. -/
def snippetRun (g : Graph) (supply : Supply) (w : World) : Run :=
  ⟨g.snippetStart supply w, w.owner?.toList⟩

theorem ready_snippetRun (g : Graph) (supply : Supply) (w : World) :
    Run.Ready (g.snippetRun supply w) w.owner?.toList.length w.place w := by
  cases w with
  | root => exact ⟨rfl, trivial, rfl⟩
  | imports => exact ⟨rfl, trivial, rfl⟩
  | body owner => exact ⟨rfl, Nat.zero_lt_one, rfl⟩

theorem snippet_eq (g : Graph) (supply : Supply) (stmts : List Stmt) (w : World) :
    (g.snippet supply stmts w).1 = ((g.snippetRun supply w).all
      (Steps.statements w.place [] w.owner?.toList.length stmts)).builder.graph := by
  rw [Run.builder_statements [] (ready_snippetRun g supply w)]
  rfl

theorem keeps_snippet (g : Graph) (supply : Supply) {stmts : List Stmt} {front back : List Step}
    (h : Steps.statements w.place [] w.owner?.toList.length stmts = front ++ back) :
    let graph := ((g.snippetRun supply w).all front).builder.graph
    graph.nodes ⊆ (g.snippet supply stmts w).1.nodes ∧
      graph.edges ⊆ (g.snippet supply stmts w).1.edges := by
  rw [snippet_eq, h, Run.all_append]
  exact Run.keeps_all ..

/-- What a reader is wired to: the node itself in its own world, and a stand-in of it elsewhere. -/
def Wired (g : Graph) (w : World) (e : Node) (target : NodeId) (kind : EdgeKind) : Prop :=
  if e.world = w then ⟨e.id, target, kind⟩ ∈ g.edges
  else ∃ n ∈ g.nodes, n.standsAt? = some (w, e.id) ∧ ⟨n.id, target, kind⟩ ∈ g.edges

theorem Wired.mono {g g' : Graph} {target : NodeId} {kind : EdgeKind} (h : g.Wired w e target kind)
    (hn : ∀ n ∈ g.nodes, n.kind ≠ .call → n ∈ g'.nodes) (he : g.edges ⊆ g'.edges) :
    g'.Wired w e target kind := by
  unfold Wired at h ⊢
  split at h
  · rename_i hw
    rw [if_pos hw]
    exact he h
  · rename_i hw
    rw [if_neg hw]
    obtain ⟨n, hmem, hat, hedge⟩ := h
    obtain ⟨o, ho, -⟩ := Option.map_eq_some_iff.mp hat
    have hkind : n.kind ≠ .call := by
      rw [Node.kind_of_origin ho]
      decide
    exact ⟨n, hn n hmem hkind, hat, he hedge⟩

theorem wired_read {base : List Node} {b : Builder} (hb : Backed base b) {name : String}
    {version : Nat} (hr : b.symbols.read name = some ⟨e.id, version, e.world⟩) (slot : Slot) :
    let g := (b.read name w slot).graph
    Wired ⟨base ++ g.nodes, g.edges⟩ w e slot.target slot.kind := by
  rcases b.read_cases name w slot with ⟨hnone, -⟩ | ⟨binding, hfound, hcases⟩
  · exact nomatch hnone.symm.trans hr
  obtain rfl := Option.some.inj (hfound.symm.trans hr)
  rcases hcases with ⟨hw, heq⟩ | ⟨hw, proxy, hp, heq⟩ | ⟨hw, -, heq⟩ <;> simp only [heq, Wired]
  · rw [if_pos hw]
    exact mem_addEdge ..
  · rw [if_neg hw, nodes_connect]
    obtain ⟨n, hn, rfl, hat⟩ := hb w e.id proxy hp
    exact ⟨n, hn, hat, mem_addEdge ..⟩
  · rw [if_neg hw, nodes_connect, nodes_standIn]
    exact ⟨_, List.mem_append_right _ (List.mem_append_right _ List.mem_cons_self), rfl,
      mem_addEdge ..⟩

theorem edges_grafted (g : Graph) (supply : Supply) (stmts : List Stmt) (w : World) :
    (g.snippet supply stmts w).1.edges ⊆ (g.grafted supply stmts w).edges := by
  rw [grafted, edges_linkOn]
  exact (append_eq g _).2.2

/-- The first statement of a snippet reads a name that no import binds from its carrier: from the
node itself if it lives in the world of the snippet, and from a stand-in of it otherwise. The
carrier is the binder of the name unless it is a stand-in. -/
theorem Reached.wired_first {k : Nat} {g : Graph} {supply : Supply} (h : Reached k g supply)
    {w : World} (hw : g.accepts w = true) {text : String} {first : Stmt} {rest : List Stmt}
    (hp : Source.parse text = .ok (first :: rest)) {name : String}
    (hn : ∀ n ∈ g.nodes, n.kind = .importStmt → ¬ n.Binds name) {before after : List Step}
    {outer : List Place} {port : Port}
    (hread : Steps.statement w.place [] w.owner?.toList.length first =
      before ++ .read name w.place outer port :: after) {e : Node}
    (he : g.carrier? w name = some e) :
    ∃ g' count left, g.inject supply text w = .ok (g', count, left) ∧
      g'.Wired w e (((g.snippetRun supply w).all before).nodeId port.target) port.kind ∧
      (e.origin? = none → g.binder? w name = some e) := by
  refine ⟨_, _, _, inject_eq hw hp supply, ?_, binder_of_carrier he⟩
  have hready := ready_snippetRun g supply w
  have hplace : w.place ≠ .imports := World.place_ne_imports (ne_imports_of_accepts hw)
  let r := (g.snippetRun supply w).all before
  have hwired : Wired ⟨g.nodes ++ (r.step (.read name w.place outer port)).builder.graph.nodes,
      (r.step (.read name w.place outer port)).builder.graph.edges⟩ w e (r.nodeId port.target)
        port.kind := by
    have hsymbols : r.builder.symbols = .ofWorld g w :=
      Run.undisturbed_statement hready hplace [] first before name outer port after hread
    obtain ⟨version, hfound⟩ := read_of_carrier h.sound.imports hn he
    rw [← hsymbols] at hfound
    have hworld : r.world w.place = w := (hready.all before).world
    have hbacked : Backed g.nodes r.builder :=
      Run.backed_all (r := g.snippetRun supply w) (backed_snippetStart g supply w) before
    rw [Run.step, hworld]
    exact wired_read hbacked hfound (r.slot port)
  have hsteps : Steps.statements w.place [] w.owner?.toList.length (first :: rest) =
      (before ++ [.read name w.place outer port]) ++ (after ++ Steps.statements w.place []
        (w.owner?.toList.length + Steps.count
          (Steps.statement w.place [] w.owner?.toList.length first)) rest) := by
    rw [Steps.statements, hread, List.append_cons, List.append_assoc]
  obtain ⟨hnodes, hedges⟩ := g.keeps_snippet supply hsteps
  rw [Run.all_append] at hnodes hedges
  refine hwired.mono (fun n hmem hk => ?_) (List.Subset.trans hedges (edges_grafted ..))
  refine Node.mem_of_bare (bare_grafted ..).symm ?_ hk
  exact (List.mem_append.mp hmem).elim (List.mem_append_left _)
    fun hm => List.mem_append_right _ (hnodes hm)

/-- A function that wrote a name of the module: a snippet reads the stand-in which the right side of
the assignment left behind, and not the variable of the function. -/
theorem Reached.wired_first_overshadowed :
    let w := World.body (Supply.idOf .functionDef 2)
    ∃ g supply d e g' count left, Reached 0 g supply ∧ g.binder? w "x" = some d ∧
      g.carrier? w "x" = some e ∧ e.world = w ∧ d.id ≠ e.id ∧
      g.inject supply "y = x" w = .ok (g', count, left) ∧
      g'.Wired w e (Supply.idOf .variable 7) .writesTo := by
  let module : List Stmt := [.assign "x" (.literal "1"),
    .function "f" [] [.assign "x" (.binary "+" (.name "x") (.literal "1"))]]
  let g := (build ⟨0⟩ module).1.link.1
  let supply := (build ⟨0⟩ module).2
  let w := World.body (Supply.idOf .functionDef 2)
  have hsource : ofSourceLinked ⟨0⟩ "x = 1\ndef f():\n    x = x + 1\n" = .ok (g, supply) := by
    decide +kernel
  have himports : ∀ n ∈ g.nodes, n.kind ≠ .importStmt := by decide +kernel
  have hcarrier : g.carrier? w "x" = some ⟨Supply.idOf .variable 5, "x", w,
      .variable (.closureRead (Supply.idOf .variable 0) .root)⟩ := by decide +kernel
  have hbinder : g.binder? w "x" = some ⟨Supply.idOf .variable 3, "x", w,
      .variable (.write 1)⟩ := by decide +kernel
  have hsnippet : Source.parse "y = x" = .ok [.assign "y" (.name "x")] := rfl
  have htarget : ((g.snippetRun supply w).all [.node ⟨.body 0, "y", .write⟩]).nodeId 1 =
      Supply.idOf .variable 7 := by decide +kernel
  have hread : Steps.statement (.body 0) [] 1 (.assign "y" (.name "x")) =
      [.node ⟨.body 0, "y", .write⟩] ++ .read "x" (.body 0) [] ⟨1, .writesTo⟩ ::
        [.bind "y" (.body 0) 1 (.body 0)] := rfl
  have hreached : Reached 0 g supply := .parsed hsource
  obtain ⟨g', count, left, hinject, hwired, -⟩ := hreached.wired_first (w := w) (by decide +kernel)
    hsnippet (fun n hn hk => absurd hk (himports n hn)) hread hcarrier
  refine ⟨g, supply, _, _, g', count, left, hreached, hbinder, hcarrier, rfl, by decide +kernel,
    hinject, ?_⟩
  exact htarget ▸ hwired

end Graph

end ScopedFlow
