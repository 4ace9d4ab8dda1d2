import ScopedFlow.Proofs.Shapes

/-!
# The builder as a machine that carries out steps

A run keeps the ids that the numbered nodes got; building a tree is carrying out its steps.
-/

namespace ScopedFlow

/-- The world of a place, where `made` are the ids of the numbered nodes. -/
def Place.world (made : List NodeId) : Place → World
  | .root => .root
  | .imports => .imports
  | .body owner => .body (made[owner]?.getD ⟨""⟩)

/-- The place is known among the first `n` nodes. -/
def Place.Below (n : Nat) : Place → Prop
  | .body owner => owner < n
  | _ => True

theorem Place.Below.mono {p : Place} {m n : Nat} (h : p.Below m) (hmn : m ≤ n) : p.Below n := by
  cases p with
  | root => trivial
  | imports => trivial
  | body owner => exact Nat.lt_of_lt_of_le h hmn

/-- A builder with the ids of the numbered nodes. -/
structure Run where
  builder : Builder
  made : List NodeId

namespace Run
open Steps

variable {q : Run}

def start (supply : Supply) : Run := ⟨.start supply, []⟩

def nodeId (r : Run) (k : Nat) : NodeId := r.made[k]?.getD ⟨""⟩

def world (r : Run) (p : Place) : World := p.world r.made

def slot (r : Run) (port : Port) : Slot := ⟨r.nodeId port.target, port.kind⟩

def step (r : Run) : Step → Run
  | .node sketch =>
    let payload := sketch.content.payload (r.builder.symbols.nextVersion sketch.label)
    ⟨r.builder.add payload sketch.label (r.world sketch.home),
      r.made ++ [r.builder.fresh payload.kind]⟩
  | .wire source port => { r with builder := r.builder.connect (r.nodeId source) (r.slot port) }
  | .read name w _ port => { r with builder := r.builder.read name (r.world w) (r.slot port) }
  | .bind name _ node home => { r with builder := r.builder.define name (r.nodeId node) (r.world home) }
  | .enter _ => { r with builder := r.builder.enter }
  | .leave => { r with builder := r.builder.leave }

def all (r : Run) (ss : List Step) : Run := ss.foldl step r

@[simp] theorem all_nil (r : Run) : r.all [] = r := rfl

@[simp] theorem all_cons (r : Run) (s : Step) (ss : List Step) :
    r.all (s :: ss) = (r.step s).all ss := rfl

theorem all_append (r : Run) (ss ts : List Step) : r.all (ss ++ ts) = (r.all ss).all ts :=
  List.foldl_append

/-- A later run knows the numbered nodes of an earlier one. -/
def Continues (r q : Run) : Prop := ∃ new, q.made = r.made ++ new

theorem Continues.refl (r : Run) : Continues r r := ⟨[], by simp⟩

theorem Continues.trans {r p : Run} (h : Continues r q) (h' : Continues q p) : Continues r p := by
  obtain ⟨new, hq⟩ := h
  obtain ⟨new', hp⟩ := h'
  exact ⟨new ++ new', by rw [hp, hq, List.append_assoc]⟩

theorem continues_step (r : Run) (s : Step) : Continues r (r.step s) := by
  cases s with
  | node sketch => exact ⟨_, rfl⟩
  | wire source port => exact .refl r
  | read name w outer port => exact .refl r
  | bind name body node home => exact .refl r
  | enter body => exact .refl r
  | leave => exact .refl r

theorem continues_all (r : Run) (ss : List Step) : Continues r (r.all ss) := by
  induction ss generalizing r with
  | nil => exact .refl r
  | cons s ss ih => exact (continues_step r s).trans (ih (r.step s))

theorem Continues.nodeId_eq {r : Run} (h : Continues r q) {k : Nat} (hk : k < r.made.length) :
    q.nodeId k = r.nodeId k := by
  obtain ⟨new, hq⟩ := h
  simp only [nodeId, hq, List.getElem?_append_left hk]

theorem Continues.world_eq {r : Run} (h : Continues r q) {p : Place} (hp : p.Below r.made.length) :
    q.world p = r.world p := by
  cases p with
  | root => rfl
  | imports => rfl
  | body owner => exact congrArg World.body (h.nodeId_eq hp)

theorem length_step (r : Run) (s : Step) :
    (r.step s).made.length = r.made.length + (sketch? s).toList.length := by
  cases s <;> simp [step, sketch?]

theorem length_all (r : Run) (ss : List Step) :
    (r.all ss).made.length = r.made.length + count ss := by
  induction ss generalizing r with
  | nil => simp
  | cons s ss ih => rw [all_cons, ih, length_step, count_cons, Nat.add_assoc]

theorem nodeId_fresh {r : Run} {k : Nat} (hk : r.made.length = k) (x : NodeId) (b : Builder) :
    (Run.mk b (r.made ++ [x])).nodeId k = x := by
  simp [nodeId, ← hk]

/-- The next number is `k`, and the place `w` is the world `W`. -/
structure Ready (r : Run) (k : Nat) (w : Place) (W : World) : Prop where
  length : r.made.length = k
  below : w.Below k
  world : r.world w = W

/-- The numbers are in use and have the given ids. -/
def Knows (r : Run) (ids : List (Nat × NodeId)) : Prop :=
  ∀ p ∈ ids, p.1 < r.made.length ∧ r.nodeId p.1 = p.2

/-- A port of a node whose id is known is this slot. -/
inductive Joins (ids : List (Nat × NodeId)) : Option Port → Option Slot → Prop where
  | none : Joins ids none none
  | some {n : Nat} {x : NodeId} (hn : (n, x) ∈ ids) (kind : EdgeKind) :
    Joins ids (some ⟨n, kind⟩) (some ⟨x, kind⟩)

/-- The steps do to the builder what `f` does, wherever `k` is the next number, the place `w` is the
world `W` and the given ids are known. -/
def Does (w : Place) (W : World) (ids : List (Nat × NodeId)) (k : Nat) (ss : List Step)
    (f : Builder → Builder) : Prop :=
  ∀ r : Run, Ready r k w W → Knows r ids → (r.all ss).builder = f r.builder

section Does

variable {r : Run} {k n : Nat} {w : Place} {W : World} {x : NodeId} {ids : List (Nat × NodeId)}
  {port : Option Port} {slot : Option Slot} {ss ts : List Step} {f g : Builder → Builder}

theorem Ready.all (h : Ready r k w W) (ss : List Step) : Ready (r.all ss) (k + count ss) w W where
  length := by rw [length_all, h.length]
  below := h.below.mono (Nat.le_add_right _ _)
  world := by rw [(continues_all r ss).world_eq (h.length ▸ h.below), h.world]

theorem Knows.all (h : Knows r ids) (ss : List Step) : Knows (r.all ss) ids := by
  intro p hp
  obtain ⟨hlt, hid⟩ := h p hp
  rw [length_all, (continues_all r ss).nodeId_eq hlt]
  exact ⟨Nat.lt_add_right _ hlt, hid⟩

theorem Ready.place (h : Ready r k w W) (hk : Knows r ids) (hj : Joins ids port slot)
    (label : String) (content : Content) :
    let payload := content.payload (r.builder.symbols.nextVersion label)
    (r.all (place w label content k port)).builder = r.builder.place payload label W slot ∧
      Knows (r.all (Steps.place w label content k port))
        ((k, r.builder.fresh payload.kind) :: ids) := by
  have hlt : k < (r.all (Steps.place w label content k port)).made.length := by
    rw [length_all, h.length, count_place]
    exact Nat.lt_succ_self k
  cases hj with
  | none =>
    refine ⟨?_, List.forall_mem_cons.mpr ⟨⟨hlt, nodeId_fresh h.length _ _⟩, hk.all _⟩⟩
    simp only [Steps.place, all_cons, all_nil, step, h.world]
    rfl
  | @some n x hn kind =>
    obtain ⟨hused, hid⟩ : n < r.made.length ∧ r.nodeId n = x := hk _ hn
    have hslot := (continues_step r (.node ⟨w, label, content⟩)).nodeId_eq hused
    refine ⟨?_, List.forall_mem_cons.mpr ⟨⟨hlt, nodeId_fresh h.length _ _⟩, hk.all _⟩⟩
    simp only [step, h.world] at hslot
    simp only [Steps.place, all_cons, all_nil, step, slot, hslot, hid, nodeId_fresh h.length,
      h.world]
    rfl

namespace Does

theorem nil : Does w W ids k [] fun b => b := fun _ _ _ => rfl

theorem append (h : Does w W ids k ss f) (h' : Does w W ids (k + count ss) ts g) :
    Does w W ids k (ss ++ ts) fun b => g (f b) := by
  intro r hr hk
  rw [all_append, h' _ (hr.all ss) (hk.all ss), h r hr hk]

theorem place {f : NodeId → Builder → Builder} (hj : Joins ids port slot) (label : String)
    (content : Content) (h : ∀ x, Does w W ((k, x) :: ids) (k + 1) ss (f x)) :
    Does w W ids k (place w label content k port ++ ss) fun b =>
      let payload := content.payload (b.symbols.nextVersion label)
      f (b.fresh payload.kind) (b.place payload label W slot) := by
  intro r hr hk
  obtain ⟨hbuilder, hknows⟩ := hr.place hk hj label content
  have hready := hr.all (Steps.place w label content k port)
  rw [count_place] at hready
  rw [all_append, h _ _ hready hknows, hbuilder]

theorem wire {m : Nat} {y : NodeId} (hm : (m, y) ∈ ids) (hn : (n, x) ∈ ids) (kind : EdgeKind) :
    Does w W ids k [.wire m ⟨n, kind⟩] fun b => b.wire y x kind := by
  intro r _ hk
  simp only [all_cons, all_nil, step, slot, (hk _ hm).2, (hk _ hn).2]
  rfl

theorem bind (hn : (n, x) ∈ ids) (name : String) (body : Place) :
    Does w W ids k [.bind name body n w] fun b => b.define name x W := by
  intro r hr hk
  simp only [all_cons, all_nil, step, (hk _ hn).2, hr.world]

theorem binds (hn : (n, x) ∈ ids) (body : Place) (names : List String) :
    Does w W ids k (names.map fun name => .bind name body n w) fun b =>
      names.foldl (fun b name => b.define name x W) b := by
  induction names with
  | nil => exact .nil
  | cons name names ih => exact (bind hn name body).append ih

theorem read (hn : (n, x) ∈ ids) (name : String) (outer : List Place) (kind : EdgeKind) :
    Does w W ids k [.read name w outer ⟨n, kind⟩] fun b => b.read name W ⟨x, kind⟩ := by
  intro r hr hk
  simp only [all_cons, all_nil, step, slot, (hk _ hn).2, hr.world]

theorem congr (h : Does w W ids k ss f) (hfg : ∀ b, f b = g b) : Does w W ids k ss g :=
  fun r hr hk => (h r hr hk).trans (hfg r.builder)

theorem enclosed (hn : (n, x) ∈ ids) (h : Does (.body n) (.body x) ids k ss f) :
    Does w W ids k (enclosed n ss) fun b => (f b.enter).leave := by
  intro r hr hk
  obtain ⟨hlt, hid⟩ := hk _ hn
  rw [Steps.enclosed, all_append, all_append]
  exact congrArg Builder.leave (h (r.step (.enter (.body n)))
    ⟨hr.length, hr.length ▸ hlt, congrArg World.body hid⟩ hk)

theorem header (names : List (String × Bool)) : Does w W ids k (header w k names) fun b =>
    names.foldl (fun b p => b.bindParam p.1 p.2 W) b := by
  induction names generalizing k ids with
  | nil => exact .nil
  | cons p names ih =>
    exact .place .none p.1 (.param p.2) fun x => (bind (.head _) p.1 w).append ih

end Does

end Does

variable {w : Place} {W : World} {ids : List (Nat × NodeId)}

mutual
theorem does_expr {ids : List (Nat × NodeId)} {k : Nat} (outer : List Place) {port : Option Port}
    {slot : Option Slot} (hj : Joins ids port slot) :
    (e : Expr) → Does w W ids k (expr w outer port k e) fun b => Builder.expr W slot e b
  | .name id => by
    cases hj with
    | none => exact .nil
    | some hn kind => exact .read hn id outer kind
  | .literal text => by
    have hplace := Does.place (w := w) (W := W) (k := k) hj text (.plain .literal) fun _ => .nil
    rw [List.append_nil] at hplace
    cases hj with
    | none => exact .nil
    | some hn kind => exact hplace
  | .unary op operand => .place hj op (.plain (.operator true)) fun _ =>
    does_expr outer (.some (.head _) (.operand 0)) operand
  | .binary op left right => by
    rw [expr, List.append_assoc]
    exact .place hj op (.plain (.operator false)) fun _ =>
      (does_expr outer (.some (.head _) (.operand 0)) left).append
        (does_expr outer (.some (.head _) (.operand 1)) right)
  | .call callee args => .place hj callee (.call false args) fun _ =>
    does_arguments outer (.head _) 0 args
  | .methodCall receiver method args => by
    rw [expr, List.append_assoc]
    exact .place hj method (.call true args) fun _ =>
      (does_expr outer (.some (.head _) .attributeValue) receiver).append
        (does_arguments outer (.head _) 0 args)
  | .attribute object name => .place hj name (.plain .attribute) fun _ =>
    does_expr outer (.some (.head _) .attributeValue) object
  | .subscript value key => by
    rw [expr, List.append_assoc]
    exact .place hj "[]" (.plain .accessor) fun _ =>
      (does_expr outer (.some (.head _) .accessValue) value).append
        (does_expr outer (.some (.head _) .accessKey) key)
  | .list items => .place hj "[]" (.plain .listDisplay) fun _ =>
    does_elements outer (.head _) 0 items
  | .dict entries => .place hj "\x7b\x7d" (.plain .dictDisplay) fun _ =>
    does_pairs outer (.head _) 0 entries
  | .unsupported => .nil

theorem does_arguments {ids : List (Nat × NodeId)} {k : Nat} (outer : List Place) {owner : Nat}
    {x : NodeId} (hn : (owner, x) ∈ ids) (index : Nat) : (args : List Arg) →
    Does w W ids k (arguments w outer owner index k args) fun b => Builder.arguments W x index args b
  | [] => .nil
  | .positional value :: args => (does_expr outer (.some hn (.positional index)) value).append
    (does_arguments outer hn (index + 1) args)
  | .keyword name value :: args => (does_expr outer (.some hn (.keyword name)) value).append
    (does_arguments outer hn index args)
  | .unpacked :: args => does_arguments outer hn index args

theorem does_elements {ids : List (Nat × NodeId)} {k : Nat} (outer : List Place) {owner : Nat}
    {x : NodeId} (hn : (owner, x) ∈ ids) (index : Nat) : (items : List Expr) →
    Does w W ids k (elements w outer owner index k items) fun b => Builder.elements W x index items b
  | [] => .nil
  | item :: items => (does_expr outer (.some hn (.listElement index)) item).append
    (does_elements outer hn (index + 1) items)

theorem does_pairs {ids : List (Nat × NodeId)} {k : Nat} (outer : List Place) {owner : Nat}
    {x : NodeId} (hn : (owner, x) ∈ ids) (index : Nat) : (entries : List Pair) →
    Does w W ids k (pairs w outer owner index k entries) fun b => Builder.pairs W x index entries b
  | [] => .nil
  | .mk key value :: rest => by
    rw [pairs, List.append_assoc]
    exact (does_expr outer (.some hn (.dictKey index)) key).append
      ((does_expr outer (.some hn (.dictValue index)) value).append
        (does_pairs outer hn (index + 1) rest))
end

theorem does_assign {k : Nat} (outer : List Place) (name : String) (value : Expr) :
    Does w W ids k (statement w outer k (.assign name value)) fun b =>
      Builder.statement W (.assign name value) b := by
  rw [statement_assign]
  exact .place .none name .write fun _ =>
    (does_expr outer (.some (.head _) .writesTo) value).append (.bind (.head _) name w)

/-- So it is with the statements of a body, wherever they stand. -/
def DoesBody (w : Place) (outer : List Place) (body : List Stmt) : Prop :=
  ∀ W ids k, Does w W ids k (statements w outer k body) fun b => Builder.statements W body b

section Blocks

variable {k : Nat} {outer : List Place} {label : String} {payload : Payload} {mid tail : List Step}
  {names : List (String × Bool)} {body : List Stmt} {f g : NodeId → Builder → Builder}

theorem Does.block (hmid : ∀ x, Does w W ((k, x) :: ids) (k + 1) mid (f x))
    (hbody : DoesBody (.body k) (w :: outer) body)
    (htail : ∀ x, Does w W ((k, x) :: ids)
      (k + count (Steps.block w outer k label payload mid names body)) tail (g x)) :
    Does w W ids k (Steps.block w outer k label payload mid names body ++ tail) fun b =>
      let x := b.fresh payload.kind
      g x (Builder.statements (.body x) body (names.foldl (fun b p => b.bindParam p.1 p.2 (.body x))
        (f x (b.add payload label W)).enter)).leave := by
  rw [Steps.block, count_append, count_place, count_append, ← Nat.add_assoc, ← Nat.add_assoc] at htail
  rw [Steps.block, List.append_assoc, List.append_assoc]
  exact .place .none label (.plain payload) fun x => (hmid x).append
    ((((Does.header names).append (hbody _ _ _)).enclosed (.head _)).append (htail x))

theorem Does.block_alone (hmid : ∀ x, Does w W ((k, x) :: ids) (k + 1) mid (f x))
    (hbody : DoesBody (.body k) (w :: outer) body) :
    Does w W ids k (Steps.block w outer k label payload mid names body) fun b =>
      let x := b.fresh payload.kind
      (Builder.statements (.body x) body (names.foldl (fun b p => b.bindParam p.1 p.2 (.body x))
        (f x (b.add payload label W)).enter)).leave := by
  rw [← List.append_nil (Steps.block ..)]
  exact .block hmid hbody fun _ => .nil

end Blocks

mutual
theorem does_statement {w : Place} {W : World} {ids : List (Nat × NodeId)} {k : Nat}
    (outer : List Place) : (stmt : Stmt) →
    Does w W ids k (statement w outer k stmt) fun b => Builder.statement W stmt b
  | .assign name value => does_assign outer name value
  | .augment name op value => by
    rw [statement_augment]
    exact does_assign outer name _
  | .eval e => by
    unfold statement Builder.statement
    split
    · exact does_expr outer .none e
    · exact .nil
  | .ret none => .place .none "return" (.plain .returnStmt) fun _ => .nil
  | .ret (some e) => .place .none "return" (.plain .returnStmt) fun _ =>
    does_expr outer (.some (.head _) .input) e
  | .function name params body => by
    rw [statement_function]
    refine .congr (.block_alone (fun _ => .bind (.head _) name w)
      fun _ _ _ => does_statements (w :: outer) body) fun b => ?_
    simp only [paramNames, List.foldl_map]
    rfl
  | .class name bases body => by
    rw [statement_class]
    exact .block_alone (fun _ => .bind (.head _) name w) fun _ _ _ => does_statements (w :: outer) body
  | .branch test body rest => by
    rw [statement_branch]
    exact .block (fun _ => does_expr outer (.some (.head _) .input) test.expr)
      (fun _ _ _ => does_statements (w :: outer) body) fun _ =>
        does_alternatives outer (.head _) rest
  | .each target source body => by
    rw [statement_each]
    refine .congr (.block_alone (fun _ => does_expr outer (.some (.head _) .iteratesOn) source.expr)
      fun _ _ _ => does_statements (w :: outer) body) fun b => ?_
    simp only [loopNames, List.foldl_map]
    rfl
  | .while test body => by
    rw [statement_while]
    exact .block_alone (fun _ => does_expr outer (.some (.head _) .input) test.expr)
      fun _ _ _ => does_statements (w :: outer) body
  | .attempt body clauses => by
    rw [statement_attempt]
    exact .block (fun _ => .nil) (fun _ _ _ => does_statements (w :: outer) body) fun _ =>
      does_handlers outer (.head _) 0 clauses
  | .import text names => fun r hr => Does.place .none text (.plain (.importStmt names))
    (fun _ => Does.binds (.head _) w names) r ⟨hr.length, trivial, rfl⟩
  | .skip => .nil

theorem does_statements {w : Place} {W : World} {ids : List (Nat × NodeId)} {k : Nat}
    (outer : List Place) : (stmts : List Stmt) →
    Does w W ids k (statements w outer k stmts) fun b => Builder.statements W stmts b
  | [] => .nil
  | stmt :: stmts => (does_statement outer stmt).append (does_statements outer stmts)

theorem does_alternatives {w : Place} {W : World} {ids : List (Nat × NodeId)} {k previous : Nat}
    {x : NodeId} (outer : List Place) (hn : (previous, x) ∈ ids) : (rest : Alternatives) →
    Does w W ids k (alternatives w outer previous k rest) fun b => Builder.alternatives W x rest b
  | .done => .nil
  | .elif test body rest => by
    rw [alternatives_elif]
    exact .block (fun _ => does_expr outer (.some (.head _) .input) test.expr)
      (fun _ _ _ => does_statements (w :: outer) body) fun _ =>
        (Does.wire (.tail _ hn) (.head _) (.nextClause none)).append
          (does_alternatives outer (.head _) rest)
  | .otherwise body => by
    rw [alternatives_otherwise]
    exact .block (fun _ => .nil) (fun _ _ _ => does_statements (w :: outer) body) fun _ =>
      .wire (.tail _ hn) (.head _) (.nextClause none)

theorem does_handlers {w : Place} {W : World} {ids : List (Nat × NodeId)} {k owner : Nat}
    {x : NodeId} (outer : List Place) (hn : (owner, x) ∈ ids) (index : Nat) :
    (clauses : List Handler) → Does w W ids k (handlers w outer owner index k clauses) fun b =>
      Builder.handlers W x index clauses b
  | [] => .nil
  | .mk caught binding body :: rest => by
    have hcaught (y : NodeId) : Does w W ((k, y) :: ids) (k + 1) (exception w outer k caught) fun b =>
        match caught with
        | some e => Builder.expr W (some ⟨y, .input⟩) e.expr b
        | none => b := by
      cases caught with
      | none => exact .nil
      | some e => exact does_expr outer (.some (.head _) .input) e.expr
    rw [handlers_cons]
    refine .congr (.block (fun y => (Does.wire (.tail _ hn) (.head _) _).append (hcaught y))
      (fun _ _ _ => does_statements (w :: outer) body) fun _ =>
        does_handlers outer (.tail _ hn) (index + 1) rest) fun b => ?_
    simp only [loopNames, List.foldl_map]
    rfl
end

theorem builder_statements {r : Run} {k : Nat} (outer : List Place) (h : Ready r k w W)
    (stmts : List Stmt) :
    (r.all (statements w outer k stmts)).builder = Builder.statements W stmts r.builder :=
  does_statements outer stmts r h (List.forall_mem_nil _)

end Run

theorem build_eq_run (supply : Supply) (module : List Stmt) :
    build supply module =
      let r := (Run.start supply).all (Steps.ofModule module)
      (r.builder.graph, r.builder.supply) := by
  have hready : Run.Ready (Run.start supply) 0 .root .root := ⟨rfl, trivial, rfl⟩
  have h := Run.builder_statements [] hready module
  simp only [build, Steps.ofModule, h]
  rfl

end ScopedFlow
