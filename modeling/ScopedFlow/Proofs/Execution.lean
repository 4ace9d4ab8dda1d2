import ScopedFlow.Proofs.Identity

/-!
# What statements do to a builder

Whatever the state it starts from, a builder only adds nodes, wires them, makes stand-ins, binds
what it has just made and closes each body that it opens. Every invariant of the builder is proved
along these few moves.
-/

namespace ScopedFlow

namespace Supply

/-- The id is not to be handed out any more. -/
def Spent (s : Supply) (id : NodeId) : Prop := ∀ kind serial, s.next ≤ serial → id ≠ idOf kind serial

/-- The id was handed out between two states of a supply. -/
def Issued (s s' : Supply) (id : NodeId) : Prop :=
  ∃ kind serial, id = idOf kind serial ∧ s.next ≤ serial ∧ serial < s'.next

/-- No world to come is this one. -/
def Covers (s : Supply) : World → Prop
  | .body owner => s.Spent owner
  | _ => True

variable {s s' s'' : Supply} {id : NodeId} {w : World}

theorem Spent.mono (h : s.Spent id) (hs : s.next ≤ s'.next) : s'.Spent id :=
  fun kind serial hk => h kind serial (Nat.le_trans hs hk)

theorem Covers.mono (h : s.Covers w) (hs : s.next ≤ s'.next) : s'.Covers w := by
  cases w with
  | body owner => exact Spent.mono h hs
  | root => trivial
  | imports => trivial

theorem Issued.spent (h : Issued s s' id) : s'.Spent id := by
  obtain ⟨kind, serial, rfl, -, hlt⟩ := h
  intro kind' serial' hle he
  have := serial_eq_of_idOf_eq he
  omega

theorem Issued.not_spent (h : Issued s s' id) : ¬ s.Spent id := by
  obtain ⟨kind, serial, rfl, hle, -⟩ := h
  exact fun hs => hs kind serial hle rfl

theorem Issued.mono {t t' : Supply} (h : Issued s s' id) (ht : t.next ≤ s.next)
    (ht' : s'.next ≤ t'.next) : Issued t t' id := by
  obtain ⟨kind, serial, hid, hle, hlt⟩ := h
  exact ⟨kind, serial, hid, Nat.le_trans ht hle, Nat.lt_of_lt_of_le hlt ht'⟩

end Supply

namespace Payload

def isNameless : Payload → Bool
  | .variable _ | .functionDef _ | .classDef _ | .importStmt _ => false
  | _ => true

/-- A node of this sort binds its label where it stands; a variable says for the how manieth
time. -/
def Introduces (version : Nat) : Payload → Prop
  | .variable ⟨.param, v, _⟩ | .variable ⟨.write, v, _⟩ => v = version
  | .functionDef _ | .classDef _ => True
  | _ => False

theorem kind_of_nameless {payload : Payload} (h : payload.isNameless = true) :
    payload.kind ≠ .importStmt := by
  intro hk
  cases payload with
  | importStmt names => cases h
  | _ => cases hk

theorem kind_of_introduces {payload : Payload} {version : Nat} (h : payload.Introduces version) :
    payload.kind ≠ .importStmt := by
  intro hk
  cases payload with
  | importStmt names => exact h
  | _ => cases hk

end Payload

namespace Builder

variable {payload : Payload}

@[simp] theorem nodes_wire (b : Builder) (source target : NodeId) (kind : EdgeKind) :
    (b.wire source target kind).graph.nodes = b.graph.nodes := Graph.nodes_addEdge ..

@[simp] theorem nodes_standIn (b : Builder) (name : String) (binding : Binding) (w : World) :
    (b.standIn name binding w).graph.nodes = b.graph.nodes ++
      [⟨b.fresh .variable, name, w, .variable (.closureRead binding.node binding.world)⟩] :=
  Graph.nodes_addEdge ..

/-- What the evaluation of expressions in a world can do: no name is bound by it. -/
inductive Evaluates (w : World) : Builder → Builder → Prop where
  | refl (b : Builder) : Evaluates w b b
  | trans {b b' b'' : Builder} (first : Evaluates w b b') (second : Evaluates w b' b'') :
    Evaluates w b b''
  | add (b : Builder) {payload : Payload} (nameless : payload.isNameless = true) (label : String) :
    Evaluates w b (b.add payload label w)
  | wire (b : Builder) (source target : NodeId) (kind : EdgeKind) :
    Evaluates w b (b.wire source target kind)
  | standIn {b : Builder} {name : String} {binding : Binding}
    (found : b.symbols.read name = some binding) (away : binding.world ≠ w)
    (absent : b.proxies.get? (w, binding.node) = none) :
    Evaluates w b (b.standIn name binding w)

/-- A node with what is evaluated for it and, if it binds its label, the binding after that. -/
inductive Heads (w : World) (payload : Payload) (label : String) (b : Builder) : Builder → Prop where
  | plain {b' : Builder} (nameless : payload.isNameless = true)
    (value : Evaluates w (b.add payload label w) b') : Heads w payload label b b'
  | binding {b' : Builder} (introduces : payload.Introduces (b.symbols.nextVersion label))
    (value : Evaluates w (b.add payload label w) b') :
    Heads w payload label b (b'.define label (b.fresh payload.kind) w)

/-- What statements in a world can do. A body is opened behind the node that owns it. -/
inductive Executes : World → Builder → Builder → Prop where
  | evaluate {w : World} {b b' : Builder} (value : Evaluates w b b') : Executes w b b'
  | trans {w : World} {b b' b'' : Builder} (first : Executes w b b') (second : Executes w b' b'') :
    Executes w b b''
  | head {w : World} {payload : Payload} {label : String} {b b' : Builder}
    (head : Heads w payload label b b') : Executes w b b'
  | imports (w : World) (b : Builder) (text : String) (names : List String) :
    Executes w b (names.foldl (fun b' name => b'.define name (b.fresh .importStmt) .imports)
      (b.add (.importStmt names) text .imports))
  | block {w : World} {payload : Payload} {label : String} {b b' b'' : Builder}
    (head : Heads w payload label b b')
    (body : Executes (.body (b.fresh payload.kind)) b'.enter b'') : Executes w b b''.leave

theorem evaluates_connect (w : World) (b : Builder) (source : NodeId) (slot : Option Slot) :
    Evaluates w b (b.connect source slot) := by
  cases slot with
  | none => exact .refl b
  | some slot => exact .wire b source slot.target slot.kind

theorem evaluates_place (w : World) (b : Builder) (h : payload.isNameless = true) (label : String)
    (slot : Option Slot) : Evaluates w b (b.place payload label w slot) :=
  .trans (.add b h label) (evaluates_connect ..)

theorem evaluates_read (w : World) (b : Builder) (name : String) (slot : Slot) :
    Evaluates w b (b.read name w slot) := by
  rcases b.read_cases name w slot with
    ⟨-, hr⟩ | ⟨binding, hb, ⟨-, hr⟩ | ⟨-, proxy, -, hr⟩ | ⟨hw, hp, hr⟩⟩ <;> rw [hr]
  · exact .refl b
  · exact evaluates_connect ..
  · exact evaluates_connect ..
  · exact .trans (.standIn hb hw hp) (evaluates_connect ..)

section Scopes

variable {w : World} {b b' : Builder}

theorem Evaluates.symbols_eq (h : Evaluates w b b') : b'.symbols = b.symbols := by
  induction h with
  | trans _ _ ih ih' => exact ih'.trans ih
  | _ => rfl

theorem Heads.outer_eq {label : String} (h : Heads w payload label b b') :
    b'.symbols.outer = b.symbols.outer := by
  cases h with
  | plain _ value => exact congrArg Symbols.outer value.symbols_eq
  | @binding b'' _ value =>
    have hvalue := congrArg Symbols.outer value.symbols_eq
    exact hvalue

theorem foldl_define (names : List String) (id : NodeId) (v : World) (b : Builder) :
    ∃ scope, names.foldl (fun b name => b.define name id v) b =
      { b with symbols := ⟨scope, b.symbols.outer⟩ } := by
  induction names generalizing b with
  | nil => exact ⟨b.symbols.innermost, rfl⟩
  | cons name names ih => exact ih (b.define name id v)

theorem foldl_imports (b : Builder) (text : String) (names : List String) :
    ∃ scope, names.foldl (fun b' name => b'.define name (b.fresh .importStmt) .imports)
      (b.add (.importStmt names) text .imports) =
        { b.add (.importStmt names) text .imports with symbols := ⟨scope, b.symbols.outer⟩ } :=
  foldl_define ..

theorem Executes.outer_eq (h : Executes w b b') : b'.symbols.outer = b.symbols.outer := by
  induction h with
  | evaluate value => exact congrArg Symbols.outer value.symbols_eq
  | trans _ _ ih ih' => exact ih'.trans ih
  | head head => exact head.outer_eq
  | imports w b text names =>
    obtain ⟨scope, hdefine⟩ := foldl_imports b text names
    rw [hdefine]
  | @block w payload label b b' b'' head body ih =>
    rw [← head.outer_eq]
    simp only [leave, Symbols.leave, Symbols.leave?, ih, enter, Symbols.enter, Option.getD_some]

theorem Executes.symbols_leave (h : Executes w b.enter b') : b'.leave.symbols = b.symbols := by
  simp only [leave, Symbols.leave, Symbols.leave?, h.outer_eq, enter, Symbols.enter,
    Option.getD_some]

end Scopes

/-- An import lives among the imports, any other node in the world or in the body of a node of the
list. -/
def LivesIn (w : World) (ns : List Node) (n : Node) : Prop :=
  n.kind = .importStmt ∧ n.world = .imports ∨
    n.kind ≠ .importStmt ∧ (n.world = w ∨ ∃ d ∈ ns, n.world = .body d.id)

theorem LivesIn.mono {w : World} {ns ms : List Node} {n : Node} (h : LivesIn w ns n) (hs : ns ⊆ ms) :
    LivesIn w ms n :=
  h.imp_right (And.imp_right (Or.imp_right fun ⟨d, hd, he⟩ => ⟨d, hs hd, he⟩))

/-- Nodes were added behind the others, each with an id of its own. -/
structure Grows (w : World) (b b' : Builder) : Prop where
  supply : b.supply.next ≤ b'.supply.next
  nodes : ∃ new, b'.graph.nodes = b.graph.nodes ++ new ∧
    ∀ n ∈ new, Supply.Issued b.supply b'.supply n.id ∧ LivesIn w new n

namespace Grows

variable {w : World} {b b' b'' : Builder}

theorem of_eq (hs : b'.supply = b.supply) (hn : b'.graph.nodes = b.graph.nodes) :
    Grows w b b' := by
  refine ⟨hs ▸ Nat.le_refl _, [], ?_, nofun⟩
  rw [hn, List.append_nil]

theorem nodes_prefix (h : Grows w b b') : b.graph.nodes <+: b'.graph.nodes := by
  obtain ⟨new, hn, -⟩ := h.nodes
  exact ⟨new, hn.symm⟩

theorem trans (h : Grows w b b') (h' : Grows w b' b'') : Grows w b b'' := by
  obtain ⟨new, hn, hnew⟩ := h.nodes
  obtain ⟨new', hn', hnew'⟩ := h'.nodes
  refine ⟨Nat.le_trans h.supply h'.supply, new ++ new', ?_, ?_⟩
  · rw [hn', hn, List.append_assoc]
  · intro n hmem
    rcases List.mem_append.mp hmem with hm | hm
    · obtain ⟨hid, hlives⟩ := hnew n hm
      exact ⟨hid.mono (Nat.le_refl _) h'.supply, hlives.mono (List.subset_append_left ..)⟩
    · obtain ⟨hid, hlives⟩ := hnew' n hm
      exact ⟨hid.mono h.supply (Nat.le_refl _), hlives.mono (List.subset_append_right ..)⟩

theorem issued_fresh (b : Builder) (payload : Payload) (label : String) (v : World) :
    Supply.Issued b.supply (b.add payload label v).supply (b.fresh payload.kind) :=
  ⟨payload.kind, b.supply.next, rfl, Nat.le_refl _, Nat.lt_succ_self _⟩

theorem add (b : Builder) (h : payload.kind ≠ .importStmt) (label : String) :
    Grows w b (b.add payload label w) := by
  refine ⟨Nat.le_succ _, [_], rfl, ?_⟩
  intro n hn
  obtain rfl := List.mem_singleton.mp hn
  exact ⟨issued_fresh b payload label w, .inr ⟨h, .inl rfl⟩⟩

theorem addImport (b : Builder) (names : List String) (text : String) :
    Grows w b (b.add (.importStmt names) text .imports) := by
  refine ⟨Nat.le_succ _, [_], rfl, ?_⟩
  intro n hn
  obtain rfl := List.mem_singleton.mp hn
  exact ⟨issued_fresh b (.importStmt names) text .imports, .inl ⟨rfl, rfl⟩⟩

theorem evaluates (h : Evaluates w b b') : Grows w b b' := by
  induction h with
  | refl b => exact .of_eq rfl rfl
  | trans _ _ ih ih' => exact ih.trans ih'
  | add b nameless label => exact .add b (Payload.kind_of_nameless nameless) label
  | wire b source target kind => exact .of_eq rfl (nodes_wire ..)
  | @standIn b name binding _ _ _ =>
    have hadd : Grows w b (b.add (.variable (.closureRead binding.node binding.world)) name w) :=
      .add b (by simp [Payload.kind]) name
    exact hadd.trans (.of_eq rfl (nodes_standIn ..))

theorem head {payload : Payload} {label : String} (h : Heads w payload label b b') :
    Grows w b (b.add payload label w) ∧ Grows w (b.add payload label w) b' := by
  cases h with
  | plain nameless value => exact ⟨.add b (Payload.kind_of_nameless nameless) label, evaluates value⟩
  | binding introduces value =>
    exact ⟨.add b (Payload.kind_of_introduces introduces) label, (evaluates value).trans (.of_eq rfl rfl)⟩

theorem defineAll (names : List String) (id : NodeId) (v : World) (b : Builder) :
    Grows w b (names.foldl (fun b name => b.define name id v) b) := by
  obtain ⟨scope, hdefine⟩ := foldl_define names id v b
  rw [hdefine]
  exact .of_eq rfl rfl

theorem block {payload : Payload} {label : String}
    (head : Heads w payload label b b') (body : Grows (.body (b.fresh payload.kind)) b'.enter b'') :
    Grows w b b''.leave := by
  obtain ⟨hadd, hrest⟩ := Grows.head head
  have hhead := hadd.trans hrest
  obtain ⟨new, hn, -⟩ := hrest.nodes
  obtain ⟨inner, hi, hinner⟩ := body.nodes
  obtain ⟨all, ha, hall⟩ := hhead.nodes
  have howner : ⟨b.fresh payload.kind, label, w, payload⟩ ∈ all := by
    have hall' : all = ⟨b.fresh payload.kind, label, w, payload⟩ :: new := by
      refine List.append_cancel_left (ha.symm.trans (hn.trans ?_))
      simp [Builder.add, Graph.addNode]
    exact hall' ▸ List.mem_cons_self
  refine ⟨Nat.le_trans hhead.supply body.supply, all ++ inner, ?_, ?_⟩
  · rw [← List.append_assoc, ← ha]
    exact hi
  · intro n hmem
    rcases List.mem_append.mp hmem with hm | hm
    · obtain ⟨hid, hlives⟩ := hall n hm
      exact ⟨hid.mono (Nat.le_refl _) body.supply, hlives.mono (List.subset_append_left ..)⟩
    · obtain ⟨hid, hlives⟩ := hinner n hm
      refine ⟨hid.mono hhead.supply (Nat.le_refl _), ?_⟩
      rcases hlives with himport | ⟨hk, hown | ⟨d, hd, he⟩⟩
      · exact .inl himport
      · exact .inr ⟨hk, .inr ⟨_, List.mem_append_left _ howner, hown⟩⟩
      · exact .inr ⟨hk, .inr ⟨d, List.mem_append_right _ hd, he⟩⟩

end Grows

theorem Executes.grows {w : World} {b b' : Builder} (h : Executes w b b') : Grows w b b' := by
  induction h with
  | evaluate value => exact .evaluates value
  | trans _ _ ih ih' => exact ih.trans ih'
  | head head => exact (Grows.head head).1.trans (Grows.head head).2
  | imports w b text names => exact (Grows.addImport b names text).trans (.defineAll ..)
  | block head _ ih => exact .block head ih

end Builder

end ScopedFlow
