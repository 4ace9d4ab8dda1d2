import ScopedFlow.Proofs.Lines

/-!
# Lines that are put one behind the other

A writer adds the lines of statements to those that are there and sees only by their number whether
a body is empty; what it adds depends neither on what is there nor, but for the blanks in front, on
the depth. So a world is written as its statements are one by one.
-/

namespace ScopedFlow

/-- A line of a part that is nested to a depth. -/
def CodeLine.printAt (style : CodeStyle) (depth : Nat) (l : CodeLine) : String :=
  CodeLine.print style ⟨depth + l.depth, l.text⟩

namespace Graph

/-- Adds lines to those that are there, at a depth. -/
abbrev Writer := Nat → List String → Option (List String)

section Writers

variable (g : Graph) (style : CodeStyle) (body : NodeId → Writer)

def emit (c : Code) (depth : Nat) (out : List String) : List String :=
  out ++ c.lines.map (·.printAt style depth)

def writeAll (writers : List Writer) : Writer := fun depth out =>
  writers.foldlM (fun out write => write depth out) out

def writeHeaded (n : Node) : Writer := fun depth out =>
  body n.id (depth + 1) (emit style (g.lineOf style n) depth out)

def writeClause (n : Node) : Writer := fun depth out =>
  match n.payload with
  | .elifBlock | .elseBlock | .exceptBlock _ _ => g.writeHeaded style body n depth out
  | _ => some out

def writeClauses (n : Node) : Writer :=
  writeAll ((g.clausesOf n).map (g.writeClause style body))

/-- A `try` without handlers is closed by an empty `finally`. -/
def writeHandlers (n : Node) : Writer := fun depth out =>
  if (g.clausesOf n).isEmpty then
    some (out ++
      [CodeLine.print style ⟨depth, "finally:"⟩, CodeLine.print style ⟨depth + 1, "pass"⟩])
  else g.writeClauses style body n depth out

def writeStatement (n : Node) : Writer := fun depth out =>
  match n.payload with
  | .functionDef _ | .classDef _ | .forBlock _ | .whileBlock => g.writeHeaded style body n depth out
  | .ifBlock => (g.writeHeaded style body n depth out).bind (g.writeClauses style body n depth)
  | .tryBlock => (g.writeHeaded style body n depth out).bind (g.writeHandlers style body n depth)
  | .elifBlock | .elseBlock | .exceptBlock _ _ => some out
  | _ => some (emit style (g.lineOf style n) depth out)

def writeWorld (w : World) : Writer :=
  writeAll ((g.nodesIn w).map (g.writeStatement style body))

end Writers

/-- The body that a node owns; one that adds no line gets a line of its own. -/
def writeBody (g : Graph) (style : CodeStyle) (opened : List NodeId) (owner : NodeId) : Writer :=
  fun depth out =>
    if h : owner ∈ g.ids ∧ owner ∉ opened then
      have := remaining_cons_lt h.1 h.2
      (g.writeWorld style (fun id => g.writeBody style (owner :: opened) id) (.body owner) depth
        out).map fun out' =>
          if out'.length = out.length then out' ++ [CodeLine.print style ⟨depth, "pass"⟩] else out'
    else none
termination_by remaining g.ids opened

/-- The lines that a writer adds are those of a piece of code, whatever is there. -/
def Writes (style : CodeStyle) (write : Writer) (c : Option Code) : Prop :=
  ∀ depth out, write depth out = c.map fun c => emit style c depth out

variable {g : Graph} {style : CodeStyle} {body : NodeId → Writer} {code : NodeId → Option Code}

theorem emit_append (c d : Code) (depth : Nat) (out : List String) :
    emit style (c.append d) depth out = emit style d depth (emit style c depth out) := by
  simp [emit, Code.append]

theorem emit_nest (c : Code) (depth : Nat) (out : List String) :
    emit style c.nest depth out = emit style c (depth + 1) out := by
  simp [emit, Code.nest, CodeLine.printAt, Function.comp_def, Nat.add_comm, Nat.add_left_comm]

theorem writes_cons {first rest : Writer} {c : Option Code} {cs : List (Option Code)}
    (hfirst : Writes style first c) (hrest : Writes style rest (Code.concat cs)) :
    Writes style (fun depth out => (first depth out).bind (rest depth))
      (Code.concat (c :: cs)) := by
  intro depth out
  simp only [hfirst depth out]
  cases c with
  | none => rfl
  | some c =>
    simp only [Option.map_some, Option.bind_some, hrest depth, Code.concat, Option.map_map,
      Function.comp_def, emit_append]

theorem writes_all {α : Type} {as : List α} {write : α → Writer} {c : α → Option Code}
    (h : ∀ a, Writes style (write a) (c a)) :
    Writes style (writeAll (as.map write)) (Code.concat (as.map c)) := by
  induction as with
  | nil => exact fun depth out => by simp [writeAll, Code.concat, Code.empty, emit]
  | cons a as ih => exact writes_cons (h a) ih

section Bodies

variable (h : ∀ id, Writes style (body id) (code id)) (n : Node)

include h

theorem writes_headed :
    Writes style (g.writeHeaded style body n) (headed (g.lineOf style n) (code n.id)) := by
  intro depth out
  rw [writeHeaded, h n.id, headed, Option.map_map]
  simp only [Function.comp_def, emit_append, emit_nest]

theorem writes_clause :
    Writes style (g.writeClause style body n) (clauseFrom (g.lineOf style) code n) := by
  intro depth out
  have hheaded := writes_headed (g := g) h n depth out
  unfold writeClause clauseFrom
  cases n.payload with
  | elifBlock => exact hheaded
  | elseBlock => exact hheaded
  | exceptBlock _ _ => exact hheaded
  | _ => simp [emit, Code.empty]

theorem writes_clauses : Writes style (g.writeClauses style body n)
    (Code.concat ((g.clausesOf n).map (clauseFrom (g.lineOf style) code))) :=
  writes_all (writes_clause h)

theorem writes_handlers : Writes style (g.writeHandlers style body n) (Code.concat
    [if (g.clausesOf n).isEmpty then Code.block (.plain "finally:") (some (.line (.plain "pass")))
    else Code.concat ((g.clausesOf n).map (clauseFrom (g.lineOf style) code))]) := by
  intro depth out
  have hone : ∀ c : Option Code, (Code.concat [c]).map (emit style · depth out) =
      c.map (emit style · depth out) := by
    rintro (_ | c) <;> simp [Code.concat, Code.empty, emit, Code.append]
  rw [hone, writeHandlers]
  split
  · rfl
  · exact writes_clauses h n depth out

theorem writes_statement :
    Writes style (g.writeStatement style body n) (g.statementCode style code n) := by
  intro depth out
  have hheaded := writes_headed (g := g) h n depth out
  have hstray : some out = (some (if g.hasHead n.id then Code.empty
      else ⟨[], [⟨n.id, n.label, .strayClause⟩]⟩)).map (emit style · depth out) := by
    cases g.hasHead n.id <;> simp [emit, Code.empty]
  rw [statementCode_eq]
  unfold writeStatement assembled
  cases n.payload with
  | functionDef _ => exact hheaded
  | classDef _ => exact hheaded
  | forBlock _ => exact hheaded
  | whileBlock => exact hheaded
  | ifBlock => exact writes_cons (writes_headed h n) (writes_clauses h n) depth out
  | tryBlock => exact writes_cons (writes_headed h n) (writes_handlers h n) depth out
  | elifBlock => exact hstray
  | elseBlock => exact hstray
  | exceptBlock _ _ => exact hstray
  | _ => rfl

theorem writes_world (w : World) :
    Writes style (g.writeWorld style body w) (g.worldCode style code w) :=
  writes_all (writes_statement h)

end Bodies

theorem emit_orPass (c : Code) (depth : Nat) (out : List String) :
    emit style c.orPass depth out =
      if (emit style c depth out).length = out.length then
        emit style c depth out ++ [CodeLine.print style ⟨depth, "pass"⟩]
      else emit style c depth out := by
  rcases c with ⟨_ | ⟨l, ls⟩, defects⟩ <;> simp [emit, Code.orPass, CodeLine.printAt]

theorem writes_body (opened : List NodeId) (owner : NodeId) :
    Writes style (g.writeBody style opened owner) (g.bodyCode style opened owner) := by
  fun_induction bodyCode g style opened owner with
  | case1 opened owner hopen _ ih =>
    intro depth out
    rw [writeBody, dif_pos hopen, writes_world ih, Option.map_map, Option.map_map]
    simp only [Function.comp_def, emit_orPass]
  | case2 opened owner hopen =>
    intro depth out
    rw [writeBody, dif_neg hopen]
    rfl

theorem print_succ (depth : Nat) (l : CodeLine) : l.printAt style (depth + 1) =
    String.ofList (List.replicate style.indent ' ') ++ l.printAt style depth := by
  rw [CodeLine.printAt, CodeLine.printAt, CodeLine.print, CodeLine.print, ← String.append_assoc,
    ← String.ofList_append, List.replicate_append_replicate]
  congr 4
  grind

def partLines (g : Graph) (style : CodeStyle) (part : Part) : Option (List String) :=
  (g.partCode style part).map fun c => c.lines.map (·.print style)

/-- Whether a node has lines of its own in its world. -/
def isStatement (g : Graph) (n : Node) : Bool :=
  match n.payload with
  | .functionDef _ | .classDef _ | .ifBlock | .forBlock _ | .whileBlock | .tryBlock | .returnStmt
  | .importStmt _ => true
  | .variable v => v.isWrite
  | .call _ => !g.feeds n.id
  | _ => false

theorem nodeCode_of_isStatement {n : Node} (h : g.isStatement n = true) :
    g.nodeCode style n = g.statementCode style (g.bodyCode style []) n := by
  unfold isStatement at h
  unfold nodeCode
  cases hp : n.payload <;> simp_all [statementCode]

theorem statementCode_of_not (style : CodeStyle) (code : NodeId → Option Code) {n : Node}
    (h : g.isStatement n = false) :
    ∃ c, g.statementCode style code n = some c ∧ c.lines = [] := by
  unfold isStatement at h
  unfold statementCode
  cases hp : n.payload <;> simp_all [Code.empty]
  all_goals (split <;> rfl)

theorem lines_concat {ns : List Node} (hids : ∀ n ∈ ns, g.lookup n.id = some n) :
    (Code.concat (ns.map (g.statementCode style (g.bodyCode style [])))).map
        (fun c => c.lines.map (·.print style)) =
      ((ns.filter g.isStatement).mapM fun n => g.partLines style (.node n.id)).map
        List.flatten := by
  induction ns with
  | nil => rfl
  | cons n ns ih =>
    obtain ⟨hn, hns⟩ := List.forall_mem_cons.mp hids
    cases hs : g.isStatement n with
    | false =>
      obtain ⟨c, hc, hlines⟩ := statementCode_of_not style (g.bodyCode style []) hs
      rw [List.filter_cons_of_neg (by simp [hs]), ← ih hns, List.map_cons, hc, Code.concat,
        Option.map_map]
      simp [Function.comp_def, Code.append, hlines]
    | true =>
      have hnode : g.partLines style (.node n.id) =
          (g.statementCode style (g.bodyCode style []) n).map (·.lines.map (·.print style)) := by
        simp only [partLines, partCode, hn, nodeCode_of_isStatement hs]
      rw [List.filter_cons_of_pos hs, List.mapM_cons, hnode, List.map_cons]
      cases hc : g.statementCode style (g.bodyCode style []) n with
      | none => rfl
      | some c =>
        have hrest := ih hns
        cases hd : Code.concat (ns.map (g.statementCode style (g.bodyCode style []))) <;>
          cases hm : (ns.filter g.isStatement).mapM fun n => g.partLines style (.node n.id) <;>
          simp_all [Code.concat, Code.append]

/-- A world at a depth, behind lines that are there: its lines at no depth, moved in by blanks; and
they are the lines of its statements, each written on its own. -/
theorem world_composes (g : Graph) (style : CodeStyle) (w : World) :
    let write := g.writeWorld style (g.writeBody style []) w
    write 0 [] = g.partLines style (.world w) ∧
    (∀ depth lines, write depth [] = some lines → ∀ out,
      write depth out = some (out ++ lines) ∧
      write (depth + 1) out =
        some (out ++ lines.map (String.ofList (List.replicate style.indent ' ') ++ ·))) ∧
    ((∀ n ∈ g.nodesIn w, g.lookup n.id = some n) →
      g.partLines style (.world w) = (((g.nodesIn w).filter g.isStatement).mapM fun n =>
        g.partLines style (.node n.id)).map List.flatten) := by
  intro write
  have hwrite : Writes style write (g.worldCode style (g.bodyCode style []) w) :=
    writes_world (writes_body []) w
  refine ⟨?_, fun depth lines hlines out => ?_, lines_concat⟩
  · rw [hwrite]
    simp [partLines, partCode, emit, CodeLine.printAt]
  · rw [hwrite] at hlines
    obtain ⟨c, hc, rfl⟩ := Option.map_eq_some_iff.mp hlines
    simp [hwrite depth, hwrite (depth + 1), hc, emit, print_succ, Function.comp_def]

/-- A chain with an empty clause, and a call that is the argument of another. -/
theorem world_composes_chain :
    let g : Graph := ⟨[⟨⟨"if"⟩, "if x", .root, .ifBlock⟩, ⟨⟨"else"⟩, "else", .root, .elseBlock⟩,
        ⟨⟨"return"⟩, "return", .body ⟨"if"⟩, .returnStmt⟩, ⟨⟨"f"⟩, "f", .root, .call .function⟩,
        ⟨⟨"g"⟩, "g", .root, .call .function⟩],
      [⟨⟨"if"⟩, ⟨"else"⟩, .nextClause none⟩, ⟨⟨"f"⟩, ⟨"g"⟩, .argument (some 0) none⟩]⟩
    (∀ n ∈ g.nodesIn .root, g.lookup n.id = some n) ∧
    g.writeWorld .default (g.writeBody .default []) .root 1 ["while y:"] =
      some ["while y:", "    if x:", "        return", "    else:", "        pass", "    g(f())"] ∧
    (((g.nodesIn .root).filter g.isStatement).mapM fun n =>
        g.partLines .default (.node n.id)).map List.flatten =
      some ["if x:", "    return", "else:", "    pass", "g(f())"] := by
  intro g
  have hids : ∀ n ∈ g.nodesIn .root, g.lookup n.id = some n := by decide +kernel
  have hlines : g.partLines .default (.world .root) =
      some ["if x:", "    return", "else:", "    pass", "g(f())"] := by decide +kernel
  obtain ⟨hwrite, hdeep, hparts⟩ := world_composes g .default .root
  refine ⟨hids, (hdeep 0 _ (hwrite.trans hlines) ["while y:"]).2.trans (by decide +kernel), ?_⟩
  exact (hparts hids).symm.trans hlines

/-- A call that feeds only itself has a line of its own but none in its world; of two nodes with one
id the later one is the one that is written on its own. -/
theorem partLines_world_ne :
    let f : NodeId := ⟨"f"⟩
    let i : NodeId := ⟨"i"⟩
    let fed : Graph := ⟨[⟨f, "f", .root, .call .function⟩], [⟨f, f, .argument (some 0) none⟩]⟩
    let twins : Graph := ⟨[⟨i, "import a", .root, .importStmt []⟩,
      ⟨i, "import b", .root, .importStmt []⟩], []⟩
    (fed.partLines .default (.world .root) = some [] ∧
      fed.partLines .default (.node f) = some ["f(__missing__)"]) ∧
    twins.partLines .default (.world .root) = some ["import a", "import b"] ∧
    ((twins.nodesIn .root).mapM fun n => twins.partLines .default (.node n.id)).map List.flatten =
      some ["import b", "import b"] := by
  decide +kernel

end Graph

end ScopedFlow
