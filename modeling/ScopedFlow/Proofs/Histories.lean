import ScopedFlow.Proofs.Replay

/-!
# Histories of the names in scope

What a read finds after any run of operations is told by the run alone: a write counts while the
scope that it was made in is open, which is as long as no fewer scopes are open than when it was
made.
-/

namespace ScopedFlow.Symbols

inductive Op where
  | enter
  | leave
  | write (e : Entry)

namespace Op

def apply (s : Symbols) : Op → Symbols
  | enter => s.enter
  | leave => s.leave
  | write e => s.write e.name e.node e.world

def entry? : Op → Option Entry
  | write e => some e
  | _ => none

/-- How many scopes are open inside the outermost one, which stays. -/
def turn (depth : Nat) : Op → Nat
  | enter => depth + 1
  | leave => depth - 1
  | write _ => depth

end Op

variable {d here : Nat} {ops : List Op}

def after (ops : List Op) : Symbols := ops.foldl Op.apply .empty

def depthFrom (here : Nat) (ops : List Op) : Nat := ops.foldl Op.turn here

/-- The least depth that is met from the depth `here` on. -/
def lowest (here : Nat) : List Op → Nat
  | [] => here
  | op :: ops => min here (lowest (op.turn here) ops)

/-- The writes at depth `d` behind which the depth never falls below `d`. -/
def lasting (d : Nat) : (here : Nat) → List Op → List Entry
  | _, [] => []
  | here, op :: ops =>
    (if here = d ∧ d ≤ lowest (op.turn here) ops then op.entry?.toList else []) ++
      lasting d (op.turn here) ops

/-- The writes made in the open scope at depth `d` since it was opened. -/
def scopeAt (ops : List Op) (d : Nat) : List Entry := lasting d 0 ops

theorem lowest_le (here : Nat) (ops : List Op) : lowest here ops ≤ depthFrom here ops := by
  induction ops generalizing here with
  | nil => exact Nat.le_refl _
  | cons op ops ih => exact Nat.le_trans (Nat.min_le_right ..) (ih _)

theorem lowest_snoc (here : Nat) (ops : List Op) (op : Op) :
    lowest here (ops ++ [op]) = min (lowest here ops) (op.turn (depthFrom here ops)) := by
  induction ops generalizing here with
  | nil => rfl
  | cons o ops ih =>
    rw [List.cons_append, lowest, ih, lowest, Nat.min_assoc]
    rfl

theorem lasting_above (h : depthFrom here ops < d) : lasting d here ops = [] := by
  induction ops generalizing here with
  | nil => rfl
  | cons op ops ih =>
    have hlow : ¬(here = d ∧ d ≤ lowest (op.turn here) ops) := fun hd =>
      absurd (Nat.le_trans hd.2 (lowest_le ..)) (Nat.not_le.mpr h)
    rw [lasting, if_neg hlow, ih h, List.append_nil]

theorem lasting_snoc (d here : Nat) (ops : List Op) (op : Op) :
    lasting d here (ops ++ [op]) =
      (if d ≤ op.turn (depthFrom here ops) then lasting d here ops else []) ++
        if depthFrom here ops = d then op.entry?.toList else [] := by
  induction ops generalizing here with
  | nil =>
    change (if here = d ∧ d ≤ op.turn here then op.entry?.toList else []) ++ [] =
      (if d ≤ op.turn here then [] else []) ++ if here = d then op.entry?.toList else []
    rw [ite_self, List.append_nil, List.nil_append]
    cases op with
    | write e =>
      refine if_congr (and_iff_left_of_imp fun h => ?_) rfl rfl
      exact Nat.le_of_eq h.symm
    | enter | leave => exact (ite_self []).trans (ite_self []).symm
  | cons o ops ih =>
    have hdepth : depthFrom here (o :: ops) = depthFrom (o.turn here) ops := rfl
    rw [List.cons_append, lasting, ih, lowest_snoc, lasting, hdepth, ← List.append_assoc]
    by_cases hd : d ≤ op.turn (depthFrom (o.turn here) ops)
    · simp only [Nat.le_min, hd, and_true, if_true, List.append_assoc]
    · simp only [Nat.le_min, hd, and_false, if_false, List.append_nil, List.nil_append]

theorem scopeAt_enter (ops : List Op) (d : Nat) : scopeAt (ops ++ [.enter]) d = scopeAt ops d := by
  rw [scopeAt, lasting_snoc]
  split
  · simp [Op.entry?, scopeAt]
  · rename_i h
    have habove : depthFrom 0 ops < d := Nat.lt_of_succ_lt (Nat.not_le.mp h)
    simp [Op.entry?, scopeAt, lasting_above habove]

theorem scopeAt_leave (h : d ≤ depthFrom 0 ops - 1) :
    scopeAt (ops ++ [.leave]) d = scopeAt ops d := by
  rw [scopeAt, lasting_snoc, Op.turn, if_pos h]
  simp [Op.entry?, scopeAt]

theorem scopeAt_write (ops : List Op) (e : Entry) (d : Nat) : scopeAt (ops ++ [.write e]) d =
    scopeAt ops d ++ if depthFrom 0 ops = d then [e] else [] := by
  rw [scopeAt, lasting_snoc, Op.turn]
  split
  · rfl
  · rename_i h
    rw [scopeAt, lasting_above (Nat.not_le.mp h)]
    rfl

theorem write_tableOf (es : List Entry) (e : Entry) (outer : List (Table String Binding)) :
    (⟨tableOf es, outer⟩ : Symbols).write e.name e.node e.world = ⟨tableOf (es ++ [e]), outer⟩ := by
  rw [tableOf, tableOf, writeAll, writeAll, List.foldl_concat]
  rfl

/-- The tables of the scopes up to a depth, the innermost first. -/
def tables (ops : List Op) (depth : Nat) : List (Table String Binding) :=
  (List.range depth).reverse.map fun d => tableOf (scopeAt ops d)

theorem tables_succ (ops : List Op) (depth : Nat) :
    tables ops (depth + 1) = tableOf (scopeAt ops depth) :: tables ops depth := by
  rw [tables, List.range_succ, List.reverse_append]
  rfl

theorem tables_congr {ops' : List Op} {depth : Nat}
    (h : ∀ d, d < depth → scopeAt ops' d = scopeAt ops d) : tables ops' depth = tables ops depth := by
  refine List.map_congr_left fun d hd => ?_
  rw [h d (List.mem_range.mp (List.mem_reverse.mp hd))]

/-- By induction on the run: each open scope has the table of its writes. -/
theorem after_eq (ops : List Op) :
    after ops = ⟨tableOf (scopeAt ops (depthFrom 0 ops)), tables ops (depthFrom 0 ops)⟩ := by
  induction ops using List.reverseRecOn with
  | nil => rfl
  | append_singleton ops op ih =>
    have hstep : after (ops ++ [op]) = op.apply (after ops) := List.foldl_concat ..
    have hdepth : depthFrom 0 (ops ++ [op]) = op.turn (depthFrom 0 ops) := List.foldl_concat ..
    rw [hstep, hdepth, ih]
    cases op with
    | enter =>
      have hempty : scopeAt ops (depthFrom 0 ops + 1) = [] := lasting_above (Nat.lt_succ_self _)
      rw [Op.turn, tables_succ, scopeAt_enter, scopeAt_enter, hempty,
        tables_congr fun d _ => scopeAt_enter ops d]
      rfl
    | leave =>
      rw [Op.turn, scopeAt_leave (Nat.le_refl _),
        tables_congr fun d hd => scopeAt_leave (Nat.le_of_lt hd)]
      cases depthFrom 0 ops with
      | zero => rfl
      | succ k =>
        rw [tables_succ]
        rfl
    | write e =>
      have hbelow : tables (ops ++ [.write e]) (depthFrom 0 ops) = tables ops (depthFrom 0 ops) :=
        tables_congr fun d hd => by
          rw [scopeAt_write, if_neg (Nat.ne_of_gt hd), List.append_nil]
      rw [Op.turn, scopeAt_write, if_pos rfl, hbelow]
      exact write_tableOf ..

/-- Every scope that is opened is closed, and no other. -/
inductive Balanced : List Op → Prop where
  | nil : Balanced []
  | write (e : Entry) : Balanced [.write e]
  | nest {ops : List Op} (h : Balanced ops) : Balanced (.enter :: (ops ++ [.leave]))
  | append {ops ops' : List Op} (h : Balanced ops) (h' : Balanced ops') : Balanced (ops ++ ops')

theorem nested_eq {s : Symbols} (h : (ops.foldl Op.apply s.enter).outer = s.enter.outer) :
    (Op.enter :: (ops ++ [.leave])).foldl Op.apply s = s := by
  rw [List.foldl_cons, List.foldl_concat]
  change Symbols.leave (ops.foldl Op.apply s.enter) = s
  rw [Symbols.leave, leave?, h]
  rfl

theorem Balanced.outer_eq (h : Balanced ops) (s : Symbols) :
    (ops.foldl Op.apply s).outer = s.outer := by
  induction h generalizing s with
  | nil | write => rfl
  | nest _ ih => rw [nested_eq (ih s.enter)]
  | append _ _ ih ih' => rw [List.foldl_append, ih', ih]

/-- What a scope with these writes shows of a name: the last write, and how many there were. -/
def shown (es : List Entry) (name : String) : Option Binding :=
  (entriesOf es name).getLast?.map fun e => ⟨e.node, (entriesOf es name).length, e.world⟩

theorem lasting_sublist (d here : Nat) (ops : List Op) :
    (lasting d here ops).Sublist (ops.filterMap Op.entry?) := by
  induction ops generalizing here with
  | nil => exact .slnil
  | cons op ops ih =>
    have hone : (if here = d ∧ d ≤ lowest (op.turn here) ops then op.entry?.toList else []).Sublist
        op.entry?.toList := by
      split
      · exact .refl _
      · exact List.nil_sublist _
    have hcons : (op :: ops).filterMap Op.entry? = op.entry?.toList ++ ops.filterMap Op.entry? := by
      cases op <;> rfl
    rw [lasting, hcons]
    exact hone.append (ih _)

/-- A read finds the last write of the name in the innermost open scope that has one, with the number
of those writes as the version. A balanced run in a scope of its own changes no read. -/
theorem read_after (ops : List Op) (name : String) :
    (after ops).read name =
      (List.range (depthFrom 0 ops + 1)).reverse.findSome? (fun d => shown (scopeAt ops d) name) ∧
    ((after ops).read name = none ↔ ∀ d ≤ depthFrom 0 ops, entriesOf (scopeAt ops d) name = []) ∧
    (∀ b, (after ops).read name = some b → b.version ≤ (ops.filterMap Op.entry?).length) ∧
    ∀ mid, Balanced mid →
      (after (ops ++ .enter :: (mid ++ [.leave]))).read name = (after ops).read name := by
  have hread : (after ops).read name =
      (List.range (depthFrom 0 ops + 1)).reverse.findSome? (fun d => shown (scopeAt ops d) name) := by
    rw [after_eq, read, ← tables_succ, tables, List.findSome?_map]
    exact congrFun (congrArg _ (funext fun d => get?_tableOf ..)) _
  refine ⟨hread, ?_, fun b hb => ?_, fun mid hmid => ?_⟩
  · rw [hread, List.findSome?_eq_none_iff]
    simp only [List.mem_reverse, List.mem_range, Nat.lt_succ_iff, shown, Option.map_eq_none_iff,
      List.getLast?_eq_none_iff]
  · obtain ⟨d, -, hd⟩ := List.exists_of_findSome?_eq_some (hread.symm.trans hb)
    obtain ⟨e, -, rfl⟩ := Option.map_eq_some_iff.mp hd
    exact (List.filter_sublist.trans (lasting_sublist ..)).length_le
  · rw [after, List.foldl_append, nested_eq (hmid.outer_eq _)]
    rfl

/-- The outermost scope cannot be left, and writes in a closed scope do not count. -/
theorem read_after_shadowed :
    let x (node : String) : Op := .write ⟨"x", ⟨node⟩, .root⟩
    let ops := [.leave, x "a", .enter, x "b", .leave, .enter, x "c", x "d"]
    (after ops).read "x" = some ⟨⟨"d"⟩, 2, .root⟩ ∧
      (after (ops ++ .enter :: ([x "e"] ++ [.leave]))).read "x" = (after ops).read "x" :=
  ⟨rfl, (read_after _ "x").2.2.2 _ (.write _)⟩

end ScopedFlow.Symbols
