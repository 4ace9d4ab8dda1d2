import ScopedFlow.Proofs.Silence
import ScopedFlow.Proofs.Values

/-!
# Statements in their places

A statement is a node, often with an expression that is read for it, and what stands behind that
head: bodies and clauses with nodes of their own. So the value in a header is the one that was read
for it, and the lines of a body are those of its statements.
-/

namespace ScopedFlow

namespace Steps

variable {w : Place} {outer : List Place} {ss ts : List Step} {k j : Nat} {k' m owner : Nat}

/-- What stands behind a block of the node `k` with the numbers before `j`: it does not meet the
nodes of the block except the first, adds nothing to its body, and wires only clauses to it. -/
structure Follows (k j : Nat) (ss : List Step) : Prop where
  keeps : Keeps (fun n => n ≤ k ∨ j ≤ n) (fun n => n ≤ k ∨ j ≤ n)
    (fun p => ∀ i, p = .body i → i < k ∨ j ≤ i) ss
  clauses : ∀ before, ∀ p ∈ inputs k (collect joins before ss), ∃ index, p.2 = .nextClause index

namespace Follows

theorem nil (k j : Nat) : Follows k j [] := ⟨.nil, fun _ _ hp => nomatch hp⟩

theorem append (hs : Follows k j ss) (ht : Follows k j ts) : Follows k j (ss ++ ts) where
  keeps := hs.keeps.append ht.keeps
  clauses before p hp := by
    rw [collect_append, inputs_append] at hp
    exact (List.mem_append.mp hp).elim (hs.clauses _ p) (ht.clauses _ p)

theorem wire (ho : owner ≤ k) (index : Option Nat) :
    Follows k j [.wire owner ⟨k, .nextClause index⟩] where
  keeps := .wire (.inl ho) (.inl (Nat.le_refl k))
  clauses before p hp := by
    obtain rfl : p = (.node owner, .nextClause index) := by
      simpa [inputs, joins] using hp
    exact ⟨index, rfl⟩

theorem of_contained (h : Contained w (some owner) k' m ss) (ho : owner ≤ k) (hw : w.Below k)
    (hk : k < k') (hj : j ≤ k') : Follows k j ss where
  keeps := by
    refine Keeps.mono h ?_ (fun n hn => .inr (Nat.le_trans hj hn.1)) ?_
    · rintro n (hn | hn)
      · obtain rfl := Option.mem_some.mp hn
        exact .inl ho
      · exact .inr (Nat.le_trans hj hn.1)
    · rintro p (rfl | rfl | ⟨i, rfl, hi⟩) n hn
      · subst hn
        exact .inl hw
      · cases hn
      · obtain rfl := Place.body.inj hn
        exact .inr (Nat.le_trans hj hi.1)
  clauses before p hp := by
    rw [Keeps.inputs_eq_nil h (fun hn => absurd hn.1 (Nat.not_le.mpr hk)) before] at hp
    cases hp

theorem away (h : Follows k j ss) (hk : k < k') (hm : k' + m ≤ j) : Away k' m ss := by
  have hout (n : Nat) (hn : n ≤ k ∨ j ≤ n) : Outside k' m n := by
    rcases hn with hn | hn
    · exact .inl (Nat.lt_of_le_of_lt hn hk)
    · exact .inr (Nat.le_trans hm hn)
  refine Keeps.mono h.keeps hout hout fun p hp i hi => hout i ?_
  exact (hp i hi).imp Nat.le_of_lt id

theorem itemsIn_eq_nil (h : Follows k j ss) (hj : k < j) (before : List Step) :
    itemsIn (.body k) before ss = [] := by
  refine h.keeps.itemsIn_eq_nil (fun hp => ?_) before
  rcases hp k rfl with hk | hk
  · exact Nat.lt_irrefl k hk
  · exact Nat.not_le.mpr hj hk

end Follows

theorem Contained.away_body {m' : Nat} (h : Contained (.body k) none k' m ss) (hk : k + 1 + m' ≤ k') :
    Away (k + 1) m' (enclosed k ss) :=
  Keeps.enclosed (Contained.away h (Nat.lt_succ_self k) (by simp) hk)

theorem contained_suite (outer : List Place) (k i : Nat) (names : List (String × Bool))
    (body : List Stmt) :
    Contained (.body k) none (i + count (header (.body k) i names))
      (count (statements (.body k) outer (i + count (header (.body k) i names)) body))
      (header (.body k) i names ++
        statements (.body k) outer (i + count (header (.body k) i names)) body) :=
  (contained_header names i).append (contained_statements ..)

theorem Follows.clauses_body (h : Follows k j ts) {i : Nat} (hi : k < i)
    (names : List (String × Bool)) (body : List Stmt) (before : List Step)
    {p : Ref × EdgeKind} (hp : p ∈ inputs k (collect joins before (enclosed k
      (header (.body k) i names ++ statements (.body k) outer
        (i + count (header (.body k) i names)) body) ++ ts))) :
    ∃ index, p.2 = .nextClause index := by
  have hbody := (Keeps.enclosed (k := k) (contained_suite outer k i names
    body)).inputs_eq_nil (n := k) (fun hn => absurd hn.1 (by omega)) before
  rw [collect_append, inputs_append, hbody, List.nil_append] at hp
  exact h.clauses _ p hp

/-- Steps that leave the open worlds as they are and add nodes to the world `w` only. -/
structure Flat (w : Place) (ss : List Step) : Prop where
  path : ∀ before, openPath (before ++ ss) = openPath before
  homes : ∀ s ∈ ss, ∀ p ∈ home? s, p = w

namespace Flat

theorem nil (w : Place) : Flat w [] := ⟨by simp, by simp⟩

theorem bind (w : Place) (name : String) (body : Place) (node : Nat) (home : Place) :
    Flat w [.bind name body node home] := ⟨by simp [turn], by simp [home?]⟩

theorem wire (w : Place) (source : Nat) (port : Port) : Flat w [.wire source port] :=
  ⟨by simp [turn], by simp [home?]⟩

theorem expr (w : Place) (outer : List Place) (port : Option Port) (k : Nat) (e : Expr) :
    Flat w (expr w outer port k e) :=
  ⟨fun _ => openPath_quiet _ (quiet_expr ..), (local_expr port k e).homes⟩

theorem append (hs : Flat w ss) (ht : Flat w ts) : Flat w (ss ++ ts) :=
  ⟨fun before => by rw [← List.append_assoc, ht.path, hs.path],
    fun s h => (List.mem_append.mp h).elim (hs.homes s) (ht.homes s)⟩

end Flat

theorem innerIn_enclosed (h : Contained (.body k) none k' m ss) (hk : k ≤ k') (hw : w.Below k)
    (hi : w ≠ .imports) (before : List Step) : InnerIn w before (enclosed k ss) := by
  refine .of_nil (Keeps.itemsIn_eq_nil (Keeps.enclosed h) ?_ before)
  rintro (rfl | rfl | ⟨i, rfl, hs⟩)
  · exact Nat.lt_irrefl k hw
  · exact hi rfl
  · have hik : i < k := hw
    exact absurd hs.1 (by omega)

section Blocks

variable {before mid tail : List Step} {label : String} {payload : Payload}
  {names : List (String × Bool)} {body : List Stmt}

theorem innerIn_behind (hw : w.Below k) (hi : w ≠ .imports) {i : Nat} (hk : k ≤ i)
    (hmid : InnerIn w before mid) (htail : InnerIn w (before ++ (mid ++ enclosed k
      (header (.body k) i names ++ statements (.body k) outer
        (i + count (header (.body k) i names)) body))) tail) :
    InnerIn w before (mid ++ enclosed k (header (.body k) i names ++ statements (.body k) outer
      (i + count (header (.body k) i names)) body) ++ tail) :=
  (hmid.append (innerIn_enclosed (contained_suite _ k i names body) (by omega) hw hi _)).append htail

theorem InnerIn.clause (hk : count before = k) {owner : Nat} {index : Option Nat}
    (hp : payload.isClause = true) (hwire : .wire owner ⟨k, .nextClause index⟩ ∈ ss)
    (hs : InnerIn w (before ++ place w label (.plain payload) k none) ss) :
    InnerIn w before (place w label (.plain payload) k none ++ ss) := by
  intro item hi
  rw [itemsIn_append] at hi
  rcases List.mem_append.mp hi with hi | hi
  · obtain rfl : item = .made k ⟨w, label, .plain payload⟩ _ := by
      rw [← hk]
      exact List.mem_singleton.mp (List.mem_of_mem_filter hi)
    exact .clause w label hp (List.mem_append_right _ hwire) _
  · exact (hs item hi).mono (List.subset_append_right ..)

end Blocks

theorem innerIn_alternatives {before : List Step} {previous k : Nat} (hk : count before = k)
    (hw : w.Below k) (hi : w ≠ .imports) (rest : Alternatives) :
    InnerIn w before (alternatives w outer previous k rest) := by
  cases rest with
  | done => exact .of_nil rfl
  | elif test body rest =>
    rw [alternatives_elif, conditional, block, List.append_assoc]
    refine InnerIn.clause hk rfl (List.mem_append_right _ List.mem_cons_self)
      (innerIn_behind hw hi (by omega) ((inner_expr (by simp [hk]) rfl test.expr).innerIn w)
        (.append (.of_nil rfl) (innerIn_alternatives ?_ (hw.mono (Nat.le_add_right ..)) hi rest)))
    have hzero : count [.wire previous ⟨k, .nextClause none⟩] = 0 := rfl
    rw [count_append, count_append, count_append, count_append _ (_ ++ enclosed _ _), hk, hzero,
      Nat.add_zero, Nat.add_assoc]
  | otherwise body =>
    rw [alternatives_otherwise, block, List.append_assoc]
    exact InnerIn.clause hk rfl (List.mem_append_right _ List.mem_cons_self)
      (innerIn_behind hw hi (by omega) (.of_nil rfl) (.of_nil rfl))

theorem innerIn_handlers {before : List Step} {index k : Nat} (hk : count before = k)
    (hw : w.Below k) (hi : w ≠ .imports) (clauses : List Handler) :
    InnerIn w before (handlers w outer owner index k clauses) := by
  induction clauses generalizing before index k with
  | nil => exact .of_nil rfl
  | cons clause rest ih =>
    obtain ⟨caught, binding, body⟩ := clause
    have hcaught (b : List Step) (hb : count b = k + 1) :
        InnerIn w b (exception w outer k caught) := by
      cases caught with
      | none => exact .of_nil rfl
      | some e => exact (inner_expr hb rfl e.expr).innerIn w
    rw [handlers_cons, handlerBlock, block, List.append_assoc]
    refine InnerIn.clause hk rfl
      (List.mem_append_left _ (List.mem_append_left _ (List.mem_append_left _ List.mem_cons_self)))
      (innerIn_behind hw hi (by omega) (.append (.of_nil rfl) (hcaught _ (by simp [hk, sketch?])))
        (ih ?_ (hw.mono (Nat.le_add_right ..))))
    rw [count_append, count_append, count_append _ (_ ++ enclosed _ _), hk]
    exact Nat.add_assoc ..

end Steps

namespace Run
open Steps

variable {q : Run} {all before after ss : List Step} {w : Place} {outer : List Place} {k : Nat}
  {style : CodeStyle} {L : Likeness} {c : Prop} {kind : EdgeKind} {e : Expr}

namespace Standing

theorem wellFormed (h : Standing q all before ss after w outer k) : WellFormed before :=
  h.located.wellFormed_before h.draws.wellFormed

theorem stands (h : Standing q all before ss after w outer k) : Stands before k w outer :=
  ⟨h.wellFormed, h.located.number, h.path⟩

theorem below (h : Standing q all before ss after w outer k) : w.Below k :=
  h.located.number ▸ h.wellFormed.below_path (by simp [h.path])

theorem not_imports (h : Standing q all before ss after w outer k) : w ≠ .imports := by
  rintro rfl
  have hl := h.wellFormed.ladder
  rw [h.path] at hl
  cases hl

end Standing

theorem Standing.codeOf_inner {ts : List Step} {v : Place} {f : NodeId → Option Code}
    (h : Standing q all before (ss ++ ts) after w outer k) (hs : InnerIn v before ss) :
    codeOf q style f (itemsIn v before ss) = some .empty := by
  have hall : all = before ++ ss ++ (ts ++ after) := by
    rw [h.located.text]
    simp only [List.append_assoc]
  exact h.draws.codeOf_inner hall hs

/-- The value that is read for a node is wired and has the text of a like expression, or it is a
name without a binding. -/
def WiredOrUnbound (q : Run) (style : CodeStyle) (L : Likeness) (c : Prop) (all : List Step)
    (k : Nat) (kind : EdgeKind) (e : Expr) : Prop :=
  (∃ id, q.linked.input (q.nodeId k) (fun other => other = kind) = some id ∧
    (q.linked.value style id).Faithful c (e.Writes L)) ∨
  (q.linked.input (q.nodeId k) (fun other => other = kind) = none ∧
    ∃ name, e = .name name ∧ Tolerates L c all name ⟨k, kind⟩)

theorem Standing.wiredOrUnbound (hs : Sound L c all) {k' : Nat}
    (h : Standing q all before (expr w outer (some ⟨k, kind⟩) k' e) after w outer k') (hk : k < k')
    (he : e.isPlain = true) (hin : (inputs k (links all)).find? (fun p => p.2 = kind) =
      (root before w outer k' e).map (·, kind)) : q.WiredOrUnbound style L c all k kind e := by
  have hlt : k < count all := by
    rw [h.located.text, count_append, count_append, h.located.number]
    omega
  have hinput : q.linked.input (q.nodeId k) (fun other => other = kind) =
      (root before w outer k' e).map q.ref := by
    rw [h.draws.input hlt]
    simp only [hin, Option.map_map]
    rfl
  cases hr : root before w outer k' e with
  | none => exact .inr ⟨by rw [hinput, hr]; rfl, h.located.tolerates hs he hr⟩
  | some a =>
    refine .inl ⟨q.ref a, by rw [hinput, hr]; rfl, ?_⟩
    exact renders_expr hs e h (.inl rfl) (port_lt hk _) he (by simp [Clear]) hr

theorem Standing.header (hs : Sound L c all) (pre : List Step) {label : String} {content : Content}
    {rest : List Step} (h : Standing q all before (place w label content k none ++
      (pre ++ (expr w outer (some ⟨k, kind⟩) (k + 1) e ++ rest))) after w outer k)
    (he : e.isPlain = true) (hq : Quiet pre) (hzero : count pre = 0)
    (hpre : ∀ b, ∀ p ∈ inputs k (collect joins b pre), p.2 ≠ kind)
    (haway : Away (k + 1) (count (expr w outer (some ⟨k, kind⟩) (k + 1) e)) rest)
    (hrest : ∀ b, ∀ p ∈ inputs k (collect joins b rest), p.2 ≠ kind) :
    q.WiredOrUnbound style L c all k kind e := by
  have hloc : Located all (before ++ place w label content k none ++ pre)
      (expr w outer (some ⟨k, kind⟩) (k + 1) e ++ rest) after (k + 1) := by
    have hr := h.behind.located.right
    rwa [hzero] at hr
  have hpath : openPath (before ++ place w label content k none ++ pre) = w :: outer := by
    rw [openPath_quiet _ hq, h.behind.path]
  have hexpr : Standing q all (before ++ place w label content k none ++ pre)
      (expr w outer (some ⟨k, kind⟩) (k + 1) e) (rest ++ after) w outer (k + 1) :=
    ⟨h.draws, hloc.left haway, hpath⟩
  refine hexpr.wiredOrUnbound hs (Nat.lt_succ_self k) he ?_
  rw [h.inputs_eq (by simp), collect_append, inputs_append, collect_append, inputs_append,
    inputs_expr _ ⟨k, kind⟩ (Nat.lt_succ_self k), find_skip (hpre _), find_kind _ _ (hrest _)]

/-- Ids of nodes before the number `k`. -/
def Earlier (q : Run) (k : Nat) (ids : List NodeId) : Prop := ∀ id ∈ ids, ∃ j < k, id = q.nodeId j

theorem Earlier.cons {ids : List NodeId} (h : q.Earlier k ids) :
    q.Earlier (k + 1) (q.nodeId k :: ids) := by
  intro id hid
  rcases List.mem_cons.mp hid with rfl | hid
  · exact ⟨k, Nat.lt_succ_self k, rfl⟩
  · obtain ⟨j, hj, he⟩ := h id hid
    exact ⟨j, Nat.lt_succ_of_lt hj, he⟩

theorem Earlier.mono {ids : List NodeId} (h : q.Earlier k ids) {k' : Nat} (hk : k ≤ k') :
    q.Earlier k' ids := by
  intro id hid
  obtain ⟨j, hj, he⟩ := h id hid
  exact ⟨j, Nat.lt_of_lt_of_le hj hk, he⟩

theorem Draws.not_earlier (h : Draws q all) {ids : List NodeId} (he : q.Earlier k ids)
    (hk : k < count all) : q.nodeId k ∉ ids := by
  intro hm
  obtain ⟨j, hj, hid⟩ := he _ hm
  exact Nat.ne_of_gt hj (h.nodeId_inj hk (Nat.lt_trans hj hk) hid)

theorem Draws.worldCode_eq (h : Draws q all) {v : Place} (hv : v.Below (count all))
    (body : NodeId → Option Code) :
    q.linked.worldCode style body (q.world v) = codeOf q style body (itemsIn v [] all) := by
  rw [Graph.worldCode, h.nodesIn hv, List.map_map]
  rfl

theorem Draws.bodyCode_eq (h : Draws q all) {opened : List NodeId} (ho : q.Earlier k opened)
    (hk : k < count all) : q.linked.bodyCode style opened (q.nodeId k) =
      (codeOf q style (fun id => q.linked.bodyCode style (q.nodeId k :: opened) id)
        (itemsIn (.body k) [] all)).map Code.orPass := by
  rw [Graph.bodyCode, dif_pos ⟨h.mem_ids hk, h.not_earlier ho hk⟩]
  exact congrArg (Option.map Code.orPass) (h.worldCode_eq (v := .body k) hk _)

/-- Statements have the lines of like ones, wherever they stand behind the node `k`. -/
def SuiteWrites (q : Run) (style : CodeStyle) (L : Likeness) (c : Prop) (all : List Step)
    (w : Place) (outer : List Place) (opened : List NodeId) (k : Nat) (stmts : List Stmt) : Prop :=
  ∀ {before after : List Step} {k' : Nat},
    Standing q all before (statements w outer k' stmts) after w outer k' → k < k' →
    Code.Faithful c (Stmt.WritesAll L stmts) (codeOf q style
      (fun id => q.linked.bodyCode style opened id) (itemsIn w before (statements w outer k' stmts)))

def BodyWrites (q : Run) (style : CodeStyle) (L : Likeness) (c : Prop) (opened : List NodeId)
    (k : Nat) (stmts : List Stmt) : Prop :=
  ∃ x, q.linked.bodyCode style opened (q.nodeId k) = x.map Code.orPass ∧
    Code.Faithful c (Stmt.WritesAll L stmts) x

section Blocks

variable {label : String} {payload : Payload} {mid tail : List Step} {names : List (String × Bool)}
  {body : List Stmt}

theorem Standing.inside {content : Content} {inner : List Step}
    (h : Standing q all before (place w label content k none ++
      (mid ++ (enclosed k inner ++ tail))) after w outer k)
    (hm : Flat w mid)
    (ht : Follows k (k + (1 + count mid + count inner)) tail) :
    Standing q all (before ++ place w label content k none ++ mid ++ [.enter (.body k)]) inner
      ([.leave] ++ tail ++ after) (.body k) (w :: outer) (k + 1 + count mid) ∧
    itemsIn (.body k) [] all = itemsIn (.body k)
      (before ++ place w label content k none ++ mid ++ [.enter (.body k)]) inner := by
  have hsteps : enclosed k inner ++ tail = [.enter (.body k)] ++ (inner ++ ([.leave] ++ tail)) := by
    simp [enclosed]
  rw [hsteps] at h
  have hin : Located all (before ++ place w label content k none ++ mid ++ [.enter (.body k)])
      (inner ++ ([.leave] ++ tail)) after (k + 1 + count mid) := h.behind.located.right.right
  have haway : Away (k + 1 + count mid) (count inner) ([.leave] ++ tail) :=
    Keeps.append ⟨by simp [Steps.sources], by simp [Steps.targets], by simp [home?]⟩
      (ht.away (by omega) (by omega))
  refine ⟨⟨h.draws, hin.left haway, ?_⟩, ?_⟩
  · rw [openPath_snoc, hm.path, h.behind.path]
    rfl
  · have hne : .body k ≠ w := by
      rintro rfl
      exact Nat.lt_irrefl k h.below
    have hplace (b : List Step) : itemsIn (.body k) b (place w label content k none) = [] := by
      simp [itemsIn, place, asks, Item.home, hne.symm]
    have hmid (b : List Step) : itemsIn (.body k) b mid = [] := by
      have hkeeps : Keeps (fun _ => True) (fun _ => True) (· = w) mid :=
        ⟨fun _ _ _ _ => trivial, fun _ _ _ _ => trivial, hm.homes⟩
      exact hkeeps.itemsIn_eq_nil hne b
    have hpos : 0 < count (place w label content k none ++
        (mid ++ ([.enter (.body k)] ++ (inner ++ ([.leave] ++ tail))))) := by
      rw [count_append, count_place]
      omega
    rw [h.located.itemsIn_eq h.draws.wellFormed (.self k hpos), itemsIn_append, itemsIn_append,
      itemsIn_append, itemsIn_append, itemsIn_append, hplace, hmid, ht.itemsIn_eq_nil (by omega),
      List.append_nil]
    exact List.append_nil _

theorem Standing.path_block
    (h : Standing q all before (block w outer k label payload mid names body ++ tail) after w outer k)
    (hm : Flat w mid)
    (ht : Follows k (k + count (block w outer k label payload mid names body)) tail) :
    openPath (before ++ block w outer k label payload mid names body) = w :: outer := by
  rw [count_block] at ht
  rw [block, List.append_assoc, List.append_assoc] at h
  have hinner := stands_statements (stands_header (h.inside hm ht).1.stands names) body
  have hsteps : before ++ block w outer k label payload mid names body =
      before ++ place w label (.plain payload) k none ++ mid ++ [.enter (.body k)] ++
        Steps.header (.body k) (k + 1 + count mid) names ++
        statements (.body k) (w :: outer) (k + 1 + count mid +
          count (Steps.header (.body k) (k + 1 + count mid) names)) body ++ [.leave] := by
    simp [block, enclosed]
  rw [hsteps, openPath_snoc, hinner.path]
  rfl

theorem Standing.after_block
    (h : Standing q all before (block w outer k label payload mid names body ++ tail) after w outer k)
    (hm : Flat w mid)
    (ht : Follows k (k + count (block w outer k label payload mid names body)) tail) :
    Standing q all (before ++ block w outer k label payload mid names body) tail after w outer
      (k + count (block w outer k label payload mid names body)) :=
  ⟨h.draws, h.located.right, h.path_block hm ht⟩

theorem Standing.body_writes
    (h : Standing q all before (block w outer k label payload mid names body ++ tail) after w outer k)
    (hm : Flat w mid)
    (ht : Follows k (k + count (block w outer k label payload mid names body)) tail)
    {opened : List NodeId} (ho : q.Earlier k opened)
    (hb : q.SuiteWrites style L c all (.body k) (w :: outer) (q.nodeId k :: opened) k body) :
    q.BodyWrites style L c opened k body := by
  rw [count_block] at ht
  rw [block, List.append_assoc, List.append_assoc] at h
  obtain ⟨hin, hitems⟩ := h.inside hm ht
  refine ⟨_, h.draws.bodyCode_eq ho h.lt_count, ?_⟩
  rw [hitems, itemsIn_append,
    codeOf_skip_left (hin.codeOf_inner (AllInner.innerIn (inner_header _ _ _) _))]
  exact hb ⟨h.draws, hin.located.right, (stands_header hin.stands names).path⟩ (by omega)

theorem Standing.block_header (hs : Sound L c all) (pre : List Step)
    (h : Standing q all before (block w outer k label payload
      (pre ++ expr w outer (some ⟨k, kind⟩) (k + 1) e) names body ++ tail) after w outer k)
    (he : e.isPlain = true) (hkind : ∀ index, kind ≠ .nextClause index) (hq : Quiet pre)
    (hzero : count pre = 0)
    (hpre : ∀ b, ∀ p ∈ inputs k (collect joins b pre), ∃ index, p.2 = .nextClause index)
    (ht : Follows k (k + count (block w outer k label payload
      (pre ++ expr w outer (some ⟨k, kind⟩) (k + 1) e) names body)) tail) :
    q.WiredOrUnbound style L c all k kind e := by
  rw [count_block, count_append, hzero] at ht
  rw [block, List.append_assoc, List.append_assoc, List.append_assoc, count_append, hzero,
    Nat.zero_add] at h
  have hsuite := contained_suite (w :: outer) k
    (k + 1 + count (expr w outer (some ⟨k, kind⟩) (k + 1) e)) names body
  have hne (p : Ref × EdgeKind) (hp : ∃ index, p.2 = .nextClause index) : p.2 ≠ kind := by
    obtain ⟨index, hi⟩ := hp
    exact fun he => hkind index (he.symm.trans hi)
  refine h.header hs pre he hq hzero (fun b p hp => hne p (hpre b p hp)) ?_ fun b p hp => ?_
  · exact (hsuite.away_body (by omega)).append (ht.away (Nat.lt_succ_self k) (by omega))
  · exact hne p (ht.clauses_body (by omega) names body b hp)

theorem Standing.block_no_input
    (h : Standing q all before (block w outer k label payload mid names body ++ tail) after w outer k)
    (hkind : ∀ index, kind ≠ .nextClause index)
    (hmid : ∀ b, ∀ p ∈ inputs k (collect joins b mid), ∃ index, p.2 = .nextClause index)
    (ht : Follows k (k + count (block w outer k label payload mid names body)) tail) :
    q.linked.input (q.nodeId k) (fun other => other = kind) = none := by
  rw [block, List.append_assoc, List.append_assoc] at h
  rw [h.draws.input h.lt_count, h.inputs_eq (by simp), collect_append, inputs_append]
  refine Option.map_eq_none_iff.mpr (List.find?_eq_none.mpr fun p hp => ?_)
  have hclause : ∃ index, p.2 = .nextClause index := by
    rcases List.mem_append.mp hp with hp | hp
    · exact hmid _ p hp
    · exact ht.clauses_body (by omega) names body _ hp
  obtain ⟨index, hi⟩ := hclause
  simpa [hi] using (hkind index).symm

end Blocks

end Run

end ScopedFlow
