import ScopedFlow.Proofs.Bodies

/-!
# Headers and chains of clauses

The header of a statement is the text of the value that was read for it, or else the text in its
label. The clauses behind an `if` are those that its edges lead to one after the other; the handlers
of a `try` are numbered.
-/

namespace ScopedFlow

namespace Graph

variable {g : Graph} {id : NodeId} {n : Node} {seen : List NodeId}

theorem clausesFrom_done (h : g.nextClause id = none) : g.clausesFrom seen id = [] := by
  rw [clausesFrom]
  split
  · rfl
  · rename_i m hm
    cases hm.symm.trans h

theorem clausesFrom_seen (h : g.nextClause id = some n) (hs : n.id ∈ seen) :
    g.clausesFrom seen id = [] := by
  rw [clausesFrom]
  split
  · rfl
  · rename_i m hm
    obtain rfl := Option.some.inj (h.symm.trans hm)
    rw [dif_pos hs]

theorem clausesFrom_otherwise (h : g.nextClause id = some n) (hs : n.id ∉ seen)
    (hk : n.kind = .elseBlock) : g.clausesFrom seen id = [n] := by
  rw [clausesFrom]
  split
  · rename_i hm
    cases hm.symm.trans h
  · rename_i m hm
    obtain rfl := Option.some.inj (h.symm.trans hm)
    rw [dif_neg hs, if_pos hk]

theorem clausesFrom_elif (h : g.nextClause id = some n) (hs : n.id ∉ seen)
    (hk : n.kind ≠ .elseBlock) :
    g.clausesFrom seen id = n :: g.clausesFrom (n.id :: seen) n.id := by
  rw [clausesFrom]
  split
  · rename_i hm
    cases hm.symm.trans h
  · rename_i m hm
    obtain rfl := Option.some.inj (h.symm.trans hm)
    rw [dif_neg hs, if_neg hk]

theorem handlersOf_eq {ns : List (Nat × Node)}
    (he : g.edgesFrom id = ns.map fun x => ⟨id, x.2.id, .nextClause (some x.1)⟩)
    (hl : ∀ x ∈ ns, g.lookup x.2.id = some x.2 ∧ x.2.kind = .exceptBlock)
    (hs : ns.Pairwise fun a b => a.1 ≤ b.1) : g.handlersOf id = ns.map (·.2) := by
  have hsort : ns.mergeSort (fun a b => a.1 ≤ b.1) = ns :=
    List.mergeSort_of_pairwise (by simpa using hs)
  unfold handlersOf
  rw [he, List.filterMap_map]
  refine (congrArg (fun xs : List (Nat × Node) => (xs.mergeSort fun a b => a.1 ≤ b.1).map (·.2))
    ?_).trans
    (congrArg (List.map (·.2)) hsort)
  refine (List.filterMap_congr fun x hx => ?_).trans List.filterMap_some
  simp [(hl x hx).1, (hl x hx).2]

end Graph

namespace Steps

variable {w : Place} {outer : List Place} {k n : Nat}

theorem outputs_operand (port : Port) (e : Expr) (hn : n < k) :
    outputs n (expr w outer (some port) k e) = [] :=
  Keeps.outputs_eq_nil (local_expr (some port) k e) fun hs => absurd hs.1 (Nat.not_le.mpr hn)

theorem outputs_block (hn : n ≤ k) (label : String) (payload : Payload) (mid : List Step)
    (names : List (String × Bool)) (body : List Stmt) :
    outputs n (block w outer k label payload mid names body) = outputs n mid := by
  have hbody := (Keeps.enclosed (k := k) (contained_suite (w :: outer) k
    (k + 1 + count mid) names body)).outputs_eq_nil (n := n) fun hs => by
      rcases hs with hs | hs
      · cases hs
      · exact absurd hs.1 (by omega)
  rw [block, outputs_append, outputs_append, hbody, List.append_nil]
  rfl

end Steps

namespace Run
open Steps

variable {q : Run} {all before after : List Step} {w : Place} {outer : List Place} {k : Nat}
  {style : CodeStyle} {L : Likeness} {c : Prop} {label : String} {n : Node}

namespace Draws

theorem nextClause_none (h : Draws q all) (hk : k < count all) (hn : ¬ Named all k)
    (ho : outputs k all = []) : q.linked.nextClause (q.nodeId k) = none := by
  rw [Graph.nextClause, h.edgesFrom hk hn, ho]
  rfl

theorem nextClause_some (h : Draws q all) (hk : k < count all) (hn : ¬ Named all k) {j : Nat}
    (ho : outputs k all = [⟨j, .nextClause none⟩]) (hl : q.linked.lookup (q.nodeId j) = some n)
    (hkind : n.kind = .elifBlock ∨ n.kind = .elseBlock) :
    q.linked.nextClause (q.nodeId k) = some n := by
  rw [Graph.nextClause, h.edgesFrom hk hn, ho, List.map_singleton, Graph.distinct_eq_self (by simp)]
  simp [hl, hkind]

end Draws

theorem tolerates_test {payload : Payload}
    (hs : (sketches all)[k]? = some ⟨w, label, .plain payload⟩)
    (hp : payload = .ifBlock ∨ payload = .elifBlock ∨ payload = .whileBlock) {name : String}
    (h : Tolerates L c all name ⟨k, .input⟩) :
    ¬ c ∧ ∀ text, L.header name text (Text.trim text) := by
  simp only [Tolerates, hs, Option.map_some] at h
  rcases hp with rfl | rfl | rfl
  · exact h
  · exact h
  · exact h

theorem faithful_header {kind : EdgeKind} {phrase : Phrase} {words : String}
    (hw : q.WiredOrUnbound style L c all k kind phrase.expr)
    (hu : ∀ name, Tolerates L c all name ⟨k, kind⟩ →
      ¬ c ∧ ∀ text, L.header name text (Text.trim text)) (hid : n.id = q.nodeId k)
    (hl : n.label = words ++ " " ++ phrase.text) :
    (q.linked.headerValue style n kind words).Faithful c (phrase.Writes L) := by
  rw [Graph.headerValue, hid]
  rcases hw with ⟨id, hin, hv⟩ | ⟨hin, name, hname, ht⟩
  · simp only [hin]
    refine hv.mono ?_
    rintro _ ⟨e', he, rfl⟩
    exact ⟨⟨phrase.text, e'⟩, .bound he, rfl⟩
  · obtain ⟨text, e⟩ := phrase
    obtain rfl : e = .name name := hname
    obtain ⟨hc, hheader⟩ := hu name ht
    simp only [hin]
    rw [Graph.labelFallback, hl, Graph.behindWords_label]
    split
    · rename_i found hf
      split at hf
      · cases hf
      · obtain rfl := Option.some.inj hf
        exact .plain ⟨⟨text, .name (Text.trim text)⟩, .unbound text (hheader text), rfl⟩
    · exact .lacking hc style n _

theorem faithful_test {test : Phrase} {keyword : String} {payload : Payload}
    (hs : (sketches all)[k]? = some ⟨w, label, .plain payload⟩)
    (hp : payload = .ifBlock ∨ payload = .elifBlock ∨ payload = .whileBlock)
    (hw : q.WiredOrUnbound style L c all k .input test.expr) (hid : n.id = q.nodeId k)
    (hl : n.label = keyword ++ " " ++ test.text) :
    (q.linked.testHeader style n keyword).Faithful c (fun text => ∃ test', test.Like L test' ∧
      text = keyword ++ " " ++ test'.expr.print ++ ":") := by
  refine (faithful_header hw (fun name => tolerates_test hs hp) hid hl).map ?_
  rintro _ ⟨test', hlike, rfl⟩
  exact ⟨test', hlike, rfl⟩

theorem faithful_loop {target : Target} (ht : target.text ≠ "") {source : Phrase}
    (hw : q.WiredOrUnbound style L c all k .iteratesOn source.expr) (hid : n.id = q.nodeId k)
    (hl : n.label = "for " ++ target.text ++ " in " ++ source.text) :
    (q.linked.loopHeader style n target.text).Faithful c (fun text => ∃ source',
      source.Like L source' ∧
        text = "for " ++ target.text ++ " in " ++ source'.expr.print ++ ":") := by
  have hwords : n.label = ("for " ++ target.text ++ " in") ++ " " ++ source.text := by
    have hin : " in " = " in" ++ " " := rfl
    rw [hl, hin]
    simp only [String.append_assoc]
  rw [Graph.loopHeader, if_neg ht]
  refine (faithful_header hw (fun name ht => ht) hid hwords).both
    (.plain (P := (· = target.text)) rfl) ?_
  rintro _ _ ⟨source', hlike, rfl⟩ rfl
  exact ⟨source', hlike, rfl⟩

def CaughtWrites (L : Likeness) (caught : Option Phrase) (binding : Option String)
    (text : String) : Prop :=
  ∃ caught', Phrase.CaughtLike L caught caught' ∧
    text = "except" ++ caughtText caught' ++ aliasText binding ++ ":"

theorem faithful_handler {caught : Option Phrase} {binding : Option String}
    (hid : n.id = q.nodeId k) (hs : (sketches all)[k]? =
      some ⟨w, label, .plain (.exceptBlock (caught.map (·.text)) binding)⟩)
    (hw : ∀ e ∈ caught, q.WiredOrUnbound style L c all k .input e.expr)
    (hnone : caught = none → q.linked.input (q.nodeId k) (fun other => other = .input) = none) :
    (q.linked.handlerHeader style n (caught.map (·.text)) binding).Faithful c
      (CaughtWrites L caught binding) := by
  unfold Graph.handlerHeader
  rw [hid]
  cases caught with
  | none =>
    simp only [hnone rfl]
    exact .plain ⟨none, .none, by cases binding <;> rfl⟩
  | some e =>
    rcases hw e rfl with ⟨id, hin, hv⟩ | ⟨hin, name, hname, ht⟩
    · simp only [hin]
      refine hv.map ?_
      rintro _ ⟨e', he, rfl⟩
      refine ⟨some ⟨e.text, e'⟩, .some (.bound he), ?_⟩
      rw [caughtText, ← String.append_assoc]
      cases binding <;> rfl
    · obtain ⟨text, e⟩ := e
      obtain rfl : e = .name name := hname
      simp only [Tolerates, hs, Option.map_some] at ht
      simp only [hin, Option.map_some]
      refine .plain ⟨some ⟨text, .name text⟩, .some (.unbound text ht), ?_⟩
      rw [caughtText, ← String.append_assoc]
      cases binding <;> rfl

end Run

end ScopedFlow
