import ScopedFlow.Proofs.Standing

/-!
# The text of a value

By induction over an expression in its place, the text of the node that it made is the text of a
like expression, as long as every name, literal and call is written as it may be.
-/

namespace ScopedFlow

namespace Run
open Steps

section Values

variable {q : Run} {all : List Step} {w : Place} {outer : List Place} {style : CodeStyle}
  {L : Likeness} {c : Prop}

section Displays

variable {before after : List Step} {port : Option Port} {k : Nat} {visiting : List NodeId}
  {label : String} {content : Content} {rest : List Step}

theorem Standing.edgesTo_eq
    (h : Standing q all before (place w label content k port ++ rest) after w outer k)
    {es : List ((Expr × Ref) × EdgeKind)}
    (hin : inputs k (links all) = es.map (Prod.map Prod.snd id)) (hn : (es.map Prod.snd).Nodup) :
    q.linked.edgesTo (q.nodeId k) = (es.map (Prod.map (fun x => q.ref x.2) id)).map
      fun p => ⟨p.1, q.nodeId k, p.2⟩ := by
  rw [h.draws.edgesTo_of_nodup h.lt_count (by rw [hin, List.map_map]; exact hn), hin, List.map_map,
    List.map_map]
  rfl

theorem renders_list (hs : Sound L c all) {items : List Expr}
    (h : Standing q all before (place w "[]" (.plain .listDisplay) k port ++
      row w outer k (k + 1) (Display.elements 0 items)) after w outer k)
    (hp : ∀ p ∈ port, p.target < k) (hv : q.Clear all k visiting)
    (hparts : ∀ p ∈ Display.elements 0 items,
      q.FirmPart style L c all w outer (q.nodeId k :: visiting) k p) :
    q.Renders style L c visiting (.list items) (.node k) := by
  obtain ⟨es, hes, hin, hr⟩ := row_renders hs h.behind (Nat.lt_succ_self k) hparts
  obtain ⟨xs, rfl, rfl⟩ := Display.elements_lift hes
  have hedges := h.edgesTo_eq ((h.inputs_eq hp).trans hin) (Display.nodup_elements 0 xs)
  rw [← Display.elements_map] at hedges
  have hsub (sub : NodeId → Rendered) :
      (q.linked.indexed (q.nodeId k) EdgeKind.elementIndex?).map (fun e => sub e.2) =
        xs.map fun x => sub (q.ref x.2) := by
    have hids := congrArg (List.map sub) (Graph.indexed_elements hedges)
    rwa [List.map_map, List.map_map] at hids
  rw [Renders, ref_node, h.resolve_eq (by simp) hv]
  simp only [Graph.renderNode, hsub]
  refine (Rendered.Faithful.join (W := fun x => x.1.Writes L) (fun x hx => ?_) ", ").map ?_
  · obtain ⟨kind, hk⟩ := Display.mem_elements hx 0
    exact hr _ hk
  · rintro _ ⟨texts, htexts, rfl⟩
    obtain ⟨items', hitems, rfl⟩ := Expr.writes_all (List.forall₂_map_left_iff.mpr htexts)
    exact ⟨.list items', .list hitems, rfl⟩

theorem renders_dict (hs : Sound L c all) {entries : List Pair}
    (h : Standing q all before (place w "\x7b\x7d" (.plain .dictDisplay) k port ++
      row w outer k (k + 1) (Display.pairs 0 (entries.map Pair.parts))) after w outer k)
    (hp : ∀ p ∈ port, p.target < k) (hv : q.Clear all k visiting)
    (hparts : ∀ p ∈ Display.pairs 0 (entries.map Pair.parts),
      q.FirmPart style L c all w outer (q.nodeId k :: visiting) k p) :
    q.Renders style L c visiting (.dict entries) (.node k) := by
  obtain ⟨es, hes, hin, hr⟩ := row_renders hs h.behind (Nat.lt_succ_self k) hparts
  obtain ⟨xs, hxs, rfl⟩ := Display.pairs_lift hes
  have hentries : entries = xs.map fun x => .mk x.1.1 x.2.1 := by
    have hback : entries = (entries.map Pair.parts).map fun p => .mk p.1 p.2 := by
      rw [List.map_map]
      exact (List.map_id' entries).symm.trans (List.map_congr_left fun ⟨_, _⟩ _ => rfl)
    rw [hback, hxs, List.map_map]
    rfl
  have hedges := h.edgesTo_eq ((h.inputs_eq hp).trans hin) (Display.nodup_pairs 0 xs)
  rw [← Display.pairs_map] at hedges
  rw [Renders, ref_node, h.resolve_eq (by simp) hv, hentries]
  simp only [Graph.renderNode, Graph.keyedPairs_eq hedges, List.map_map, Function.comp_def, Prod.map]
  refine (Rendered.Faithful.join (W := fun x => (Pair.mk x.1.1 x.2.1).Writes L)
    (fun x hx => ?_) ", ").map ?_
  · obtain ⟨⟨kind, hk⟩, kind', hk'⟩ := Display.mem_pairs hx 0
    refine (hr _ hk).both (hr _ hk') ?_
    rintro _ _ ⟨key, hkey, rfl⟩ ⟨value, hvalue, rfl⟩
    exact ⟨key, value, hkey, hvalue, rfl⟩
  · rintro _ ⟨texts, htexts, rfl⟩
    obtain ⟨entries', hlike, rfl⟩ := Pair.writes_all (List.forall₂_map_left_iff.mpr htexts)
    exact ⟨.dict entries', .dict hlike, rfl⟩

variable {isMethod : Bool} {args : List Arg} {receiver : Option Ref}
  {gs : List (Given (Expr × Ref))}

theorem keywords_ref (hk : ((Given.keywords gs).map Prod.fst).Nodup) :
    ((Given.keywords (gs.map (Given.map fun x => q.ref x.2))).map Prod.fst).Nodup := by
  rw [Given.keywords_map, List.map_map]
  exact hk

theorem receiver_kind {id : NodeId} {e : Edge}
    (h : e ∈ (receiver.toList.map (·, EdgeKind.attributeValue)).map
      fun p => (⟨q.ref p.1, id, p.2⟩ : Edge)) (index : Option Nat) (keyword : Option String) :
    e.kind ≠ .argument index keyword := by
  obtain ⟨p, hp, rfl⟩ := List.mem_map.mp h
  simp [kind_of_mem hp]

theorem Standing.edgesTo_call
    (h : Standing q all before (place w label content k port ++ rest) after w outer k)
    (hin : inputs k (links all) = receiver.toList.map (·, .attributeValue) ++
      (Given.wires 0 gs).map (Prod.map Prod.snd id))
    (hk : ((Given.keywords gs).map Prod.fst).Nodup) : q.linked.edgesTo (q.nodeId k) =
      (receiver.toList.map (·, .attributeValue)).map (fun p => ⟨q.ref p.1, q.nodeId k, p.2⟩) ++
        (Given.wires 0 (gs.map (Given.map fun x => q.ref x.2))).map
          fun p => ⟨p.1, q.nodeId k, p.2⟩ := by
  have hn : ((inputs k (links all)).map Prod.snd).Nodup := by
    rw [hin, List.map_append, List.map_map (l := Given.wires 0 gs)]
    refine List.nodup_append.mpr ⟨?_, Given.nodup_kinds hk 0, fun kind hf kind' hw he => ?_⟩
    · cases receiver <;> simp
    · obtain ⟨p, hp, rfl⟩ := List.mem_map.mp hf
      obtain ⟨x, hx, rfl⟩ := List.mem_map.mp hw
      rw [kind_of_mem hp] at he
      rcases Given.kind_of_wires hx with ⟨i, -, hi⟩ | ⟨name, -, hi⟩
      · exact nomatch he.trans hi
      · exact nomatch he.trans hi
  rw [h.draws.edgesTo_of_nodup h.lt_count hn, hin, List.map_append, Given.wires_map,
    List.map_map (l := Given.wires 0 gs), List.map_map (l := Given.wires 0 gs)]
  rfl

theorem Standing.call_site
    (h : Standing q all before (place w label (.call isMethod args) k port ++ rest) after w outer k)
    (hargs : Arg.givens args = gs.map (Given.map Prod.fst))
    (hin : inputs k (links all) = receiver.toList.map (·, .attributeValue) ++
      (Given.wires 0 gs).map (Prod.map Prod.snd id))
    (hk : ((Given.keywords gs).map Prod.fst).Nodup) :
    ∃ site, q.linked.lookup (q.nodeId k) = some ⟨q.nodeId k, label, q.world w, .call site⟩ ∧
      site.isMethod = isMethod ∧ site.overrides = .empty ∧
      q.linked.callParams site = boundParams all (openPath before) isMethod label
        (Given.suggested (Arg.givens args)) := by
  obtain ⟨back, hall⟩ := h.located.node_place
  obtain ⟨version, hi⟩ := Reflects.made_mem_items h.located.sketch_place
  obtain ⟨site, hsite, hmethod, hover, hparams⟩ := h.draws.finished_call h.path hall version
  rw [h.located.number] at hsite hparams
  refine ⟨site, (h.draws.lookup hi).trans (congrArg some hsite), hmethod, hover, ?_⟩
  have hedges : q.builder.graph.edgesTo (q.nodeId k) = q.linked.edgesTo (q.nodeId k) := by
    rw [Graph.edgesTo, Graph.edgesTo, linked, Graph.edges_link]
  rw [hparams, h.path, Given.suggestedParams_eq (hedges.trans (h.edgesTo_call hin hk))
    (fun _ he => receiver_kind he) (keywords_ref hk), hargs, Given.suggested_map,
    Given.suggested_map]

/-- The text is that of the arguments of a call, in an order in which they may be written. -/
def WritesArguments (L : Likeness) (args : List Arg) (text : String) : Prop :=
  ∃ order args', L.arguments args order ∧ Arg.AllLike L order args' ∧
    text = ", ".intercalate (Arg.prints args')

theorem Graph.defects_missing {a : WrittenArgument} (h : a.isMissing = true) (style : CodeStyle)
    (sub : NodeId → Rendered) (n : Node) : (Graph.renderArgument style sub n a).defects ≠ [] := by
  obtain ⟨keyword, source⟩ := a
  cases source with
  | missing name => cases keyword <;> simp [Graph.renderArgument, Graph.lacking, Rendered.map]
  | _ => cases h

theorem faithful_arguments {params : List Param} (hsuits : Suits L c params args)
    (hargs : Arg.givens args = gs.map (Given.map Prod.fst)) {sub : NodeId → Rendered}
    (hr : ∀ g ∈ gs, (sub (q.ref g.value.2)).Faithful c (g.value.1.Writes L)) (n : Node) :
    (Rendered.join ", " ((writtenArguments params
      (.of (Given.positional (gs.map (Given.map fun x => q.ref x.2)))
        (Given.keywords (gs.map (Given.map fun x => q.ref x.2)))) .empty).map
      (Graph.renderArgument style sub n))).Faithful c (WritesArguments L args) := by
  have hkeys (f : Expr × Ref → NodeId) : (Given.keywords (gs.map (Given.map f))).map Prod.fst =
      (Given.keywords (Arg.givens args)).map Prod.fst := by
    rw [hargs, Given.keywords_map, Given.keywords_map, List.map_map, List.map_map]
    rfl
  have hcount (f : Expr × Ref → NodeId) : (Given.positional (gs.map (Given.map f))).length =
      (Given.positional (Arg.givens args)).length := by
    rw [hargs, Given.positional_map, Given.positional_map, List.length_map, List.length_map]
  have htakes := hsuits.takes
  rw [← hkeys fun x => q.ref x.2, ← hcount fun x => q.ref x.2] at htakes
  rcases writtenArguments_arranged htakes with hwritten | ⟨hc, a, ha, hmissing⟩
  case inr => exact .join_lacking hc ha (fun hd => Graph.defects_missing hmissing _ _ _ hd) ", "
  rw [hwritten, Given.arranged_map, List.map_map, List.map_map]
  refine (Rendered.Faithful.join (W := fun g => (Given.map Prod.fst g).Writes L)
    (fun g hg => ?_) ", ").mono ?_
  · have hvalue := hr g (Given.mem_arranged hg)
    obtain ⟨keyword, e, a⟩ := g
    cases keyword with
    | none => exact hvalue
    | some name =>
      refine hvalue.map ?_
      rintro _ ⟨e', he, rfl⟩
      exact ⟨e', he, rfl⟩
  · rintro _ ⟨texts, htexts, rfl⟩
    have hgiven := List.forall₂_map_left_iff.mpr htexts
    rw [← Given.arranged_map, ← hargs] at hgiven
    obtain ⟨args', hlike, rfl⟩ := Given.writes_all hgiven
    exact ⟨_, args', hsuits.order, hlike, rfl⟩

theorem resolve_call (hs : Sound L c all)
    (h : Standing q all before (place w label (.call isMethod args) k port ++ rest) after w outer k)
    (hargs : Arg.givens args = gs.map (Given.map Prod.fst))
    (hin : inputs k (links all) = receiver.toList.map (·, .attributeValue) ++
      (Given.wires 0 gs).map (Prod.map Prod.snd id))
    (hr : ∀ x ∈ Given.wires 0 gs, q.Renders style L c (q.nodeId k :: visiting) x.1.1 x.1.2)
    (hv : q.Clear all k visiting) :
    ∃ site, site.isMethod = isMethod ∧
      q.linked.resolve style visiting (q.nodeId k) = q.linked.renderCall style
        (fun source => q.linked.resolve style (q.nodeId k :: visiting) source)
        ⟨q.nodeId k, label, q.world w, .call site⟩ site ∧
      (q.linked.renderArguments style
        (fun source => q.linked.resolve style (q.nodeId k :: visiting) source)
        ⟨q.nodeId k, label, q.world w, .call site⟩ site).Faithful c (WritesArguments L args) := by
  obtain ⟨back, hall⟩ := h.located.node_place
  have hsuits := hs.call hall
  have hk : ((Given.keywords gs).map Prod.fst).Nodup := by
    have hd := hsuits.distinct
    rwa [hargs, Given.keywords_map, List.map_map] at hd
  obtain ⟨site, hlookup, hmethod, hover, hparams⟩ := h.call_site hargs hin hk
  refine ⟨site, hmethod, Graph.resolve_node hlookup (h.draws.not_visiting hv h.lt_count), ?_⟩
  rw [Graph.renderArguments, hparams, hover, h.edgesTo_call hin hk,
    Given.ofEdges_wires _ (fun _ he => receiver_kind he) (keywords_ref hk)]
  refine faithful_arguments hsuits hargs (fun g hg => ?_) _
  obtain ⟨kind, hkind⟩ := Given.mem_wires hg 0
  exact hr _ hkind

theorem renders_call (hs : Sound L c all)
    (h : Standing q all before (place w label (.call false args) k port ++
      row w outer k (k + 1) (Given.wires 0 (Arg.givens args))) after w outer k)
    (hp : ∀ p ∈ port, p.target < k) (hv : q.Clear all k visiting)
    (hparts : ∀ p ∈ Given.wires 0 (Arg.givens args),
      q.FirmPart style L c all w outer (q.nodeId k :: visiting) k p) :
    q.Renders style L c visiting (.call label args) (.node k) := by
  obtain ⟨es, hes, hin, hr⟩ := row_renders hs h.behind (Nat.lt_succ_self k) hparts
  obtain ⟨gs, hargs, rfl⟩ := Given.wires_lift hes
  have hnone : inputs k (links all) = (none : Option Ref).toList.map (·, .attributeValue) ++
      (Given.wires 0 gs).map (Prod.map Prod.snd id) := (h.inputs_eq hp).trans hin
  obtain ⟨site, hmethod, hresolve, hfaithful⟩ := resolve_call hs h hargs hnone hr hv
  rw [Renders, ref_node, hresolve, Graph.renderCall, hmethod, if_neg Bool.false_ne_true]
  refine hfaithful.map ?_
  rintro _ ⟨order, args', horder, hlike, rfl⟩
  exact ⟨.call label args', .call label horder hlike, rfl⟩

theorem renders_methodCall (hs : Sound L c all) {object : Expr}
    (h : Standing q all before (place w label (.call true args) k port ++
      (expr w outer (some ⟨k, .attributeValue⟩) (k + 1) object ++ row w outer k
        (k + 1 + count (expr w outer (some ⟨k, .attributeValue⟩) (k + 1) object))
        (Given.wires 0 (Arg.givens args)))) after w outer k)
    (hp : ∀ p ∈ port, p.target < k) (hv : q.Clear all k visiting) (he : object.isPlain = true)
    (hobject : PartRenders q style L c all w outer (q.nodeId k :: visiting) ⟨k, .attributeValue⟩
      object)
    (hparts : ∀ p ∈ Given.wires 0 (Arg.givens args),
      q.FirmPart style L c all w outer (q.nodeId k :: visiting) k p) :
    q.Renders style L c visiting (.methodCall object label args) (.node k) := by
  obtain ⟨hfirst, hsecond⟩ := h.behind.split (quiet_expr ..) (of_mem_some (Nat.lt_succ_self k))
    (feeds_row k _ _).local (Nat.le_refl _)
  obtain ⟨es, hes, hrow, hr⟩ := row_renders hs hsecond (by omega) hparts
  obtain ⟨gs, hargs, rfl⟩ := Given.wires_lift hes
  have hin := h.inputs_eq hp
  rw [collect_append, inputs_append, inputs_expr _ ⟨k, .attributeValue⟩ (Nat.lt_succ_self k),
    hrow] at hin
  obtain ⟨site, hmethod, hresolve, hfaithful⟩ := resolve_call hs h hargs hin hr hv
  rw [Renders, ref_node, hresolve, Graph.renderCall, hmethod, if_pos rfl]
  refine hfaithful.both (faithful_part hs hfirst (Nat.lt_succ_self k) rfl he (fun _ ht => ht) ?_
    hobject _) ?_
  · rw [hin]
    refine find_kind _ _ fun p hm => ?_
    obtain ⟨x, hx, rfl⟩ := List.mem_map.mp hm
    rcases Given.kind_of_wires hx with ⟨i, -, hi⟩ | ⟨name, -, hi⟩ <;> simp [hi, EdgeKind.positional,
      EdgeKind.keyword]
  · rintro _ _ ⟨order, args', horder, hlike, rfl⟩ ⟨object', hobject, rfl⟩
    exact ⟨.methodCall object' label args', .methodCall label hobject horder hlike, rfl⟩

end Displays

mutual
theorem renders_expr (hs : Sound L c all) {before after : List Step} {port : Option Port} {k : Nat}
    {visiting : List NodeId} {a : Ref} : (e : Expr) →
    Standing q all before (expr w outer port k e) after w outer k → (port.isSome ∨ e.isCall) →
    (∀ p ∈ port, p.target < k) → e.isPlain = true → q.Clear all k visiting →
    root before w outer k e = some a → q.Renders style L c visiting e a
  | .name id, h, hp, hpt, he, hv, ha => by
    obtain ⟨port, rfl⟩ := Option.isSome_iff_exists.mp (hp.resolve_right (by simp [Expr.isCall]))
    obtain ⟨o, ho, rfl⟩ := Option.map_eq_some_iff.mp ha
    have hall : all = before ++ .read id w outer port :: after := by
      rw [h.located.text, expr, List.append_assoc]
      rfl
    refine h.draws.renders_name hs hall hv ?_ ho
    rw [hall, count_append, h.located.number]
    exact Nat.le_add_right ..
  | .literal text, h, hp, hpt, he, hv, ha => by
    obtain rfl := Option.some.inj ha
    rw [expr_eq_place rfl port k hp] at h
    rw [Renders, ref_node, h.resolve_eq (by simp) hv]
    exact .plain ⟨.literal _, .literal (hs.literal _ (List.mem_of_getElem? h.located.sketch_place)
      rfl), rfl⟩
  | .unary op operand, h, hp, hpt, he, hv, ha => by
    obtain rfl := Option.some.inj ha
    obtain ⟨hop, he⟩ := Bool.and_eq_true_iff.mp he
    rw [expr_eq_place rfl port k hp] at h
    have hv' := Draws.clear_cons hv (h.not_named rfl)
    rw [Renders, ref_node, h.resolve_eq (by simp) hv]
    refine (faithful_one hs h hpt rfl he (fun _ ht => ht) (fun hpart hk ha => renders_expr hs operand
      hpart (.inl rfl) (port_lt hk _) he (Draws.clear_mono hv' hk) ha) _).map ?_
    rintro _ ⟨e', he', rfl⟩
    exact ⟨.unary op e', .unary op he', unaryText_eq hop _⟩
  | .binary op left right, h, hp, hpt, he, hv, ha => by
    obtain rfl := Option.some.inj ha
    obtain ⟨hel, her⟩ := Bool.and_eq_true_iff.mp he
    rw [expr_eq_place rfl port k hp] at h
    have hv' := Draws.clear_cons hv (h.not_named rfl)
    rw [Renders, ref_node, h.resolve_eq (by simp) hv]
    refine faithful_two hs h hpt rfl (by simp) hel her (fun _ ht => ht) (fun _ ht => ht)
      (fun hpart hk ha => renders_expr hs left hpart (.inl rfl) (port_lt hk _) hel
        (Draws.clear_mono hv' hk) ha)
      (fun hpart hk ha => renders_expr hs right hpart (.inl rfl) (port_lt hk _) her
        (Draws.clear_mono hv' hk) ha) _ _ ?_
    rintro _ _ ⟨l', hl', rfl⟩ ⟨r', hr', rfl⟩
    exact ⟨.binary op l' r', .binary op hl' hr', rfl⟩
  | .call callee args, h, hp, hpt, he, hv, ha => by
    obtain rfl := Option.some.inj ha
    rw [expr_eq_place rfl port k hp, parts, arguments_eq_row] at h
    exact renders_call hs h hpt hv
      (firm_arguments hs (Draws.clear_cons hv (h.not_named rfl)) args he)
  | .methodCall object method args, h, hp, hpt, he, hv, ha => by
    obtain rfl := Option.some.inj ha
    obtain ⟨heo, hea⟩ := Bool.and_eq_true_iff.mp he
    rw [expr_eq_place rfl port k hp, parts, arguments_eq_row] at h
    have hv' := Draws.clear_cons hv (h.not_named rfl)
    exact renders_methodCall hs h hpt hv heo
      (fun hpart hk ha => renders_expr hs object hpart (.inl rfl) (port_lt hk _) heo
        (Draws.clear_mono hv' hk) ha)
      (firm_arguments hs hv' args hea)
  | .attribute object name, h, hp, hpt, he, hv, ha => by
    obtain rfl := Option.some.inj ha
    rw [expr_eq_place rfl port k hp] at h
    have hv' := Draws.clear_cons hv (h.not_named rfl)
    rw [Renders, ref_node, h.resolve_eq (by simp) hv]
    refine (faithful_one hs h hpt rfl he (fun _ ht => ht) (fun hpart hk ha => renders_expr hs object
      hpart (.inl rfl) (port_lt hk _) he (Draws.clear_mono hv' hk) ha) _).map ?_
    rintro _ ⟨e', he', rfl⟩
    exact ⟨.attribute e' name, .attribute name he', rfl⟩
  | .subscript value key, h, hp, hpt, he, hv, ha => by
    obtain rfl := Option.some.inj ha
    obtain ⟨hev, hek⟩ := Bool.and_eq_true_iff.mp he
    rw [expr_eq_place rfl port k hp] at h
    have hv' := Draws.clear_cons hv (h.not_named rfl)
    rw [Renders, ref_node, h.resolve_eq (by simp) hv]
    refine faithful_two hs h hpt rfl (by simp) hev hek (fun _ ht => ht) (fun _ ht => ht)
      (fun hpart hk ha => renders_expr hs value hpart (.inl rfl) (port_lt hk _) hev
        (Draws.clear_mono hv' hk) ha)
      (fun hpart hk ha => renders_expr hs key hpart (.inl rfl) (port_lt hk _) hek
        (Draws.clear_mono hv' hk) ha) _ _ ?_
    rintro _ _ ⟨v', hv', rfl⟩ ⟨k', hk', rfl⟩
    exact ⟨.subscript v' k', .subscript hv' hk', rfl⟩
  | .list items, h, hp, hpt, he, hv, ha => by
    obtain rfl := Option.some.inj ha
    rw [expr_eq_place rfl port k hp, parts, elements_eq_row] at h
    exact renders_list hs h hpt hv
      (firm_elements hs (Draws.clear_cons hv (h.not_named rfl)) items he)
  | .dict entries, h, hp, hpt, he, hv, ha => by
    obtain rfl := Option.some.inj ha
    rw [expr_eq_place rfl port k hp, parts, pairs_eq_row] at h
    exact renders_dict hs h hpt hv
      (firm_pairs hs (Draws.clear_cons hv (h.not_named rfl)) entries he)
  | .unsupported, h, hp, hpt, he, hv, ha => nomatch ha

theorem firm_arguments (hs : Sound L c all) {owner index : Nat} {visiting : List NodeId}
    (hv : q.Clear all (owner + 1) visiting) : (args : List Arg) → Arg.arePlain args = true →
    ∀ p ∈ Given.wires index (Arg.givens args), q.FirmPart style L c all w outer visiting owner p
  | [], _, _, hp => nomatch hp
  | .positional value :: args, he, p, hp => by
    obtain ⟨hev, hea⟩ := Bool.and_eq_true_iff.mp he
    rcases List.mem_cons.mp hp with rfl | hp
    · exact ⟨hev, fun _ ht => ht, fun hpart hk ha => renders_expr hs value hpart (.inl rfl)
        (port_lt hk _) hev (Draws.clear_mono hv hk) ha⟩
    · exact firm_arguments hs hv args hea p hp
  | .keyword name value :: args, he, p, hp => by
    obtain ⟨hev, hea⟩ := Bool.and_eq_true_iff.mp he
    rcases List.mem_cons.mp hp with rfl | hp
    · exact ⟨hev, fun _ ht => ht, fun hpart hk ha => renders_expr hs value hpart (.inl rfl)
        (port_lt hk _) hev (Draws.clear_mono hv hk) ha⟩
    · exact firm_arguments hs hv args hea p hp

theorem firm_elements (hs : Sound L c all) {owner index : Nat} {visiting : List NodeId}
    (hv : q.Clear all (owner + 1) visiting) : (items : List Expr) → Expr.arePlain items = true →
    ∀ p ∈ Display.elements index items, q.FirmPart style L c all w outer visiting owner p
  | [], _, _, hp => nomatch hp
  | item :: items, he, p, hp => by
    obtain ⟨hei, hes⟩ := Bool.and_eq_true_iff.mp he
    rcases List.mem_cons.mp hp with rfl | hp
    · exact ⟨hei, fun _ ht => ht, fun hpart hk ha => renders_expr hs item hpart (.inl rfl)
        (port_lt hk _) hei (Draws.clear_mono hv hk) ha⟩
    · exact firm_elements hs hv items hes p hp

theorem firm_pairs (hs : Sound L c all) {owner index : Nat} {visiting : List NodeId}
    (hv : q.Clear all (owner + 1) visiting) : (entries : List Pair) →
    Pair.arePlain entries = true → ∀ p ∈ Display.pairs index (entries.map Pair.parts),
      q.FirmPart style L c all w outer visiting owner p
  | [], _, _, hp => nomatch hp
  | .mk key value :: rest, he, p, hp => by
    obtain ⟨hepair, her⟩ := Bool.and_eq_true_iff.mp he
    obtain ⟨hek, hev⟩ := Bool.and_eq_true_iff.mp hepair
    rcases List.mem_cons.mp hp with rfl | hp
    · exact ⟨hek, fun _ ht => ht, fun hpart hk ha => renders_expr hs key hpart (.inl rfl)
        (port_lt hk _) hek (Draws.clear_mono hv hk) ha⟩
    · rcases List.mem_cons.mp hp with rfl | hp
      · exact ⟨hev, fun _ ht => ht, fun hpart hk ha => renders_expr hs value hpart (.inl rfl)
          (port_lt hk _) hev (Draws.clear_mono hv hk) ha⟩
      · exact firm_pairs hs hv rest her p hp
end

end Values

end Run

end ScopedFlow
