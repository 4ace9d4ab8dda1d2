import ScopedFlow.Proofs.Forward
import ScopedFlow.Proofs.LiteralNodes

/-!
# Literals of a tree stand in its text

Every literal of a module that was read has one of the forms of literals, and its text is a part of
the text of the module.
-/

namespace ScopedFlow

def Literal.StandsIn (source : List Char) (text : String) : Prop :=
  ∃ f : Literal.Form, f.text = text ∧ f.chars <:+: source

def Expr.Within (source : List Char) (e : Expr) : Prop :=
  ∀ t ∈ e.literals, Literal.StandsIn source t

def Arg.Within (source : List Char) : Arg → Prop
  | .positional value | .keyword _ value => value.Within source
  | .unpacked => True

def Pair.Within (source : List Char) : Pair → Prop
  | .mk key value => key.Within source ∧ value.Within source

section Trees

variable {source : List Char} {e : Expr} {args : List Arg}

theorem Expr.within_unsupported : Expr.unsupported.Within source := by
  intro t ht
  cases ht

theorem Expr.within_name (id : String) : (Expr.name id).Within source := by
  intro t ht
  cases ht

theorem Expr.within_literal {text : String} (h : Literal.StandsIn source text) :
    (Expr.literal text).Within source := by
  intro t ht
  rw [List.mem_singleton.mp ht]
  exact h

theorem Expr.within_unary (op : String) (h : e.Within source) : (Expr.unary op e).Within source := h

theorem Expr.within_attribute (name : String) (h : e.Within source) :
    (Expr.attribute e name).Within source := h

theorem Expr.within_binary {a b : Expr} (op : String) (ha : a.Within source)
    (hb : b.Within source) : (Expr.binary op a b).Within source :=
  List.forall_mem_append.mpr ⟨ha, hb⟩

theorem Expr.within_subscript {a b : Expr} (ha : a.Within source) (hb : b.Within source) :
    (Expr.subscript a b).Within source :=
  List.forall_mem_append.mpr ⟨ha, hb⟩

theorem Arg.within_all (h : ∀ a ∈ args, a.Within source) :
    ∀ t ∈ Arg.allLiterals args, Literal.StandsIn source t := by
  induction args with
  | nil => exact List.forall_mem_nil _
  | cons a args ih =>
    obtain ⟨ha, hargs⟩ := List.forall_mem_cons.mp h
    cases a with
    | positional value | keyword _ value => exact List.forall_mem_append.mpr ⟨ha, ih hargs⟩
    | unpacked => exact ih hargs

theorem Expr.within_call (callee : String) (h : ∀ a ∈ args, a.Within source) :
    (Expr.call callee args).Within source :=
  Arg.within_all h

theorem Expr.within_methodCall (method : String) (he : e.Within source)
    (h : ∀ a ∈ args, a.Within source) : (Expr.methodCall e method args).Within source :=
  List.forall_mem_append.mpr ⟨he, Arg.within_all h⟩

theorem Expr.within_list {items : List Expr} (h : ∀ e ∈ items, e.Within source) :
    (Expr.list items).Within source := by
  change ∀ t ∈ Expr.allLiterals items, _
  induction items with
  | nil => exact List.forall_mem_nil _
  | cons e items ih =>
    obtain ⟨he, hitems⟩ := List.forall_mem_cons.mp h
    exact List.forall_mem_append.mpr ⟨he, ih hitems⟩

theorem Expr.within_dict {pairs : List Pair} (h : ∀ p ∈ pairs, p.Within source) :
    (Expr.dict pairs).Within source := by
  change ∀ t ∈ Pair.allLiterals pairs, _
  induction pairs with
  | nil => exact List.forall_mem_nil _
  | cons p pairs ih =>
    obtain ⟨hp, hpairs⟩ := List.forall_mem_cons.mp h
    obtain ⟨key, value⟩ := p
    exact List.forall_mem_append.mpr ⟨List.forall_mem_append.mpr hp, ih hpairs⟩

end Trees

namespace Source

def Operand.Within (source : List Char) (o : Operand) : Prop := o.expr.Within source

/-- An operand that is more than a number. -/
def Operand.Composed (source : List Char) (o : Operand) : Prop :=
  o.Within source ∧ o.form ≠ .number

def Items.Within (source : List Char) (items : Items) : Prop :=
  ∀ o ∈ items.operands, o.Within source

theorem Items.within_value {source : List Char} {items : Items} (h : items.Within source) :
    items.value.Within source := by
  unfold Items.value
  split
  · rename_i item hoperands _
    exact h item (hoperands ▸ List.mem_singleton_self item)
  · exact Expr.within_unsupported

section Items

variable {source : List Char} {ctx : Context} {item : Reader Operand}

/-- The literals of the items of a bracket; a continuation is an item without any. -/
def WithinItems (source : List Char) (items : List (Option Operand)) : Prop :=
  ∀ e ∈ itemExprs items, e.Within source

theorem withinItems_gaps (found : List String) :
    WithinItems source (found.map fun _ => none) := by
  intro e he
  obtain ⟨-, rfl⟩ : found ≠ [] ∧ e = Expr.unsupported := by
    simpa [itemExprs] using he
  exact Expr.within_unsupported

theorem withinItems_append {items items' : List (Option Operand)} (h : WithinItems source items)
    (h' : WithinItems source items') : WithinItems source (items ++ items') := by
  unfold WithinItems itemExprs at *
  rw [List.map_append]
  exact List.forall_mem_append.mpr ⟨h, h'⟩

theorem withinItems_cons {o : Operand} {items : List (Option Operand)} (h : o.Within source)
    (h' : WithinItems source items) : WithinItems source (some o :: items) :=
  List.forall_mem_cons.mpr ⟨h, h'⟩

theorem yields_bracketTail (hitem : Yields source (Operand.Within source) item)
    (closing : String) (fuel : Nat) :
    Yields source (WithinItems source) (bracketTail item closing ctx fuel) := by
  induction fuel with
  | zero => exact .refuse
  | succ fuel ih =>
    unfold bracketTail
    refine .seq fun lead => .seq fun close => ?_
    split
    · exact .pure (withinItems_gaps lead)
    · refine .bind hitem fun o ho => .seq fun behind => .seq fun comma => ?_
      have hitems := withinItems_append (withinItems_gaps lead)
        (withinItems_cons ho (withinItems_gaps behind))
      split
      · exact .bind ih fun others hothers => .pure (withinItems_append hitems hothers)
      · exact .seq fun _ => .pure hitems

end Items

/-- A reader of operands that tells a number by its form: a number stands where it was read, and
nothing else does. -/
def TellsNumbers (source : List Char) (p : Reader Operand) : Prop :=
  ∀ ⦃c o d⦄, c.rest <:+ source → p c = some (o, d) →
    (∃ w, c.Spans w d) ∧ o.Composed source ∨
      ∃ n : Literal.Numeral, c.Spans n.chars d ∧ o = ⟨.literal (String.ofList n.chars), .number⟩

namespace TellsNumbers

variable {source : List Char} {p q : Reader Operand}

theorem of_yields (h : Yields source (Operand.Composed source) p) : TellsNumbers source p :=
  fun _ _ _ hc hp => .inl (h hc hp)

theorem yields (h : TellsNumbers source p) : Yields source (Operand.Within source) p := by
  intro c o d hc hp
  rcases h hc hp with ⟨hspans, ho⟩ | ⟨n, hspan, rfl⟩
  · exact ⟨hspans, ho.1⟩
  · exact ⟨⟨_, hspan⟩, Expr.within_literal ⟨.number n, rfl, hspan.isInfix hc⟩⟩

theorem orElse (h : TellsNumbers source p) (h' : TellsNumbers source q) :
    TellsNumbers source (p <|> q) := by
  intro c o d hc ho
  rcases Reader.orElse_cases ho with ho | ho
  · exact h hc ho
  · exact h' hc ho

end TellsNumbers

class SubReads (sub : ExprReader) : Prop where
  reads : ReadsExpressions sub
  within : ∀ {source : List Char} level ctx, Yields source (Operand.Within source) (sub level ctx)
  numbers : ∀ {source : List Char} ctx, TellsNumbers source (sub .unary ctx)

instance Moves.sub {sub : ExprReader} [SubReads sub] (level : Level) (ctx : Context) :
    Moves (sub level ctx) where
  spans _ _ _ h := (SubReads.within level ctx List.suffix_rfl h).1

section Operands

variable {source : List Char} {e : Expr}

theorem within_unsupported (form : Form) : Operand.Within source ⟨.unsupported, form⟩ :=
  Expr.within_unsupported

theorem composed_other (h : e.Within source) :
    Operand.Composed source ⟨e, .other⟩ := ⟨h, Form.noConfusion⟩

theorem composed_group (forms : List Form) (h : e.Within source) :
    Operand.Composed source ⟨e, .group forms⟩ := ⟨h, Form.noConfusion⟩

theorem composed_place (h : e.Within source) :
    Operand.Composed source ⟨e, .place⟩ := ⟨h, Form.noConfusion⟩

theorem composed_unsupported : Operand.Composed source .unsupported :=
  composed_other Expr.within_unsupported

theorem yields_word : Yields source (fun id => id.toList <:+: source) Reader.word := by
  have hleading : ∀ cs, leadingWord cs <+: cs := by
    intro cs
    unfold leadingWord
    split
    · exact List.nil_prefix
    · split
      · exact List.cons_prefix_cons.mpr ⟨rfl, List.takeWhile_prefix _⟩
      · exact List.nil_prefix
  refine .of_moves fun c id d hc h => ?_
  unfold Reader.word at h
  obtain ⟨cs, e, hrest, h⟩ := Reader.bind_eq_some.mp h
  cases hrest
  obtain ⟨_, e, hrequire, h⟩ := Reader.bind_eq_some.mp h
  obtain ⟨-, rfl⟩ := Reader.require_eq_some hrequire
  obtain ⟨_, e, hadvance, h⟩ := Reader.bind_eq_some.mp h
  cases h
  rw [String.toList_ofList]
  exact (hleading _).isInfix.trans hc.isInfix

theorem yields_nameOrConstant : Yields source (Operand.Composed source) nameOrConstant := by
  unfold nameOrConstant
  refine .bind yields_word fun id hid => ?_
  split
  · rename_i hconstant
    have hmem : id ∈ Literal.constants := List.mem_append_left ["..."] hconstant
    refine .pure (composed_other (Expr.within_literal ⟨.constant id hmem, ?_, hid⟩))
    exact String.ofList_toList
  · exact .seq fun _ => .pure ⟨Expr.within_name id, Form.noConfusion⟩

end Operands

section Expressions

variable {source : List Char} {sub : ExprReader} [SubReads sub] (ctx : Context) (fuel : Nat)
  {steps : Nat}

theorem yields_yielded : Yields source (Operand.Within source) (yielded fuel sub ctx) := by
  unfold yielded
  refine .seq fun _ => .seq fun delegated => ?_
  dsimp only
  split
  · exact .seq fun _ => .pure (within_unsupported _)
  · exact .pure (within_unsupported _)

theorem yields_element : Yields source (Operand.Within source) (element fuel sub ctx) := by
  unfold element
  refine .seq fun starred => ?_
  split
  · exact .seq fun _ => .seq fun operand => .pure (within_unsupported _)
  · exact .orElse (yields_yielded ctx fuel) (SubReads.within .full ctx)

theorem yields_roundBracket :
    Yields source (Operand.Composed source) (roundBracket fuel sub ctx) := by
  unfold roundBracket
  refine .seq fun _ => .seq fun lead => .seq fun close => ?_
  split
  · exact .pure (composed_group _ Expr.within_unsupported)
  · refine .bind (yields_element ctx.free fuel) fun first hfirst => .seq fun next => ?_
    split
    · exact .pure composed_unsupported
    · refine .pure (composed_group _ ?_)
      split
      · exact hfirst
      · exact Expr.within_unsupported
    · exact .bind (yields_bracketTail (yields_element ctx.free fuel) ")" fuel) fun others _ =>
        .pure (composed_group _ Expr.within_unsupported)

theorem yields_squareBracket :
    Yields source (Operand.Composed source) (squareBracket fuel sub ctx) := by
  have hgaps : ∀ found : List String, ∀ e ∈ found.map fun _ => Expr.unsupported,
      e.Within source := by
    intro found e he
    obtain ⟨_, -, rfl⟩ := List.mem_map.mp he
    exact Expr.within_unsupported
  unfold squareBracket
  refine .seq fun _ => .seq fun lead => .seq fun close => ?_
  split
  · exact .pure (composed_group _ (Expr.within_list (hgaps lead)))
  · refine .bind (yields_element ctx.free fuel) fun first hfirst => .seq fun next => ?_
    have hitems : ∀ found : List String,
        ∀ e ∈ lead.map (fun _ => Expr.unsupported) ++
          first.expr :: found.map fun _ => Expr.unsupported, e.Within source := fun found =>
      List.forall_mem_append.mpr
        ⟨hgaps lead, List.forall_mem_cons.mpr ⟨hfirst, hgaps found⟩⟩
    split
    · exact .pure composed_unsupported
    · exact .pure (composed_group _ (Expr.within_list (hitems _)))
    · exact .bind (yields_bracketTail (yields_element ctx.free fuel) "]" fuel) fun others hothers =>
        .pure (composed_group _ (Expr.within_list
          (List.forall_mem_append.mpr ⟨hitems _, hothers⟩)))

theorem yields_entry :
    Yields source (fun pair => ∀ p ∈ pair.toList, p.Within source) (entry sub ctx) := by
  unfold entry
  refine .seq fun stars => ?_
  split
  · exact .seq fun _ => .seq fun _ => .pure (List.forall_mem_nil _)
  · exact .bind (SubReads.within .full ctx) fun key hkey => .seq fun _ => .seq fun _ => .seq fun _ =>
      .bind (SubReads.within .full ctx) fun value hvalue =>
        .pure (List.forall_mem_singleton.mpr ⟨hkey, hvalue⟩)

theorem yields_entriesTail :
    Yields source (fun pairs => ∀ p ∈ pairs, p.Within source) (entriesTail sub ctx fuel) := by
  induction fuel with
  | zero => exact .refuse
  | succ fuel ih =>
    unfold entriesTail
    refine .seq fun _ => .seq fun close => ?_
    split
    · exact .pure (List.forall_mem_nil _)
    · refine .bind (yields_entry ctx) fun pair hpair => .seq fun _ => .seq fun comma => ?_
      split
      · exact .bind ih fun others hothers => .pure (List.forall_mem_append.mpr ⟨hpair, hothers⟩)
      · exact .seq fun _ => .pure hpair

theorem yields_curlyBracket :
    Yields source (Operand.Composed source) (curlyBracket fuel sub ctx) := by
  have htail : Yields source (fun pairs => ∀ p ∈ pairs, p.Within source)
      (entriesTail sub ctx.free fuel) := yields_entriesTail ctx.free fuel
  unfold curlyBracket
  refine .seq fun _ => .seq fun _ => .seq fun empty => ?_
  split
  · exact .pure (composed_other (Expr.within_dict (List.forall_mem_nil _)))
  refine .seq fun stars => ?_
  split
  · refine .bind (yields_entry ctx.free) fun pair hpair => .seq fun next => ?_
    split
    · exact .pure composed_unsupported
    · exact .pure (composed_other (Expr.within_dict hpair))
    · exact .bind htail fun others hothers => .pure (composed_other
        (Expr.within_dict (List.forall_mem_append.mpr ⟨hpair, hothers⟩)))
  · refine .bind (yields_element ctx.free fuel) fun first hfirst => .seq fun colon => ?_
    split
    · refine .seq fun _ => .bind (SubReads.within .full ctx.free) fun value hvalue =>
        .seq fun next => ?_
      have hpair : ∀ p ∈ [Pair.mk first.expr value.expr], p.Within source :=
        List.forall_mem_singleton.mpr ⟨hfirst, hvalue⟩
      split
      · exact .pure composed_unsupported
      · exact .pure (composed_other (Expr.within_dict hpair))
      · exact .bind htail fun others hothers => .pure (composed_other
          (Expr.within_dict (List.forall_mem_append.mpr ⟨hpair, hothers⟩)))
    · refine .seq fun next => ?_
      split
      · exact .bind (yields_bracketTail (yields_element ctx.free fuel) "\x7d" fuel) fun _ _ =>
          .pure composed_unsupported
      · exact .pure composed_unsupported

theorem yields_argument : Yields source (Arg.Within source) (argument sub ctx) := by
  unfold argument
  refine .seq fun stars => ?_
  split
  · exact .seq fun _ => .seq fun _ => .pure trivial
  · refine .seq fun named => ?_
    split
    · exact .seq fun _ => .bind (SubReads.within .full ctx) fun value hvalue => .pure hvalue
    · exact .bind (SubReads.within .full ctx) fun value hvalue => .pure hvalue

theorem yields_writtenArg :
    Yields source (fun arg => arg.2.Within source) (writtenArg sub ctx) := by
  unfold writtenArg
  exact .seq fun _ => .bind (yields_argument ctx) fun arg harg => .seq fun _ => .pure harg

theorem within_gapArgs (found : List String) : ∀ arg ∈ gapArgs found, arg.2.Within source := by
  intro arg harg
  obtain ⟨_, -, rfl⟩ := List.mem_map.mp harg
  exact Expr.within_unsupported

theorem within_writtenArgs {arg : WrittenArg} (lead behind : List String)
    (h : arg.2.Within source) :
    ∀ a ∈ gapArgs lead ++ arg :: gapArgs behind, a.2.Within source :=
  List.forall_mem_append.mpr
    ⟨within_gapArgs lead, List.forall_mem_cons.mpr ⟨h, within_gapArgs behind⟩⟩

theorem yields_argumentsTail :
    Yields source (fun args => ∀ arg ∈ args, arg.2.Within source) (argumentsTail sub ctx fuel) := by
  induction fuel with
  | zero => exact .refuse
  | succ fuel ih =>
    unfold argumentsTail
    refine .seq fun lead => .seq fun close => ?_
    split
    · exact .pure (within_gapArgs lead)
    · refine .bind (yields_writtenArg ctx) fun arg harg => .seq fun behind =>
        .seq fun comma => ?_
      split
      · exact .bind ih fun others hothers => .pure
          (List.forall_mem_append.mpr ⟨within_writtenArgs lead behind harg, hothers⟩)
      · exact .seq fun _ => .pure (within_writtenArgs lead behind harg)

theorem yields_arguments :
    Yields source (fun args => ∀ arg ∈ args.getD [], arg.2.Within source)
      (arguments fuel sub ctx) := by
  unfold arguments
  refine .seq fun _ => .seq fun lead => .seq fun cs => ?_
  split
  · exact .seq fun _ => .pure (within_gapArgs lead)
  · exact .seq fun _ => .seq fun behind => .seq fun _ => .pure (within_gapArgs _)
  · refine .bind (yields_writtenArg ctx.free) fun first hfirst => .seq fun next => ?_
    split
    · exact .pure (List.forall_mem_nil _)
    · exact .pure (within_writtenArgs lead _ hfirst)
    · exact .bind (yields_argumentsTail ctx.free fuel) fun others hothers => .pure
        (List.forall_mem_append.mpr ⟨within_writtenArgs lead _ hfirst, hothers⟩)

instance Moves.arguments : Moves (arguments fuel sub ctx) :=
  Yields.moves fun _ => yields_arguments ctx fuel

theorem yields_subscriptKey :
    Yields source (Operand.Within source) (subscriptKey sub ctx) := by
  unfold subscriptKey
  refine .bind (SubReads.within .full ctx).attempt fun first hfirst => .seq fun sliced => ?_
  split
  · exact .pure (hfirst _ rfl)
  · exact .refuse
  · refine .seq fun _ => .seq fun step => ?_
    dsimp only
    split
    · exact .seq fun _ => .pure (within_unsupported _)
    · exact .pure (within_unsupported _)

theorem yields_subscriptKeys :
    Yields source (Expr.Within source) (subscriptKeys fuel sub ctx) := by
  unfold subscriptKeys
  refine .seq fun _ => .seq fun _ =>
    .bind (yields_itemsOf (yields_subscriptKey ctx.free) fuel) fun keys hkeys =>
      .seq fun _ => .seq fun _ => ?_
  split
  · rename_i key hoperands
    exact .pure (hkeys key (hoperands ▸ List.mem_singleton_self key))
  · exact .pure Expr.within_unsupported

theorem composed_callOf {operand : Operand} {args : List Arg} (label : String)
    (h : operand.Within source) (hargs : ∀ a ∈ args, a.Within source) :
    (callOf operand label args).Composed source := by
  unfold callOf
  split
  · rename_i object name _ hexpr
    have hobject : object.Within source := by
      unfold Operand.Within at h
      rw [hexpr] at h
      exact h
    exact composed_other (Expr.within_methodCall name hobject hargs)
  · exact composed_other (Expr.within_call label hargs)

theorem trailers_cases {calls : Bool} {start : Cursor} {operand o : Operand} {c d : Cursor}
    (hoperand : operand.Within source) (hc : c.rest <:+ source)
    (h : trailers fuel sub ctx calls start steps operand c = some (o, d)) :
    (∃ w, c.Spans w d) ∧ o.Composed source ∨ o = operand ∧ c = d := by
  induction steps generalizing operand c with
  | zero =>
    cases h
    exact .inr ⟨rfl, rfl⟩
  | succ steps ih =>
    unfold trailers at h
    obtain ⟨label, e, hlabel, h⟩ := Reader.bind_eq_some.mp h
    cases hlabel
    obtain ⟨next, e, hnext, h⟩ := Reader.bind_eq_some.mp h
    rcases Reader.attempt_cases hnext with ⟨r, rfl, hr⟩ | ⟨rfl, rfl⟩
    · obtain ⟨⟨w, hw⟩, hcomposed⟩ : (∃ w, c.Spans w e) ∧ r.Composed source := by
        revert hr
        refine (?_ : Yields source (Operand.Composed source) _) hc
        refine .seq fun _ => .seq fun cs => ?_
        split
        · exact .seq fun _ => .seq fun _ => .seq fun name =>
            .pure (composed_place (Expr.within_attribute name hoperand))
        · exact .bind (yields_subscriptKeys ctx fuel) fun key hkey =>
            .pure (composed_place (Expr.within_subscript hoperand hkey))
        · refine .seq fun _ => .bind (yields_arguments ctx fuel) fun args hargs => ?_
          refine .pure (composed_callOf _ hoperand fun a ha => ?_)
          obtain ⟨arg, harg, rfl⟩ := List.mem_map.mp ha
          exact hargs arg harg
        · exact .refuse
      rcases ih hcomposed.1 (hw.suffix hc) h with ⟨⟨v, hv⟩, ho⟩ | ⟨rfl, rfl⟩
      · exact .inl ⟨⟨_, hw.trans hv⟩, ho⟩
      · exact .inl ⟨⟨w, hw⟩, hcomposed⟩
    · cases h
      exact .inr ⟨rfl, rfl⟩

theorem yields_trailers {calls : Bool} {start : Cursor} {operand : Operand}
    (h : operand.Within source) :
    Yields source (Operand.Within source) (trailers fuel sub ctx calls start steps operand) := by
  intro c o d hc ho
  rcases trailers_cases ctx fuel h hc ho with ⟨hspans, ho⟩ | ⟨rfl, rfl⟩
  · exact ⟨hspans, ho.1⟩
  · exact ⟨⟨[], .refl c⟩, h⟩

theorem yields_stringLiteral :
    Yields source (Operand.Composed source) (stringLiteral fuel sub ctx) := by
  intro c o d hc h
  obtain ⟨first, others, hspan, rfl⟩ := stringLiteral_spans SubReads.reads h
  refine ⟨⟨_, hspan⟩, ?_⟩
  exact composed_other (Expr.within_literal ⟨.strings first others, rfl, hspan.isInfix hc⟩)

instance Moves.stringLiteral : Moves (stringLiteral fuel sub ctx) :=
  Yields.moves fun _ => yields_stringLiteral ctx fuel

theorem atom_tellsNumbers : TellsNumbers source (atom fuel sub ctx) := by
  intro c o d hc h
  unfold atom at h
  obtain ⟨cs, e, hrest, h⟩ := Reader.bind_eq_some.mp h
  cases hrest
  split at h
  · exact .inl (yields_stringLiteral ctx fuel hc h)
  split at h
  · rename_i hlength
    obtain ⟨start, e, hhere, h⟩ := Reader.bind_eq_some.mp h
    cases hhere
    obtain ⟨_, e, hadvance, h⟩ := Reader.bind_eq_some.mp h
    cases hadvance
    obtain ⟨text, e, hslice, h⟩ := Reader.bind_eq_some.mp h
    cases hslice
    cases h
    obtain ⟨n, hn⟩ := exists_numeral (Nat.ne_of_gt hlength)
    have hspan := hn ▸ Cursor.Spans.advance c (numberLength c.rest)
    exact .inr ⟨n, hspan, by rw [hspan.slice_eq]⟩
  · refine .inl ?_
    revert h
    refine (?_ : Yields source (Operand.Composed source) _) hc
    split
    · rename_i others hdots
      have hprefix : ['.', '.', '.'] <+: c.rest := ⟨others, hdots.symm⟩
      have hstands : Literal.StandsIn source "..." :=
        ⟨.constant "..." (by decide), rfl, hprefix.isInfix.trans hc.isInfix⟩
      exact .seq fun _ => .pure (composed_other (Expr.within_literal hstands))
    · exact yields_roundBracket ctx fuel
    · exact yields_squareBracket ctx fuel
    · exact yields_curlyBracket ctx fuel
    · exact yields_nameOrConstant

theorem yields_starredPlace :
    Yields source (Operand.Composed source) (starredPlace fuel sub ctx) := by
  unfold starredPlace
  refine .seq fun _ => .seq fun _ => .seq fun start =>
    .bind (atom_tellsNumbers ctx fuel).yields fun first hfirst =>
      .bind (yields_trailers ctx fuel hfirst) fun operand _ => ?_
  split
  · exact .pure ⟨Expr.within_unsupported, Form.noConfusion⟩
  · exact .pure ⟨Expr.within_unsupported, Form.noConfusion⟩
  · exact .refuse

theorem primary_tellsNumbers : TellsNumbers source (primary fuel sub ctx) := by
  have hfirst : TellsNumbers source (starredPlace fuel sub ctx <|> atom fuel sub ctx) :=
    .orElse (.of_yields (yields_starredPlace ctx fuel)) (atom_tellsNumbers ctx fuel)
  intro c o d hc h
  unfold primary at h
  obtain ⟨start, e, hhere, h⟩ := Reader.bind_eq_some.mp h
  cases hhere
  obtain ⟨operand, e, hoperand, h⟩ := Reader.bind_eq_some.mp h
  obtain ⟨⟨w, hw⟩, hwithin⟩ := hfirst.yields hc hoperand
  rcases trailers_cases ctx fuel hwithin (hw.suffix hc) h with ⟨⟨v, hv⟩, ho⟩ | ⟨rfl, rfl⟩
  · exact .inl ⟨⟨_, hw.trans hv⟩, ho⟩
  · exact hfirst hc hoperand

theorem power_tellsNumbers : TellsNumbers source (power fuel sub ctx) := by
  have hprimary : TellsNumbers source (primary fuel sub ctx) := primary_tellsNumbers ctx fuel
  intro c o d hc h
  unfold power at h
  obtain ⟨base, e, hbase, h⟩ := Reader.bind_eq_some.mp h
  obtain ⟨raised, e', hraised, h⟩ := Reader.bind_eq_some.mp h
  rcases Reader.attempt_cases hraised with ⟨exponent, rfl, hexponent⟩ | ⟨rfl, rfl⟩
  · cases h
    obtain ⟨⟨w, hw⟩, hwithin⟩ := hprimary.yields hc hbase
    obtain ⟨⟨v, hv⟩, hright⟩ : (∃ v, e.Spans v d) ∧ exponent.Within source := by
      revert hexponent
      refine (?_ : Yields source (Operand.Within source) _) (hw.suffix hc)
      exact .seq fun _ => .seq fun _ => .seq fun _ => .seq fun _ => .seq fun _ =>
        SubReads.within .unary ctx
    exact .inl ⟨⟨_, hw.trans hv⟩, composed_other (Expr.within_binary _ hwithin hright)⟩
  · cases h
    exact hprimary hc hbase

theorem awaited_tellsNumbers : TellsNumbers source (awaited fuel sub ctx) := by
  intro c o d hc h
  unfold awaited at h
  obtain ⟨operand, e, hoperand, h⟩ := Reader.bind_eq_some.mp h
  have hspans := Moves.spans hoperand
  rcases Reader.attempt_cases hoperand with ⟨r, rfl, -⟩ | ⟨rfl, rfl⟩
  · cases h
    exact .inl ⟨hspans, composed_unsupported⟩
  · exact power_tellsNumbers ctx fuel hc h

theorem signed_tellsNumbers : TellsNumbers source (signed fuel sub ctx) := by
  intro c o d hc h
  unfold signed at h
  obtain ⟨start, e, hhere, h⟩ := Reader.bind_eq_some.mp h
  cases hhere
  obtain ⟨cs, e, hrest, h⟩ := Reader.bind_eq_some.mp h
  cases hrest
  obtain ⟨rest, offset⟩ := c
  cases rest with
  | nil => cases h
  | cons sign cs =>
    dsimp only at h
    split at h
    · rename_i hsign
      refine .inl ?_
      obtain ⟨_, e, hadvance, h⟩ := Reader.bind_eq_some.mp h
      cases hadvance
      obtain ⟨found, e, hgap, h⟩ := Reader.bind_eq_some.mp h
      obtain ⟨operand, e', hoperand, h⟩ := Reader.bind_eq_some.mp h
      obtain ⟨w, hw, hgap⟩ := Reader.gap_spans hgap
      have he := hw.suffix ((Cursor.Spans.advance _ 1).suffix hc)
      have hadvance := Cursor.Spans.advance ⟨sign :: cs, offset⟩ 1
      rcases SubReads.numbers ctx he hoperand with ⟨⟨v, hv⟩, hcomposed⟩ | ⟨n, hn, rfl⟩
      · obtain ⟨expr, form⟩ := operand
        cases form with
        | number => exact absurd rfl hcomposed.2
        | _ =>
          cases h
          exact ⟨⟨_, hadvance.trans (hw.trans hv)⟩,
            composed_other (Expr.within_unary _ hcomposed.1)⟩
      · dsimp only at h
        split at h
        · cases h
          exact ⟨⟨_, hadvance.trans (hw.trans hn)⟩,
            composed_other (Expr.within_unary _ (SubReads.within .unary ctx he hoperand).2)⟩
        · rename_i htilde
          have hsign : sign = '+' ∨ sign = '-' := by grind
          have hspan : Cursor.Spans ⟨sign :: cs, offset⟩
            (Literal.Form.signed sign hsign ⟨w, hgap⟩ n).chars e' := .cons (hw.trans hn)
          obtain ⟨text, e, hslice, h⟩ := Reader.bind_eq_some.mp h
          cases hslice
          cases h
          refine ⟨⟨_, hspan⟩, composed_other (Expr.within_literal ⟨_, ?_, hspan.isInfix hc⟩)⟩
          exact hspan.slice_eq.symm
    · exact awaited_tellsNumbers ctx fuel hc h

theorem yields_operations {weakest : Nat} {left : Operand} (hleft : left.Within source) :
    Yields source (Operand.Within source) (operations fuel sub ctx steps weakest left) := by
  induction steps generalizing weakest left with
  | zero => exact .pure hleft
  | succ steps ih =>
    unfold operations
    refine @Yields.bind _ _ _ _ (fun r => ∀ a ∈ r, a.2.Within source) _ _ (.attempt ?_)
      fun next hnext => ?_
    · refine .seq fun _ => .seq fun cs => ?_
      split
      · exact .seq fun _ => .seq fun _ => .seq fun _ =>
          .bind (signed_tellsNumbers ctx fuel).yields fun right hright =>
            .bind (ih hright) fun o ho => .pure ho
      · exact .refuse
    · split
      · exact ih (Expr.within_binary _ hleft (hnext _ rfl))
      · exact .pure hleft

theorem yields_arithmetic : Yields source (Operand.Within source) (arithmetic fuel sub ctx) := by
  unfold arithmetic
  exact .bind (signed_tellsNumbers ctx fuel).yields fun _ h =>
    yields_operations ctx fuel h

theorem yields_comparison : Yields source (Operand.Within source) (comparison fuel sub ctx) := by
  have hstep : Yields source (fun r => r.2.2.Within source) (comparisonStep fuel sub ctx) := by
    unfold comparisonStep
    exact .seq fun _ => .seq fun _ => .seq fun _ =>
      .bind (yields_arithmetic ctx fuel) fun _ h => .pure h
  unfold comparison
  refine .bind (yields_arithmetic ctx fuel) fun left hleft =>
    .bind (hstep.repeated fuel) fun steps hsteps => ?_
  split
  · exact .pure hleft
  · exact .pure (Expr.within_binary _ hleft (hsteps _ (List.mem_singleton_self _)))
  · exact .pure (within_unsupported _)

instance Moves.roundBracket : Moves (roundBracket fuel sub ctx) :=
  Yields.moves fun _ => yields_roundBracket ctx fuel

instance Moves.trailers (calls : Bool) (start : Cursor) (id : String) :
    Moves (trailers fuel sub ctx calls start steps (.ofName id)) :=
  Yields.moves fun _ => yields_trailers ctx fuel (Expr.within_name id)

theorem yields_inversion : Yields source (Operand.Within source) (inversion fuel sub ctx) := by
  unfold inversion
  refine .seq fun cs => ?_
  split
  · exact .seq fun _ => .seq fun _ => .bind (SubReads.within .inversion ctx) fun o ho =>
      .pure (Expr.within_unary _ ho)
  · unfold anonymous
    exact .seq fun _ => .seq fun _ => .seq fun _ => .seq fun _ => .seq fun _ => .seq fun _ =>
      .pure (within_unsupported _)
  · refine .orElse ?_ (yields_comparison ctx fuel)
    unfold named
    exact .seq fun _ => .seq fun _ => .seq fun _ => .seq fun _ => .seq fun _ => .seq fun _ =>
      .pure (within_unsupported _)

theorem yields_wordChain {op : String} {operand : Reader Operand} {left : Operand}
    (h : Yields source (Operand.Within source) operand) (hleft : left.Within source) :
    Yields source (Operand.Within source) (wordChain op operand ctx steps left) := by
  induction steps generalizing left with
  | zero => exact .pure hleft
  | succ steps ih =>
    unfold wordChain
    refine .bind (.attempt (.seq fun _ => .seq fun _ => .seq fun _ => h)) fun next hnext => ?_
    split
    · exact ih (Expr.within_binary _ hleft (hnext _ rfl))
    · exact .pure hleft

theorem yields_disjunction : Yields source (Operand.Within source) (disjunction fuel sub ctx) := by
  have hinversion : Yields source (Operand.Within source) (inversion fuel sub ctx) :=
    yields_inversion ctx fuel
  have hconjunction : Yields source (Operand.Within source) (conjunction fuel sub ctx) := by
    unfold conjunction
    exact .bind hinversion fun _ h => yields_wordChain ctx hinversion h
  unfold disjunction
  exact .bind hconjunction fun _ h => yields_wordChain ctx hconjunction h

theorem yields_unconditional :
    Yields source (Operand.Within source) (unconditional fuel sub ctx) := by
  unfold unconditional
  refine .bind (yields_disjunction ctx fuel) fun value hvalue => .seq fun aliases => ?_
  split
  · exact .pure hvalue
  · exact .pure (within_unsupported _)

theorem yields_conditional : Yields source (Operand.Within source) (conditional fuel sub ctx) := by
  unfold conditional
  refine .bind (yields_unconditional ctx fuel) fun value hvalue => .seq fun test => ?_
  split
  · exact .pure hvalue
  · exact .seq fun _ => .seq fun _ => .seq fun _ => .seq fun _ => .seq fun _ => .seq fun _ =>
      .pure (within_unsupported _)

end Expressions

instance SubReads.expression (fuel : Nat) : SubReads (expression fuel) := by
  have hreads : ∀ fuel, ReadsExpressions (Source.expression fuel) := fun fuel _ _ _ => ⟨fuel, rfl⟩
  induction fuel with
  | zero => exact ⟨hreads 0, fun _ _ => .refuse, fun _ => .of_yields .refuse⟩
  | succ fuel ih =>
    refine ⟨hreads _, fun level ctx => ?_, fun ctx => signed_tellsNumbers ctx fuel⟩
    cases level with
    | full => exact yields_conditional ctx fuel
    | unconditional => exact yields_unconditional ctx fuel
    | disjunction => exact yields_disjunction ctx fuel
    | inversion => exact yields_inversion ctx fuel
    | unary => exact (signed_tellsNumbers ctx fuel).yields
    | primary => exact (primary_tellsNumbers ctx fuel).yields

instance SubReads.exprHere : SubReads exprHere where
  reads _ _ _ := ⟨_, rfl⟩
  within level ctx _ _ _ hc h := (SubReads.expression _).within level ctx hc h
  numbers ctx _ _ _ hc h := (SubReads.expression _).numbers ctx hc h

end Source

end ScopedFlow
