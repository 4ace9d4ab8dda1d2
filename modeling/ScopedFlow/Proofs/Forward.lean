import ScopedFlow.Proofs.LiteralTokens
import ScopedFlow.Source.Module

/-!
# Readers of expressions move forward

Every reader of expressions moves forward, if the reader of inner expressions does. Here are those
whose results hold no literals; for the others it is shown together with what they read.
-/

namespace ScopedFlow.Source
set_option synthInstance.maxSize 4000

/-- Wherever a reader goes through in a text, it moves forward and its result has a property. -/
def Yields {α : Type} (source : List Char) (Q : α → Prop) (p : Reader α) : Prop :=
  ∀ ⦃c a d⦄, c.rest <:+ source → p c = some (a, d) → (∃ w, c.Spans w d) ∧ Q a

namespace Yields

variable {α β : Type} {source : List Char} {Q : β → Prop} {R : α → Prop} {p : Reader α}

theorem of_moves [Moves p] (h : ∀ ⦃c a d⦄, c.rest <:+ source → p c = some (a, d) → R a) :
    Yields source R p :=
  fun _ _ _ hc hp => ⟨Moves.spans hp, h hc hp⟩

theorem moves {R : List Char → α → Prop} (h : ∀ source, Yields source (R source) p) :
    Moves p where
  spans c _ _ hp := (h c.rest List.suffix_rfl hp).1

theorem pure {b : β} (h : Q b) : Yields source Q (pure b) :=
  .of_moves fun _ _ _ _ hp => by
    cases hp
    exact h

theorem bind {f : α → Reader β} (hp : Yields source R p)
    (hf : ∀ a, R a → Yields source Q (f a)) : Yields source Q (p >>= f) := by
  intro c b d hc h
  obtain ⟨a, e, ha, h⟩ := Reader.bind_eq_some.mp h
  obtain ⟨⟨v, hv⟩, hR⟩ := hp hc ha
  obtain ⟨⟨w, hw⟩, hQ⟩ := hf a hR (hv.suffix hc) h
  exact ⟨⟨v ++ w, hv.trans hw⟩, hQ⟩

theorem seq {f : α → Reader β} [Moves p] (hf : ∀ a, Yields source Q (f a)) :
    Yields source Q (p >>= f) :=
  bind (R := fun _ => True) (.of_moves fun _ _ _ _ _ => trivial) fun a _ => hf a

theorem refuse : Yields source Q Reader.refuse := by
  intro c b d _ h
  cases h

theorem attempt (h : Yields source R p) : Yields source (fun o => ∀ a ∈ o, R a) p.attempt := by
  intro c o d hc ho
  rcases Reader.attempt_cases ho with ⟨r, rfl, hr⟩ | ⟨rfl, rfl⟩
  · obtain ⟨hspans, hR⟩ := h hc hr
    exact ⟨hspans, fun a ha => Option.some.inj ha ▸ hR⟩
  · exact ⟨⟨[], .refl c⟩, fun a ha => by cases ha⟩

theorem orElse {q q' : Reader β} (h : Yields source Q q) (h' : Yields source Q q') :
    Yields source Q (q <|> q') := by
  intro c b d hc hb
  rcases Reader.orElse_cases hb with hb | hb
  · exact h hc hb
  · exact h' hc hb

theorem repeated (h : Yields source R p) (fuel : Nat) :
    Yields source (fun l => ∀ a ∈ l, R a) (p.repeated fuel) := by
  induction fuel with
  | zero => exact pure (List.forall_mem_nil _)
  | succ fuel ih =>
    unfold Reader.repeated
    refine bind h.attempt fun next hnext => ?_
    split
    · exact pure (List.forall_mem_nil _)
    · exact bind ih fun l hl => pure (List.forall_mem_cons.mpr ⟨hnext _ rfl, hl⟩)

theorem follow? (ctx : Context) (h : Yields source R p) :
    Yields source (fun o => ∀ r ∈ o, R r.2) (Reader.follow? ctx p) := by
  unfold Reader.follow?
  exact attempt (seq fun found => bind h fun a ha => pure ha)

end Yields

section Items

variable {source : List Char} {R : Operand → Prop} {ctx : Context} {item : Reader Operand}

theorem yields_moreItems (hitem : Yields source R item) (fuel : Nat) {items : Items}
    (h : ∀ o ∈ items.operands, R o) :
    Yields source (fun items => ∀ o ∈ items.operands, R o)
      (Reader.moreItems item ctx fuel items) := by
  induction fuel generalizing items with
  | zero => exact .pure h
  | succ fuel ih =>
    unfold Reader.moreItems
    refine .seq fun comma => ?_
    split
    · exact .pure h
    · have hnext : Yields source (fun r : List String × Operand => R r.2)
          (do
            let before ← Reader.gap ctx true
            return (before, ← item)) :=
        .seq fun before => .bind hitem fun o ho => .pure ho
      refine .bind hnext.attempt fun next hnext => ?_
      split
      · exact .pure h
      · refine ih (List.forall_mem_append.mpr ⟨h, ?_⟩)
        exact List.forall_mem_singleton.mpr (hnext _ rfl)

theorem yields_itemsOf (hitem : Yields source R item) (fuel : Nat) :
    Yields source (fun items => ∀ o ∈ items.operands, R o) (Reader.itemsOf item ctx fuel) :=
  .bind hitem fun _ ho => yields_moreItems hitem fuel (List.forall_mem_singleton.mpr ho)

instance Moves.itemsOf [Moves item] (fuel : Nat) : Moves (Reader.itemsOf item ctx fuel) :=
  Yields.moves fun _ => yields_itemsOf (R := fun _ => True) (.of_moves fun _ _ _ _ _ => trivial) fuel

end Items

namespace Moves

section Expressions

variable (sub : ExprReader) [∀ level ctx, Moves (sub level ctx)] (ctx : Context) (fuel : Nat)

instance yielded : Moves (yielded fuel sub ctx) := by
  unfold Source.yielded
  infer_instance

instance comprehensionClause (head : Bool) : Moves (comprehensionClause fuel sub ctx head) := by
  unfold Source.comprehensionClause
  refine .seq fun _ => .seq fun clause => ?_
  split
  · infer_instance
  · dsimp only
    split <;> infer_instance

instance comprehension : Moves (comprehension fuel sub ctx) := by
  unfold Source.comprehension
  infer_instance

instance afterFirst (clauses : Reader Unit) [Moves clauses] (closing : String) :
    Moves (afterFirst clauses closing ctx) := by
  unfold Source.afterFirst
  refine .seq fun read => ?_
  split
  · infer_instance
  · refine .seq fun found => .seq fun comma => ?_
    split <;> infer_instance

instance emptyBraces : Moves (emptyBraces ctx) := by
  unfold Source.emptyBraces
  refine .seq fun comma => ?_
  split <;> infer_instance

instance formatSpec (inner : Reader Unit) [Moves inner] : Moves (formatSpec inner fuel) := by
  induction fuel with
  | zero => exact inferInstanceAs (Moves Reader.refuse)
  | succ fuel ih =>
    unfold Source.formatSpec
    refine .seq fun cs => ?_
    split <;> infer_instance

instance conversion : Moves conversion := by
  unfold Source.conversion
  refine .seq fun _ => .seq fun cs => ?_
  split <;> infer_instance

instance interpolation : Moves (interpolation sub fuel) := by
  induction fuel with
  | zero => exact inferInstanceAs (Moves Reader.refuse)
  | succ fuel ih =>
    unfold Source.interpolation
    refine .seq fun _ => .seq fun yields => ?_
    dsimp only
    split
    · refine .seq fun _ => .seq fun _ => .seq fun _ => .seq fun _ => .seq fun colon => ?_
      split <;> infer_instance
    · refine .seq fun _ => .seq fun _ => .seq fun _ => .seq fun colon => ?_
      split <;> infer_instance

instance comparisonOperator : Moves (comparisonOperator ctx) := by
  unfold Source.comparisonOperator
  refine .seq fun cs => ?_
  split <;> infer_instance

instance typeOf : Moves (typeOf sub ctx) := by
  unfold Source.typeOf
  refine .seq fun stars => ?_
  split <;> infer_instance

instance declaredType : Moves (declaredType sub ctx) := by
  unfold Source.declaredType
  infer_instance

instance defaultValue : Moves (defaultValue sub ctx) := by
  unfold Source.defaultValue
  infer_instance

variable [∀ ctx, Moves (roundBracket fuel sub ctx)]
  [∀ ctx calls start steps id, Moves (trailers fuel sub ctx calls start steps (.ofName id))]

instance starredParam (kind : ParamKind) : Moves (starredParam kind fuel sub ctx) := by
  unfold Source.starredParam
  infer_instance

instance parameter (typed : Bool) : Moves (parameter typed fuel sub ctx) := by
  unfold Source.parameter
  refine .seq fun cs => ?_
  split
  · infer_instance
  · refine .seq fun _ => .seq fun param => ?_
    split <;> infer_instance
  · infer_instance
  · infer_instance
  · refine .seq fun name => .seq fun _ => .seq fun value => ?_
    split <;> infer_instance

instance parameters (typed : Bool) (steps : Nat) :
    Moves (parameters typed fuel sub ctx steps) := by
  induction steps with
  | zero => exact inferInstanceAs (Moves (Pure.pure []))
  | succ steps ih =>
    unfold Source.parameters
    refine .seq fun param => ?_
    split
    · infer_instance
    · refine .seq fun comma => ?_
      split <;> infer_instance

end Expressions

end Moves

end ScopedFlow.Source
