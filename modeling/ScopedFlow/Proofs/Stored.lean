import ScopedFlow.Graph.Codec
import ScopedFlow.Proofs.JsonText

/-!
# Stored graphs are read back

A document of a graph loses nothing, as long as the worlds in it have names that are not changed by
trimming and are not reserved, and as the numbers are words. Every graph that was read from a text
is of this form.
-/

namespace ScopedFlow

variable {fields front : List (String × Json)} {name : String} {p : Payload} {n : Node} {e : Edge}
  {g : Graph}

namespace Text

/-- No blank stands at either end. -/
def Trimmed (cs : List Char) : Prop :=
  (∀ c ∈ cs.head?, isBlank c = false) ∧ ∀ c ∈ cs.getLast?, isBlank c = false

instance (cs : List Char) : Decidable (Trimmed cs) :=
  inferInstanceAs (Decidable (_ ∧ _))

theorem dropWhile_eq_self {cs : List Char} (h : ∀ c ∈ cs.head?, isBlank c = false) :
    cs.dropWhile isBlank = cs := by
  cases cs with
  | nil => rfl
  | cons c cs =>
    rw [List.dropWhile_cons, h c rfl]
    rfl

theorem trimChars_of_trimmed {cs : List Char} (h : Trimmed cs) : trimChars cs = cs := by
  have hlast : ∀ c ∈ cs.reverse.head?, isBlank c = false := by
    rw [List.head?_reverse]
    exact h.2
  rw [trimChars, dropWhile_eq_self h.1, dropWhile_eq_self hlast, List.reverse_reverse]

theorem head?_dropWhile (cs : List Char) :
    ∀ c ∈ (cs.dropWhile isBlank).head?, isBlank c = false := by
  intro c hc
  induction cs with
  | nil => cases hc
  | cons d cs ih =>
    rw [List.dropWhile_cons] at hc
    split at hc
    · exact ih hc
    · rename_i hd
      cases hc
      exact (Bool.not_eq_true _).mp hd

theorem trimmed_trimChars (cs : List Char) : Trimmed (trimChars cs) := by
  constructor
  · intro c hc
    have hprefix : trimChars cs <+: cs.dropWhile isBlank := by
      rw [trimChars, ← List.reverse_suffix, List.reverse_reverse]
      exact List.dropWhile_suffix isBlank
    obtain ⟨rest, hrest⟩ := hprefix
    apply head?_dropWhile cs c
    rw [← hrest, List.head?_append, Option.mem_def.mp hc]
    rfl
  · rw [trimChars, List.getLast?_reverse]
    exact head?_dropWhile _

end Text

/-- The name of a body is read back as the body. -/
def World.Storable : World → Prop
  | .body owner =>
    owner.text ≠ "" ∧ Text.Trimmed owner.text.toList ∧ owner.text ≠ rootText ∧
      owner.text ≠ importsText
  | _ => True

def VariableMode.Storable : VariableMode → Prop
  | .closureRead _ world => world.Storable
  | _ => True

def Payload.Storable : Payload → Prop
  | .variable v => v.mode.Storable ∧ v.version < versionLimit
  | .call site => ∀ w ∈ site.target, w.Storable
  | _ => True

def Node.Storable (n : Node) : Prop := n.world.Storable ∧ n.payload.Storable

def Edge.Storable (e : Edge) : Prop := ∀ i ∈ e.kind.index?, i < indexLimit

structure Graph.Storable (g : Graph) : Prop where
  nodes : ∀ n ∈ g.nodes, n.Storable
  edges : ∀ e ∈ g.edges, e.Storable

namespace World

variable {w : World}

theorem parse_text (h : w.Storable) : parse w.text = .ok w := by
  cases w with
  | root => rfl
  | imports => rfl
  | body owner =>
    obtain ⟨hne, htrim, hroot, himports⟩ := h
    have hname : Text.trim owner.text = owner.text := by
      rw [Text.trim, Text.trimChars_of_trimmed htrim, String.ofList_toList]
    simp only [parse, text, hname, if_neg hne, if_neg hroot, if_neg himports]

theorem storable_of_parse {s : String} (h : parse s = .ok w) : w.Storable := by
  simp only [parse] at h
  split at h
  · cases h
  · rename_i hne
    split at h
    · cases h
      exact trivial
    · rename_i hroot
      split at h
      · cases h
        exact trivial
      · rename_i himports
        cases h
        refine ⟨hne, ?_, hroot, himports⟩
        rw [Text.trim, String.toList_ofList]
        exact Text.trimmed_trimChars _

theorem ofJson?_toJson (h : w.Storable) : ofJson? w.toJson = some w := by
  simp only [ofJson?, toJson, Json.asString?, parse_text h]

theorem storable_of_ofJson? {v : Json} (h : ofJson? v = some w) : w.Storable := by
  unfold ofJson? at h
  split at h
  · split at h
    · rename_i hparse
      cases h
      exact storable_of_parse hparse
    · cases h
  · cases h

end World

namespace Json

theorem asList?_map {α : Type} {f : Json → Option α} {toJson : α → Json} {xs : List α}
    (h : ∀ x ∈ xs, f (toJson x) = some x) : asList? f (arr (xs.map toJson)) = some xs := by
  show (xs.map toJson).mapM f = some xs
  induction xs with
  | nil => rfl
  | cons x xs ih =>
    have hxs := ih fun y hy => h y (List.mem_cons_of_mem _ hy)
    rw [List.map_cons, List.mapM_cons, h x List.mem_cons_self, hxs]
    rfl

theorem mem_of_mapM {α β : Type} {f : α → Option β} {as : List α} {bs : List β}
    (h : as.mapM f = some bs) {b : β} (hb : b ∈ bs) : ∃ a ∈ as, f a = some b := by
  induction as generalizing bs with
  | nil =>
    cases h
    cases hb
  | cons a as ih =>
    rw [List.mapM_cons] at h
    obtain ⟨c, hc, h⟩ := Option.bind_eq_some_iff.mp h
    obtain ⟨cs, hcs, h⟩ := Option.bind_eq_some_iff.mp h
    cases h
    rcases List.mem_cons.mp hb with rfl | hb
    · exact ⟨a, List.mem_cons_self, hc⟩
    · obtain ⟨d, hd, hf⟩ := ih hcs hb
      exact ⟨d, List.mem_cons_of_mem _ hd, hf⟩

theorem asStrings?_strings (ss : List String) : asList? asString? (strings ss) = some ss :=
  asList?_map fun _ _ => rfl

end Json

theorem Param.ofJson?_toJson (p : Param) : ofJson? p.toJson = some p := by
  obtain ⟨name, opt, value, kind⟩ := p
  have hkind : ParamKind.ofJson? (.str kind.name) = some kind := ParamKind.ofName?_name kind
  cases value <;> by_cases hp : kind = .positional <;>
    simp [toJson, ofJson?, Json.field?, Json.requiredField, Json.optionalField, Json.unique,
      Json.asString?, Json.asBool?, Json.nullable, hp, hkind]

theorem asList?_params (ps : List Param) :
    Json.asList? Param.ofJson? (.arr (ps.map Param.toJson)) = some ps :=
  Json.asList?_map fun p _ => p.ofJson?_toJson

theorem VariableMode.ofJson?_toJson {m : VariableMode} (h : m.Storable) :
    ofJson? m.toJson = some m := by
  cases m with
  | param => rfl
  | write => rfl
  | closureRead origin world =>
    have hworld : World.ofJson? world.toJson = some world := World.ofJson?_toJson h
    simp [toJson, ofJson?, Json.asVariant?, closureRead?, Json.requiredField, Json.unique,
      NodeId.ofJson?, NodeId.toJson, Json.asString?, hworld]

namespace Overrides

theorem put_append {text : String} {es : List (String × String)} (h : ∀ e ∈ es, e.1 < name) :
    put name text es = es ++ [(name, text)] := by
  induction es with
  | nil => rfl
  | cons e es ih =>
    have he := h e List.mem_cons_self
    rw [put, if_neg (String.lt_asymm he), if_neg (String.ne_of_lt he).symm,
      ih fun d hd => h d (List.mem_cons_of_mem _ hd)]
    rfl

theorem ofList_entries (o : Overrides) : ofList o.entries = o := by
  have hfold : ∀ (es : List (String × String)) (p : Overrides),
      (p.entries ++ es).Pairwise (fun a b => a.1 < b.1) →
      (es.foldl (fun q e => q.insert e.1 e.2) p).entries = p.entries ++ es := by
    intro es
    induction es with
    | nil => exact fun p _ => (List.append_nil _).symm
    | cons e es ih =>
      intro p hp
      have hput : (p.insert e.1 e.2).entries = p.entries ++ [e] := by
        apply put_append
        intro d hd
        exact (List.pairwise_append.mp hp).2.2 d hd e List.mem_cons_self
      rw [List.foldl_cons, ih, hput, List.append_assoc]
      · rfl
      · rw [hput, List.append_assoc]
        exact hp
  have hentries : (ofList o.entries).entries = o.entries := hfold o.entries empty o.sorted
  cases o
  exact Overrides.mk.injEq .. ▸ hentries

theorem ofJson?_entries (o : Overrides) :
    ofJson? (.obj (o.entries.map fun e => (e.1, .str e.2))) = some o := by
  have hall : (o.entries.map fun e => (e.1, Json.str e.2)).mapM
      (fun f => (Json.asString? f.2).map fun text => (f.1, text)) = some o.entries := by
    induction o.entries with
    | nil => rfl
    | cons e es ih =>
      rw [List.map_cons, List.mapM_cons, ih]
      rfl
  rw [ofJson?, hall, Option.map_some, ofList_entries]

end Overrides

theorem Json.filter_of_notMem (h : name ∉ fields.map (·.1)) :
    fields.filter (fun f => f.1 = name) = [] := by
  apply List.filter_eq_nil_iff.mpr
  intro f hf hname
  exact h (of_decide_eq_true hname ▸ List.mem_map_of_mem hf)

theorem Json.unique_append_right (h : name ∉ front.map (·.1)) :
    unique (front ++ fields) name = unique fields name := by
  rw [unique, List.filter_append, filter_of_notMem h]
  rfl

theorem Json.unique_append_left (h : name ∉ fields.map (·.1)) :
    unique (front ++ fields) name = unique front name := by
  rw [unique, List.filter_append, filter_of_notMem h, List.append_nil]
  rfl

theorem Json.nullable_ofOption (text : Option String) :
    nullable asString? (ofOption .str text) = some text := by
  cases text <;> rfl

theorem Payload.ofFields?_append (kind : NodeKind)
    (hfront : front.map (·.1) = ["id", "label", "world", "kind"]) (fields : List (String × Json)) :
    ofFields? kind (front ++ fields) = ofFields? kind fields := by
  have hskip : ∀ name, name ∉ ["id", "label", "world", "kind"] →
      Json.unique (front ++ fields) name = Json.unique fields name := fun name hname =>
    Json.unique_append_right (hfront ▸ hname)
  cases kind <;> simp [ofFields?, Json.requiredField, Json.optionalField, hskip]

theorem Payload.ofFields?_fields (h : p.Storable) : ofFields? p.kind p.fields = some p := by
  cases p with
  | functionDef params =>
    simp [ofFields?, kind, fields, Json.optionalField, Json.unique, asList?_params]
  | classDef bases =>
    simp [ofFields?, kind, fields, Json.optionalField, Json.unique, Json.asStrings?_strings]
  | «variable» v =>
    have hmode : VariableMode.ofJson? v.mode.toJson = some v.mode := VariableMode.ofJson?_toJson h.1
    have hversion : Json.asNat? versionLimit (.nat v.version) = some v.version := if_pos h.2
    simp [ofFields?, kind, fields, Json.requiredField, Json.optionalField, Json.unique,
      Json.asBool?, hmode, hversion]
  | call site =>
    obtain ⟨isMethod, target, params, overrides⟩ := site
    have htarget : ∀ w, target = some w → Json.nullable World.ofJson? w.toJson = some (some w) := by
      intro w hw
      exact congrArg (Option.map some) (World.ofJson?_toJson (h w hw))
    have hoverrides := overrides.ofJson?_entries
    have hempty : overrides.isEmpty = true → .empty = overrides := by
      intro hnil
      cases overrides
      simp only [Overrides.isEmpty, List.isEmpty_iff] at hnil
      subst hnil
      rfl
    cases target <;> cases hnil : overrides.isEmpty <;>
      simp [ofFields?, kind, fields, Json.optionalField, Json.unique, Json.field?, Json.asBool?,
        Overrides.fields, asList?_params, hnil, hoverrides, htarget, hempty]
  | operator unary =>
    simp [ofFields?, kind, fields, Json.optionalField, Json.unique, Json.asBool?]
  | importStmt bindings =>
    simp [ofFields?, kind, fields, Json.optionalField, Json.unique, Json.asStrings?_strings]
  | forBlock target =>
    simp [ofFields?, kind, fields, Json.optionalField, Json.unique, Json.asString?]
  | exceptBlock exception binding =>
    simp [ofFields?, kind, fields, Json.optionalField, Json.unique, Json.nullable_ofOption]
  | _ => rfl

theorem Payload.names_fields (p : Payload) :
    ∀ name ∈ ["id", "label", "world", "kind"], name ∉ p.fields.map (·.1) := by
  cases p with
  | call site =>
    obtain ⟨isMethod, target, params, overrides⟩ := site
    cases target <;> cases hempty : overrides.isEmpty <;>
      simp [fields, Json.field?, Overrides.fields, hempty]
  | _ => simp [fields]

theorem Node.ofJson?_toJson (h : n.Storable) : ofJson? n.toJson = some n := by
  obtain ⟨id, label, world, payload⟩ := n
  have hworld : World.ofJson? world.toJson = some world := World.ofJson?_toJson h.1
  have hkind : NodeKind.ofJson? (.str payload.kind.name) = some payload.kind :=
    NodeKind.ofName?_name payload.kind
  have hpayload : Payload.ofFields? payload.kind ([("id", id.toJson), ("label", .str label),
      ("world", world.toJson), ("kind", .str payload.kind.name)] ++ payload.fields) = some payload :=
    (Payload.ofFields?_append _ rfl _).trans (Payload.ofFields?_fields h.2)
  have hown : ∀ name ∈ ["id", "label", "world", "kind"], ∀ front : List (String × Json),
      Json.unique (front ++ payload.fields) name = Json.unique front name := fun name hname front =>
    Json.unique_append_left (payload.names_fields name hname)
  simp only [ofJson?, toJson, kind, Json.requiredField, hown, List.mem_cons, true_or, or_true]
  simp only [Json.unique, List.filter_cons, List.filter_nil, String.reduceEq, decide_true,
    decide_false, if_true, Bool.false_eq_true, if_false, hkind, hworld, hpayload, bind, Option.bind]
  rfl

theorem Json.nullable_str (s : String) : nullable asString? (.str s) = some (some s) := rfl

theorem EdgeKind.ofFields?_fields {kind : EdgeKind} (h : ∀ i ∈ kind.index?, i < indexLimit)
    (source target : Json) : ofFields? ([("source", source), ("target", target),
      ("kind", .str kind.name)] ++ kind.fields) = some kind := by
  have hword : ∀ i, kind.index? = some i → Json.asNat? indexLimit (.nat i) = some i :=
    fun i hi => if_pos (h i hi)
  have hoptional : ∀ i, kind.index? = some i →
      Json.nullable (Json.asNat? indexLimit) (.nat i) = some (some i) := fun i hi =>
    congrArg (Option.map some) (hword i hi)
  cases kind with
  | argument index keyword =>
    cases index with
    | none =>
      cases keyword <;>
        simp [ofFields?, fields, name, nameOfJson?, Json.requiredField, Json.optionalField,
          Json.unique, Json.field?, Json.nullable_str]
    | some i =>
      have hi := hoptional i rfl
      cases keyword <;>
        simp [ofFields?, fields, name, nameOfJson?, Json.requiredField, Json.optionalField,
          Json.unique, Json.field?, Json.nullable_str, hi]
  | nextClause index =>
    cases index with
    | none =>
      simp [ofFields?, fields, name, nameOfJson?, Json.requiredField, Json.optionalField,
        Json.unique, Json.field?]
    | some i =>
      have hi := hoptional i rfl
      simp [ofFields?, fields, name, nameOfJson?, Json.requiredField, Json.optionalField,
        Json.unique, Json.field?, hi]
  | operand i | listElement i | dictKey i | dictValue i =>
    have hi := hword i rfl
    simp [ofFields?, fields, name, nameOfJson?, Json.requiredField, Json.unique, hi]
  | _ => simp [ofFields?, fields, name, nameOfJson?, Json.requiredField, Json.unique]

theorem EdgeKind.names_fields (kind : EdgeKind) :
    ∀ name ∈ ["source", "target"], name ∉ kind.fields.map (·.1) := by
  cases kind with
  | argument index keyword => cases index <;> cases keyword <;> simp [fields, Json.field?]
  | nextClause index => cases index <;> simp [fields, Json.field?]
  | _ => simp [fields]

theorem Edge.ofJson?_toJson (h : e.Storable) : ofJson? e.toJson = some e := by
  obtain ⟨source, target, kind⟩ := e
  have hkind := EdgeKind.ofFields?_fields h source.toJson target.toJson
  have hown : ∀ name ∈ ["source", "target"], ∀ front : List (String × Json),
      Json.unique (front ++ kind.fields) name = Json.unique front name := fun name hname front =>
    Json.unique_append_left (kind.names_fields name hname)
  simp only [ofJson?, toJson, Json.requiredField, hown, List.mem_cons, true_or, or_true, hkind]
  rfl

theorem Graph.ofJson?_toJson (h : g.Storable) : ofJson? g.toJson = some g := by
  have hnodes := Json.asList?_map fun n hn => Node.ofJson?_toJson (h.nodes n hn)
  have hedges := Json.asList?_map fun e he => Edge.ofJson?_toJson (h.edges e he)
  simp [ofJson?, toJson, Json.requiredField, Json.unique, hnodes, hedges]

namespace Json

variable {d : Nat}

/-- Nested at most `d` levels deep, and with numbers that have a size. -/
def Modest (d : Nat) (v : Json) : Prop := v.depth ≤ d ∧ v.isFinite = true

theorem Modest.mono {e : Nat} {v : Json} (h : Modest d v) (hde : d ≤ e) : Modest e v :=
  ⟨Nat.le_trans h.1 hde, h.2⟩

theorem modest_str (d : Nat) (s : String) : Modest d (.str s) := ⟨Nat.zero_le _, rfl⟩

theorem modest_bool (d : Nat) (b : Bool) : Modest d (.bool b) := ⟨Nat.zero_le _, rfl⟩

theorem pow_le_sub_pow {a b c : Nat} (hab : a ≤ b) (hbc : b < c) :
    Nat.pow 2 a ≤ Nat.pow 2 c - Nat.pow 2 b := by
  have hword : Nat.pow 2 a ≤ Nat.pow 2 b := Nat.pow_le_pow_right (by decide) hab
  have hdouble : Nat.pow 2 (b + 1) ≤ Nat.pow 2 c := Nat.pow_le_pow_right (by decide) hbc
  have hsucc : Nat.pow 2 (b + 1) = Nat.pow 2 b * 2 := rfl
  omega

theorem indexLimit_le_doubleLimit : indexLimit ≤ doubleLimit := by
  have hpow : indexLimit = Nat.pow 2 64 := by decide
  refine Nat.le_trans (Nat.le_of_eq hpow) ?_
  unfold doubleLimit
  generalize hc : 1024 = c
  generalize hb : 970 = b
  apply pow_le_sub_pow
  · omega
  · omega

theorem modest_nat (d : Nat) {n : Nat} (h : n < indexLimit) : Modest d (.nat n) := by
  constructor
  · exact Nat.zero_le _
  · rw [isFinite, decide_eq_true_eq]
    exact Nat.lt_of_lt_of_le h indexLimit_le_doubleLimit

theorem modest_ofOption (d : Nat) (text : Option String) : Modest d (ofOption .str text) := by
  cases text <;> exact ⟨Nat.zero_le _, rfl⟩

theorem modest_arr {items : List Json} (h : ∀ v ∈ items, Modest d v) :
    Modest (d + 1) (arr items) := by
  have hall : depthItems items ≤ d ∧ isFiniteItems items = true := by
    induction items with
    | nil => exact ⟨Nat.zero_le _, rfl⟩
    | cons v items ih =>
      obtain ⟨hdepth, hfinite⟩ := h v List.mem_cons_self
      obtain ⟨hdepths, hfinites⟩ := ih fun w hw => h w (List.mem_cons_of_mem _ hw)
      exact ⟨Nat.max_le.mpr ⟨hdepth, hdepths⟩, (Bool.and_eq_true _ _).mpr ⟨hfinite, hfinites⟩⟩
  exact ⟨Nat.succ_le_succ hall.1, hall.2⟩

theorem modest_obj (h : ∀ f ∈ fields, Modest d f.2) : Modest (d + 1) (obj fields) := by
  have hall : depthFields fields ≤ d ∧ isFiniteFields fields = true := by
    induction fields with
    | nil => exact ⟨Nat.zero_le _, rfl⟩
    | cons f fields ih =>
      obtain ⟨hdepth, hfinite⟩ := h f List.mem_cons_self
      obtain ⟨hdepths, hfinites⟩ := ih fun g hg => h g (List.mem_cons_of_mem _ hg)
      exact ⟨Nat.max_le.mpr ⟨hdepth, hdepths⟩, (Bool.and_eq_true _ _).mpr ⟨hfinite, hfinites⟩⟩
  exact ⟨Nat.succ_le_succ hall.1, hall.2⟩

theorem modest_map {α : Type} {toJson : α → Json} {xs : List α} (h : ∀ x ∈ xs, Modest d (toJson x)) :
    Modest (d + 1) (arr (xs.map toJson)) :=
  modest_arr (List.forall_mem_map.mpr h)

end Json

open Json

theorem Param.modest (p : Param) : Modest 1 p.toJson := by
  obtain ⟨name, opt, value, kind⟩ := p
  apply modest_obj
  cases value <;> by_cases hkind : kind = .positional <;>
    simp [field?, hkind, modest_str, modest_bool]

theorem VariableMode.modest (m : VariableMode) : Modest 2 m.toJson := by
  cases m with
  | param => exact modest_str ..
  | write => exact modest_str ..
  | closureRead origin world =>
    apply modest_obj
    intro f hf
    obtain rfl := List.mem_singleton.mp hf
    apply modest_obj
    simp [NodeId.toJson, World.toJson, modest_str]

theorem Payload.modest_fields (h : p.Storable) : ∀ f ∈ p.fields, Modest 2 f.2 := by
  have hparams : ∀ params : List Param, Modest 2 (.arr (params.map Param.toJson)) := fun params =>
    modest_map fun p _ => p.modest
  have hstrings : ∀ ss : List String, Modest 2 (strings ss) := fun ss =>
    modest_map fun s _ => modest_str 1 s
  cases p with
  | «variable» v =>
    have hlimit : versionLimit ≤ indexLimit := by decide
    have hversion := modest_nat 2 (Nat.lt_of_lt_of_le h.2 hlimit)
    simp [fields, v.mode.modest, hversion, modest_bool]
  | call site =>
    obtain ⟨isMethod, target, params, overrides⟩ := site
    have hoverrides : Modest 2 (.obj (overrides.entries.map fun e => (e.1, .str e.2))) := by
      apply modest_obj
      exact List.forall_mem_map.mpr fun e _ => modest_str 1 e.2
    cases target <;> cases hempty : overrides.isEmpty <;>
      simp [fields, field?, Overrides.fields, World.toJson, modest_bool, modest_str, hparams,
        hempty, hoverrides]
  | exceptBlock exception binding => simp [fields, modest_ofOption]
  | _ => simp [fields, hparams, hstrings, modest_bool, modest_str]

theorem Node.modest (h : n.Storable) : Modest 3 n.toJson := by
  apply modest_obj
  refine List.forall_mem_append.mpr ⟨?_, ?_⟩
  · simp [NodeId.toJson, World.toJson, modest_str]
  · exact Payload.modest_fields h.2

theorem Edge.modest (h : e.Storable) : Modest 1 e.toJson := by
  have hindex : ∀ i, e.kind.index? = some i → Modest 0 (.nat i) := fun i hi => modest_nat 0 (h i hi)
  obtain ⟨source, target, kind⟩ := e
  apply modest_obj
  refine List.forall_mem_append.mpr ⟨?_, ?_⟩
  · simp [NodeId.toJson, modest_str]
  · cases kind with
    | argument index keyword =>
      cases index <;> cases keyword <;> simp [EdgeKind.fields, field?, modest_str]
      all_goals exact hindex _ rfl
    | nextClause index =>
      cases index <;> simp [EdgeKind.fields, field?]
      exact hindex _ rfl
    | operand i | listElement i | dictKey i | dictValue i =>
      simpa [EdgeKind.fields] using hindex i rfl
    | _ => simp [EdgeKind.fields]

theorem Graph.modest (h : g.Storable) :
    Modest 4 (.arr (g.nodes.map Node.toJson)) ∧ Modest 4 (.arr (g.edges.map Edge.toJson)) := by
  constructor
  · exact modest_map fun n hn => Node.modest (h.nodes n hn)
  · exact modest_map fun e he => (Edge.modest (h.edges e he)).mono (by decide)

theorem Graph.parse_print_of_storable (h : g.Storable) : Graph.parse g.print = some g := by
  obtain ⟨hnodes, hedges⟩ := Graph.modest h
  have hparse : Json.parse g.print = some g.toJson := by
    apply parse_pretty
    refine (modest_obj (d := 4) ?_).2
    simp [hnodes, hedges]
  have hlimit : 4 + 1 ≤ depthLimit := by decide
  have hwithin : ∀ v, Modest 4 v → withinLimits v = true := by
    intro v hv
    exact (Bool.and_eq_true _ _).mpr
      ⟨decide_eq_true (Nat.le_trans (Nat.succ_le_succ hv.1) hlimit), hv.2⟩
  have hkept : (Graph.kept g.toJson).all withinLimits = true := by
    simp [Graph.kept, toJson, hwithin _ hnodes, hwithin _ hedges]
  simp only [Graph.parse, hparse, hkept, if_true]
  exact Graph.ofJson?_toJson h

namespace Json

variable {v : Json}

theorem of_requiredField {α : Type} {f : Json → Option α} {a : α}
    (h : requiredField f fields name = some a) : ∃ v, f v = some a := by
  unfold requiredField at h
  split at h
  · exact ⟨_, h⟩
  · cases h

theorem of_optionalField {α : Type} {f : Json → Option α} {missing : α} {a : α}
    (h : optionalField f missing fields name = some a) : a = missing ∨ ∃ v, f v = some a := by
  unfold optionalField at h
  split at h
  · exact .inr ⟨_, h⟩
  · exact .inl (Option.some.inj h).symm
  · cases h

theorem of_nullable {α : Type} {f : Json → Option α} {a : α} (h : nullable f v = some (some a)) :
    f v = some a := by
  unfold nullable at h
  split at h
  · cases h
  · obtain ⟨b, hb, hab⟩ := Option.map_eq_some_iff.mp h
    rw [hb, hab]

theorem lt_of_asNat? {limit n : Nat} (h : asNat? limit v = some n) : n < limit := by
  unfold asNat? at h
  split at h
  · split at h
    · cases h
      assumption
    · cases h
  · cases h

theorem of_mem_asList? {α : Type} {f : Json → Option α} {xs : List α} (h : asList? f v = some xs)
    {x : α} (hx : x ∈ xs) : ∃ w, f w = some x := by
  unfold asList? at h
  split at h
  · obtain ⟨w, -, hw⟩ := mem_of_mapM h hx
    exact ⟨w, hw⟩
  · cases h

end Json

theorem VariableMode.storable_of_ofJson? {v : Json} {m : VariableMode} (h : ofJson? v = some m) :
    m.Storable := by
  cases m with
  | param => exact trivial
  | write => exact trivial
  | closureRead origin world =>
    have hread : ∃ content, closureRead? content = some (.closureRead origin world) := by
      unfold ofJson? at h
      split at h
      · split at h
        · split at h <;> cases h
        · split at h
          · split at h <;> cases h
          · split at h
            · exact ⟨_, h⟩
            · cases h
      · cases h
    obtain ⟨content, hcontent⟩ := hread
    unfold closureRead? at hcontent
    split at hcontent
    · obtain ⟨o, -, hcontent⟩ := Option.bind_eq_some_iff.mp hcontent
      obtain ⟨w, hw, hcontent⟩ := Option.bind_eq_some_iff.mp hcontent
      cases hcontent
      obtain ⟨u, hu⟩ := of_requiredField hw
      exact World.storable_of_ofJson? hu
    · obtain ⟨o, -, hcontent⟩ := Option.bind_eq_some_iff.mp hcontent
      obtain ⟨w, hw, hcontent⟩ := Option.bind_eq_some_iff.mp hcontent
      cases hcontent
      exact World.storable_of_ofJson? hw
    · cases hcontent

theorem Payload.storable_of_ofFields? {kind : NodeKind} (h : ofFields? kind fields = some p) :
    p.Storable := by
  cases kind with
  | «variable» =>
    obtain ⟨mode, hmode, h⟩ := Option.bind_eq_some_iff.mp h
    obtain ⟨version, hversion, h⟩ := Option.bind_eq_some_iff.mp h
    obtain ⟨opt, -, h⟩ := Option.bind_eq_some_iff.mp h
    cases h
    obtain ⟨v, hv⟩ := of_requiredField hmode
    refine ⟨VariableMode.storable_of_ofJson? hv, ?_⟩
    rcases of_optionalField hversion with rfl | ⟨v, hv⟩
    · exact (by decide : 0 < versionLimit)
    · exact lt_of_asNat? hv
  | call =>
    obtain ⟨isMethod, -, h⟩ := Option.bind_eq_some_iff.mp h
    obtain ⟨target, htarget, h⟩ := Option.bind_eq_some_iff.mp h
    obtain ⟨params, -, h⟩ := Option.bind_eq_some_iff.mp h
    obtain ⟨overrides, -, h⟩ := Option.bind_eq_some_iff.mp h
    cases h
    rintro w rfl
    rcases of_optionalField htarget with hnone | ⟨v, hv⟩
    · cases hnone
    · exact World.storable_of_ofJson? (of_nullable hv)
  | exceptBlock =>
    obtain ⟨exception, -, h⟩ := Option.bind_eq_some_iff.mp h
    obtain ⟨binding, -, h⟩ := Option.bind_eq_some_iff.mp h
    cases h
    exact trivial
  | functionDef | classDef | operator | importStmt | forBlock =>
    obtain ⟨content, -, h⟩ := Option.bind_eq_some_iff.mp h
    cases h
    exact trivial
  | _ =>
    cases h
    exact trivial

theorem Node.storable_of_ofJson? {v : Json} (h : ofJson? v = some n) : n.Storable := by
  unfold ofJson? at h
  split at h
  · obtain ⟨id, -, h⟩ := Option.bind_eq_some_iff.mp h
    obtain ⟨label, -, h⟩ := Option.bind_eq_some_iff.mp h
    obtain ⟨world, hworld, h⟩ := Option.bind_eq_some_iff.mp h
    obtain ⟨kind, -, h⟩ := Option.bind_eq_some_iff.mp h
    obtain ⟨payload, hpayload, h⟩ := Option.bind_eq_some_iff.mp h
    cases h
    obtain ⟨w, hw⟩ := of_requiredField hworld
    exact ⟨World.storable_of_ofJson? hw, Payload.storable_of_ofFields? hpayload⟩
  · cases h

theorem eq_of_ite {α : Type} {c : Prop} [Decidable c] {a b r : α} (h : (if c then a else b) = r) :
    a = r ∨ b = r := by
  split at h
  · exact .inl h
  · exact .inr h

theorem EdgeKind.index_lt_of_ofFields? {kind : EdgeKind} (h : ofFields? fields = some kind) :
    ∀ i ∈ kind.index?, i < indexLimit := by
  have hrequired : ∀ {make : Nat → EdgeKind}, (∀ i, (make i).index? = some i) →
      (requiredField (asNat? indexLimit) fields "index").bind (fun i => some (make i)) = some kind →
      ∀ i ∈ kind.index?, i < indexLimit := by
    intro make hmake hkind i hi
    obtain ⟨j, hj, hkind⟩ := Option.bind_eq_some_iff.mp hkind
    cases hkind
    rw [hmake] at hi
    cases hi
    obtain ⟨v, hv⟩ := of_requiredField hj
    exact lt_of_asNat? hv
  have hoptional : ∀ {index},
      optionalField (nullable (asNat? indexLimit)) none fields "index" = some index →
      ∀ i ∈ index, i < indexLimit := by
    rintro index hindex i rfl
    rcases of_optionalField hindex with hnone | ⟨v, hv⟩
    · cases hnone
    · exact lt_of_asNat? (of_nullable hv)
  have hnone : ∀ {k : EdgeKind}, k.index? = none → some k = some kind →
      ∀ i ∈ kind.index?, i < indexLimit := by
    rintro k hk ⟨⟩ i hi
    rw [hk] at hi
    cases hi
  obtain ⟨name, -, h⟩ := Option.bind_eq_some_iff.mp h
  rcases eq_of_ite h with h | h
  · obtain ⟨index, hindex, h⟩ := Option.bind_eq_some_iff.mp h
    obtain ⟨keyword, -, h⟩ := Option.bind_eq_some_iff.mp h
    cases h
    exact hoptional hindex
  rcases eq_of_ite h with h | h
  · exact hrequired (fun _ => rfl) h
  rcases eq_of_ite h with h | h
  · exact hnone rfl h
  rcases eq_of_ite h with h | h
  · exact hnone rfl h
  rcases eq_of_ite h with h | h
  · exact hrequired (fun _ => rfl) h
  rcases eq_of_ite h with h | h
  · exact hrequired (fun _ => rfl) h
  rcases eq_of_ite h with h | h
  · exact hrequired (fun _ => rfl) h
  rcases eq_of_ite h with h | h
  · exact hnone rfl h
  rcases eq_of_ite h with h | h
  · exact hnone rfl h
  rcases eq_of_ite h with h | h
  · exact hnone rfl h
  rcases eq_of_ite h with h | h
  · exact hnone rfl h
  rcases eq_of_ite h with h | h
  · obtain ⟨index, hindex, h⟩ := Option.bind_eq_some_iff.mp h
    cases h
    exact hoptional hindex
  rcases eq_of_ite h with h | h
  · exact hnone rfl h
  · cases h

theorem Edge.storable_of_ofJson? {v : Json} (h : ofJson? v = some e) : e.Storable := by
  unfold ofJson? at h
  split at h
  · obtain ⟨source, -, h⟩ := Option.bind_eq_some_iff.mp h
    obtain ⟨target, -, h⟩ := Option.bind_eq_some_iff.mp h
    obtain ⟨kind, hkind, h⟩ := Option.bind_eq_some_iff.mp h
    cases h
    exact EdgeKind.index_lt_of_ofFields? hkind
  · cases h

theorem Graph.storable_of_ofJson? {v : Json} (h : ofJson? v = some g) : g.Storable := by
  have hlists : ∃ ns es, asList? Node.ofJson? ns = some g.nodes ∧
      asList? Edge.ofJson? es = some g.edges := by
    unfold ofJson? at h
    split at h
    · obtain ⟨nodes, hnodes, h⟩ := Option.bind_eq_some_iff.mp h
      obtain ⟨edges, hedges, h⟩ := Option.bind_eq_some_iff.mp h
      cases h
      obtain ⟨ns, hns⟩ := of_requiredField hnodes
      obtain ⟨es, hes⟩ := of_requiredField hedges
      exact ⟨ns, es, hns, hes⟩
    · obtain ⟨nodes, hnodes, h⟩ := Option.bind_eq_some_iff.mp h
      obtain ⟨edges, hedges, h⟩ := Option.bind_eq_some_iff.mp h
      cases h
      exact ⟨_, _, hnodes, hedges⟩
    · cases h
  obtain ⟨ns, es, hnodes, hedges⟩ := hlists
  constructor
  · intro n hn
    obtain ⟨w, hw⟩ := of_mem_asList? hnodes hn
    exact Node.storable_of_ofJson? hw
  · intro e he
    obtain ⟨w, hw⟩ := of_mem_asList? hedges he
    exact Edge.storable_of_ofJson? hw

theorem Graph.storable_of_parse {text : String} (h : Graph.parse text = some g) : g.Storable := by
  unfold Graph.parse at h
  split at h
  · split at h
    · exact Graph.storable_of_ofJson? h
    · cases h
  · cases h

/-- A graph is read back from its text exactly if its worlds and numbers can be stored. A graph that
was read from some text is such a graph, so storing it again changes neither it nor its text. -/
theorem Graph.parse_print (g : Graph) :
    (Graph.parse g.print = some g ↔ g.Storable) ∧
      ∀ text, Graph.parse text = some g →
        Graph.parse g.print = some g ∧ (Graph.parse g.print).map Graph.print = some g.print := by
  constructor
  · exact ⟨Graph.storable_of_parse, Graph.parse_print_of_storable⟩
  · intro text htext
    have hparse := Graph.parse_print_of_storable (Graph.storable_of_parse htext)
    rw [hparse]
    exact ⟨rfl, rfl⟩

/-- A graph with a stand-in, a linked call with an override, characters that need an escape, the
largest index and ids that would be no worlds. It is also read from a text in another layout, with
blanks around a world and a kind by its position. -/
theorem Graph.parse_print_escaped :
    let owner : NodeId := ⟨"f g"⟩
    let g : Graph := ⟨[⟨owner, "\"\\\n\x01é", .root, .functionDef [.separator .positionalOnly]⟩,
        ⟨⟨"root"⟩, "x", .body owner, .variable (.closureRead ⟨""⟩ (.body owner))⟩,
        ⟨⟨" c"⟩, "f", .imports, .call ⟨false, some (.body owner), [.withDefault "a" "1"],
          Overrides.empty.insert "a" "'\t'"⟩⟩],
      [⟨⟨" c"⟩, owner, .argument (some 18446744073709551615) (some "k")⟩]⟩
    let h : Graph := ⟨[⟨⟨"n"⟩, "x", .body owner, .literal⟩], []⟩
    let text := "[[\x7b\"kind\": 4, \"world\":\" f\\u0020g\\t\", \"id\":\"n\", \"label\":\"x\"\x7d], []]"
    g.Storable ∧ Graph.parse g.print = some g ∧ text ≠ h.print ∧ Graph.parse text = some h ∧
      Graph.parse h.print = some h := by
  intro owner g h text
  have hchars : owner.text.toList = ['f', ' ', 'g'] := by decide +kernel
  have htrimmed : Text.Trimmed owner.text.toList := by
    rw [hchars]
    constructor <;> intro c hc <;> cases hc <;> rfl
  have howner : (World.body owner).Storable := ⟨by decide, htrimmed, by decide, by decide⟩
  have hg : g.Storable := by
    constructor
    · simpa [g, Node.Storable, Payload.Storable, VariableMode.Storable, Variable.closureRead,
        World.Storable, versionLimit] using howner
    · simp [g, Edge.Storable, EdgeKind.index?, indexLimit]
  have htext : Graph.parse text = some h := by decide +kernel
  exact ⟨hg, (Graph.parse_print g).1.mpr hg, by decide +kernel, htext,
    ((Graph.parse_print h).2 text htext).1⟩

end ScopedFlow
