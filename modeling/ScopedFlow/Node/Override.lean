/-!
# Overrides

Texts that replace the arguments of a call, one for each parameter name, in the order of the names.
-/

namespace ScopedFlow

/-- A finite map from names to texts, kept in increasing order of the names. -/
structure Overrides where
  entries : List (String × String)
  sorted : entries.Pairwise fun a b => a.1 < b.1
  deriving DecidableEq, Repr

namespace Overrides

def empty : Overrides := ⟨[], List.Pairwise.nil⟩

def put (name text : String) : List (String × String) → List (String × String)
  | [] => [(name, text)]
  | e :: rest =>
    if name < e.1 then (name, text) :: e :: rest
    else if name = e.1 then (name, text) :: rest
    else e :: put name text rest

theorem mem_put {name text : String} {es : List (String × String)} {e : String × String}
    (h : e ∈ put name text es) : e.1 = name ∨ e ∈ es := by
  induction es with
  | nil => simp [put] at h; simp [h]
  | cons f es ih =>
    unfold put at h
    split at h
    · rcases List.mem_cons.1 h with h | h
      · exact .inl (by simp [h])
      · exact .inr h
    · split at h
      · rcases List.mem_cons.1 h with h | h
        · exact .inl (by simp [h])
        · exact .inr (List.mem_cons_of_mem _ h)
      · rcases List.mem_cons.1 h with h | h
        · exact .inr (by simp [h])
        · exact (ih h).imp id (List.mem_cons_of_mem _)

theorem pairwise_put (name text : String) {es : List (String × String)}
    (h : es.Pairwise fun a b => a.1 < b.1) :
    (put name text es).Pairwise fun a b => a.1 < b.1 := by
  induction es with
  | nil => simp [put]
  | cons f es ih =>
    obtain ⟨hf, hes⟩ := List.pairwise_cons.1 h
    unfold put
    split
    · rename_i hlt
      refine List.pairwise_cons.2 ⟨fun e he => ?_, h⟩
      rcases List.mem_cons.1 he with rfl | he
      · exact hlt
      · exact String.lt_trans hlt (hf e he)
    · split
      · rename_i heq
        exact List.pairwise_cons.2 ⟨fun e he => heq ▸ hf e he, hes⟩
      · rename_i hlt hne
        refine List.pairwise_cons.2 ⟨fun e he => ?_, ih hes⟩
        rcases mem_put he with he | he
        · rw [he]
          refine Decidable.byContradiction fun hn => hne ?_
          exact String.le_antisymm (String.not_lt.1 hn) (String.not_lt.1 hlt)
        · exact hf e he

def insert (o : Overrides) (name text : String) : Overrides :=
  ⟨put name text o.entries, pairwise_put name text o.sorted⟩

def get? (o : Overrides) (name : String) : Option String :=
  (o.entries.find? fun e => e.1 = name).map (·.2)

def isEmpty (o : Overrides) : Bool := o.entries.isEmpty

/-- The last text given for a name counts. -/
def ofList (es : List (String × String)) : Overrides :=
  es.foldl (fun o e => o.insert e.1 e.2) empty

end Overrides

end ScopedFlow
