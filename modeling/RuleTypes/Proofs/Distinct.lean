import Mathlib.Data.List.Basic
import Mathlib.Data.List.Perm.Basic
import RuleTypes.Distinct

/-!
# First occurrences

`distinct` keeps what is new, so it does not matter whether repeats go out of the pieces of a list
or out of the whole, and a piece in which nothing is new leaves no trace.

* `FirstOccurrences`: the members of a list, each once, in order of first occurrence. There is one
  such list (`FirstOccurrences.unique`), and `distinct` gives it (`firstOccurrences_distinct`).
* `distinct_append`, `distinct_flatMap_distinct`: repeats in the pieces of a list.
* `distinct_map`: a map that tells members apart keeps first occurrences.
-/

namespace RuleTypes

variable {α β : Type} [DecidableEq α]

/-- `firsts` are the members of `l`, each once, in the order in which they first occur in `l`. -/
structure FirstOccurrences (l firsts : List α) : Prop where
  nodup : firsts.Nodup
  mem_iff : ∀ a, a ∈ firsts ↔ a ∈ l
  ordered : firsts.Pairwise fun a b => l.idxOf a < l.idxOf b

theorem firstOccurrences_distinct (l : List α) : FirstOccurrences l (distinct l) := by
  refine ⟨nodup_distinct l, fun a => mem_distinct, ?_⟩
  induction l with
  | nil => exact .nil
  | cons a l ih =>
    have hne {b : α} (hb : b ∈ (distinct l).filter (fun b => b ≠ a)) : a ≠ b := by
      rintro rfl
      simp at hb
    refine List.pairwise_cons.mpr ⟨fun b hb => ?_, (ih.filter _).imp_of_mem ?_⟩
    · rw [List.idxOf_cons_self, List.idxOf_cons_ne _ (hne hb)]
      exact Nat.succ_pos _
    · intro b c hb hc hlt
      rw [List.idxOf_cons_ne _ (hne hb), List.idxOf_cons_ne _ (hne hc)]
      exact Nat.succ_lt_succ hlt

/-- The first occurrences of a list are determined by it. -/
theorem FirstOccurrences.unique {l firsts firsts' : List α} (h : FirstOccurrences l firsts)
    (h' : FirstOccurrences l firsts') : firsts = firsts' := by
  have hmem (a : α) : a ∈ firsts ↔ a ∈ firsts' := (h.mem_iff a).trans (h'.mem_iff a).symm
  have hperm : firsts.Perm firsts' := (List.perm_ext_iff_of_nodup h.nodup h'.nodup).mpr hmem
  refine hperm.eq_of_pairwise ?_ h.ordered h'.ordered
  intro a b _ _ hab hba
  exact absurd hab (Nat.lt_asymm hba)

/-! ## Pieces of a list -/

/-- What occurs in the first piece is not new in the second. -/
theorem distinct_append (l m : List α) :
    distinct (l ++ m) = distinct l ++ (distinct m).filter (· ∉ l) := by
  induction l with
  | nil => simp [distinct]
  | cons a l ih =>
    simp only [List.cons_append, distinct, ih, List.filter_append, List.filter_filter,
      List.mem_cons, not_or, Bool.decide_and]

/-- A piece in which nothing is new changes nothing. -/
theorem distinct_append_of_subset {l m : List α} (h : ∀ a ∈ m, a ∈ l) :
    distinct (l ++ m) = distinct l := by
  have hnone : (distinct m).filter (· ∉ l) = [] := by
    refine List.filter_eq_nil_iff.mpr fun a ha => ?_
    simpa using h a (mem_distinct.mp ha)
  rw [distinct_append, hnone, List.append_nil]

/-- Repeats may go out of every piece first. -/
theorem distinct_flatMap_distinct (f : β → List α) (bs : List β) :
    distinct (bs.flatMap fun b => distinct (f b)) = distinct (bs.flatMap f) := by
  induction bs with
  | nil => rfl
  | cons b bs ih =>
    simp only [List.flatMap_cons, distinct_append, ih, distinct_of_nodup (nodup_distinct _),
      mem_distinct]

theorem distinct_map [DecidableEq β] {f : α → β} (hf : Function.Injective f) (l : List α) :
    distinct (l.map f) = (distinct l).map f := by
  induction l with
  | nil => rfl
  | cons a l ih =>
    have hne : ((fun b => decide (b ≠ f a)) ∘ f) = fun b => decide (b ≠ a) := by
      funext b
      simp [hf.eq_iff]
    rw [List.map_cons, distinct, distinct, List.map_cons, ih, List.filter_map, hne]

end RuleTypes
