/-!
# Lists without repeats

`distinct l` keeps the first occurrence of every member of `l`, in order.
-/

namespace RuleTypes

variable {α : Type} [DecidableEq α]

/-- The members of a list in order of first occurrence, each once. -/
def distinct : List α → List α
  | [] => []
  | a :: l => a :: (distinct l).filter (fun b => b ≠ a)

@[simp] theorem mem_distinct {a : α} {l : List α} : a ∈ distinct l ↔ a ∈ l := by
  induction l with
  | nil => simp [distinct]
  | cons b l ih => by_cases h : a = b <;> simp [distinct, ih, h]

theorem nodup_distinct (l : List α) : (distinct l).Nodup := by
  induction l with
  | nil => simp [distinct]
  | cons a l ih => exact List.nodup_cons.mpr ⟨by simp, ih.filter _⟩

/-- A list without repeats stays as it is. -/
theorem distinct_of_nodup {l : List α} (h : l.Nodup) : distinct l = l := by
  induction l with
  | nil => rfl
  | cons a l ih =>
    obtain ⟨ha, hl⟩ := List.nodup_cons.mp h
    simp only [distinct, ih hl, List.cons.injEq, true_and, List.filter_eq_self, decide_eq_true_eq]
    rintro b hb rfl
    exact ha hb

end RuleTypes
