import RuleTypes.Peg.Basic

/-!
# Fuel

More fuel never changes an outcome other than running out of fuel, so any two runs that do not run
out agree. When a run does not run out can be read off a grammar: a nonterminal must not come back
to itself without having taken a code point.

* `Peg.run_le`, `Peg.matchRule_le`: a run with less fuel says the same or nothing.
* `Peg.nullable`, `Peg.heads`: whether an expression may match nothing, and the nonterminals that
  it may enter where it begins.
* `Peg.matchRule_ne_outOfFuel`: enough fuel, for a grammar whose heads are ranked.
-/

namespace RuleTypes

/-! ## More fuel -/

namespace Outcome

variable {α β : Type}

/-- `o` says what `o'` says, unless it ran out of fuel. -/
def Le (o o' : Outcome α) : Prop := o ≠ .outOfFuel → o' = o

theorem Le.refl (o : Outcome α) : o.Le o := fun _ => rfl

theorem Le.map {o o' : Outcome α} (h : o.Le o') (f : α → β) : (o.map f).Le (o'.map f) := by
  intro hne
  cases o with
  | outOfFuel => exact absurd rfl hne
  | _ => rw [h (by simp)]

theorem Le.andThen {o o' : Outcome α} {next next' : α → Text → Outcome β} (h : o.Le o')
    (hnext : ∀ a rest, (next a rest).Le (next' a rest)) :
    (o.andThen next).Le (o'.andThen next') := by
  intro hne
  cases o with
  | outOfFuel => exact absurd rfl hne
  | fail => rw [h (by simp)]; rfl
  | ok a n rest =>
    rw [h (by simp)]
    have hrest : next' a rest = next a rest := by
      refine hnext a rest fun hout => hne ?_
      simp only [Outcome.andThen, hout]
    simp only [Outcome.andThen, hrest]

end Outcome

namespace Peg

variable {ν : Type} {V : ν → Type} {α β : Type}

theorem many_le {step step' : Text → Outcome α} (h : ∀ s, (step s).Le (step' s)) {n n' : Nat}
    (hn : n ≤ n') (s : Text) : (many step n s).Le (many step' n' s) := by
  induction n generalizing n' s with
  | zero => exact fun hne => absurd rfl hne
  | succ n ih =>
    obtain ⟨n', rfl⟩ : ∃ k, n' = k + 1 := ⟨n' - 1, by omega⟩
    intro hne
    cases hs : step s with
    | outOfFuel => exact absurd (by simp only [many, hs]) hne
    | fail => simp only [many, h s (by rw [hs]; simp), hs]
    | ok a m rest =>
      by_cases hm : m = 0
      · simp only [many, h s (by rw [hs]; simp), hs, if_pos hm]
      · have hle : n ≤ n' := by omega
        have hrest := (Outcome.Le.refl (.ok a m rest)).andThen fun b rest =>
          (ih hle rest).map (b :: ·)
        simp only [many, hs, if_neg hm] at hne
        simp only [many, h s (by rw [hs]; simp), hs, if_neg hm]
        exact hrest hne

/-- More fuel, for an expression and for the nonterminals, changes no outcome. -/
theorem run_le {rules rules' : (r : ν) → Text → Outcome (V r)}
    (h : ∀ r s, (rules r s).Le (rules' r s)) {n n' : Nat} (hn : n ≤ n') (e : Peg V α) (s : Text) :
    (e.run n rules s).Le (e.run n' rules' s) := by
  induction e generalizing s with
  | satisfy p => exact Outcome.Le.refl _
  | pure v => exact Outcome.Le.refl _
  | call r => exact h r s
  | seq a b iha ihb => exact (iha s).andThen fun x rest => (ihb rest).map _
  | orElse a b iha ihb =>
    intro hne
    simp only [run] at hne ⊢
    cases ha : a.run n rules s with
    | outOfFuel => rw [ha] at hne; exact absurd rfl hne
    | fail =>
      rw [ha] at hne
      rw [iha s (by rw [ha]; simp), ha]
      exact ihb s hne
    | ok v m rest => rw [iha s (by rw [ha]; simp), ha]
  | star a ih => exact many_le ih hn s
  | notAt a ih =>
    intro hne
    simp only [run] at hne ⊢
    rw [ih s fun hout => hne (by rw [hout])]
  | map f a ih => exact (ih s).map f
  | source a ih =>
    intro hne
    simp only [run] at hne ⊢
    rw [ih s fun hout => hne (by rw [hout])]

theorem matchRule_le (body : (r : ν) → Peg V (V r)) {n n' : Nat} (hn : n ≤ n') (r : ν) (s : Text) :
    (matchRule body n r s).Le (matchRule body n' r s) := by
  induction n generalizing n' r s with
  | zero => exact fun hne => absurd rfl hne
  | succ n ih =>
    obtain ⟨n', rfl⟩ : ∃ k, n' = k + 1 := ⟨n' - 1, by omega⟩
    exact run_le (fun r s => ih (by omega) r s) (by omega) (body r) s

/-! ## Expressions that take something -/

/-- Whether an expression may match without taking a code point, where `empty` says so of the
nonterminals. -/
def nullable (empty : ν → Bool) : {α : Type} → Peg V α → Bool
  | _, .satisfy _ => false
  | _, .pure _ => true
  | _, .call r => empty r
  | _, .seq a b => a.nullable empty && b.nullable empty
  | _, .orElse a b => a.nullable empty || b.nullable empty
  | _, .star _ => true
  | _, .notAt _ => true
  | _, .map _ a => a.nullable empty
  | _, .source a => a.nullable empty

/-- Every match of `step` takes a code point. -/
def Progresses (step : Text → Outcome α) : Prop :=
  ∀ s a n rest, step s = .ok a n rest → 0 < n

theorem run_progresses {empty : ν → Bool} {n : Nat} {rules : (r : ν) → Text → Outcome (V r)}
    (h : ∀ r, empty r = false → Progresses (rules r)) (e : Peg V α)
    (he : e.nullable empty = false) : Progresses (e.run n rules) := by
  induction e with
  | satisfy p =>
    intro s a m rest hm
    cases s with
    | nil => cases hm
    | cons c s =>
      simp only [run] at hm
      split at hm
      · cases hm; exact Nat.one_pos
      · cases hm
  | pure v => cases he
  | call r => exact h r he
  | seq a b iha ihb =>
    intro s v m rest hm
    obtain ⟨x, i, j, rest', hx, hy, rfl⟩ := Outcome.andThen_eq_ok.mp hm
    obtain ⟨y, hy, -⟩ := Outcome.map_eq_ok.mp hy
    rcases Bool.and_eq_false_iff.mp he with ha | hb
    · have := iha ha _ _ _ _ hx
      omega
    · have := ihb hb _ _ _ _ hy
      omega
  | orElse a b iha ihb =>
    intro s v m rest hm
    obtain ⟨ha, hb⟩ := Bool.or_eq_false_iff.mp he
    simp only [run] at hm
    split at hm
    · exact ihb hb _ _ _ _ hm
    · exact iha ha _ _ _ _ hm
  | star a ih => cases he
  | notAt a ih => cases he
  | map f a ih =>
    intro s v m rest hm
    obtain ⟨x, hx, -⟩ := Outcome.map_eq_ok.mp hm
    exact ih he _ _ _ _ hx
  | source a ih =>
    intro s v m rest hm
    simp only [run] at hm
    split at hm <;> cases hm
    rename_i hx
    exact ih he _ _ _ _ hx

theorem matchRule_progresses {body : (r : ν) → Peg V (V r)} {empty : ν → Bool}
    (h : ∀ r, empty r = false → (body r).nullable empty = false) (n : Nat) (r : ν)
    (hr : empty r = false) : Progresses (matchRule body n r) := by
  induction n generalizing r with
  | zero => intro s a m rest hm; cases hm
  | succ n ih => exact run_progresses ih (body r) (h r hr)

/-! ## Enough fuel -/

/-- The nonterminals that an expression may enter where it begins. -/
def heads (empty : ν → Bool) : {α : Type} → Peg V α → List ν
  | _, .satisfy _ => []
  | _, .pure _ => []
  | _, .call r => [r]
  | _, .seq a b => a.heads empty ++ if a.nullable empty then b.heads empty else []
  | _, .orElse a b => a.heads empty ++ b.heads empty
  | _, .star a => a.heads empty
  | _, .notAt a => a.heads empty
  | _, .map _ a => a.heads empty
  | _, .source a => a.heads empty

theorem Splits.length_eq {step : Text → Outcome α} (h : Splits step) {s rest : Text} {a : α}
    {n : Nat} (hs : step s = .ok a n rest) : s.length = n + rest.length := by
  obtain ⟨taken, rfl, hn⟩ := h s a n rest hs
  rw [List.length_append, hn]

theorem Splits.eq_of_zero {step : Text → Outcome α} (h : Splits step) {s rest : Text} {a : α}
    (hs : step s = .ok a 0 rest) : rest = s := by
  obtain ⟨taken, rfl, hn⟩ := h s a 0 rest hs
  rw [List.length_eq_zero_iff.mp hn, List.nil_append]

/-- A repetition stops before its fuel does: every match but the last takes a code point. -/
theorem many_ne_outOfFuel {step : Text → Outcome α} (hsplits : Splits step) {n : Nat} {s : Text}
    (hn : s.length < n) (hstep : step s ≠ .outOfFuel)
    (hlater : ∀ s' : Text, s'.length < s.length → step s' ≠ .outOfFuel) :
    many step n s ≠ .outOfFuel := by
  induction n generalizing s with
  | zero => omega
  | succ n ih =>
    cases hs : step s with
    | outOfFuel => exact absurd hs hstep
    | fail => simp only [many, hs]; simp
    | ok a m rest =>
      have hlength := hsplits.length_eq hs
      by_cases hm : m = 0
      · simp only [many, hs, if_pos hm]; simp
      · have hrest : many step n rest ≠ .outOfFuel :=
          ih (by omega) (hlater rest (by omega)) fun s' hs' => hlater s' (by omega)
        simp only [many, hs, if_neg hm, Outcome.andThen]
        cases h : many step n rest with
        | outOfFuel => exact absurd h hrest
        | _ => simp [Outcome.map]

theorem run_ne_outOfFuel {empty : ν → Bool} {n : Nat} {rules : (r : ν) → Text → Outcome (V r)}
    (hsplits : ∀ r, Splits (rules r)) (hempty : ∀ r, empty r = false → Progresses (rules r))
    (e : Peg V α) {s : Text} (hn : s.length < n)
    (hheads : ∀ r ∈ e.heads empty, rules r s ≠ .outOfFuel)
    (hlater : ∀ r (s' : Text), s'.length < s.length → rules r s' ≠ .outOfFuel) :
    e.run n rules s ≠ .outOfFuel := by
  induction e generalizing s with
  | satisfy p => cases s with
    | nil => simp [run]
    | cons c s => simp only [run]; split <;> simp
  | pure v => simp [run]
  | call r => exact hheads r (List.mem_singleton_self r)
  | seq a b iha ihb =>
    have ha := iha hn (fun r hr => hheads r (List.mem_append_left _ hr)) hlater
    cases hx : a.run n rules s with
    | outOfFuel => exact absurd hx ha
    | fail => simp [run, hx, Outcome.andThen]
    | ok x m rest =>
      have hb : b.run n rules rest ≠ .outOfFuel := by
        have hlength := (run_splits hsplits a).length_eq hx
        by_cases hm : m = 0
        · -- Nothing is taken, so `a` may match nothing and the heads of `b` are heads here.
          subst hm
          obtain rfl := (run_splits hsplits a).eq_of_zero hx
          refine ihb hn (fun r hr => hheads r (List.mem_append_right _ ?_)) hlater
          cases hnull : a.nullable empty with
          | true => exact hr
          | false => exact absurd (run_progresses hempty a hnull _ _ _ _ hx) (Nat.lt_irrefl 0)
        · exact ihb (by omega) (fun r _ => hlater r rest (by omega))
            fun r s' hs' => hlater r s' (by omega)
      simp only [run, hx, Outcome.andThen]
      cases h : b.run n rules rest with
      | outOfFuel => exact absurd h hb
      | _ => simp [Outcome.map]
  | orElse a b iha ihb =>
    have ha := iha hn (fun r hr => hheads r (List.mem_append_left _ hr)) hlater
    have hb := ihb hn (fun r hr => hheads r (List.mem_append_right _ hr)) hlater
    simp only [run]
    split
    · exact hb
    · exact ha
  | star a ih =>
    refine many_ne_outOfFuel (run_splits hsplits a) hn (ih hn hheads hlater) fun s' hs' => ?_
    exact ih (by omega) (fun r _ => hlater r s' hs') fun r s'' hs'' => hlater r s'' (by omega)
  | notAt a ih =>
    have ha := ih hn hheads hlater
    simp only [run]
    split <;> simp_all
  | map f a ih =>
    have ha := ih hn hheads hlater
    cases h : a.run n rules s with
    | outOfFuel => exact absurd h ha
    | _ => simp [run, h, Outcome.map]
  | source a ih =>
    have ha := ih hn hheads hlater
    simp only [run]
    split <;> simp_all

/-- A grammar never runs out of fuel when every head of a nonterminal has a lower rank than the
nonterminal itself: between two code points the rank goes down, and it starts below `bound`. -/
theorem matchRule_ne_outOfFuel {body : (r : ν) → Peg V (V r)} {empty : ν → Bool} {rank : ν → Nat}
    {bound : Nat} (hempty : ∀ r, empty r = false → (body r).nullable empty = false)
    (hrank : ∀ r, ∀ q ∈ (body r).heads empty, rank q < rank r)
    (hpos : ∀ r, 0 < rank r) (hbound : ∀ r, rank r < bound) (n : Nat) (r : ν) (s : Text)
    (hn : bound * s.length + rank r < n) : matchRule body n r s ≠ .outOfFuel := by
  induction n generalizing r s with
  | zero => omega
  | succ n ih =>
    have hle : s.length ≤ bound * s.length := Nat.le_mul_of_pos_left _ (by have := hbound r; omega)
    have := hpos r
    refine run_ne_outOfFuel (matchRule_splits body n) (matchRule_progresses hempty n) (body r)
      (by omega) (fun q hq => ih q s ?_) fun q s' hs' => ih q s' ?_
    · have := hrank r q hq
      omega
    · have hstep : bound * (s'.length + 1) ≤ bound * s.length := Nat.mul_le_mul_left _ hs'
      rw [Nat.mul_succ] at hstep
      have := hbound q
      omega

end Peg

end RuleTypes
