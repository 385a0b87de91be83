import Mathlib.Logic.Relation
import RuleTypes.Proofs.Peg.Fuel

/-!
# Calls

While a nonterminal is matched, the nonterminals in its expression are matched, at the same place
or behind what has been taken. These are the calls that the match makes, and a match ends when no
call makes itself again.

* `Peg.Calls`: matching an expression at one text calls a nonterminal at another. A run that calls
  one which is out of fuel is out of fuel itself (`run_eq_outOfFuel_of_calls`).
* `Peg.Calls.exists_taken`: a call stands behind what has been taken, and where nothing has been
  taken it is a head.
* `Peg.not_reaches_self`: with ranked heads no nonterminal is matched again inside itself where it
  began.
* `Peg.fuel_lt_of_reaches`: nor do calls stand deeper in each other than the text and the ranks
  allow, however much fuel there is.
-/

namespace RuleTypes.Peg

variable {ν : Type} {V : ν → Type} {α : Type}

/-! ## What a run calls -/

/-- A repetition goes on from one text to another: every match in between takes something. -/
inductive Rounds (step : Text → Outcome α) : Text → Text → Prop where
  | none (s : Text) : Rounds step s s
  | next {s t u : Text} {a : α} {n : Nat} :
    step s = .ok a n t → n ≠ 0 → Rounds step t u → Rounds step s u

/-- Matching an expression at `s` calls the nonterminal `q` at `t`. -/
def Calls (fuel : Nat) (rules : (r : ν) → Text → Outcome (V r)) :
    {α : Type} → Peg V α → Text → ν → Text → Prop
  | _, .satisfy _, _, _, _ => False
  | _, .pure _, _, _, _ => False
  | _, .call r, s, q, t => q = r ∧ t = s
  | _, .seq a b, s, q, t => a.Calls fuel rules s q t ∨
      ∃ x n rest, a.run fuel rules s = .ok x n rest ∧ b.Calls fuel rules rest q t
  | _, .orElse a b, s, q, t => a.Calls fuel rules s q t ∨
      a.run fuel rules s = .fail ∧ b.Calls fuel rules s q t
  | _, .star a, s, q, t => ∃ u, Rounds (a.run fuel rules) s u ∧ a.Calls fuel rules u q t
  | _, .notAt a, s, q, t => a.Calls fuel rules s q t
  | _, .map _ a, s, q, t => a.Calls fuel rules s q t
  | _, .source a, s, q, t => a.Calls fuel rules s q t

variable {fuel : Nat} {rules : (r : ν) → Text → Outcome (V r)} {s t : Text} {q : ν}

theorem Rounds.many_eq_outOfFuel {step : Text → Outcome α} (h : Rounds step s t)
    (ht : step t = .outOfFuel) (n : Nat) : many step n s = .outOfFuel := by
  induction h generalizing n with
  | none s =>
    cases n with
    | zero => rfl
    | succ n => rw [many, ht]
  | next hs hm _ ih =>
    cases n with
    | zero => rfl
    | succ n => simp only [many, hs, if_neg hm, Outcome.andThen, ih ht n, Outcome.map]

/-- A run looks where it calls: out of fuel in a call, it is out of fuel. -/
theorem run_eq_outOfFuel_of_calls (e : Peg V α) (h : e.Calls fuel rules s q t)
    (hq : rules q t = .outOfFuel) : e.run fuel rules s = .outOfFuel := by
  induction e generalizing s with
  | satisfy p => cases h
  | pure v => cases h
  | call r =>
    obtain ⟨rfl, rfl⟩ := h
    exact hq
  | seq a b iha ihb =>
    rcases h with ha | ⟨x, n, rest, ha, hb⟩
    · rw [run, iha ha]
      rfl
    · rw [run, ha]
      simp only [Outcome.andThen, ihb hb, Outcome.map]
  | orElse a b iha ihb =>
    rcases h with ha | ⟨ha, hb⟩
    · rw [run, iha ha]
    · rw [run, ha]
      exact ihb hb
  | star a ih =>
    obtain ⟨u, hu, ha⟩ := h
    exact hu.many_eq_outOfFuel (ih ha) fuel
  | notAt a ih => rw [run, ih h]
  | map f a ih =>
    rw [run, ih h]
    rfl
  | source a ih => rw [run, ih h]

/-! ## Where a call stands -/

theorem Rounds.exists_taken {step : Text → Outcome α} (hsplits : Splits step)
    (h : Rounds step s t) : t = s ∨ ∃ taken, taken ≠ [] ∧ s = taken ++ t := by
  induction h with
  | none s => exact .inl rfl
  | next hs hm _ ih =>
    obtain ⟨taken, rfl, rfl⟩ := hsplits _ _ _ _ hs
    have hne : taken ≠ [] := fun h => hm (by rw [h]; rfl)
    rcases ih with rfl | ⟨taken', -, rfl⟩
    · exact .inr ⟨taken, hne, rfl⟩
    · refine .inr ⟨taken ++ taken', fun h => hne (List.append_eq_nil_iff.mp h).1, ?_⟩
      rw [List.append_assoc]

/-- A call stands behind what has been taken, and where nothing has been taken it is a head. -/
theorem Calls.exists_taken {empty : ν → Bool} (hsplits : ∀ r, Splits (rules r))
    (hempty : ∀ r, empty r = false → Progresses (rules r)) (e : Peg V α)
    (h : e.Calls fuel rules s q t) :
    ∃ taken, s = taken ++ t ∧ (taken = [] → q ∈ e.heads empty) := by
  induction e generalizing s with
  | satisfy p => cases h
  | pure v => cases h
  | call r =>
    obtain ⟨rfl, rfl⟩ := h
    exact ⟨[], rfl, fun _ => List.mem_singleton_self q⟩
  | seq a b iha ihb =>
    rcases h with ha | ⟨x, n, rest, ha, hb⟩
    · obtain ⟨taken, hs, hhead⟩ := iha ha
      exact ⟨taken, hs, fun h => List.mem_append_left _ (hhead h)⟩
    · obtain ⟨taken, rfl, hn⟩ := run_splits hsplits a _ _ _ _ ha
      obtain ⟨taken', rfl, hhead⟩ := ihb hb
      refine ⟨taken ++ taken', (List.append_assoc ..).symm, fun h => ?_⟩
      obtain ⟨rfl, rfl⟩ := List.append_eq_nil_iff.mp h
      -- The first part has matched nothing, so the heads of the second are heads.
      cases hnull : a.nullable empty with
      | true => exact List.mem_append_right _ (by rw [if_pos hnull]; exact hhead rfl)
      | false =>
        have hpos := run_progresses hempty a hnull _ _ _ _ ha
        exact absurd hn (Nat.ne_of_lt hpos)
  | orElse a b iha ihb =>
    rcases h with ha | ⟨-, hb⟩
    · obtain ⟨taken, hs, hhead⟩ := iha ha
      exact ⟨taken, hs, fun h => List.mem_append_left _ (hhead h)⟩
    · obtain ⟨taken, hs, hhead⟩ := ihb hb
      exact ⟨taken, hs, fun h => List.mem_append_right _ (hhead h)⟩
  | star a ih =>
    obtain ⟨u, hu, ha⟩ := h
    obtain ⟨taken', rfl, hhead⟩ := ih ha
    rcases hu.exists_taken (run_splits hsplits a) with rfl | ⟨taken, hne, rfl⟩
    · exact ⟨taken', rfl, hhead⟩
    · refine ⟨taken ++ taken', (List.append_assoc ..).symm, fun h => ?_⟩
      exact absurd (List.append_eq_nil_iff.mp h).1 hne
  | notAt a ih => exact ih h
  | map f a ih => exact ih h
  | source a ih => exact ih h

/-! ## Calls in calls -/

/-- A call of the matcher: its fuel, the nonterminal and the text. -/
structure Call (ν : Type) where
  fuel : Nat
  rule : ν
  text : Text

variable {body : (r : ν) → Peg V (V r)} {c d : Call ν}

/-- What a call of the matcher gives. -/
def Call.outcome (body : (r : ν) → Peg V (V r)) (c : Call ν) : Outcome (V c.rule) :=
  matchRule body c.fuel c.rule c.text

/-- One call of the matcher makes another. -/
def Call.Makes (body : (r : ν) → Peg V (V r)) (c d : Call ν) : Prop :=
  c.fuel = d.fuel + 1 ∧ (body c.rule).Calls d.fuel (matchRule body d.fuel) c.text d.rule d.text

/-- One call of the matcher leads to another, through the calls in between. -/
def Call.Reaches (body : (r : ν) → Peg V (V r)) : Call ν → Call ν → Prop :=
  Relation.TransGen (Makes body)

theorem Call.Makes.outcome_ne_outOfFuel (h : c.Makes body d) (hc : c.outcome body ≠ .outOfFuel) :
    d.outcome body ≠ .outOfFuel := by
  obtain ⟨n, r, s⟩ := c
  obtain ⟨rfl, hcalls⟩ := h
  exact fun hd => hc (run_eq_outOfFuel_of_calls (body r) hcalls hd)

/-- Where a call does not run out of fuel, no call that it leads to does. -/
theorem Call.Reaches.outcome_ne_outOfFuel (h : c.Reaches body d)
    (hc : c.outcome body ≠ .outOfFuel) : d.outcome body ≠ .outOfFuel := by
  induction h with
  | single hstep => exact hstep.outcome_ne_outOfFuel hc
  | tail _ hstep ih => exact hstep.outcome_ne_outOfFuel ih

section Ranked

variable {empty : ν → Bool} {rank : ν → Nat} {bound : Nat}

/-- What is left to take, and the rank where nothing is taken. -/
def Call.weight (rank : ν → Nat) (bound : Nat) (c : Call ν) : Nat :=
  bound * c.text.length + rank c.rule

variable (hempty : ∀ r, empty r = false → (body r).nullable empty = false)
  (hrank : ∀ r, ∀ q ∈ (body r).heads empty, rank q < rank r) (hbound : ∀ r, rank r < bound)

include hempty hrank hbound

/-- A call weighs less than the one that makes it: it has less to take, or a lower rank. -/
theorem Call.Makes.weight_lt (h : c.Makes body d) : d.weight rank bound < c.weight rank bound := by
  obtain ⟨-, hcalls⟩ := h
  obtain ⟨taken, hs, hhead⟩ := hcalls.exists_taken (matchRule_splits body d.fuel)
    (matchRule_progresses hempty d.fuel)
  have hd := hbound d.rule
  rw [weight, weight, hs, List.length_append, Nat.mul_add]
  cases taken with
  | nil =>
    have := hrank c.rule d.rule (hhead rfl)
    simp only [List.length_nil, Nat.mul_zero, Nat.zero_add]
    omega
  | cons x taken =>
    rw [List.length_cons, Nat.mul_succ]
    omega

/-- From call to call, the fuel goes down by one and the weight by one at least. -/
theorem Call.Reaches.weight_lt (h : c.Reaches body d) :
    d.weight rank bound < c.weight rank bound ∧
      c.fuel + d.weight rank bound ≤ d.fuel + c.weight rank bound := by
  induction h with
  | single hstep =>
    have := hstep.weight_lt hempty hrank hbound
    have := hstep.1
    omega
  | tail _ hstep ih =>
    have := hstep.weight_lt hempty hrank hbound
    have := hstep.1
    omega

/-- No nonterminal is matched again inside itself where it began. -/
theorem not_reaches_self (n m : Nat) (r : ν) (s : Text) : ¬Call.Reaches body ⟨n, r, s⟩ ⟨m, r, s⟩ :=
  fun h => Nat.lt_irrefl _ (h.weight_lt hempty hrank hbound).1

/-- However much fuel there is, calls stand no deeper in each other than the text and the ranks
allow. -/
theorem fuel_lt_of_reaches (h : c.Reaches body d) :
    c.fuel < d.fuel + bound * (c.text.length + 1) := by
  have hfuel := (h.weight_lt hempty hrank hbound).2
  have := hbound c.rule
  rw [Call.weight, Call.weight] at hfuel
  rw [Nat.mul_succ]
  omega

end Ranked

/-! ## Loops -/

/-- The expressions that an expression repeats. -/
def loops : {α : Type} → Peg V α → List ((β : Type) × Peg V β)
  | _, .satisfy _ => []
  | _, .pure _ => []
  | _, .call _ => []
  | _, .seq a b => a.loops ++ b.loops
  | _, .orElse a b => a.loops ++ b.loops
  | _, .star a => ⟨_, a⟩ :: a.loops
  | _, .notAt a => a.loops
  | _, .map _ a => a.loops
  | _, .source a => a.loops

end RuleTypes.Peg
