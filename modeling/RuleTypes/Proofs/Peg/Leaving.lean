import RuleTypes.Peg.Basic

/-!
# What a match reads and what it leaves

A match of a parsing expression reads a value at the start of a text and leaves the rest. With
choices left open and lookaheads left out, that is a relation between the value and the two texts,
and nothing has to be said about order, greed or fuel.

* `Peg.Leaves`: an expression reads a value and leaves a text, where the same is known of the
  nonterminals.
* `Peg.run_leaves`: every match does so.
* `Peg.matchRule_leaves`: what is kept from the parts of a nonterminal to the nonterminal, where it
  matches, holds of every match.
-/

namespace RuleTypes.Peg

variable {ν : Type} {V : ν → Type} {α β : Type}

/-- Values that are read one behind the other, each where the one before it has left off. -/
inductive Row (Q : α → Text → Text → Prop) : List α → Text → Text → Prop where
  | nil (s : Text) : Row Q [] s s
  | cons {v : α} {vs : List α} {s t rest : Text} (h : Q v s t) (others : Row Q vs t rest) :
    Row Q (v :: vs) s rest

/-- Whether an expression reads a value at the start of a text and leaves the rest, where `P` says
so of the nonterminals. -/
def Leaves (P : (r : ν) → V r → Text → Text → Prop) : {α : Type} → Peg V α → α → Text → Text → Prop
  | _, .satisfy p, c, s, rest => p c = true ∧ s = c :: rest
  | _, .pure v, a, s, rest => a = v ∧ s = rest
  | _, .call r, v, s, rest => P r v s rest
  | _, .seq a b, v, s, rest => ∃ t, a.Leaves P v.1 s t ∧ b.Leaves P v.2 t rest
  | _, .orElse a b, v, s, rest => a.Leaves P v s rest ∨ b.Leaves P v s rest
  | _, .star a, vs, s, rest => Row (fun v s t => a.Leaves P v s t) vs s rest
  | _, .notAt _, _, s, rest => s = rest
  | _, .map f a, v, s, rest => ∃ x, a.Leaves P x s rest ∧ f x = v
  | _, .source a, v, s, rest => s = v ++ rest ∧ ∃ x, a.Leaves P x s rest

/-! ## Operators -/

section Operators

variable {P : (r : ν) → V r → Text → Text → Prop} {a : Peg V α} {b : Peg V β} {x : α} {y : β}
  {s rest : Text}

theorem leaves_or {a' : Peg V α} :
    (a <|> a').Leaves P x s rest ↔ a.Leaves P x s rest ∨ a'.Leaves P x s rest := Iff.rfl

theorem leaves_left :
    (a <* b).Leaves P x s rest ↔ ∃ t, a.Leaves P x s t ∧ ∃ y, b.Leaves P y t rest := by
  constructor
  · rintro ⟨⟨x, y⟩, ⟨t, ha, hb⟩, rfl⟩
    exact ⟨t, ha, y, hb⟩
  · rintro ⟨t, ha, y, hb⟩
    exact ⟨(x, y), ⟨t, ha, hb⟩, rfl⟩

theorem leaves_right :
    (a *> b).Leaves P y s rest ↔ ∃ t, (∃ x, a.Leaves P x s t) ∧ b.Leaves P y t rest := by
  constructor
  · rintro ⟨⟨x, y⟩, ⟨t, ha, hb⟩, rfl⟩
    exact ⟨t, ⟨x, ha⟩, hb⟩
  · rintro ⟨t, ⟨x, ha⟩, hb⟩
    exact ⟨(x, y), ⟨t, ha, hb⟩, rfl⟩

theorem leaves_opt {v : Option α} :
    (opt a).Leaves P v s rest ↔ (∃ x, a.Leaves P x s rest ∧ some x = v) ∨ v = none ∧ s = rest :=
  Iff.rfl

end Operators

/-- What is left is the end of the text, if it is so for the nonterminals. -/
theorem Leaves.suffix {P : (r : ν) → V r → Text → Text → Prop}
    (hP : ∀ r v s rest, P r v s rest → rest <:+ s) {e : Peg V α} {s rest : Text} {v : α}
    (h : e.Leaves P v s rest) : rest <:+ s := by
  induction e generalizing s rest with
  | satisfy p =>
    obtain ⟨-, rfl⟩ := h
    exact List.suffix_cons v rest
  | pure v' =>
    obtain ⟨-, rfl⟩ := h
    exact List.suffix_refl s
  | call r => exact hP r v s rest h
  | seq a b iha ihb =>
    obtain ⟨t, ha, hb⟩ := h
    exact (ihb hb).trans (iha ha)
  | orElse a b iha ihb => exact h.elim iha ihb
  | star a ih =>
    induction h with
    | nil s => exact List.suffix_refl s
    | cons hv _ ihrow => exact ihrow.trans (ih hv)
  | notAt a ih =>
    obtain rfl := h
    exact List.suffix_refl s
  | map f a ih =>
    obtain ⟨x, hx, -⟩ := h
    exact ih hx
  | source a ih =>
    obtain ⟨rfl, -⟩ := h
    exact List.suffix_append v rest

/-! ## Matches -/

/-- What every match of `step` reads and leaves, the matches in a row read and leave. -/
theorem many_row {step : Text → Outcome α} {Q : α → Text → Text → Prop}
    (h : ∀ s v n rest, step s = .ok v n rest → Q v s rest) (fuel : Nat) (s : Text) (vs : List α)
    (n : Nat) (rest : Text) (hm : many step fuel s = .ok vs n rest) : Row Q vs s rest := by
  induction fuel generalizing s vs n rest with
  | zero => cases hm
  | succ fuel ih =>
    rw [many] at hm
    split at hm
    · rename_i v m rest' hs
      have hv := h _ _ _ _ hs
      split at hm
      · cases hm
        exact .cons hv (.nil rest)
      · obtain ⟨_, _, k, _, he, hk, rfl⟩ := Outcome.andThen_eq_ok.mp hm
        cases he
        obtain ⟨vs', hvs, rfl⟩ := Outcome.map_eq_ok.mp hk
        exact .cons hv (ih _ _ _ _ hvs)
    · cases hm
      exact .nil s
    · cases hm

/-- A match reads its value and leaves what stands behind it. -/
theorem run_leaves {P : (r : ν) → V r → Text → Text → Prop} {fuel : Nat}
    {rules : (r : ν) → Text → Outcome (V r)} (hsplits : ∀ r, Splits (rules r))
    (h : ∀ r s v n rest, rules r s = .ok v n rest → P r v s rest) (e : Peg V α) :
    ∀ s v n rest, e.run fuel rules s = .ok v n rest → e.Leaves P v s rest := by
  induction e with
  | satisfy p =>
    intro s v n rest hm
    cases s with
    | nil => cases hm
    | cons c s =>
      rw [run] at hm
      split at hm
      · rename_i hc
        cases hm
        exact ⟨hc, rfl⟩
      · cases hm
  | pure v' => intro s v n rest hm; cases hm; exact ⟨rfl, rfl⟩
  | call r => exact h r
  | seq a b iha ihb =>
    intro s v n rest hm
    obtain ⟨x, m, k, t, hx, hmap, rfl⟩ := Outcome.andThen_eq_ok.mp hm
    obtain ⟨y, hy, rfl⟩ := Outcome.map_eq_ok.mp hmap
    exact ⟨t, iha _ _ _ _ hx, ihb _ _ _ _ hy⟩
  | orElse a b iha ihb =>
    intro s v n rest hm
    rw [run] at hm
    split at hm
    · exact .inr (ihb _ _ _ _ hm)
    · exact .inl (iha _ _ _ _ hm)
  | star a ih => exact many_row ih fuel
  | notAt a ih =>
    intro s v n rest hm
    rw [run] at hm
    split at hm <;> cases hm
    rfl
  | map f a ih =>
    intro s v n rest hm
    obtain ⟨x, hx, rfl⟩ := Outcome.map_eq_ok.mp hm
    exact ⟨x, ih _ _ _ _ hx, rfl⟩
  | source a ih =>
    intro s v n rest hm
    rw [run] at hm
    split at hm <;> cases hm
    rename_i x hx
    obtain ⟨taken, rfl, rfl⟩ := run_splits hsplits a _ _ _ _ hx
    exact ⟨by rw [List.take_left], x, ih _ _ _ _ hx⟩

/-- **What is kept from the parts to the whole holds of every match.** If `P` holds of a match of a
nonterminal wherever it holds of the nonterminals in it, it holds of all matches. -/
theorem matchRule_leaves {body : (r : ν) → Peg V (V r)} {P : (r : ν) → V r → Text → Text → Prop}
    (h : ∀ fuel r s v n rest, matchRule body fuel r s = .ok v n rest →
      (body r).Leaves P v s rest → P r v s rest)
    (fuel : Nat) (r : ν) (s : Text) (v : V r) (n : Nat) (rest : Text)
    (hm : matchRule body fuel r s = .ok v n rest) : P r v s rest := by
  induction fuel generalizing r s v n rest with
  | zero => cases hm
  | succ fuel ih =>
    exact h (fuel + 1) r s v n rest hm
      (run_leaves (matchRule_splits body fuel) ih (body r) s v n rest hm)

end RuleTypes.Peg
