import RuleTypes.Proofs.Peg.Leaving

/-!
# Derivations

A match of a parsing expression is a derivation of a context-free one: with choices left open and
lookaheads left out, the expression derives the text that the match takes, with the value that it
gives. What derivations keep, matches keep, and nothing has to be said about order, greed or fuel.

* `Peg.Derives`: an expression derives a value from a text, where the same is known of the
  nonterminals.
* `Peg.run_derives`: a match is a derivation.
* `Peg.matchRule_derives`: what holds of every derivation holds of every match of a nonterminal.
-/

namespace RuleTypes.Peg

variable {ν : Type} {V : ν → Type} {α β : Type}

/-- Whether an expression derives a value from a text, where `P` says so of the nonterminals. -/
def Derives (P : (r : ν) → V r → Text → Prop) : {α : Type} → Peg V α → α → Text → Prop
  | _, .satisfy p, c, t => p c = true ∧ t = [c]
  | _, .pure v, a, t => a = v ∧ t = []
  | _, .call r, v, t => P r v t
  | _, .seq a b, v, t => ∃ t₁ t₂, t = t₁ ++ t₂ ∧ a.Derives P v.1 t₁ ∧ b.Derives P v.2 t₂
  | _, .orElse a b, v, t => a.Derives P v t ∨ b.Derives P v t
  | _, .star a, vs, t => ∃ parts : List (_ × Text), vs = parts.map Prod.fst ∧
      t = (parts.map Prod.snd).flatten ∧ ∀ v t, (v, t) ∈ parts → a.Derives P v t
  | _, .notAt _, _, t => t = []
  | _, .map f a, v, t => ∃ x, a.Derives P x t ∧ f x = v
  | _, .source a, v, t => v = t ∧ ∃ x, a.Derives P x t

/-! ## Operators -/

section Operators

variable {P : (r : ν) → V r → Text → Prop} {a : Peg V α} {b : Peg V β} {x : α} {y : β} {t : Text}

theorem derives_or {a' : Peg V α} :
    (a <|> a').Derives P x t ↔ a.Derives P x t ∨ a'.Derives P x t := Iff.rfl

theorem derives_left :
    (a <* b).Derives P x t ↔
      ∃ t₁ t₂, t = t₁ ++ t₂ ∧ a.Derives P x t₁ ∧ ∃ y, b.Derives P y t₂ := by
  constructor
  · rintro ⟨⟨x, y⟩, ⟨t₁, t₂, ht, ha, hb⟩, rfl⟩
    exact ⟨t₁, t₂, ht, ha, y, hb⟩
  · rintro ⟨t₁, t₂, ht, ha, y, hb⟩
    exact ⟨(x, y), ⟨t₁, t₂, ht, ha, hb⟩, rfl⟩

theorem derives_right :
    (a *> b).Derives P y t ↔
      ∃ t₁ t₂, t = t₁ ++ t₂ ∧ (∃ x, a.Derives P x t₁) ∧ b.Derives P y t₂ := by
  constructor
  · rintro ⟨⟨x, y⟩, ⟨t₁, t₂, ht, ha, hb⟩, rfl⟩
    exact ⟨t₁, t₂, ht, ⟨x, ha⟩, hb⟩
  · rintro ⟨t₁, t₂, ht, ⟨x, ha⟩, hb⟩
    exact ⟨(x, y), ⟨t₁, t₂, ht, ha, hb⟩, rfl⟩

theorem derives_opt {v : Option α} :
    (opt a).Derives P v t ↔ (∃ x, a.Derives P x t ∧ some x = v) ∨ v = none ∧ t = [] := Iff.rfl

/-- What one match or more derives, a repetition derives. -/
theorem Derives.star_of_plus {xs : List α} (h : (plus a).Derives P xs t) :
    (star a).Derives P xs t := by
  obtain ⟨⟨x, _⟩, ⟨t₁, _, rfl, ha, parts, rfl, rfl, hparts⟩, rfl⟩ := h
  refine ⟨(x, t₁) :: parts, rfl, rfl, fun v t hmem => ?_⟩
  rcases List.mem_cons.mp hmem with hvt | hmem
  · cases hvt
    exact ha
  · exact hparts v t hmem

/-- Every value of a repetition is derived from some text. -/
theorem Derives.exists_of_mem {xs : List α} (h : (star a).Derives P xs t) (hx : x ∈ xs) :
    ∃ t, a.Derives P x t := by
  obtain ⟨parts, rfl, -, hparts⟩ := h
  obtain ⟨⟨x, t⟩, hmem, rfl⟩ := List.mem_map.mp hx
  exact ⟨t, hparts x t hmem⟩

/-- The text of a repetition is made of texts from which its values are derived. -/
theorem Derives.exists_flatten {xs : List α} (h : (star a).Derives P xs t) :
    ∃ ts : List Text, t = ts.flatten ∧ ∀ t ∈ ts, ∃ x, a.Derives P x t := by
  obtain ⟨parts, -, rfl, hparts⟩ := h
  refine ⟨parts.map Prod.snd, rfl, fun t ht => ?_⟩
  obtain ⟨⟨x, t⟩, hmem, rfl⟩ := List.mem_map.mp ht
  exact ⟨x, hparts x t hmem⟩

theorem derives_char {c : Char} {d : CodePoint} :
    (char c : Peg V CodePoint).Derives P d t ↔ d = c ∧ t = [CodePoint.ofChar c] := by
  constructor
  · rintro ⟨hd, rfl⟩
    obtain rfl := of_decide_eq_true hd
    exact ⟨rfl, rfl⟩
  · rintro ⟨rfl, rfl⟩
    exact ⟨decide_eq_true rfl, rfl⟩

end Operators

/-! ## Matches -/

/-- Every match of `step` takes a text that `Q` relates to its value. -/
def Yields (step : Text → Outcome α) (Q : α → Text → Prop) : Prop :=
  ∀ s v n rest, step s = .ok v n rest → ∃ t, s = t ++ rest ∧ t.length = n ∧ Q v t

/-- A reading derives what it takes, if the readings of the nonterminals do. -/
theorem derives_of_leaves {P : (r : ν) → V r → Text → Prop} (e : Peg V α) {s rest : Text} {v : α}
    (h : e.Leaves (fun r v s rest => ∃ t, s = t ++ rest ∧ P r v t) v s rest) :
    ∃ t, s = t ++ rest ∧ e.Derives P v t := by
  induction e generalizing s rest with
  | satisfy p =>
    obtain ⟨hc, rfl⟩ := h
    exact ⟨[v], rfl, hc, rfl⟩
  | pure v' =>
    obtain ⟨rfl, rfl⟩ := h
    exact ⟨[], rfl, rfl, rfl⟩
  | call r => exact h
  | seq a b iha ihb =>
    obtain ⟨t, ha, hb⟩ := h
    obtain ⟨t₁, rfl, hda⟩ := iha ha
    obtain ⟨t₂, rfl, hdb⟩ := ihb hb
    exact ⟨t₁ ++ t₂, (List.append_assoc ..).symm, t₁, t₂, rfl, hda, hdb⟩
  | orElse a b iha ihb =>
    rcases h with ha | hb
    · obtain ⟨t, hs, ha⟩ := iha ha
      exact ⟨t, hs, .inl ha⟩
    · obtain ⟨t, hs, hb⟩ := ihb hb
      exact ⟨t, hs, .inr hb⟩
  | star a ih =>
    induction h with
    | nil s => exact ⟨[], rfl, [], rfl, rfl, by simp⟩
    | cons hv _ ihrow =>
      obtain ⟨t, rfl, hd⟩ := ih hv
      obtain ⟨_, rfl, parts, rfl, rfl, hparts⟩ := ihrow
      refine ⟨t ++ (parts.map Prod.snd).flatten, (List.append_assoc ..).symm, (_, t) :: parts, rfl,
        rfl, fun v' t' hmem => ?_⟩
      rcases List.mem_cons.mp hmem with hvt | hmem
      · cases hvt
        exact hd
      · exact hparts v' t' hmem
  | notAt a ih =>
    obtain rfl := h
    exact ⟨[], rfl, rfl⟩
  | map f a ih =>
    obtain ⟨x, hx, rfl⟩ := h
    obtain ⟨t, hs, hx⟩ := ih hx
    exact ⟨t, hs, x, hx, rfl⟩
  | source a ih =>
    obtain ⟨rfl, x, hx⟩ := h
    obtain ⟨t, hs, hx⟩ := ih hx
    obtain rfl := List.append_cancel_right hs
    exact ⟨v, rfl, rfl, x, hx⟩

/-- A match is a derivation of what it takes. -/
theorem run_derives {P : (r : ν) → V r → Text → Prop} {fuel : Nat}
    {rules : (r : ν) → Text → Outcome (V r)} (h : ∀ r, Yields (rules r) (P r)) (e : Peg V α) :
    Yields (e.run fuel rules) (e.Derives P) := by
  intro s v n rest hm
  have hsplits : ∀ r, Splits (rules r) := fun r s v n rest hr =>
    let ⟨t, hs, ht, _⟩ := h r s v n rest hr
    ⟨t, hs, ht⟩
  have hleaves := run_leaves hsplits (P := fun r v s rest => ∃ t, s = t ++ rest ∧ P r v t)
    (fun r s v n rest hr => let ⟨t, hs, _, hv⟩ := h r s v n rest hr; ⟨t, hs, hv⟩) e s v n rest hm
  obtain ⟨t, rfl, hd⟩ := derives_of_leaves e hleaves
  obtain ⟨taken, hs, rfl⟩ := run_splits hsplits e _ v n rest hm
  obtain rfl := List.append_cancel_right hs
  exact ⟨t, rfl, rfl, hd⟩

/-- **What derivations keep, matches keep.** If `P` holds of what the expression of a nonterminal
derives wherever it holds of the nonterminals in it, it holds of every match of a nonterminal. -/
theorem matchRule_derives {body : (r : ν) → Peg V (V r)} {P : (r : ν) → V r → Text → Prop}
    (h : ∀ r v t, (body r).Derives P v t → P r v t) (fuel : Nat) (r : ν) :
    Yields (matchRule body fuel r) (P r) := by
  induction fuel generalizing r with
  | zero => intro s v n rest hm; cases hm
  | succ fuel ih =>
    intro s v n rest hm
    obtain ⟨t, hs, ht, hd⟩ := run_derives ih (body r) s v n rest hm
    exact ⟨t, hs, ht, h r v t hd⟩

end RuleTypes.Peg
