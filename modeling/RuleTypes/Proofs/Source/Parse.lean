import RuleTypes.Proofs.Peg.Fuel
import RuleTypes.Source.Reading

/-!
# Reading without fuel

Grammar sources are matched with fuel, and there is always enough of it. `Expression.parse` is the
match without its fuel and width: the value and the text behind it, or nothing.

* `Nonterminal.scan_ne_outOfFuel`: matching a nonterminal never runs out of fuel.
* `Expression.parse_rule`, `Expression.parse_seq` and so on: one equation for each operator, so that
  reading is computed from the text alone.
* `readRules_eq_ok_iff`: the rules of a text are what is read of it where nothing is left.
-/

namespace RuleTypes

/-- The value of a match and the text behind it. -/
def Outcome.result? {α : Type} : Outcome α → Option (α × Text)
  | .ok a _ rest => some (a, rest)
  | .fail => none
  | .outOfFuel => none

theorem Outcome.result?_eq_some {α : Type} {o : Outcome α} {a : α} {rest : Text} :
    o.result? = some (a, rest) ↔ ∃ n, o = .ok a n rest := by
  cases o <;> simp [Outcome.result?]

namespace Source

open Expression

/-! ## Enough fuel -/

namespace Nonterminal

/-- The nonterminals that may match nothing. -/
def isNullable : Nonterminal → Bool
  | .grammar => true
  | .rangeBounds => true
  | .codeBody => true
  | .blank => true
  | _ => false

/-- The number of nonterminals that may be entered one in the other where a nonterminal begins. -/
def rank : Nonterminal → Nat
  | .choice => 10
  | .actionExpr => 9
  | .sequence => 8
  | .labeled => 7
  | .prefixed => 6
  | .operatorExpr => 5
  | .suffixed => 4
  | .grammar => 3
  | .rangeBounds => 3
  | .primary => 3
  | .ruleHead => 3
  | .initializer => 2
  | .rule => 2
  | .displayName => 2
  | .action => 2
  | .label => 2
  | .suffix => 2
  | .rangeBound => 2
  | .literal => 2
  | .ruleRef => 2
  | .codeBody => 2
  | _ => 1

theorem nullable_body (r : Nonterminal) (h : r.isNullable = false) :
    (body r).nullable isNullable = false := by
  revert h
  cases r <;> decide

theorem rank_lt_of_mem_heads (r : Nonterminal) :
    ∀ q ∈ (body r).heads isNullable, q.rank < r.rank := by
  cases r <;> decide

theorem rank_pos (r : Nonterminal) : 0 < r.rank := by
  cases r <;> decide

theorem rank_lt (r : Nonterminal) : r.rank < all.length := by
  cases r <;> decide

theorem matchRule_ne_outOfFuel {n : Nat} {s : Text} (hn : fuelFor s ≤ n) (r : Nonterminal) :
    Peg.matchRule body n r s ≠ .outOfFuel := by
  refine Peg.matchRule_ne_outOfFuel nullable_body rank_lt_of_mem_heads rank_pos rank_lt n r s ?_
  have := rank_lt r
  rw [fuelFor, Nat.mul_succ] at hn
  omega

/-- Matching a nonterminal never runs out of fuel. -/
theorem scan_ne_outOfFuel (r : Nonterminal) (s : Text) : r.scan s ≠ .outOfFuel :=
  matchRule_ne_outOfFuel (Nat.le_refl _) r

/-- A match with some fuel is what matching a nonterminal gives. -/
theorem scan_of_matchRule {fuel n : Nat} {r : Nonterminal} {s rest : Text} {v : r.Value}
    (h : Peg.matchRule body fuel r s = .ok v n rest) : r.scan s = .ok v n rest := by
  have hscan := Peg.matchRule_le body (Nat.le_max_left (fuelFor s) fuel) r s (scan_ne_outOfFuel r s)
  have hmatch := Peg.matchRule_le body (Nat.le_max_right (fuelFor s) fuel) r s (by rw [h]; nofun)
  exact hscan.symm.trans (hmatch.trans h)

theorem fuelFor_le {s t : Text} (h : s.length ≤ t.length) : fuelFor s ≤ fuelFor t :=
  Nat.mul_le_mul_left _ (Nat.succ_le_succ h)

theorem fuelFor_lt {s t : Text} (h : s.length < t.length) : fuelFor s < fuelFor t :=
  Nat.mul_lt_mul_of_pos_left (Nat.succ_lt_succ h) (by decide)

theorem length_lt_fuelFor (s : Text) : s.length < fuelFor s := by
  have h : all.length = 34 := rfl
  rw [fuelFor, h]
  omega

end Nonterminal

namespace Expression

open Nonterminal

variable {α β : Type} {s rest : Text}

/-- An expression matched with fuel `n`. -/
abbrev runWith (n : Nat) (e : Expression α) : Text → Outcome α := e.run n (Peg.matchRule body n)

theorem runWith_ne_outOfFuel {n : Nat} (hn : fuelFor s ≤ n) (e : Expression α) :
    e.runWith n s ≠ .outOfFuel := by
  have := length_lt_fuelFor s
  refine Peg.run_ne_outOfFuel (Peg.matchRule_splits body n)
    (Peg.matchRule_progresses nullable_body n) e (by omega)
    (fun r _ => matchRule_ne_outOfFuel hn r) fun r s' hs' => ?_
  exact matchRule_ne_outOfFuel (Nat.le_trans (fuelFor_le (Nat.le_of_lt hs')) hn) r

theorem runWith_splits (n : Nat) (e : Expression α) : Peg.Splits (e.runWith n) :=
  Peg.run_splits (Peg.matchRule_splits body n) e

theorem runWith_eq {n m : Nat} (hn : fuelFor s ≤ n) (hm : fuelFor s ≤ m) (e : Expression α) :
    e.runWith n s = e.runWith m s := by
  have hle : ∀ {k : Nat}, fuelFor s ≤ k → e.runWith k s = e.runWith (fuelFor s) s := fun hk =>
    Peg.run_le (Peg.matchRule_le body hk) hk e s (runWith_ne_outOfFuel (Nat.le_refl _) e)
  rw [hle hn, hle hm]

/-- What an expression reads at the start of a text: a value and the text behind it. -/
def parse (e : Expression α) (s : Text) : Option (α × Text) := (e.runWith (fuelFor s) s).result?

theorem parse_eq {n : Nat} (hn : fuelFor s ≤ n) (e : Expression α) :
    e.parse s = (e.runWith n s).result? := by
  rw [parse, runWith_eq (Nat.le_refl _) hn]

/-- A match is one of a text with the width that has been taken off. -/
theorem runWith_eq_ok_iff {n : Nat} (hn : fuelFor s ≤ n) {e : Expression α} {a : α} {k : Nat} :
    e.runWith n s = .ok a k rest ↔ e.parse s = some (a, rest) ∧ s.length = k + rest.length := by
  rw [parse_eq hn]
  constructor
  · intro h
    exact ⟨by rw [h]; rfl, (runWith_splits n e).length_eq h⟩
  · rintro ⟨h, hlength⟩
    obtain ⟨m, hrun⟩ := Outcome.result?_eq_some.mp h
    have := (runWith_splits n e).length_eq hrun
    rw [hrun, show m = k by omega]

theorem runWith_eq_fail_iff {n : Nat} (hn : fuelFor s ≤ n) {e : Expression α} :
    e.runWith n s = .fail ↔ e.parse s = none := by
  rw [parse_eq hn]
  cases hrun : e.runWith n s with
  | outOfFuel => exact absurd hrun (runWith_ne_outOfFuel hn e)
  | _ => simp [Outcome.result?]

/-- What is read is the start of the text. -/
theorem exists_append_of_parse {e : Expression α} {a : α} (h : e.parse s = some (a, rest)) :
    ∃ taken, s = taken ++ rest := by
  obtain ⟨n, hrun⟩ := Outcome.result?_eq_some.mp h
  obtain ⟨taken, hs, -⟩ := runWith_splits _ e s _ _ _ hrun
  exact ⟨taken, hs⟩

theorem length_le_of_parse {e : Expression α} {a : α} (h : e.parse s = some (a, rest)) :
    rest.length ≤ s.length := by
  obtain ⟨taken, rfl⟩ := exists_append_of_parse h
  rw [List.length_append]
  omega

/-! ## Operators -/

theorem parse_satisfy_nil (p : CodePoint → Bool) : parse (.satisfy p) [] = none := rfl

theorem parse_satisfy_cons (p : CodePoint → Bool) (c : CodePoint) (s : Text) :
    parse (.satisfy p) (c :: s) = if p c then some (c, s) else none := by
  change (if p c then Outcome.ok c 1 s else .fail).result? = _
  split <;> rfl

theorem parse_pure (a : α) (s : Text) : parse (.pure a) s = some (a, s) := rfl

/-- A nonterminal reads what its expression reads. -/
theorem parse_rule (r : Nonterminal) (s : Text) : parse (rule r) s = parse (body r) s :=
  parse_eq (Nat.le_succ _) (rule r)

theorem parse_seq (a : Expression α) (b : Expression β) (s : Text) :
    parse (.seq a b) s =
      (parse a s).bind fun (x, rest) => (parse b rest).map fun (y, rest') => ((x, y), rest') := by
  change ((a.runWith (fuelFor s) s).andThen fun x rest =>
    (b.runWith (fuelFor s) rest).map fun y => (x, y)).result? = _
  rw [parse]
  cases ha : a.runWith (fuelFor s) s with
  | fail => rfl
  | outOfFuel => rfl
  | ok x n rest =>
    have hlength := (runWith_splits _ a).length_eq ha
    have hb := parse_eq (fuelFor_le (show rest.length ≤ s.length by omega)) b
    simp only [Outcome.andThen, Outcome.result?, Option.bind_some, hb]
    cases b.runWith (fuelFor s) rest <;> rfl

theorem parse_orElse (a b : Expression α) (s : Text) :
    parse (.orElse a b) s = (parse a s).or (parse b s) := by
  have hne := runWith_ne_outOfFuel (Nat.le_refl (fuelFor s)) a
  unfold parse runWith
  rw [Peg.run]
  cases ha : a.run (fuelFor s) (Peg.matchRule body (fuelFor s)) s with
  | outOfFuel => exact absurd ha hne
  | _ => rfl

theorem parse_map (f : α → β) (a : Expression α) (s : Text) :
    parse (.map f a) s = (parse a s).map fun (x, rest) => (f x, rest) := by
  unfold parse runWith
  rw [Peg.run]
  cases a.run (fuelFor s) (Peg.matchRule body (fuelFor s)) s <;> rfl

theorem parse_notAt (a : Expression α) (s : Text) :
    parse (.notAt a) s = if (parse a s).isSome then none else some ((), s) := by
  have hne := runWith_ne_outOfFuel (Nat.le_refl (fuelFor s)) a
  unfold parse runWith
  rw [Peg.run]
  cases ha : a.run (fuelFor s) (Peg.matchRule body (fuelFor s)) s with
  | outOfFuel => exact absurd ha hne
  | _ => rfl

theorem parse_source (a : Expression α) (s : Text) :
    parse (.source a) s =
      (parse a s).map fun (_, rest) => (s.take (s.length - rest.length), rest) := by
  unfold parse runWith
  rw [Peg.run]
  cases ha : a.run (fuelFor s) (Peg.matchRule body (fuelFor s)) s with
  | ok x n rest =>
    have hlength := (runWith_splits _ a).length_eq ha
    have hn : s.length - rest.length = n := by omega
    change some (s.take n, rest) = some (s.take (s.length - rest.length), rest)
    rw [hn]
  | _ => rfl

/-- A repetition goes on behind a match that has taken something. -/
theorem parse_star (a : Expression α) (s : Text) :
    parse (.star a) s =
      match parse a s with
      | none => some ([], s)
      | some (x, rest) =>
        if rest.length = s.length then some ([x], rest)
        else (parse (.star a) rest).map fun (xs, rest') => (x :: xs, rest') := by
  change (Peg.many (a.runWith (fuelFor s)) (fuelFor s) s).result? = _
  obtain ⟨n, hn⟩ : ∃ n, fuelFor s = n + 1 := ⟨fuelFor s - 1, by have := length_lt_fuelFor s; omega⟩
  have hne := runWith_ne_outOfFuel (Nat.le_refl (fuelFor s)) a
  rw [parse]
  generalize hm : fuelFor s = m at hn hne ⊢
  subst hn
  cases ha : a.runWith (n + 1) s with
  | outOfFuel => exact absurd ha hne
  | fail => simp only [Peg.many, ha, Outcome.result?]
  | ok x k rest =>
    have hlength := (runWith_splits _ a).length_eq ha
    by_cases hk : k = 0
    · rw [Peg.many, ha]
      simp only [if_pos hk, Outcome.result?, if_pos (show rest.length = s.length by omega)]
    · have hlt := fuelFor_lt (show rest.length < s.length by omega)
      have hrest : Peg.many (a.runWith (n + 1)) n rest =
          Expression.runWith (fuelFor rest) (.star a) rest := by
        refine Peg.many_le (fun s' => ?_) (by omega) rest
          (runWith_ne_outOfFuel (Nat.le_refl (fuelFor rest)) (.star a))
        exact Peg.run_le (Peg.matchRule_le body (by omega)) (by omega) a s'
      rw [Peg.many, ha]
      simp only [if_neg hk, Outcome.andThen, hrest, Outcome.result?,
        if_neg (show rest.length ≠ s.length by omega), parse]
      cases Expression.runWith (fuelFor rest) (.star a) rest <;> rfl

/-! ## Steps

What an expression reads, from what its parts read one behind the other. -/

section Steps

variable {a : Expression α} {b : Expression β} {x : α} {y : β} {t u : Text}

theorem parse_seq_of (ha : parse a s = some (x, t)) (hb : parse b t = some (y, u)) :
    parse (.seq a b) s = some ((x, y), u) := by
  rw [parse_seq, ha, Option.bind_some]
  change (parse b t).map _ = _
  rw [hb]
  rfl

theorem parse_seq_none (ha : parse a s = none) (b : Expression β) :
    parse (.seq a b) s = none := by
  rw [parse_seq, ha]
  rfl

theorem parse_seq_of_none (ha : parse a s = some (x, t)) (hb : parse b t = none) :
    parse (.seq a b) s = none := by
  rw [parse_seq, ha, Option.bind_some]
  change (parse b t).map _ = _
  rw [hb]
  rfl

theorem parse_map_of (f : α → β) (ha : parse a s = some (x, t)) :
    parse (f <$> a) s = some (f x, t) :=
  (parse_map f a s).trans (by rw [ha]; rfl)

theorem parse_map_none (f : α → β) (ha : parse a s = none) : parse (f <$> a) s = none :=
  (parse_map f a s).trans (by rw [ha]; rfl)

theorem parse_left_of (ha : parse a s = some (x, t)) (hb : parse b t = some (y, u)) :
    parse (a <* b) s = some (x, u) :=
  parse_map_of Prod.fst (parse_seq_of ha hb)

theorem parse_left_none (ha : parse a s = none) (b : Expression β) : parse (a <* b) s = none :=
  parse_map_none Prod.fst (parse_seq_none ha b)

theorem parse_left_of_none (ha : parse a s = some (x, t)) (hb : parse b t = none) :
    parse (a <* b) s = none :=
  parse_map_none Prod.fst (parse_seq_of_none ha hb)

theorem parse_right_of (ha : parse a s = some (x, t)) (hb : parse b t = some (y, u)) :
    parse (a *> b) s = some (y, u) :=
  parse_map_of Prod.snd (parse_seq_of ha hb)

theorem parse_right_none (ha : parse a s = none) (b : Expression β) : parse (a *> b) s = none :=
  parse_map_none Prod.snd (parse_seq_none ha b)

theorem parse_right_of_none (ha : parse a s = some (x, t)) (hb : parse b t = none) :
    parse (a *> b) s = none :=
  parse_map_none Prod.snd (parse_seq_of_none ha hb)

theorem parse_or_of (ha : parse a s = some (x, t)) (a' : Expression α) :
    parse (a <|> a') s = some (x, t) :=
  (parse_orElse a a' s).trans (by rw [ha]; rfl)

theorem parse_or_of_none {a' : Expression α} {found : Option (α × Text)} (ha : parse a s = none)
    (ha' : parse a' s = found) : parse (a <|> a') s = found :=
  (parse_orElse a a' s).trans (by rw [ha, ha']; rfl)

theorem parse_opt_of (ha : parse a s = some (x, t)) : parse (.opt a) s = some (some x, t) :=
  parse_or_of (parse_map_of some ha) (.pure none)

theorem parse_opt_none (ha : parse a s = none) : parse (.opt a) s = some (none, s) :=
  parse_or_of_none (parse_map_none some ha) (parse_pure none s)

/-- An option never fails. -/
theorem exists_parse_opt (a : Expression α) (s : Text) :
    ∃ found t, parse (.opt a) s = some (found, t) := by
  cases ha : parse a s with
  | none => exact ⟨none, s, parse_opt_none ha⟩
  | some found => exact ⟨some found.1, found.2, parse_opt_of ha⟩

theorem parse_notAt_of (ha : parse a s = none) : parse (.notAt a) s = some ((), s) := by
  rw [parse_notAt, ha]
  rfl

theorem parse_source_of (taken : Text) (ha : parse a (taken ++ t) = some (x, t)) :
    parse (.source a) (taken ++ t) = some (taken, t) := by
  have hlength : (taken ++ t).length - t.length = taken.length := by
    rw [List.length_append, Nat.add_sub_cancel]
  rw [parse_source, ha, Option.map_some]
  change some ((taken ++ t).take ((taken ++ t).length - t.length), t) = _
  rw [hlength, List.take_left]

theorem parse_source_none (ha : parse a s = none) : parse (.source a) s = none := by
  rw [parse_source, ha]
  rfl

/-- An expression that cannot match nothing takes a code point. -/
theorem length_lt_of_parse (hnull : a.nullable isNullable = false)
    (ha : parse a s = some (x, t)) : t.length < s.length := by
  have hle := length_le_of_parse ha
  have hrun := (runWith_eq_ok_iff (Nat.le_refl _)).mpr ⟨ha, (Nat.sub_add_cancel hle).symm⟩
  have := Peg.run_progresses (Peg.matchRule_progresses nullable_body _) a hnull s x _ t hrun
  omega

theorem parse_star_none (ha : parse a s = none) : parse (.star a) s = some ([], s) := by
  rw [parse_star, ha]

theorem parse_star_of {xs : List α} (hnull : a.nullable isNullable = false)
    (ha : parse a s = some (x, t)) (hstar : parse (.star a) t = some (xs, u)) :
    parse (.star a) s = some (x :: xs, u) := by
  have hlt := length_lt_of_parse hnull ha
  rw [parse_star, ha]
  simp only [if_neg (Nat.ne_of_lt hlt), hstar, Option.map_some]

/-- A repetition never fails. -/
theorem exists_parse_star (hnull : a.nullable isNullable = false) (s : Text) :
    ∃ xs t, parse (.star a) s = some (xs, t) := by
  induction h : s.length using Nat.strongRecOn generalizing s with
  | _ n ih =>
    subst h
    cases ha : parse a s with
    | none => exact ⟨[], s, parse_star_none ha⟩
    | some found =>
      obtain ⟨x, t⟩ := found
      obtain ⟨xs, u, hu⟩ := ih t.length (length_lt_of_parse hnull ha) t rfl
      exact ⟨x :: xs, u, parse_star_of hnull ha hu⟩

/-- A repetition is a match and a repetition behind it, or nothing. -/
theorem parse_star_eq (hnull : a.nullable isNullable = false) (s : Text) :
    parse (.star a) s = parse ((fun (x, xs) => x :: xs) <$> .seq a (.star a) <|> .pure []) s := by
  cases ha : parse a s with
  | none =>
    rw [parse_star_none ha,
      parse_or_of_none (parse_map_none _ (parse_seq_none ha _)) (parse_pure [] s)]
  | some found =>
    obtain ⟨x, t⟩ := found
    obtain ⟨xs, u, hu⟩ := exists_parse_star hnull t
    rw [parse_star_of hnull ha hu, parse_or_of (parse_map_of _ (parse_seq_of ha hu))]

theorem parse_plus_of {xs : List α} (ha : parse a s = some (x, t))
    (hstar : parse (.star a) t = some (xs, u)) : parse (.plus a) s = some (x :: xs, u) :=
  parse_map_of _ (parse_seq_of ha hstar)

theorem parse_plus_none (ha : parse a s = none) : parse (.plus a) s = none :=
  parse_map_none _ (parse_seq_none ha _)

/-! What the parts have read, from what an expression has read. -/

theorem parse_seq_eq_some {p : α × β} :
    parse (.seq a b) s = some (p, u) ↔
      ∃ t, parse a s = some (p.1, t) ∧ parse b t = some (p.2, u) := by
  constructor
  · intro h
    cases ha : parse a s with
    | none => rw [parse_seq_none ha] at h; cases h
    | some found =>
      obtain ⟨x, t⟩ := found
      cases hb : parse b t with
      | none => rw [parse_seq_of_none ha hb] at h; cases h
      | some found =>
        obtain ⟨y, u'⟩ := found
        rw [parse_seq_of ha hb] at h
        cases h
        exact ⟨t, rfl, hb⟩
  · rintro ⟨t, ha, hb⟩
    exact parse_seq_of ha hb

theorem parse_seq_eq_none :
    parse (.seq a b) s = none ↔
      parse a s = none ∨ ∃ x t, parse a s = some (x, t) ∧ parse b t = none := by
  constructor
  · intro h
    cases ha : parse a s with
    | none => exact .inl rfl
    | some found =>
      obtain ⟨x, t⟩ := found
      refine .inr ⟨x, t, rfl, ?_⟩
      cases hb : parse b t with
      | none => rfl
      | some found => rw [parse_seq_of ha hb] at h; cases h
  · rintro (ha | ⟨x, t, ha, hb⟩)
    · exact parse_seq_none ha b
    · exact parse_seq_of_none ha hb

theorem parse_map_eq_some {f : α → β} :
    parse (f <$> a) s = some (y, t) ↔ ∃ x, parse a s = some (x, t) ∧ f x = y := by
  change parse (.map f a) s = _ ↔ _
  rw [parse_map, Option.map_eq_some_iff]
  simp only [Prod.exists, Prod.mk.injEq]
  constructor
  · rintro ⟨x, t, ha, rfl, rfl⟩
    exact ⟨x, ha, rfl⟩
  · rintro ⟨x, ha, rfl⟩
    exact ⟨x, t, ha, rfl, rfl⟩

theorem parse_left_eq_some :
    parse (a <* b) s = some (x, u) ↔
      ∃ t y, parse a s = some (x, t) ∧ parse b t = some (y, u) := by
  refine parse_map_eq_some.trans ⟨?_, ?_⟩
  · rintro ⟨⟨x, y⟩, h, rfl⟩
    obtain ⟨t, ha, hb⟩ := parse_seq_eq_some.mp h
    exact ⟨t, y, ha, hb⟩
  · rintro ⟨t, y, ha, hb⟩
    exact ⟨(x, y), parse_seq_of ha hb, rfl⟩

theorem parse_right_eq_some :
    parse (a *> b) s = some (y, u) ↔
      ∃ x t, parse a s = some (x, t) ∧ parse b t = some (y, u) := by
  refine parse_map_eq_some.trans ⟨?_, ?_⟩
  · rintro ⟨⟨x, y⟩, h, rfl⟩
    obtain ⟨t, ha, hb⟩ := parse_seq_eq_some.mp h
    exact ⟨x, t, ha, hb⟩
  · rintro ⟨x, t, ha, hb⟩
    exact ⟨(x, y), parse_seq_of ha hb, rfl⟩

theorem parse_map_eq_none {f : α → β} : parse (f <$> a) s = none ↔ parse a s = none := by
  change parse (.map f a) s = _ ↔ _
  rw [parse_map, Option.map_eq_none_iff]

theorem parse_or_eq_some {a' : Expression α} :
    parse (a <|> a') s = some (x, t) ↔
      parse a s = some (x, t) ∨ parse a s = none ∧ parse a' s = some (x, t) := by
  change parse (.orElse a a') s = _ ↔ _
  rw [parse_orElse, Option.or_eq_some_iff]

theorem parse_or_eq_none {a' : Expression α} :
    parse (a <|> a') s = none ↔ parse a s = none ∧ parse a' s = none := by
  change parse (.orElse a a') s = _ ↔ _
  rw [parse_orElse, Option.or_eq_none_iff]

end Steps

/-! ## Characters -/

theorem parse_char (c : Char) (s : Text) :
    parse (.char c) (CodePoint.ofChar c :: s) = some (CodePoint.ofChar c, s) :=
  (parse_satisfy_cons _ _ s).trans (if_pos (decide_eq_true rfl))

theorem parse_char_none {c : Char} {d : CodePoint} (h : d ≠ c) (s : Text) :
    parse (.char c) (d :: s) = none :=
  (parse_satisfy_cons _ _ s).trans (if_neg (by simpa using h))

theorem parse_char_nil (c : Char) : parse (.char c) [] = none := parse_satisfy_nil _

/-- A repetition of single code points takes all there are. -/
theorem parse_star_satisfy (p : CodePoint → Bool) (s : Text) :
    parse (.star (.satisfy p)) s = some (s.takeWhile p, s.dropWhile p) := by
  induction s with
  | nil => exact parse_star_none (parse_satisfy_nil p)
  | cons c s ih =>
    by_cases hc : p c = true
    · rw [List.takeWhile_cons_of_pos hc, List.dropWhile_cons_of_pos hc]
      refine parse_star_of rfl ?_ ih
      rw [parse_satisfy_cons, if_pos hc]
    · rw [List.takeWhile_cons_of_neg hc, List.dropWhile_cons_of_neg hc]
      refine parse_star_none ?_
      rw [parse_satisfy_cons, if_neg hc]

end Expression

/-! ## Sources -/

/-- Matching a nonterminal with its fuel is reading it. -/
theorem scan_eq (r : Nonterminal) (s : Text) :
    r.scan s =
      match parse (rule r) s with
      | some (a, rest) => .ok a (s.length - rest.length) rest
      | none => .fail := by
  have hle := Nat.le_refl (Nonterminal.fuelFor s)
  change runWith (Nonterminal.fuelFor s) (rule r) s = _
  cases h : parse (rule r) s with
  | none => exact (runWith_eq_fail_iff hle).mpr h
  | some found =>
    have := length_le_of_parse h
    exact (runWith_eq_ok_iff hle).mpr ⟨h, by omega⟩

theorem scan_eq_ok_iff {r : Nonterminal} {s rest : Text} {a : r.Value} {n : Nat} :
    r.scan s = .ok a n rest ↔ parse (rule r) s = some (a, rest) ∧ s.length = n + rest.length := by
  change runWith (Nonterminal.fuelFor s) (rule r) s = _ ↔ _
  exact runWith_eq_ok_iff (Nat.le_refl _)

/-- What is read is taken off the text. -/
theorem exists_scan_of_parse {r : Nonterminal} {s rest : Text} {a : r.Value}
    (h : parse (rule r) s = some (a, rest)) :
    ∃ n, n ≤ s.length ∧ rest = s.drop n ∧ r.scan s = .ok a n rest := by
  obtain ⟨taken, rfl⟩ := exists_append_of_parse h
  have hlength : (taken ++ rest).length = taken.length + rest.length := List.length_append
  refine ⟨taken.length, by omega, List.drop_left.symm, scan_eq_ok_iff.mpr ⟨h, hlength⟩⟩

/-- The rules of a text are what is read of it, where nothing is left. -/
theorem readRules_eq_ok_iff {s : Text} {rules : List Rule} :
    readRules s = .ok rules ↔ parse (rule .grammar) s = some (rules, []) := by
  rw [readRules, scan_eq]
  cases h : parse (rule .grammar) s with
  | none => simp
  | some found =>
    obtain ⟨found, rest⟩ := found
    cases rest <;> simp

/-- Whether the rules of a text are these, with nothing behind them. -/
def Matches (source : Text) (written : List Rule) : Prop :=
  ∃ width, Nonterminal.scan .grammar source = .ok written width []

theorem readRules_eq_ok_iff_matches {source : Text} {written : List Rule} :
    readRules source = .ok written ↔ Matches source written := by
  rw [readRules, Matches]
  split <;> simp_all

theorem matches_iff {source : Text} {written : List Rule} :
    Matches source written ↔ parse (rule .grammar) source = some (written, []) :=
  readRules_eq_ok_iff_matches.symm.trans readRules_eq_ok_iff

end Source

end RuleTypes
