import RuleTypes.Text.CodePoint

/-!
# Parsing expressions

A parsing expression (`Peg V α`) matches a text from its start and gives a value of type `α`.
Choices are ordered and repetitions greedy; neither is ever taken back. `V r` is the type of the
values of nonterminal `r`, so a whole grammar is one function from nonterminals to expressions.

* `Peg.run` interprets an expression, given an interpretation of the nonterminals. It stops by
  itself: repetitions are bounded by `fuel`.
* `Peg.matchRule` interprets a nonterminal of a grammar: every step into a rule costs one unit of
  fuel. Running out of fuel is an outcome of its own, different from a failure to match.
* `Peg.matchRule_splits`: a match takes as many code points off the text as its width says.
-/

namespace RuleTypes

/-- What matching the start of a text ends in. -/
inductive Outcome (α : Type) where
  /-- A match with its value, its number of code points and the text behind it. -/
  | ok (value : α) (width : Nat) (rest : Text)
  | fail
  | outOfFuel

namespace Outcome

variable {α β : Type}

/-- Goes on behind a match; the widths add up. -/
def andThen : Outcome α → (α → Text → Outcome β) → Outcome β
  | .ok a m rest, next =>
    match next a rest with
    | .ok b n rest' => .ok b (m + n) rest'
    | .fail => .fail
    | .outOfFuel => .outOfFuel
  | .fail, _ => .fail
  | .outOfFuel, _ => .outOfFuel

def map (f : α → β) : Outcome α → Outcome β
  | .ok a n rest => .ok (f a) n rest
  | .fail => .fail
  | .outOfFuel => .outOfFuel

/-- The width of a match, if it is one. -/
def width? : Outcome α → Option Nat
  | .ok _ n _ => some n
  | .fail => none
  | .outOfFuel => none

theorem map_eq_ok {f : α → β} {o : Outcome α} {b : β} {n : Nat} {rest : Text} :
    o.map f = .ok b n rest ↔ ∃ a, o = .ok a n rest ∧ f a = b := by
  cases o <;> simp [map]
  grind

theorem andThen_eq_ok {o : Outcome α} {next : α → Text → Outcome β} {b : β} {n : Nat}
    {rest : Text} :
    o.andThen next = .ok b n rest ↔
      ∃ a m k rest', o = .ok a m rest' ∧ next a rest' = .ok b k rest ∧ n = m + k := by
  cases o with
  | ok a m rest' =>
    simp only [andThen]
    cases h : next a rest' <;> simp <;> grind
  | fail => simp [andThen]
  | outOfFuel => simp [andThen]

end Outcome

/-- A parsing expression with values in `α`, over nonterminals whose values `V` gives. -/
inductive Peg {ν : Type} (V : ν → Type) : Type → Type 1 where
  /-- One code point that satisfies `p`. -/
  | satisfy (p : CodePoint → Bool) : Peg V CodePoint
  /-- Nothing. -/
  | pure {α : Type} (value : α) : Peg V α
  /-- A nonterminal. -/
  | call (r : ν) : Peg V (V r)
  /-- Two expressions, one behind the other. -/
  | seq {α β : Type} (a : Peg V α) (b : Peg V β) : Peg V (α × β)
  /-- The second expression where the first does not match. -/
  | orElse {α : Type} (a b : Peg V α) : Peg V α
  /-- As many matches in a row as there are. -/
  | star {α : Type} (a : Peg V α) : Peg V (List α)
  /-- Nothing, at a place where the expression does not match. -/
  | notAt {α : Type} (a : Peg V α) : Peg V Unit
  /-- The expression with another value. -/
  | map {α β : Type} (f : α → β) (a : Peg V α) : Peg V β
  /-- The expression with the matched text as its value. -/
  | source {α : Type} (a : Peg V α) : Peg V Text

namespace Peg

variable {ν : Type} {V : ν → Type} {α β : Type}

instance : Functor (Peg V) where
  map := .map

instance : SeqLeft (Peg V) where
  seqLeft a b := .map Prod.fst (.seq a (b ()))

instance : SeqRight (Peg V) where
  seqRight a b := .map Prod.snd (.seq a (b ()))

instance : OrElse (Peg V α) where
  orElse a b := .orElse a (b ())

/-- The character `c`. -/
def char (c : Char) : Peg V CodePoint := .satisfy (· = c)

/-- One match or nothing. -/
def opt (a : Peg V α) : Peg V (Option α) := some <$> a <|> .pure none

/-- One match or more. -/
def plus (a : Peg V α) : Peg V (List α) := (fun (x, xs) => x :: xs) <$> .seq a (.star a)

/-- `step` as often in a row as it matches, at most `fuel` times. A match of width zero is the
last. -/
def many (step : Text → Outcome α) : Nat → Text → Outcome (List α)
  | 0, _ => .outOfFuel
  | fuel + 1, s =>
    match step s with
    | .ok a n rest =>
      if n = 0 then .ok [a] 0 rest
      else Outcome.andThen (.ok a n rest) fun a rest => (many step fuel rest).map (a :: ·)
    | .fail => .ok [] 0 s
    | .outOfFuel => .outOfFuel

/-- Matches an expression at the start of a text. -/
def run (fuel : Nat) (rules : (r : ν) → Text → Outcome (V r)) :
    {α : Type} → Peg V α → Text → Outcome α
  | _, .satisfy p, s =>
    match s with
    | [] => .fail
    | c :: rest => if p c then .ok c 1 rest else .fail
  | _, .pure a, s => .ok a 0 s
  | _, .call r, s => rules r s
  | _, .seq a b, s =>
    (a.run fuel rules s).andThen fun x rest => (b.run fuel rules rest).map fun y => (x, y)
  | _, .orElse a b, s =>
    match a.run fuel rules s with
    | .fail => b.run fuel rules s
    | outcome => outcome
  | _, .star a, s => many (a.run fuel rules) fuel s
  | _, .notAt a, s =>
    match a.run fuel rules s with
    | .ok _ _ _ => .fail
    | .fail => .ok () 0 s
    | .outOfFuel => .outOfFuel
  | _, .map f a, s => (a.run fuel rules s).map f
  | _, .source a, s =>
    match a.run fuel rules s with
    | .ok _ n rest => .ok (s.take n) n rest
    | .fail => .fail
    | .outOfFuel => .outOfFuel

/-- Matches a nonterminal of the grammar `body` at the start of a text. -/
def matchRule (body : (r : ν) → Peg V (V r)) : Nat → (r : ν) → Text → Outcome (V r)
  | 0, _, _ => .outOfFuel
  | fuel + 1, r, s => (body r).run fuel (matchRule body fuel) s

/-! ## Widths -/

/-- The matches of `step` split the text at their width. -/
def Splits (step : Text → Outcome α) : Prop :=
  ∀ s a n rest, step s = .ok a n rest → ∃ taken, s = taken ++ rest ∧ taken.length = n

theorem many_splits {step : Text → Outcome α} (h : Splits step) (fuel : Nat) :
    Splits (many step fuel) := by
  induction fuel with
  | zero => intro s a n rest hm; simp [many] at hm
  | succ fuel ih =>
    intro s as n rest hm
    simp only [many] at hm
    split at hm
    · rename_i a m rest' hs
      obtain ⟨t, rfl, ht⟩ := h _ _ _ _ hs
      split at hm
      · cases hm; exact ⟨t, rfl, by omega⟩
      · obtain ⟨_, _, k, _, he, hk, rfl⟩ := Outcome.andThen_eq_ok.mp hm
        cases he
        obtain ⟨bs, hb, -⟩ := Outcome.map_eq_ok.mp hk
        obtain ⟨t', rfl, ht'⟩ := ih _ _ _ _ hb
        exact ⟨t ++ t', by simp, by simp; omega⟩
    · cases hm; exact ⟨[], rfl, rfl⟩
    · cases hm

theorem run_splits {fuel : Nat} {rules : (r : ν) → Text → Outcome (V r)}
    (h : ∀ r, Splits (rules r)) (e : Peg V α) : Splits (e.run fuel rules) := by
  induction e with
  | satisfy p =>
    intro s a n rest hm
    cases s with
    | nil => simp [run] at hm
    | cons c s =>
      simp only [run] at hm
      split at hm
      · cases hm; exact ⟨[a], rfl, rfl⟩
      · cases hm
  | pure v => intro s a n rest hm; cases hm; exact ⟨[], rfl, rfl⟩
  | call r => exact h r
  | seq a b iha ihb =>
    intro s v n rest hm
    obtain ⟨x, m, k, rest', hx, hy, rfl⟩ := Outcome.andThen_eq_ok.mp hm
    obtain ⟨y, hy, -⟩ := Outcome.map_eq_ok.mp hy
    obtain ⟨t, rfl, ht⟩ := iha _ _ _ _ hx
    obtain ⟨t', rfl, ht'⟩ := ihb _ _ _ _ hy
    exact ⟨t ++ t', by simp, by simp; omega⟩
  | orElse a b iha ihb =>
    intro s v n rest hm
    simp only [run] at hm
    split at hm
    · exact ihb _ _ _ _ hm
    · exact iha _ _ _ _ hm
  | star a ih => exact many_splits ih fuel
  | notAt a ih =>
    intro s v n rest hm
    simp only [run] at hm
    split at hm <;> cases hm
    exact ⟨[], rfl, rfl⟩
  | map f a ih =>
    intro s v n rest hm
    obtain ⟨x, hx, -⟩ := Outcome.map_eq_ok.mp hm
    exact ih _ _ _ _ hx
  | source a ih =>
    intro s v n rest hm
    simp only [run] at hm
    split at hm <;> cases hm
    rename_i hx
    exact ih _ _ _ _ hx

theorem matchRule_splits (body : (r : ν) → Peg V (V r)) (fuel : Nat) (r : ν) :
    Splits (matchRule body fuel r) := by
  induction fuel generalizing r with
  | zero => intro s a n rest hm; simp [matchRule] at hm
  | succ fuel ih => exact run_splits ih (body r)

end Peg

end RuleTypes
