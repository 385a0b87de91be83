import RuleTypes.Proofs.Peg.Calls
import RuleTypes.Proofs.Source.Parse

/-!
# Matching ends

The nonterminals of grammar sources are entered one in the other along their ranks until something
is taken: a nonterminal never stands in itself where it begins, not even behind parts that match
nothing. Loops repeat only what takes something. So the depth of the calls and the rounds of a loop
are bounded by the text that is left.

* `Nonterminal.progresses_of_mem_loops`: what a loop repeats takes a code point.
* `Nonterminal.matching_ends`: a nonterminal does not come back to itself, and there is always
  enough fuel.
-/

namespace RuleTypes.Source.Nonterminal

open Peg Expression

/-- What the expression of a nonterminal repeats cannot match nothing. -/
theorem nullable_of_mem_loops (r : Nonterminal) :
    ∀ l ∈ (body r).loops, l.2.nullable isNullable = false := by
  cases r <;> decide

/-- Every round of a loop takes a code point, with any fuel. -/
theorem progresses_of_mem_loops {r : Nonterminal} {l : (β : Type) × Expression β}
    (h : l ∈ (body r).loops) (n : Nat) : Progresses (runWith n l.2) :=
  run_progresses (matchRule_progresses nullable_body n) l.2 (nullable_of_mem_loops r l h)

theorem matchRule_eq_scan {n : Nat} {s : Text} (hn : fuelFor s ≤ n) (r : Nonterminal) :
    matchRule body n r s = r.scan s :=
  matchRule_le body hn r s (scan_ne_outOfFuel r s)

/-- **Matching ends.** Let a nonterminal be matched at a position of a text. No call of the matcher
that it leads to matches it again at that position, and every round of a loop in it takes a code
point. Whatever the fuel, calls stand no deeper in each other than the number of nonterminals
allows for each code point that is left. With that much fuel neither the match nor any call that it
leads to runs out, and more fuel changes nothing. -/
theorem matching_ends (source : Text) (p : Nat) (r : Nonterminal) :
    (∀ n m, ¬Call.Reaches body ⟨n, r, source.drop p⟩ ⟨m, r, source.drop p⟩) ∧
    (∀ l ∈ (body r).loops, ∀ n s a width rest, runWith n l.2 s = .ok a width rest → 0 < width) ∧
    (∀ n d, Call.Reaches body ⟨n, r, source.drop p⟩ d →
      n < d.fuel + all.length * (source.length - p + 1)) ∧
    ∀ n, all.length * (source.length - p + 1) ≤ n →
      matchRule body n r (source.drop p) ≠ .outOfFuel ∧
      (∀ d, Call.Reaches body ⟨n, r, source.drop p⟩ d →
        matchRule body d.fuel d.rule d.text ≠ .outOfFuel) ∧
      matchRule body n r (source.drop p) = r.scan (source.drop p) := by
  have hlength : (source.drop p).length = source.length - p := List.length_drop
  refine ⟨fun n m => ?_, fun l hl n => progresses_of_mem_loops hl n, fun n d h => ?_, fun n hn => ?_⟩
  · exact not_reaches_self nullable_body rank_lt_of_mem_heads rank_lt n m r _
  · have hfuel := fuel_lt_of_reaches nullable_body rank_lt_of_mem_heads rank_lt h
    rwa [hlength] at hfuel
  · rw [← hlength] at hn
    have hne := matchRule_ne_outOfFuel hn r
    exact ⟨hne, fun d h => h.outcome_ne_outOfFuel hne, matchRule_eq_scan hn r⟩

end RuleTypes.Source.Nonterminal
