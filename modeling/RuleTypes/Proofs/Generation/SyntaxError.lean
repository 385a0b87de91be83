import RuleTypes.Proofs.Generation.Exports
import RuleTypes.Proofs.Source.Cut

/-!
# Where a syntax error points

A source that is no grammar goes on behind its last rule. The error points there, and the text
before that place is a grammar of its own.

* `Source.Nonterminal.Covers`, `Source.Assembled`: texts that are matched to their end, and texts of
  nothing but blanks, complete initializers and complete rules.
* `Source.Column`: the column of a place, counted from the last line feed before it.
* `parse_syntaxError`: what the error of a source says, and what stands before the place.
-/

namespace RuleTypes

namespace Source

open Expression

/-! ## Texts that are matched to their end -/

/-- Whether a text is matched to its end by a nonterminal. -/
def Nonterminal.Covers (r : Nonterminal) (s : Text) : Prop :=
  ∃ value width, r.scan s = .ok value width []

/-- Whether a text is blanks, then complete initializers, then complete rules. -/
def Assembled (s : Text) : Prop :=
  ∃ (blanks : Text) (initializers rules : List Text),
    s = blanks ++ (initializers.flatten ++ rules.flatten) ∧ Nonterminal.blank.Covers blanks ∧
    (∀ piece ∈ initializers, Nonterminal.initializer.Covers piece) ∧
    ∀ piece ∈ rules, Nonterminal.rule.Covers piece

section Covers

variable {r : Nonterminal} {p : Text → Prop} {s t : Text}

theorem covers_of_parse {value : r.Value} (h : parse (rule r) s = some (value, [])) : r.Covers s :=
  ⟨value, s.length, by rw [scan_eq, h]; rfl⟩

/-- What is read of the begin of a text covers it. -/
theorem covers_of_cut {value : r.Value} (hcut : Swaps t [] (s.length + 1) p (· = []) (rule r))
    (h : parse (rule r) (s ++ t) = some (value, t)) : r.Covers s := by
  obtain ⟨-, hread⟩ := hcut (Nat.lt_succ_self _) (t := []) h rfl
  rw [List.append_nil] at hread
  exact covers_of_parse hread

/-- What is read in a row covers the pieces that the text is cut into. -/
theorem exists_pieces (hnull : (rule r).nullable Nonterminal.isNullable = false)
    (hcut : ∀ w n, Swaps w [] n p (· = []) (rule r)) {values : List r.Value}
    (h : parse (.star (rule r)) s = some (values, t)) :
    ∃ pieces : List Text, s = pieces.flatten ++ t ∧ ∀ piece ∈ pieces, r.Covers piece := by
  induction hk : s.length using Nat.strongRecOn generalizing s values with
  | _ k ih =>
    subst hk
    cases hfirst : parse (rule r) s with
    | none =>
      rw [parse_star_none hfirst] at h
      cases h
      exact ⟨[], rfl, fun _ hmem => absurd hmem List.not_mem_nil⟩
    | some found =>
      obtain ⟨value, u⟩ := found
      obtain ⟨others, v, hstar⟩ := exists_parse_star hnull u
      rw [parse_star_of hnull hfirst hstar] at h
      cases h
      obtain ⟨pieces, rfl, hpieces⟩ := ih u.length (length_lt_of_parse hnull hfirst) hstar rfl
      obtain ⟨piece, rfl⟩ := exists_append_of_parse hfirst
      refine ⟨piece :: pieces, by simp, fun q hq => ?_⟩
      rcases List.mem_cons.mp hq with rfl | hq
      · exact covers_of_cut (hcut _ _) hfirst
      · exact hpieces q hq

/-- A source that is matched to its end consists of complete pieces. -/
theorem assembled_of_matches {written : List Rule} (h : Matches s written) : Assembled s := by
  obtain ⟨t, _, u, hblank, hinitializers, hrules⟩ := parse_grammar_eq_some.mp (matches_iff.mp h)
  obtain ⟨rules, rfl, hall⟩ := exists_pieces rfl
    (fun _ _ => cut_definition.narrow fun _ => .inl) hrules
  obtain ⟨initializers, rfl, hall'⟩ := exists_pieces rfl
    (fun _ _ => cut_initializer.upTo) hinitializers
  obtain ⟨blanks, rfl⟩ := exists_append_of_parse hblank
  have hblanks : Nonterminal.blank.Covers blanks :=
    covers_of_cut (swaps_blank_cut.upTo) hblank
  exact ⟨blanks, initializers, rules, by simp, hblanks, hall', hall⟩

end Covers

/-! ## Places -/

/-- The column of the place `p` in a text: how far it is behind the last line feed before it, or
behind the begin of the text, where columns are counted from one. -/
inductive Column (s : Text) (p : Nat) : Int → Prop where
  | first (h : ∀ q < p, s[q]? ≠ some (CodePoint.ofChar '\n')) : Column s p (p + 1)
  | behind {q : Nat} (hq : q < p) (hfeed : s[q]? = some (CodePoint.ofChar '\n'))
      (hlast : ∀ r, q < r → r < p → s[r]? ≠ some (CodePoint.ofChar '\n')) : Column s p (p - q)

/-- One place further the line is the next one behind a line feed, and the same elsewhere. -/
theorem lineAt_succ {s : Text} {p : Nat} {c : CodePoint} (h : s[p]? = some c) :
    lineAt s (p + 1) = if c = CodePoint.ofChar '\n' then lineAt s p + 1 else lineAt s p := by
  rw [lineAt, lineAt, List.take_add_one, h, Option.toList_some, List.count_append]
  split
  · rename_i hfeed
    rw [hfeed, List.count_singleton_self, Nat.add_assoc]
  · rename_i hfeed
    rw [List.count_singleton, if_neg (by simpa using hfeed), Nat.add_zero]

/-- One place further the column is the first one behind a line feed, and the next one elsewhere. -/
theorem columnAt_succ {s : Text} {p : Nat} {c : CodePoint} (h : s[p]? = some c) :
    columnAt s (p + 1) = if c = CodePoint.ofChar '\n' then 1 else columnAt s p + 1 := by
  have htake : (s.take (p + 1)).reverse = c :: (s.take p).reverse := by
    rw [List.take_add_one, h, Option.toList_some, List.reverse_append, List.reverse_singleton,
      List.singleton_append]
  rw [columnAt, columnAt, htake]
  split
  · rename_i hfeed
    rw [List.takeWhile_cons_of_neg (by simpa using hfeed), List.length_nil]
  · rename_i hfeed
    rw [List.takeWhile_cons_of_pos (by simpa using hfeed), List.length_cons, Nat.add_assoc]

theorem column_columnAt {s : Text} {p : Nat} (hp : p ≤ s.length) : Column s p (columnAt s p) := by
  induction p with
  | zero => exact .first fun q hq => absurd hq (Nat.not_lt_zero q)
  | succ p ih =>
    have hih := ih (Nat.le_of_succ_le hp)
    have hget : s[p]? = some s[p] := List.getElem?_eq_getElem hp
    have hstep := columnAt_succ hget
    by_cases hfeed : s[p] = CodePoint.ofChar '\n'
    · have hcolumn : (columnAt s (p + 1) : Int) = ((p + 1 : Nat) : Int) - (p : Nat) := by
        rw [hstep, if_pos hfeed]
        omega
      rw [hcolumn]
      exact .behind (Nat.lt_succ_self p) (hget.trans (congrArg some hfeed)) fun r hr hr' => by omega
    · have hcolumn : (columnAt s (p + 1) : Int) = columnAt s p + 1 := by
        rw [hstep, if_neg hfeed]
        omega
      have hlast : ∀ q < p + 1, (q < p → s[q]? ≠ some (CodePoint.ofChar '\n')) →
          s[q]? ≠ some (CodePoint.ofChar '\n') := by
        intro q hq h
        rcases Nat.lt_succ_iff_lt_or_eq.mp hq with hq | rfl
        · exact h hq
        · rw [hget]
          exact fun h => hfeed (Option.some.inj h)
      rw [hcolumn]
      generalize (columnAt s p : Int) = column at hih
      cases hih with
      | first h =>
        have hfirst := Column.first (s := s) fun q hq => hlast q hq (h q)
        exact_mod_cast hfirst
      | @behind q hq hfeed' h =>
        have hbehind := Column.behind (Nat.lt_succ_of_lt hq) hfeed' fun r hr hr' =>
          hlast r hr' (h r hr)
        have hnext : ((p + 1 : Nat) : Int) - (q : Nat) = (p : Nat) - (q : Nat) + 1 := by omega
        rwa [hnext] at hbehind

/-- A source is read to its end, or up to the place where its error points. -/
theorem readRules_cases (s : Text) :
    (∃ rules, parse (rule .grammar) s = some (rules, []) ∧ readRules s = .ok rules) ∨
      ∃ rules, ∃ p < s.length, parse (rule .grammar) s = some (rules, s.drop p) ∧
        readRules s = .error (unexpectedInput s p) := by
  have htotal : Total (rule .grammar) := by
    intro s
    rw [parse_rule]
    exact total_right (total_right total_blank (total_star rfl)) (total_star rfl) s
  rw [readRules, scan_eq]
  cases hread : parse (rule .grammar) s with
  | none => exact absurd hread (htotal s)
  | some found =>
    obtain ⟨rules, rest⟩ := found
    obtain ⟨t, rfl⟩ := exists_append_of_parse hread
    cases rest with
    | nil => exact .inl ⟨rules, rfl, rfl⟩
    | cons c rest =>
      refine .inr ⟨rules, t.length, by simp, by rw [List.drop_left], ?_⟩
      simp only [List.length_append, Nat.add_sub_cancel]

/-- What is left of a source behind its last rule is where its error points. -/
theorem readRules_eq_error {s : Text} {e : Error} (h : readRules s = .error e) :
    ∃ p < s.length, (∃ written, Matches (s.take p) written) ∧ e = unexpectedInput s p := by
  rcases readRules_cases s with ⟨rules, -, hok⟩ | ⟨rules, p, hp, hread, herror⟩
  · rw [hok] at h
    cases h
  · rw [herror] at h
    refine ⟨p, hp, ⟨rules, matches_of_cut (w := s.drop p) ?_⟩, (Except.error.inj h).symm⟩
    rwa [List.take_append_drop]

end Source

/-- Only a source that is no sequence of rules has a syntax error. -/
theorem Grammar.readRules_of_syntaxError {source message : Text} {starts : List Text}
    {line column : Int}
    (h : Grammar.parse source starts = .error (.error (.syntaxError message line column))) :
    Source.readRules source = .error (.syntaxError message line column) := by
  cases hread : Source.readRules source with
  | error e =>
    rw [parse, hread] at h
    cases h
    rfl
  | ok written =>
    exfalso
    cases hlower : written.mapM Source.Rule.lower with
    | error e =>
      rw [parse, hread] at h
      simp only [Except.mapError, bind, Except.bind, hlower] at h
      cases h
    | ok rules =>
      rw [parse_of_lower (Source.readRules_eq_ok_iff_matches.mp hread) hlower] at h
      rcases flagStartRules_spec starts rules with ⟨name, -, -, hflag⟩ | ⟨-, hflag⟩
      · rw [hflag] at h
        cases h
      · rcases ofRules_spec (rules.map (Rule.flagged starts)) with ⟨name, -, hof⟩ | ⟨g, -, hof⟩ <;>
        · rw [hflag, show (Except.ok _ >>= Grammar.ofRules) = _ from hof] at h
          cases h

/-- **A syntax error points right behind a grammar.** -/
theorem parse_syntaxError {source message : Text} {starts : List Text} {line column : Int}
    (h : Grammar.parse source starts = .error (.error (.syntaxError message line column))) :
    ∃ p < source.length,
      (∃ written, Source.Matches (source.take p) written) ∧ Source.Assembled (source.take p) ∧
      line = 1 + (source.take p).count (CodePoint.ofChar '\n') ∧ Source.Column source p column ∧
      message = "unexpected input " ++ Text.quoted ((source.drop p).take 20) := by
  obtain ⟨p, hp, hmatches, he⟩ :=
    Source.readRules_eq_error (Grammar.readRules_of_syntaxError h)
  obtain ⟨rfl, rfl, rfl⟩ := Error.syntaxError.inj he
  refine ⟨p, hp, hmatches, Source.assembled_of_matches hmatches.choose_spec, ?_,
    Source.column_columnAt hp.le, rfl⟩
  rw [Source.lineAt]
  omega

/-- The last rule is followed by a bar that opens no range: its delimiter is read to the end of the
text, where the second bar is missing. -/
theorem parse_syntaxError_bar :
    let source : Text := "\x7bx\x7da = b\nc = d | 1.., 'e' f // no bar"
    let message : Text := "unexpected input \"| 1.., 'e' f // no b\""
    Grammar.parse source [] = .error (.error (.syntaxError message 2 7)) ∧
    ∃ p < source.length,
      (∃ written, Source.Matches (source.take p) written) ∧ Source.Assembled (source.take p) ∧
      2 = 1 + (source.take p).count (CodePoint.ofChar '\n') ∧ Source.Column source p 7 ∧
      message = "unexpected input " ++ Text.quoted ((source.drop p).take 20) := by
  intro source message
  have hparse : Grammar.parse source [] = .error (.error (.syntaxError message 2 7)) := by
    set_option maxRecDepth 4000 in with_unfolding_all rfl
  obtain ⟨p, hp, hmatches, hassembled, hline, hcolumn, hmessage⟩ := parse_syntaxError hparse
  exact ⟨hparse, p, hp, hmatches, hassembled, by omega, hcolumn, hmessage⟩

end RuleTypes
