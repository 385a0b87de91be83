import RuleTypes.Proofs.Generation.SyntaxError
import RuleTypes.Proofs.Source.Blank

/-!
# Blanks before a source

Blanks are skipped as far as they go, and a source is read behind them. So nothing in a source
depends on how far from the begin of the text it stands: blanks in front of it move the place of an
error, and change nothing else.

* `Text.OpensBlank`: a text begins with a blank.
* `Text.Blanks`: a text is made of blanks that end in it.
* `Source.unexpectedInput_inj`: line and column tell places apart.
* `blanks_neutral`: how far blanks are skipped, and what blanks in front of a source change.
-/

namespace RuleTypes

namespace Text

/-- A blank begins a text: white space, two slashes, or a comment that is closed further on. -/
inductive OpensBlank : Text → Prop where
  | space {c : CodePoint} (h : c.isSpace = true) (s : Text) : OpensBlank (c :: s)
  | line (s : Text) : OpensBlank (CodePoint.ofChar '/' :: CodePoint.ofChar '/' :: s)
  | block (inside behind : Text) :
    OpensBlank (CodePoint.ofChar '/' :: CodePoint.ofChar '*' ::
      (inside ++ CodePoint.ofChar '*' :: CodePoint.ofChar '/' :: behind))

/-- A text of nothing but white space, comments with the line feeds that end them, and comments up
to the first mark that closes them. -/
inductive Blanks : Text → Prop where
  | nil : Blanks []
  | space {c : CodePoint} {w : Text} (h : c.isSpace = true) : Blanks w → Blanks (c :: w)
  | line {inside w : Text} (h : CodePoint.ofChar '\n' ∉ inside) : Blanks w →
    Blanks (CodePoint.ofChar '/' :: CodePoint.ofChar '/' ::
      (inside ++ CodePoint.ofChar '\n' :: w))
  | block {inside w : Text} (h : ¬[CodePoint.ofChar '*', CodePoint.ofChar '/'] <:+: inside) :
    Blanks w → Blanks (CodePoint.ofChar '/' :: CodePoint.ofChar '*' ::
      (inside ++ CodePoint.ofChar '*' :: CodePoint.ofChar '/' :: w))

variable {s t inside : Text}

/-- A comment is closed by the first mark behind its inside. -/
theorem behindComment?_inside (h : ¬[CodePoint.ofChar '*', CodePoint.ofChar '/'] <:+: inside)
    (s : Text) :
    behindComment? (inside ++ CodePoint.ofChar '*' :: CodePoint.ofChar '/' :: s) = some s := by
  induction inside with
  | nil => exact if_pos ⟨rfl, rfl⟩
  | cons c inside ih =>
    have hrest := ih fun hmark => h (List.infix_cons hmark)
    rw [List.cons_append, behindComment?, if_neg, hrest]
    rintro ⟨rfl, hslash⟩
    cases inside with
    | nil => exact absurd (Option.some.inj hslash) (by decide)
    | cons d inside =>
      obtain rfl : d = CodePoint.ofChar '/' := Option.some.inj hslash
      exact h ⟨[], inside, rfl⟩

/-- Where a comment is closed a mark stands. -/
theorem exists_of_behindComment? (h : behindComment? s = some t) :
    ∃ inside, s = inside ++ CodePoint.ofChar '*' :: CodePoint.ofChar '/' :: t := by
  induction s with
  | nil => cases h
  | cons c s ih =>
    rw [behindComment?] at h
    split at h
    · rename_i hend
      obtain ⟨rfl, hslash⟩ := hend
      obtain ⟨s, rfl⟩ := List.head?_eq_some_iff.mp hslash
      rw [List.tail_cons] at h
      exact ⟨[], by rw [Option.some.inj h]; rfl⟩
    · obtain ⟨inside, rfl⟩ := ih h
      exact ⟨c :: inside, rfl⟩

theorem behindComment?_ne_none (inside behind : Text) :
    behindComment? (inside ++ CodePoint.ofChar '*' :: CodePoint.ofChar '/' :: behind) ≠ none := by
  induction inside with
  | nil => exact Option.some_ne_none behind
  | cons c inside ih =>
    rw [List.cons_append, behindComment?]
    split
    · exact Option.some_ne_none _
    · exact ih

theorem behindBlank?_eq_none_iff : behindBlank? s = none ↔ ¬OpensBlank s := by
  constructor
  · intro h hopens
    cases hopens with
    | space hspace s =>
      rw [behindBlank?_space hspace] at h
      cases h
    | line s => cases h
    | block inside behind => exact behindComment?_ne_none inside behind h
  · intro h
    cases hbehind : behindBlank? s with
    | none => rfl
    | some t =>
      exfalso
      rcases behindBlank?_cases hbehind with ⟨c, hspace, rfl⟩ | ⟨u, rfl, -⟩ | ⟨u, rfl, hu⟩
      · exact h (.space hspace t)
      · exact h (.line u)
      · obtain ⟨inside, rfl⟩ := exists_of_behindComment? hu
        exact h (.block inside t)

end Text

namespace Source

open Expression Text

variable {s t w : Text}

/-! ## Skipping -/

/-- Blanks in front of a text are skipped. -/
theorem parse_blank_append (hw : Blanks w) (s : Text) : parse blank (w ++ s) = parse blank s := by
  induction hw with
  | nil => rfl
  | space hspace _ ih => exact (parse_blank_of_behindBlank? (behindBlank?_space hspace _)).trans ih
  | @line inside w hinside _ ih =>
    have hline : (inside ++ CodePoint.ofChar '\n' :: w ++ s).dropWhile
        (· ≠ CodePoint.ofChar '\n') = CodePoint.ofChar '\n' :: (w ++ s) := by
      rw [List.append_assoc, List.dropWhile_append_of_pos fun c hc => ?_]
      · exact List.dropWhile_cons_of_neg (by simp)
      · exact decide_eq_true fun h => hinside (h ▸ hc)
    have hbehind := behindBlank?_line (inside ++ CodePoint.ofChar '\n' :: w ++ s)
    rw [hline] at hbehind
    -- The line feed is no part of the comment: it is the blank behind it.
    exact (parse_blank_of_behindBlank? hbehind).trans
      ((parse_blank_of_behindBlank? (behindBlank?_space rfl _)).trans ih)
  | @block inside w hinside _ ih =>
    have hbehind := behindComment?_inside hinside (w ++ s)
    rw [← behindBlank?_block] at hbehind
    rw [← ih, ← parse_blank_of_behindBlank? hbehind]
    simp only [List.cons_append, List.append_assoc]

/-- A repeated skip skips nothing: blanks are skipped as far as they go. -/
theorem exists_scan_blank (s : Text) :
    ∃ n, Nonterminal.scan .blank s = .ok () n (s.drop n) ∧
      Nonterminal.scan .blank (s.drop n) = .ok () 0 (s.drop n) ∧ ¬OpensBlank (s.drop n) := by
  obtain ⟨t, hparse, hnone⟩ := exists_parse_blank s
  obtain ⟨n, -, rfl, hscan⟩ := exists_scan_of_parse hparse
  have hagain := scan_eq_ok_iff.mpr ⟨parse_blank_of_none hnone, (Nat.zero_add _).symm⟩
  exact ⟨n, hscan, hagain, behindBlank?_eq_none_iff.mp hnone⟩

theorem parse_right_congr {α β : Type} {a : Expression α} (h : parse a s = parse a t)
    (b : Expression β) : parse (a *> b) s = parse (a *> b) t := by
  change parse (.map _ (.seq a b)) s = parse (.map _ (.seq a b)) t
  rw [parse_map, parse_map, parse_seq, parse_seq, h]

/-- A source is read behind the blanks in front of it. -/
theorem parse_grammar_append (hw : Blanks w) (s : Text) :
    parse (rule .grammar) (w ++ s) = parse (rule .grammar) s := by
  rw [parse_rule, parse_rule]
  exact parse_right_congr (parse_right_congr (parse_blank_append hw s) _) _

/-- Blanks in front of a source leave its rules as they are, and move the place of its error. -/
theorem readRules_append (hw : Blanks w) (s : Text) :
    (∃ rules, readRules s = .ok rules ∧ readRules (w ++ s) = .ok rules) ∨
      ∃ p < s.length, readRules s = .error (unexpectedInput s p) ∧
        readRules (w ++ s) = .error (unexpectedInput (w ++ s) (w.length + p)) := by
  have happend := parse_grammar_append hw s
  rcases readRules_cases s with ⟨rules, hread, hok⟩ | ⟨rules, p, hp, hread, herror⟩
  · exact .inl ⟨rules, hok, readRules_eq_ok_iff.mpr (happend.trans hread)⟩
  · refine .inr ⟨p, hp, herror, ?_⟩
    rw [hread] at happend
    rcases readRules_cases (w ++ s) with ⟨_, hread', -⟩ | ⟨_, q, hq, hread', herror'⟩
    · rw [happend] at hread'
      have hrest := congrArg List.length (Prod.mk.inj (Option.some.inj hread')).2
      rw [List.length_drop, List.length_nil] at hrest
      omega
    · rw [happend] at hread'
      have hrest := congrArg List.length (Prod.mk.inj (Option.some.inj hread')).2
      rw [List.length_drop, List.length_drop] at hrest
      rw [List.length_append] at hq hrest
      obtain rfl : q = w.length + p := by omega
      exact herror'

/-! ## Places -/

/-- Behind the end of a text there are no further places. -/
theorem place_end {p : Nat} (h : s[p]? = none) :
    lineAt s (p + 1) = lineAt s p ∧ columnAt s (p + 1) = columnAt s p := by
  have htake : s.take (p + 1) = s.take p := by
    rw [List.take_add_one, h, Option.toList_none, List.append_nil]
  rw [lineAt, lineAt, columnAt, columnAt, htake]
  exact ⟨rfl, rfl⟩

/-- A later place has a greater line, or a greater column in the same line. -/
theorem place_lt {p q : Nat} (hq : q < s.length) (hqp : q < p) :
    lineAt s q < lineAt s p ∨ lineAt s q = lineAt s p ∧ columnAt s q < columnAt s p := by
  induction p with
  | zero => exact absurd hqp (Nat.not_lt_zero q)
  | succ p ih =>
    cases hget : s[p]? with
    | none =>
      obtain ⟨hline, hcolumn⟩ := place_end hget
      rw [hline, hcolumn]
      exact ih (Nat.lt_of_lt_of_le hq (List.getElem?_eq_none_iff.mp hget))
    | some c =>
      rw [lineAt_succ hget, columnAt_succ hget]
      rcases Nat.lt_succ_iff_lt_or_eq.mp hqp with hlt | rfl
      · have := ih hlt
        split <;> omega
      · split <;> omega

/-- The error of a source tells its place. -/
theorem unexpectedInput_inj {p q : Nat} (hq : q < s.length)
    (h : unexpectedInput s q = unexpectedInput s p) : p = q := by
  obtain ⟨-, hline, hcolumn⟩ := Error.syntaxError.inj h
  rcases Nat.lt_trichotomy p q with hlt | heq | hlt
  · have := place_lt (Nat.lt_trans hlt hq) hlt
    omega
  · exact heq
  · have := place_lt hq hlt
    omega

end Source

/-! ## Sources -/

open Source

/-- A syntax error is the one with which the rules are not read. -/
theorem Grammar.parse_eq_unexpectedInput_iff {s : Text} {p : Nat} (starts : List Text) :
    Grammar.parse s starts = .error (.error (unexpectedInput s p)) ↔
      readRules s = .error (unexpectedInput s p) := by
  constructor
  · exact Grammar.readRules_of_syntaxError
  · intro h
    rw [Grammar.parse, h]
    rfl

/-- **Blanks are skipped as far as they go, and blanks in front of a source are neutral.** At every
position of a source blanks are skipped up to a place where none are skipped any more: no white
space, no line comment and no comment that is closed further on begins there. With blanks in front a
source is parsed into the same grammar or not at all, a syntax error moves behind them, and any
other outcome is the same. -/
theorem blanks_neutral (source : Text) :
    (∀ p, ∃ n, Nonterminal.scan .blank (source.drop p) = .ok () n (source.drop (p + n)) ∧
      Nonterminal.scan .blank (source.drop (p + n)) = .ok () 0 (source.drop (p + n)) ∧
        ¬Text.OpensBlank (source.drop (p + n))) ∧
    ∀ blanks starts, Text.Blanks blanks →
      (∀ g, Grammar.parse (blanks ++ source) starts = .ok g ↔
        Grammar.parse source starts = .ok g) ∧
      (∀ p, Grammar.parse (blanks ++ source) starts =
          .error (.error (unexpectedInput (blanks ++ source) (blanks.length + p))) ↔
        Grammar.parse source starts = .error (.error (unexpectedInput source p))) ∧
      ((∀ p, Grammar.parse source starts ≠ .error (.error (unexpectedInput source p))) →
        Grammar.parse (blanks ++ source) starts = Grammar.parse source starts) := by
  constructor
  · intro p
    obtain ⟨n, hscan, hagain, hopens⟩ := exists_scan_blank (source.drop p)
    rw [List.drop_drop] at hscan hagain hopens
    exact ⟨n, hscan, hagain, hopens⟩
  · intro blanks starts hblanks
    rcases readRules_append hblanks source with ⟨rules, hok, hok'⟩ | ⟨q, hq, herror, herror'⟩
    · have hsame : Grammar.parse (blanks ++ source) starts = Grammar.parse source starts := by
        rw [Grammar.parse, Grammar.parse, hok, hok']
      refine ⟨fun g => by rw [hsame], fun p => ?_, fun _ => hsame⟩
      rw [Grammar.parse_eq_unexpectedInput_iff, Grammar.parse_eq_unexpectedInput_iff, hok, hok']
      exact iff_of_false (fun h => by cases h) fun h => by cases h
    · have hparse := (Grammar.parse_eq_unexpectedInput_iff starts).mpr herror
      have hparse' := (Grammar.parse_eq_unexpectedInput_iff starts).mpr herror'
      refine ⟨fun g => ?_, fun p => ?_, fun hne => absurd hparse (hne q)⟩
      · rw [hparse, hparse']
        exact iff_of_false (fun h => by cases h) fun h => by cases h
      · rw [hparse, hparse']
        constructor
        · intro h
          have hq' : blanks.length + q < (blanks ++ source).length := by
            rw [List.length_append]
            omega
          have hp := unexpectedInput_inj hq' (Failure.error.inj (Except.error.inj h))
          rw [Nat.add_left_cancel hp]
        · intro h
          rw [unexpectedInput_inj hq (Failure.error.inj (Except.error.inj h))]

/-- White space, a comment that its line feed ends and one with two slashes in it, in front of a
source that goes on behind its rule. -/
theorem blanks_neutral_error :
    let blanks : Text := " //x\n/*'//*/"
    let source : Text := "a=b|"
    Text.Blanks blanks ∧
      Grammar.parse source [] = .error (.error (unexpectedInput source 3)) ∧
      Grammar.parse (blanks ++ source) [] =
        .error (.error (unexpectedInput (blanks ++ source) (blanks.length + 3))) := by
  intro blanks source
  have hblanks : Text.Blanks blanks :=
    .space rfl (@Text.Blanks.line "x" _ (by decide)
      (@Text.Blanks.block "'//" _ (by decide) .nil))
  have hparse : Grammar.parse source [] = .error (.error (unexpectedInput source 3)) := by
    set_option maxRecDepth 2000 in with_unfolding_all rfl
  exact ⟨hblanks, hparse, (((blanks_neutral source).2 blanks [] hblanks).2.1 3).mpr hparse⟩

end RuleTypes
