import RuleTypes.Proofs.Source.Lexemes

/-!
# Texts with lines behind them

Where a text is followed by a line feed and more text, an expression may read past its end: an
identifier or a comment goes on, an open brace is closed. It does not where the text is cut into
lexemes up to its end, for what is open then is closed again.

* `Seam`: a line feed and what stands behind it, blanks and then nothing or a rule.
* `Seam.inside`, `Seam.between`: places in a text, directly behind a token or behind its blanks, and
  what the text that is left there becomes.
* `Keeps`: an expression reads of a text with lines behind it what it reads of the text alone. One
  statement for each operator and each token.
-/

namespace RuleTypes

namespace Source

open Expression Text

variable {α β : Type}

/-! ## Seams -/

/-- Whether a text begins with the name of a rule and what tells it from a reference. -/
def BeginsRule (s : Text) : Prop :=
  ∃ name t u, parse (rule .identifier) s = some (name, t) ∧ parse blank t = some ((), u) ∧
    (parse (rule .ruleHead) u).isSome = true

/-- A line feed with text behind it that has a rule or nothing behind its blanks. -/
structure Seam where
  /-- The text behind the line feed. -/
  text : Text
  /-- The same without the blanks before it. -/
  ending : Text
  parse_blank : parse blank (CodePoint.ofChar '\n' :: text) = some ((), ending)
  ending_spec : ending = [] ∨ BeginsRule ending

/-- A kind of places in a text: which texts are left at such a place, and what they become with
lines behind them. -/
structure Side where
  ok : Text → Prop
  join : Text → Text

namespace Seam

variable (m : Seam)

/-- The places directly behind a token. -/
def inside : Side := ⟨fun _ => True, fun s => s ++ CodePoint.ofChar '\n' :: m.text⟩

/-- The places behind the blanks of a token, where `u` is left at the end of the text. -/
def behind (u : Text) : Side :=
  ⟨fun s => behindBlank? s = none, fun s => if s = [] then u else m.inside.join s⟩

/-- The places behind the blanks of a token. At the end of the text the blanks of the seam are among
them. -/
def between : Side := m.behind m.ending

theorem behind_join {s : Text} (h : s ≠ []) (u : Text) : (m.behind u).join s = m.inside.join s :=
  if_neg h

theorem between_join {s : Text} (h : s ≠ []) : m.between.join s = m.inside.join s := if_neg h

end Seam

/-! ## Expressions that keep to a text -/

/-- An expression reads of the text that is left at a place the same as with lines behind it: from a
place of one kind to a place of another. Nothing is known of texts that are not cut into lexemes;
but of what is read and what is left, either both are or none is. -/
structure KeepsAt (a b : Side) (e : Expression α) (s : Text) : Prop where
  ok : ∀ {x t}, parse e s = some (x, t) → b.ok t
  lexes : ∀ {x t}, parse e s = some (x, t) → (Lexes s ↔ Lexes t)
  read : ∀ {x t}, parse e s = some (x, t) → Lexes s → parse e (a.join s) = some (x, b.join t)
  refused : parse e s = none → Lexes s → parse e (a.join s) = none

/-- An expression keeps to all texts below a length. -/
def Keeps (n : Nat) (a b : Side) (e : Expression α) : Prop :=
  ∀ s, s.length < n → a.ok s → KeepsAt a b e s

section Operators

variable {n : Nat} {a b c : Side} {e e' : Expression α} {f : Expression β} {s : Text}

theorem keepsAt_of_some {x : α} {t : Text} (h : parse e s = some (x, t)) (hok : b.ok t)
    (hlexes : Lexes s ↔ Lexes t) (hjoin : Lexes s → parse e (a.join s) = some (x, b.join t)) :
    KeepsAt a b e s where
  ok h' := by
    rw [h] at h'
    cases h'
    exact hok
  lexes h' := by
    rw [h] at h'
    cases h'
    exact hlexes
  read h' hs := by
    rw [h] at h'
    cases h'
    exact hjoin hs
  refused h' := by
    rw [h] at h'
    cases h'

theorem keepsAt_of_none (h : parse e s = none) (hjoin : Lexes s → parse e (a.join s) = none) :
    KeepsAt a b e s where
  ok h' := by
    rw [h] at h'
    cases h'
  lexes h' := by
    rw [h] at h'
    cases h'
  read h' := by
    rw [h] at h'
    cases h'
  refused _ := hjoin

theorem keepsAt_pure (x : α) (hok : a.ok s) : KeepsAt a a (.pure x) s :=
  keepsAt_of_some (parse_pure x s) hok Iff.rfl fun _ => parse_pure x _

theorem keepsAt_seq (he : KeepsAt a b e s)
    (hf : ∀ x t, parse e s = some (x, t) → KeepsAt b c f t) : KeepsAt a c (.seq e f) s where
  ok h := by
    obtain ⟨t, hx, hy⟩ := parse_seq_eq_some.mp h
    exact (hf _ t hx).ok hy
  lexes h := by
    obtain ⟨t, hx, hy⟩ := parse_seq_eq_some.mp h
    exact (he.lexes hx).trans ((hf _ t hx).lexes hy)
  read h hs := by
    obtain ⟨t, hx, hy⟩ := parse_seq_eq_some.mp h
    exact parse_seq_of (he.read hx hs) ((hf _ t hx).read hy ((he.lexes hx).mp hs))
  refused h hs := by
    rcases parse_seq_eq_none.mp h with hnone | ⟨x, t, hx, hnone⟩
    · exact parse_seq_none (he.refused hnone hs) f
    · exact parse_seq_of_none (he.read hx hs) ((hf x t hx).refused hnone ((he.lexes hx).mp hs))

theorem keepsAt_map (g : α → β) (he : KeepsAt a b e s) : KeepsAt a b (g <$> e) s where
  ok h := by
    obtain ⟨x, hx, -⟩ := parse_map_eq_some.mp h
    exact he.ok hx
  lexes h := by
    obtain ⟨x, hx, -⟩ := parse_map_eq_some.mp h
    exact he.lexes hx
  read h hs := by
    obtain ⟨x, hx, rfl⟩ := parse_map_eq_some.mp h
    exact parse_map_of g (he.read hx hs)
  refused h hs := parse_map_none g (he.refused (parse_map_eq_none.mp h) hs)

theorem keepsAt_or (he : KeepsAt a b e s) (he' : KeepsAt a b e' s) : KeepsAt a b (e <|> e') s where
  ok h := (parse_or_eq_some.mp h).elim he.ok fun h => he'.ok h.2
  lexes h := (parse_or_eq_some.mp h).elim he.lexes fun h => he'.lexes h.2
  read h hs := by
    rcases parse_or_eq_some.mp h with hx | ⟨hnone, hx⟩
    · exact parse_or_of (he.read hx hs) e'
    · exact parse_or_of_none (he.refused hnone hs) (he'.read hx hs)
  refused h hs := by
    obtain ⟨hnone, hnone'⟩ := parse_or_eq_none.mp h
    exact parse_or_of_none (he.refused hnone hs) (he'.refused hnone' hs)

theorem keepsAt_congr (h : ∀ s, parse e' s = parse e s) (he : KeepsAt a b e s) :
    KeepsAt a b e' s where
  ok hx := he.ok ((h s).symm.trans hx)
  lexes hx := he.lexes ((h s).symm.trans hx)
  read hx hs := (h _).trans (he.read ((h s).symm.trans hx) hs)
  refused hx hs := (h _).trans (he.refused ((h s).symm.trans hx) hs)

theorem keeps_map (g : α → β) (he : Keeps n a b e) : Keeps n a b (g <$> e) :=
  fun s hs hok => keepsAt_map g (he s hs hok)

theorem keeps_seq (he : Keeps n a b e) (hf : Keeps n b c f) : Keeps n a c (.seq e f) :=
  fun s hs hok => keepsAt_seq (he s hs hok) fun _ t hx =>
    hf t (Nat.lt_of_le_of_lt (length_le_of_parse hx) hs) ((he s hs hok).ok hx)

/-- What stands behind an expression that takes something is read of a shorter text. -/
theorem keeps_seq_of_lt (hnull : e.nullable Nonterminal.isNullable = false)
    (he : Keeps (n + 1) a b e) (hf : Keeps n b c f) : Keeps (n + 1) a c (.seq e f) :=
  fun s hs hok => keepsAt_seq (he s hs hok) fun _ t hx =>
    hf t (Nat.lt_of_lt_of_le (length_lt_of_parse hnull hx) (Nat.le_of_lt_succ hs))
      ((he s hs hok).ok hx)

theorem keeps_left (he : Keeps n a b e) (hf : Keeps n b c f) : Keeps n a c (e <* f) :=
  keeps_map _ (keeps_seq he hf)

theorem keeps_right (he : Keeps n a b e) (hf : Keeps n b c f) : Keeps n a c (e *> f) :=
  keeps_map _ (keeps_seq he hf)

theorem keeps_or (he : Keeps n a b e) (he' : Keeps n a b e') : Keeps n a b (e <|> e') :=
  fun s hs hok => keepsAt_or (he s hs hok) (he' s hs hok)

theorem keeps_opt (he : Keeps n a a e) : Keeps n a a (.opt e) :=
  keeps_or (keeps_map some he) fun _ _ hok => keepsAt_pure none hok

theorem keeps_rule {r : Nonterminal} (h : Keeps n a b (body r)) : Keeps n a b (rule r) :=
  fun s hs hok => keepsAt_congr (parse_rule r) (h s hs hok)

theorem keeps_star (hnull : e.nullable Nonterminal.isNullable = false) (he : Keeps n a a e) :
    Keeps n a a (.star e) := by
  intro s hs hok
  induction h : s.length using Nat.strongRecOn generalizing s with
  | _ k ih =>
    subst h
    refine keepsAt_congr (parse_star_eq hnull) (keepsAt_or (keepsAt_map _ ?_)
      (keepsAt_pure [] hok))
    refine keepsAt_seq (he s hs hok) fun x t hx => ?_
    have hlt := length_lt_of_parse hnull hx
    exact ih t.length hlt t (by omega) ((he s hs hok).ok hx) rfl

/-- Whether something can be read does not change. -/
theorem keeps_notAt (he : Keeps n a b e) : Keeps n a a (.notAt e) := by
  intro s hs hok
  cases hx : parse e s with
  | none =>
    exact keepsAt_of_some (parse_notAt_of hx) hok Iff.rfl fun hlexes =>
      parse_notAt_of ((he s hs hok).refused hx hlexes)
  | some found =>
    obtain ⟨x, t⟩ := found
    refine keepsAt_of_none ?_ fun hlexes => ?_
    · rw [parse_notAt, hx]
      rfl
    · rw [parse_notAt, (he s hs hok).read hx hlexes]
      rfl

end Operators

/-! ## Tokens -/

section Tokens

variable {n : Nat} {m : Seam} {b : Side} {e : Expression α}

/-- What is taken off a text does not depend on what stands behind it. -/
theorem take_sub_append (s t w : Text) (k : Nat) :
    (s ++ w).take ((s ++ w).length - ((t ++ w).length + k)) =
      s.take (s.length - (t.length + k)) := by
  have hlength : (s ++ w).length - ((t ++ w).length + k) = s.length - (t.length + k) := by
    simp only [List.length_append]
    omega
  rw [hlength, List.take_append_of_le_length (Nat.sub_le _ _)]

theorem keeps_source (he : Keeps n m.inside m.inside e) :
    Keeps n m.inside m.inside (.source e) := by
  intro s hs hok
  cases hx : parse e s with
  | none =>
    exact keepsAt_of_none (parse_source_none hx) fun hlexes =>
      parse_source_none ((he s hs hok).refused hx hlexes)
  | some found =>
    obtain ⟨x, t⟩ := found
    have hread : parse (.source e) s = some (s.take (s.length - t.length), t) := by
      rw [parse_source, hx]
      rfl
    refine keepsAt_of_some hread trivial ((he s hs hok).lexes hx) fun hlexes => ?_
    rw [parse_source, (he s hs hok).read hx hlexes]
    exact congrArg (fun v => some (v, _)) (take_sub_append s t _ 0)

/-- Single code points that are lexemes. -/
theorem keeps_satisfy {p : CodePoint → Bool} (hp : ∀ c, p c = true → c.isMark = true) :
    Keeps n m.inside m.inside (.satisfy p) := by
  intro s _ _
  cases s with
  | nil =>
    refine keepsAt_of_none rfl fun _ => (parse_satisfy_cons p _ m.text).trans (if_neg fun h => ?_)
    exact absurd (hp _ h) (by decide)
  | cons c s =>
    by_cases hc : p c = true
    · exact keepsAt_of_some ((parse_satisfy_cons p c s).trans (if_pos hc)) trivial
        (lexes_mark_iff (hp c hc) s) fun _ => (parse_satisfy_cons p c _).trans (if_pos hc)
    · exact keepsAt_of_none ((parse_satisfy_cons p c s).trans (if_neg hc)) fun _ =>
        (parse_satisfy_cons p c _).trans (if_neg hc)

theorem keeps_char {c : Char} (h : (CodePoint.ofChar c).isMark = true) :
    Keeps n m.inside m.inside (.char c) :=
  keeps_satisfy fun d hd => by rw [of_decide_eq_true hd]; exact h

/-- What is closed by a mark of its own is read where it is closed. -/
theorem keeps_delimited {c : Char} {behind? : Text → Option Text} {value : Text → Text → α}
    (hread : ∀ s, parse e (CodePoint.ofChar c :: s) = (behind? s).map fun t => (value s t, t))
    (hother : ∀ s, s.head? ≠ some (CodePoint.ofChar c) → parse e s = none)
    (hlexeme : ∀ s, behindLexeme? (CodePoint.ofChar c :: s) = behind? s)
    (happend : ∀ s t, behind? s = some t → ∀ w, behind? (s ++ w) = some (t ++ w))
    (hvalue : ∀ s t w, value (s ++ w) (t ++ w) = value s t)
    (hfeed : CodePoint.ofChar '\n' ≠ CodePoint.ofChar c) : Keeps n m.inside m.inside e := by
  intro s _ _
  by_cases hc : s.head? = some (CodePoint.ofChar c)
  · obtain ⟨s, rfl⟩ := List.head?_eq_some_iff.mp hc
    cases hbehind : behind? s with
    | none =>
      refine keepsAt_of_none ?_ fun hs => absurd hs (not_lexes ((hlexeme s).trans hbehind))
      rw [hread, hbehind]
      rfl
    | some t =>
      have hsome : parse e (CodePoint.ofChar c :: s) = some (value s t, t) := by
        rw [hread, hbehind]
        rfl
      refine keepsAt_of_some hsome trivial (lexes_iff ((hlexeme s).trans hbehind)) fun _ => ?_
      refine (hread (s ++ CodePoint.ofChar '\n' :: m.text)).trans ?_
      rw [happend s t hbehind, Option.map_some, hvalue]
      rfl
  · refine keepsAt_of_none (hother s hc) fun _ => hother _ ?_
    cases s with
    | nil => exact fun h => hfeed (Option.some.inj h)
    | cons d s => exact hc

/-- The kind of a place matters at the end of a text only. -/
theorem keepsAt_behind {a : Side} {u s : Text} (hjoin : a.join s = m.inside.join s) (hne : s ≠ [])
    (he : KeepsAt a b e s) : KeepsAt (m.behind u) b e s where
  ok := he.ok
  lexes := he.lexes
  read h hs := by
    rw [m.behind_join hne, ← hjoin]
    exact he.read h hs
  refused h hs := by
    rw [m.behind_join hne, ← hjoin]
    exact he.refused h hs

/-- What cannot be read at the end of a text, nor behind it, keeps to the text behind blanks. -/
theorem keeps_between (he : Keeps n m.inside b e) (hnil : parse e [] = none)
    (hending : parse e m.ending = none) : Keeps n m.between b e := by
  intro s hs _
  by_cases hne : s = []
  · subst hne
    exact keepsAt_of_none hnil fun _ => hending
  · exact keepsAt_behind rfl hne (he s hs trivial)

theorem keeps_codeBlock : Keeps n m.inside m.inside (rule .codeBlock) := by
  refine keeps_delimited parse_codeBlock (fun s hs => parse_codeBlock_none hs)
    behindLexeme?_brace (fun s t h w => behindBrace?_append h w) (fun s t w => ?_) (by decide)
  exact take_sub_append (CodePoint.ofChar '{' :: s) t w 0

/-- A text in quotes is read where the second quote stands. -/
theorem parse_quoted_eq {mark : Char} (hne : CodePoint.ofChar mark ≠ '\\') (s : Text) :
    parse (quoted mark) (CodePoint.ofChar mark :: s) =
      (behindMark? mark false s).map fun t => (s.take (s.length - (t.length + 1)), t) := by
  obtain ⟨units, rest, hunits, hmark⟩ := parse_units hne s
  have hinside : parse (.source (.star (unit mark))) s =
      some (s.take (s.length - rest.length), rest) := by
    rw [parse_source, hunits]
    rfl
  have hopen := parse_right_of (parse_char mark s) hinside
  cases hbehind : behindMark? mark false s with
  | none =>
    rw [hbehind] at hmark
    exact parse_left_of_none hopen hmark
  | some t =>
    rw [hbehind] at hmark
    obtain rfl := parse_char_eq_some hmark
    exact parse_left_of hopen hmark

theorem keeps_quoted {mark : Char} (hne : CodePoint.ofChar mark ≠ '\\')
    (hlexeme : ∀ s, behindLexeme? (CodePoint.ofChar mark :: s) = behindMark? mark false s)
    (hfeed : CodePoint.ofChar '\n' ≠ CodePoint.ofChar mark) :
    Keeps n m.inside m.inside (quoted mark) := by
  refine keeps_delimited (parse_quoted_eq hne) (fun s hs => ?_) hlexeme
    (fun s t h w => behindMark?_append h w) (fun s t w => take_sub_append s t w 1) hfeed
  cases s with
  | nil => exact parse_left_none (parse_right_none (parse_char_nil mark) _) _
  | cons c s => exact parse_quoted_none (fun hc => hs (congrArg some hc)) s

theorem keeps_stringLiteral : Keeps n m.inside m.inside (rule .stringLiteral) :=
  keeps_rule (keeps_or
    (keeps_quoted (by decide) (behindLexeme?_mark (by decide)) (by decide))
    (keeps_quoted (by decide) (behindLexeme?_mark (by decide)) (by decide)))

/-- The brackets of a character class and what stands between them. -/
def brackets : Expression CodePoint := .char '[' *> .star (unit ']') *> .char ']'

theorem parse_brackets (s : Text) :
    parse brackets (CodePoint.ofChar '[' :: s) =
      (behindMark? ']' false s).map fun t => (CodePoint.ofChar ']', t) := by
  have hbracket : CodePoint.ofChar ']' ≠ '\\' := by decide
  obtain ⟨units, rest, hunits, hmark⟩ := parse_units hbracket s
  have hopen := parse_right_of (parse_char '[' s) hunits
  cases hbehind : behindMark? ']' false s with
  | none =>
    rw [hbehind] at hmark
    exact parse_right_of_none hopen hmark
  | some t =>
    rw [hbehind] at hmark
    exact parse_right_of hopen hmark

theorem keeps_brackets : Keeps n m.inside m.inside brackets := by
  refine keeps_delimited parse_brackets (fun s hs => ?_) (behindLexeme?_mark (by decide))
    (fun s t h w => behindMark?_append h w) (fun _ _ _ => rfl) (by decide)
  refine parse_right_none (parse_right_none ?_ _) _
  cases s with
  | nil => exact parse_char_nil _
  | cons c s => exact parse_char_none (fun hc => hs (congrArg some hc)) s

/-- Behind the last blank of a text the blanks of the seam are skipped. -/
theorem keeps_blank : Keeps n m.inside m.between blank := by
  intro s hs _
  induction h : s.length using Nat.strongRecOn generalizing s with
  | _ k ih =>
    subst h
    cases hbehind : behindBlank? s with
    | some t =>
      have hlt := length_lt_of_behindBlank? hbehind
      have hread := parse_blank_of_behindBlank? hbehind
      have hjoin := parse_blank_of_behindBlank? (behindBlank?_append hbehind m.text)
      obtain ⟨u, hu, hok⟩ := exists_parse_blank t
      have hkeeps := ih t.length hlt t (by omega) trivial rfl
      have hlexes := lexes_blank_iff hbehind
      exact keepsAt_of_some (hread.trans hu) hok (hlexes.trans (hkeeps.lexes hu))
        fun hs => hjoin.trans (hkeeps.read hu (hlexes.mp hs))
    | none =>
      refine keepsAt_of_some (parse_blank_of_none hbehind) hbehind Iff.rfl fun hlexes => ?_
      cases s with
      | nil => exact m.parse_blank
      | cons c s =>
        rw [m.between_join (List.cons_ne_nil c s)]
        refine parse_blank_of_none (behindBlank?_append_none hbehind ?_ m.text)
        rintro rfl hblock
        exact not_lexes_comment hbehind hblock hlexes

end Tokens

end Source

end RuleTypes
