import RuleTypes.Proofs.Source.Swap

/-!
# Commas ahead

A bar that opens no range in a whole text might open one where the text is cut off: a delimiter
between its comma and its bar may have been read beyond the cut. It does not where no comma stands
behind what can be read as bounds. And where a source is read on, none does: a comma is read in a
range only, and before it stand nothing but the bounds of the range and its bar.

* `Text.CommaAhead`: whether behind words, dots, code blocks and blanks stands a comma.
* `Passes`: expressions that read nothing else than such pieces, so a comma that is ahead before
  them is ahead behind them.
* `Inner`, `Clear`, `Open`: the places directly behind a token, behind its blanks, and behind a
  phrase from which no range goes on.
-/

namespace RuleTypes

namespace Text

/-- The text behind a piece of what may stand between a bar and a comma: a blank, a code point of a
word, a dot or a code block. -/
def behindPiece? : Text → Option Text
  | [] => none
  | c :: s =>
    match behindBlank? (c :: s) with
    | some t => some t
    | none =>
      if c.isWord ∨ c = '.' then some s else if c = '{' then behindBrace? 0 s else none

/-- Whether there is a comma behind such pieces. -/
inductive CommaAhead : Text → Prop where
  | here (s : Text) : CommaAhead (CodePoint.ofChar ',' :: s)
  | behind {s t : Text} (h : behindPiece? s = some t) (ht : CommaAhead t) : CommaAhead s

variable {s t : Text} {c : CodePoint}

theorem commaAhead_iff (h : behindPiece? s = some t) : CommaAhead s ↔ CommaAhead t := by
  constructor
  · rintro (s | ⟨h', ht⟩)
    · cases s <;> cases h
    · rw [h] at h'
      cases h'
      exact ht
  · exact .behind h

theorem not_commaAhead_nil : ¬ CommaAhead [] := by
  rintro (- | ⟨h, -⟩)
  cases h

/-- Whether a code point is neither a piece of bounds, nor the begin of one, nor a comma. -/
def endsPieces (c : CodePoint) : Bool := !c.isWord && c ≠ '.' && c ≠ '{' && c ≠ ','

theorem not_commaAhead (h : endsPieces c = true) (hblank : behindBlank? (c :: s) = none) :
    ¬ CommaAhead (c :: s) := by
  simp only [endsPieces, Bool.and_eq_true, Bool.not_eq_true', decide_eq_true_eq] at h
  obtain ⟨⟨⟨hword, hdot⟩, hbrace⟩, hcomma⟩ := h
  have hpiece : behindPiece? (c :: s) = none := by
    rw [behindPiece?, hblank]
    simp [hword, hdot, hbrace]
  rintro (- | ⟨h', -⟩)
  · exact hcomma rfl
  · rw [hpiece] at h'
    cases h'

theorem commaAhead_blank_iff (h : behindBlank? s = some t) : CommaAhead s ↔ CommaAhead t := by
  refine commaAhead_iff ?_
  cases s with
  | nil => cases h
  | cons c s => rw [behindPiece?, h]

theorem behindBlank?_mark (h : c.isMark = true) (s : Text) : behindBlank? (c :: s) = none := by
  simp only [CodePoint.isMark, Bool.and_eq_true, Bool.not_eq_true', decide_eq_true_eq] at h
  exact behindBlank?_cons h.1.1.1.1.1 h.2 s

theorem commaAhead_cons_iff (h : c.isWord = true ∨ c = '.') (s : Text) :
    CommaAhead (c :: s) ↔ CommaAhead s := by
  have hmark : c.isMark = true := by
    rcases h with h | rfl
    · exact CodePoint.isMark_of_isWord h
    · decide
  refine commaAhead_iff ?_
  rw [behindPiece?, behindBlank?_mark hmark]
  exact if_pos h

theorem commaAhead_brace_iff (h : behindBrace? 0 s = some t) :
    CommaAhead (CodePoint.ofChar '{' :: s) ↔ CommaAhead t := by
  refine commaAhead_iff ?_
  rw [behindPiece?, behindBlank?_cons rfl (by decide)]
  exact h

end Text

namespace Source

open Expression Text

variable {α β : Type}

/-! ## Reading over pieces -/

/-- What is read of a text does not change whether a comma is ahead. -/
def Passes (e : Expression α) : Prop :=
  ∀ ⦃s x t⦄, parse e s = some (x, t) → (CommaAhead s ↔ CommaAhead t)

section Passes

variable {a a' : Expression α} {b : Expression β}

theorem passes_pure (x : α) : Passes (.pure x) := by
  intro s y t h
  cases h
  exact Iff.rfl

theorem passes_seq (ha : Passes a) (hb : Passes b) : Passes (.seq a b) := by
  rintro s ⟨x, y⟩ u h
  obtain ⟨t, hx, hy⟩ := parse_seq_eq_some.mp h
  exact (ha hx).trans (hb hy)

theorem passes_map (f : α → β) (ha : Passes a) : Passes (f <$> a) := by
  intro s y t h
  obtain ⟨x, hx, -⟩ := parse_map_eq_some.mp h
  exact ha hx

theorem passes_left (ha : Passes a) (hb : Passes b) : Passes (a <* b) :=
  passes_map _ (passes_seq ha hb)

theorem passes_right (ha : Passes a) (hb : Passes b) : Passes (a *> b) :=
  passes_map _ (passes_seq ha hb)

theorem passes_or (ha : Passes a) (ha' : Passes a') : Passes (a <|> a') :=
  fun _ _ _ h => (parse_or_eq_some.mp h).elim (ha ·) fun h => ha' h.2

theorem passes_opt (ha : Passes a) : Passes (.opt a) :=
  passes_or (passes_map some ha) (passes_pure none)

theorem passes_rule {r : Nonterminal} (h : Passes (body r)) : Passes (rule r) :=
  fun s _ _ hx => h ((parse_rule r s).symm.trans hx)

theorem passes_source (ha : Passes a) : Passes (.source a) := by
  intro s taken t h
  rw [parse_source] at h
  obtain ⟨⟨x, t'⟩, hx, htaken⟩ := Option.map_eq_some_iff.mp h
  cases htaken
  exact ha hx

theorem passes_star (hnull : a.nullable Nonterminal.isNullable = false) (ha : Passes a) :
    Passes (.star a) := by
  intro s xs u h
  induction hk : s.length using Nat.strongRecOn generalizing s xs with
  | _ k ih =>
    subst hk
    cases hx : parse a s with
    | none =>
      rw [parse_star_none hx] at h
      cases h
      exact Iff.rfl
    | some found =>
      obtain ⟨x, t⟩ := found
      obtain ⟨ys, v, hstar⟩ := exists_parse_star hnull t
      rw [parse_star_of hnull hx hstar] at h
      cases h
      exact (ha hx).trans (ih t.length (length_lt_of_parse hnull hx) hstar rfl)

theorem passes_satisfy {f : CodePoint → Bool} (hf : ∀ c, f c = true → c.isWord = true ∨ c = '.') :
    Passes (.satisfy f) := by
  intro s c t h
  cases s with
  | nil => cases h
  | cons d s =>
    rw [parse_satisfy_cons, Option.ite_none_right_eq_some] at h
    obtain ⟨hd, hread⟩ := h
    cases hread
    exact commaAhead_cons_iff (hf _ hd) _

theorem passes_dot : Passes (.char '.') :=
  passes_satisfy fun _ hc => .inr (of_decide_eq_true hc)

theorem passes_identifier : Passes (rule .identifier) :=
  passes_rule (passes_source (passes_right
    (passes_satisfy fun _ hc => .inl (CodePoint.isWord_of_isWordStart hc))
    (passes_star rfl (passes_satisfy fun _ hc => .inl hc))))

theorem passes_codeBlock : Passes (rule .codeBlock) := by
  intro s code t h
  by_cases hbrace : s.head? = some (CodePoint.ofChar '{')
  · obtain ⟨s, rfl⟩ := List.head?_eq_some_iff.mp hbrace
    rw [parse_codeBlock] at h
    obtain ⟨t', hbehind, hread⟩ := Option.map_eq_some_iff.mp h
    cases hread
    exact commaAhead_brace_iff hbehind
  · rw [parse_codeBlock_none hbrace] at h
    cases h

theorem passes_blank : Passes blank := by
  rintro s ⟨⟩ t h
  induction hk : s.length using Nat.strongRecOn generalizing s with
  | _ k ih =>
    subst hk
    cases hbehind : behindBlank? s with
    | none =>
      rw [parse_blank_of_none hbehind] at h
      cases h
      exact Iff.rfl
    | some u =>
      rw [parse_blank_of_behindBlank? hbehind] at h
      exact (commaAhead_blank_iff hbehind).trans
        (ih u.length (length_lt_of_behindBlank? hbehind) h rfl)

/-- A comma behind the bounds of a range is ahead before them. -/
theorem passes_rangeBounds : Passes (rule .rangeBounds) := by
  have hdigit : Passes (.satisfy CodePoint.isDigit) :=
    passes_satisfy fun _ hc => .inl (CodePoint.isWord_of_isDigit hc)
  have hdigits : Passes (.source (.plus (.satisfy CodePoint.isDigit))) :=
    passes_source (passes_map _ (passes_seq hdigit (passes_star rfl hdigit)))
  have hbound : Passes (rule .rangeBound) :=
    passes_rule (passes_or (passes_map _ hdigits)
      (passes_or (passes_map _ passes_identifier) (passes_map _ passes_codeBlock)))
  have hopt : Passes bound := passes_map _ (passes_opt hbound)
  exact passes_rule (passes_map _ (passes_seq (passes_left hopt passes_blank)
    (passes_opt (passes_left (passes_right (passes_right (passes_right passes_dot passes_dot)
      passes_blank) hopt) passes_blank))))

end Passes

/-! ## Places -/

/-- The places directly behind a token, where `w` is cut off: no comma is ahead, and a last letter
`i` of the text is a word of its own. -/
def Inner (w t : Text) : Prop :=
  ¬ CommaAhead t ∧ (t = [CodePoint.ofChar 'i'] → endsWord w = true)

/-- The places behind the blanks of a token. -/
def Clear (w t : Text) : Prop := behindBlank? t = none → Inner w t

/-- The places behind an element: where a bar stands, no comma is ahead behind it. -/
def Open (w t : Text) : Prop :=
  Clear w t ∧ ∀ c u, parse (token '|') t = some (c, u) → ¬ CommaAhead u

/-- The places behind the elements of a sequence: the text ends there, or a rule begins, or one of
these characters stands there. -/
def Stop (w : Text) (cs : List Char) (t : Text) : Prop :=
  Open w t ∧ (t = [] ∨ BeginsRule t ∨ Begins cs t)

section Places

variable {w t : Text} {cs : List Char} {n : Nat}

theorem clear_of_inner (h : Inner w t) : Clear w t := fun _ => h

theorem clear_of_begins (hcs : (cs.all fun c => endsPieces (CodePoint.ofChar c)) = true)
    (h : Begins cs t) : Clear w t := by
  obtain ⟨c, hc, u, rfl⟩ := h
  have hends := List.all_eq_true.mp hcs c hc
  refine fun hblank => ⟨not_commaAhead hends hblank, fun hi => ?_⟩
  rw [(List.cons.inj hi).1] at hends
  cases hends

theorem open_of_clear (h : Clear w t) (hbar : t.head? ≠ some (CodePoint.ofChar '|')) :
    Open w t := by
  refine ⟨h, fun c u hread => ?_⟩
  cases t with
  | nil => cases hread
  | cons d t =>
    rw [parse_token_none fun hd => hbar (congrArg some hd)] at hread
    cases hread

theorem open_of_begins
    (hcs : (cs.all fun c => endsPieces (CodePoint.ofChar c) && CodePoint.ofChar c ≠ '|') = true)
    (h : Begins cs t) : Open w t := by
  simp only [List.all_eq_true, Bool.and_eq_true, decide_eq_true_eq] at hcs
  refine open_of_clear (clear_of_begins (List.all_eq_true.mpr fun c hc => (hcs c hc).1) h) ?_
  obtain ⟨c, hc, u, rfl⟩ := h
  exact fun h => (hcs c hc).2 (Option.some.inj h)

theorem open_nil : Open w [] :=
  open_of_clear (fun _ => ⟨not_commaAhead_nil, fun h => absurd h (by simp)⟩) (by simp)

/-- Behind the name of a rule, blanks and its head no comma is ahead. -/
theorem open_of_beginsRule (h : BeginsRule t) : Open w t := by
  obtain ⟨c, s, rfl, hc⟩ := exists_cons_of_beginsRule h
  refine open_of_clear (fun _ => ⟨fun hcomma => ?_, fun hi => ?_⟩) fun hbar => ?_
  · obtain ⟨name, t, u, hname, hblank, hhead⟩ := h
    obtain ⟨d, v, rfl, hd⟩ := exists_cons_of_ruleHead hhead
    have hahead := (passes_blank hblank).mp ((passes_identifier hname).mp hcomma)
    refine not_commaAhead ?_ ?_ hahead <;> rcases hd with rfl | rfl | rfl
    all_goals first | decide | exact behindBlank?_cons rfl (by decide) v
  · obtain ⟨name, t, u, hname, hblank, hhead⟩ := h
    obtain ⟨d, v, rfl, -⟩ := exists_cons_of_ruleHead hhead
    have hlt := length_lt_of_parse rfl hname
    have hle := length_le_of_parse hblank
    rw [hi] at hlt
    simp only [List.length_cons, List.length_nil] at hlt hle
    omega
  · exact ne_of_isWordStart hc (by decide) (Option.some.inj hbar)

theorem Stop.mono {cs' : List Char} (h : Stop w cs t) (hcs : cs ⊆ cs') : Stop w cs' t :=
  ⟨h.1, h.2.imp_right (Or.imp_right (·.mono hcs))⟩

theorem stop_of_begins {cs' : List Char}
    (hcs : (cs.all fun c => endsPieces (CodePoint.ofChar c) && CodePoint.ofChar c ≠ '|') = true)
    (hsub : cs ⊆ cs') (h : Begins cs t) : Stop w cs' t :=
  ⟨open_of_begins hcs h, .inr (.inr (h.mono hsub))⟩

/-! ### Tokens -/

/-- Where an identifier ends, no word goes on. -/
theorem endsWord_of_parse_identifier {s name : Text}
    (h : parse (rule .identifier) s = some (name, t)) : endsWord t = true := by
  rw [parse_rule] at h
  obtain ⟨⟨word, t'⟩, hword, hname⟩ := Option.map_eq_some_iff.mp ((parse_source _ s).symm.trans h)
  obtain ⟨c, u, -, hothers⟩ := parse_right_eq_some.mp hword
  rw [parse_star_satisfy] at hothers
  cases hothers
  cases hname
  have hhead := List.head?_dropWhile_not CodePoint.isWord u
  rw [endsWord]
  cases hd : (u.dropWhile CodePoint.isWord).head? with
  | none => rfl
  | some d =>
    rw [hd] at hhead
    simpa using hhead

theorem cut_identifier : Swaps w [] n (Inner w) (Inner w) (rule .identifier) := by
  intro s name t hs h ht
  obtain ⟨-, hread⟩ := swaps_identifier.cut hs h trivial
  simp only [List.append_nil] at hread
  refine ⟨⟨fun hcomma => ht.1 ((passes_identifier hread).mp hcomma), ?_⟩, by simpa using hread⟩
  rintro rfl
  have hlt := length_lt_of_append rfl h
  obtain rfl := List.length_eq_zero_iff.mp (Nat.lt_one_iff.mp hlt)
  exact endsWord_of_parse_identifier h

/-- Behind blanks no blank stands. -/
theorem behindBlank?_of_parse_blank {s : Text} (h : parse blank s = some ((), t)) :
    behindBlank? t = none := by
  obtain ⟨u, hu, hnone⟩ := exists_parse_blank s
  rw [h] at hu
  cases hu
  exact hnone

theorem cut_blank : Swaps w [] n (Inner w) (Clear w) blank := by
  rintro s ⟨⟩ t hs h ht
  obtain ⟨-, hread⟩ := swaps_blank_cut hs h trivial
  simp only [List.append_nil] at hread
  have hinner := ht (behindBlank?_of_parse_blank hread)
  refine ⟨⟨fun hcomma => hinner.1 ((passes_blank hread).mp hcomma), ?_⟩, by simpa using hread⟩
  rintro rfl
  rw [parse_blank_of_none rfl] at hread
  cases hread
  exact hinner.2 rfl

/-- What is told by its first character is no last letter of the text. -/
theorem cut_of_begins {e : Expression α} {c : Char} (h : Swaps w [] n (Begins [c]) Anywhere e)
    (hpasses : Passes e) (hc : CodePoint.ofChar c ≠ 'i') : Swaps w [] n (Inner w) (Inner w) e := by
  intro s x t hs hx ht
  obtain ⟨⟨d, hd, u, rfl⟩, hread⟩ := h hs hx trivial
  refine ⟨⟨fun hcomma => ht.1 ?_, fun hi => ?_⟩, hread⟩
  · simp only [List.append_nil] at hread
    exact (hpasses hread).mp hcomma
  · obtain rfl := List.mem_singleton.mp hd
    exact absurd (List.cons.inj hi).1 hc

theorem cut_dot : Swaps w [] n (Inner w) (Inner w) (.char '.') :=
  cut_of_begins (swaps_char '.') passes_dot (by decide)

theorem cut_codeBlock : Swaps w [] n (Inner w) (Inner w) (rule .codeBlock) :=
  cut_of_begins (swaps_codeBlock n) passes_codeBlock (by decide)

/-- A flag that is no flag because a word goes on does not end the text. -/
theorem refuses_flag : Refuses w [] (Inner w) flag := by
  intro s hs h
  rw [List.append_nil]
  match s with
  | [] => rfl
  | c :: s =>
    refine parse_map_none _ ?_
    by_cases hc : c = 'i'
    · subst hc
      refine parse_left_of_none (parse_char 'i' s) ?_
      match s with
      | [] =>
        rw [List.cons_append, List.nil_append, parse_flag (hs.2 rfl)] at h
        cases h
      | d :: s =>
        by_cases hd : d.isWord = true
        · rw [parse_notAt, parse_satisfy_cons, if_pos hd]
          rfl
        · rw [List.cons_append, parse_flag (by simpa [endsWord] using hd)] at h
          cases h
    · exact parse_left_none (parse_char_none hc s) _

end Places

end Source

end RuleTypes
