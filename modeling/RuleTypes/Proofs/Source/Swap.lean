import RuleTypes.Proofs.Source.Join

/-!
# Texts with another end

What is read of the begin of a text may have been decided by its end: a lookahead goes on, an
alternative is tried that fails far behind, a comment begins that is not closed. Whether a decision
falls as before where the end is another one is a matter of the place from which the reading goes on
behind it. A place is given by the text that is left up to the end, and places are told by kinds,
from the end backwards.

* `Swaps v w`: what is read in front of the end `v`, up to a place of one kind, is read from a place
  of another, and is read in front of the end `w` as well. One statement for each operator.
* `Refuses v w`: what cannot be read in front of `v` cannot be read in front of `w`.
* `Held`: the places at which a token ends alike, whatever stands behind the text.
* `refuses_of_swaps`: where all that is read of a text is read with more behind it, what cannot be
  read of a text cannot be read of it where its end is cut off.
-/

namespace RuleTypes.Source

open Expression Text

variable {α β : Type}

/-- Of texts below a length, with the end `v` and then with the end `w`: what is read up to a place
of kind `q` is read from a place of kind `p`, and the same is read with the other end. -/
def Swaps (v w : Text) (n : Nat) (p q : Text → Prop) (e : Expression α) : Prop :=
  ∀ ⦃s x t⦄, s.length < n → parse e (s ++ v) = some (x, t ++ v) → q t →
    p s ∧ parse e (s ++ w) = some (x, t ++ w)

/-- What cannot be read at a place of kind `p` with the end `v` cannot be read with the end `w`. -/
def Refuses (v w : Text) (p : Text → Prop) (e : Expression α) : Prop :=
  ∀ ⦃s⦄, p s → parse e (s ++ v) = none → parse e (s ++ w) = none

/-- Every place. -/
def Anywhere (_ : Text) : Prop := True

/-- The places before an end `w` at which no token goes on: nothing is put there, or there is text
before it. -/
def Held (w : Text) (t : Text) : Prop := t = [] → w = []

/-- The places before one of these characters. -/
def Begins (cs : List Char) (t : Text) : Prop := ∃ c ∈ cs, ∃ u, t = CodePoint.ofChar c :: u

theorem Begins.mono {cs cs' : List Char} {t : Text} (h : Begins cs t) (hcs : cs ⊆ cs') :
    Begins cs' t := by
  obtain ⟨c, hc, hu⟩ := h
  exact ⟨c, hcs hc, hu⟩

/-- An expression that is read of any text. -/
def Total (e : Expression α) : Prop := ∀ s, parse e s ≠ none

theorem held_nil (t : Text) : Held [] t := fun _ => rfl

theorem held_of_begins {cs : List Char} {t : Text} (h : Begins cs t) (w : Text) : Held w t := by
  obtain ⟨c, -, u, rfl⟩ := h
  rintro ⟨⟩

/-! ## Operators -/

section Operators

variable {v w : Text} {n : Nat} {p p' q q' r : Text → Prop} {a a' : Expression α} {b : Expression β}

theorem Swaps.mono (h : Swaps v w n p q a) (hp : ∀ s, p s → p' s) (hq : ∀ t, q' t → q t) :
    Swaps v w n p' q' a := by
  intro s x t hs hx ht
  exact (h hs hx (hq t ht)).imp_left (hp s)

theorem Swaps.weaken (h : Swaps v w n p q a) (hp : ∀ s, p s → p' s) : Swaps v w n p' q a :=
  h.mono hp fun _ => id

theorem Swaps.narrow (h : Swaps v w n p q a) (hq : ∀ t, q' t → q t) : Swaps v w n p q' a :=
  h.mono (fun _ => id) hq

/-- What is read from a place of some kind is read from some place. -/
theorem Swaps.anywhere (h : Swaps v w n p q a) : Swaps v w n Anywhere q a :=
  h.weaken fun _ _ => trivial

/-- What is read up to any place is read up to places of a kind. -/
theorem Swaps.upTo (h : Swaps v w n p Anywhere a) : Swaps v w n p q a :=
  h.narrow fun _ _ => trivial

/-- What is read tells the place from which it is read. -/
theorem Swaps.of_parse (h : Swaps v w n p q a)
    (hp : ∀ s x t, parse a (s ++ v) = some (x, t ++ v) → p s → q t → p' s) :
    Swaps v w n p' q a := by
  intro s x t hs hx ht
  obtain ⟨hps, hx'⟩ := h hs hx ht
  exact ⟨hp s x t hx hps ht, hx'⟩

theorem Refuses.mono (h : Refuses v w p a) (hp : ∀ s, p' s → p s) : Refuses v w p' a :=
  fun s hs => h (hp s hs)

/-- What is left before a place in the text is a place in the text. -/
theorem exists_rest {s t : Text} {y : β} (h : parse b s = some (y, t ++ v)) :
    ∃ u, s = u ++ v := by
  obtain ⟨taken, hs⟩ := exists_append_of_parse h
  exact ⟨taken ++ t, by rw [hs, List.append_assoc]⟩

theorem length_le_of_append {s t : Text} {x : α} (h : parse a (s ++ v) = some (x, t ++ v)) :
    t.length ≤ s.length := by
  have hle := length_le_of_parse h
  simp only [List.length_append] at hle
  omega

theorem length_lt_of_append {s t : Text} {x : α} (hnull : a.nullable Nonterminal.isNullable = false)
    (h : parse a (s ++ v) = some (x, t ++ v)) : t.length < s.length := by
  have hlt := length_lt_of_parse hnull h
  simp only [List.length_append] at hlt
  omega

theorem swaps_pure (x : α) : Swaps v w n q q (.pure x) := by
  intro s y t _ h ht
  rw [parse_pure] at h
  obtain ⟨rfl, hst⟩ := Prod.mk.inj (Option.some.inj h)
  obtain rfl := List.append_cancel_right hst
  exact ⟨ht, parse_pure x _⟩

/-- One expression behind another, where the second is read of texts below a length of its own. -/
theorem swaps_seq_of {m : Nat} (ha : Swaps v w n p q a) (hb : Swaps v w m q r b)
    (hlt : ∀ ⦃s x t⦄, parse a (s ++ v) = some (x, t ++ v) → s.length < n → t.length < m) :
    Swaps v w n p r (.seq a b) := by
  rintro s ⟨x, y⟩ u hs h hu
  obtain ⟨t, hx, hy⟩ := parse_seq_eq_some.mp h
  obtain ⟨t, rfl⟩ := exists_rest hy
  obtain ⟨ht, hy⟩ := hb (hlt hx hs) hy hu
  obtain ⟨hps, hx⟩ := ha hs hx ht
  exact ⟨hps, parse_seq_of hx hy⟩

theorem swaps_seq (ha : Swaps v w n p q a) (hb : Swaps v w n q r b) :
    Swaps v w n p r (.seq a b) :=
  swaps_seq_of ha hb fun _ _ _ h hs => Nat.lt_of_le_of_lt (length_le_of_append h) hs

/-- What stands behind an expression that takes something is read of a shorter text. -/
theorem swaps_seq_of_lt (hnull : a.nullable Nonterminal.isNullable = false)
    (ha : Swaps v w (n + 1) p q a) (hb : Swaps v w n q r b) : Swaps v w (n + 1) p r (.seq a b) :=
  swaps_seq_of ha hb fun _ _ _ h hs =>
    Nat.lt_of_lt_of_le (length_lt_of_append hnull h) (Nat.le_of_lt_succ hs)

theorem swaps_map (f : α → β) (ha : Swaps v w n p q a) : Swaps v w n p q (f <$> a) := by
  intro s y t hs h ht
  obtain ⟨x, hx, rfl⟩ := parse_map_eq_some.mp h
  exact (ha hs hx ht).imp_right (parse_map_of f)

theorem swaps_left (ha : Swaps v w n p q a) (hb : Swaps v w n q r b) : Swaps v w n p r (a <* b) :=
  swaps_map _ (swaps_seq ha hb)

theorem swaps_right (ha : Swaps v w n p q a) (hb : Swaps v w n q r b) :
    Swaps v w n p r (a *> b) :=
  swaps_map _ (swaps_seq ha hb)

theorem swaps_rule {r : Nonterminal} (h : Swaps v w n p q (body r)) :
    Swaps v w n p q (rule r) := by
  intro s x t hs hx ht
  rw [parse_rule] at hx ⊢
  exact h hs hx ht

theorem swaps_source (ha : Swaps v w n p q a) : Swaps v w n p q (.source a) := by
  intro s taken t hs h ht
  rw [parse_source] at h
  obtain ⟨⟨x, t'⟩, hx, htaken⟩ := Option.map_eq_some_iff.mp h
  obtain ⟨htaken, rfl⟩ := Prod.mk.inj htaken
  obtain ⟨hps, hx⟩ := ha hs hx ht
  refine ⟨hps, ?_⟩
  have hsame := (take_sub_append s t w 0).trans (take_sub_append s t v 0).symm
  rw [parse_source, hx, ← htaken]
  exact congrArg (fun taken => some (taken, t ++ w)) hsame

/-- The second alternative is read where the first cannot be. -/
theorem swaps_or (ha : Swaps v w n p q a) (ha' : Swaps v w n p' q a') (hp : ∀ s, p' s → p s)
    (hrefuses : Refuses v w p' a) : Swaps v w n p q (a <|> a') := by
  intro s x t hs h ht
  rcases parse_or_eq_some.mp h with hx | ⟨hnone, hx⟩
  · exact (ha hs hx ht).imp_right fun hx => parse_or_of hx a'
  · obtain ⟨hps, hx⟩ := ha' hs hx ht
    exact ⟨hp s hps, parse_or_of_none (hrefuses hps hnone) hx⟩

theorem swaps_opt (ha : Swaps v w n p q a) (hp : ∀ s, q s → p s) (hrefuses : Refuses v w q a) :
    Swaps v w n p q (.opt a) := by
  refine swaps_or (swaps_map some ha) (swaps_pure none) hp fun s hs h => ?_
  exact parse_map_none some (hrefuses hs (parse_map_eq_none.mp h))

/-- A repetition is read from behind a match to where none can be read. -/
theorem swaps_star (hnull : a.nullable Nonterminal.isNullable = false) (ha : Swaps v w n p p' a)
    (hp : ∀ s, p s → p' s) (hq : ∀ s, q s → p' s) (hrefuses : Refuses v w q a) :
    Swaps v w n p' q (.star a) := by
  intro s xs u hs h hu
  induction hk : s.length using Nat.strongRecOn generalizing s xs with
  | _ k ih =>
    subst hk
    cases hx : parse a (s ++ v) with
    | none =>
      rw [parse_star_none hx] at h
      obtain ⟨rfl, hsu⟩ := Prod.mk.inj (Option.some.inj h)
      obtain rfl := List.append_cancel_right hsu
      exact ⟨hq s hu, parse_star_none (hrefuses hu hx)⟩
    | some found =>
      obtain ⟨x, t⟩ := found
      obtain ⟨ys, v', hstar⟩ := exists_parse_star hnull t
      rw [parse_star_of hnull hx hstar] at h
      obtain ⟨rfl, rfl⟩ := Prod.mk.inj (Option.some.inj h)
      obtain ⟨t, rfl⟩ := exists_rest hstar
      have hlt := length_lt_of_append hnull hx
      obtain ⟨ht, hstar⟩ := ih t.length hlt (by omega) hstar rfl
      obtain ⟨hps, hx⟩ := ha hs hx ht
      exact ⟨hp s hps, parse_star_of hnull hx hstar⟩

/-- What cannot be read is not looked at. -/
theorem swaps_notAt (hrefuses : Refuses v w q a) : Swaps v w n q q (.notAt a) := by
  intro s x t _ h ht
  rw [parse_notAt] at h
  split at h
  · cases h
  · rename_i hnone
    obtain ⟨rfl, hst⟩ := Prod.mk.inj (Option.some.inj h)
    obtain rfl := List.append_cancel_right hst
    exact ⟨ht, parse_notAt_of (hrefuses ht (Option.not_isSome_iff_eq_none.mp hnone))⟩

/-! ### What cannot be read -/

theorem refuses_of_none (h : ∀ s, p s → parse a (s ++ w) = none) : Refuses v w p a :=
  fun s hs _ => h s hs

theorem refuses_of_begins {cs : List Char}
    (h : ∀ c ∈ cs, ∀ s, parse a (CodePoint.ofChar c :: s) = none) : Refuses v w (Begins cs) a := by
  rintro s ⟨c, hc, u, rfl⟩ -
  exact h c hc (u ++ w)

/-- Where everything is read with more behind the text, nothing is refused that can be read where
the end of the text is cut off. -/
theorem refuses_of_swaps (h : ∀ n, Swaps [] v n p' Anywhere a) : Refuses v [] p a := by
  intro s _ hnone
  rw [List.append_nil]
  cases hx : parse a s with
  | none => rfl
  | some found =>
    obtain ⟨x, t⟩ := found
    have hread : parse a (s ++ []) = some (x, t ++ []) := by rwa [List.append_nil, List.append_nil]
    obtain ⟨-, hread⟩ := h (s.length + 1) (Nat.lt_succ_self _) hread trivial
    rw [hread] at hnone
    cases hnone

theorem refuses_map (f : α → β) (ha : Refuses v w p a) : Refuses v w p (f <$> a) :=
  fun _ hs h => parse_map_none f (ha hs (parse_map_eq_none.mp h))

theorem refuses_rule {r : Nonterminal} (h : Refuses v w p (body r)) : Refuses v w p (rule r) := by
  intro s hs hnone
  rw [parse_rule] at hnone ⊢
  exact h hs hnone

theorem refuses_source (ha : Refuses v w p a) : Refuses v w p (.source a) := by
  intro s hs h
  rw [parse_source, Option.map_eq_none_iff] at h
  exact parse_source_none (ha hs h)

theorem refuses_or (ha : Refuses v w p a) (ha' : Refuses v w p a') : Refuses v w p (a <|> a') := by
  intro s hs h
  obtain ⟨hnone, hnone'⟩ := parse_or_eq_none.mp h
  exact parse_or_of_none (ha hs hnone) (ha' hs hnone')

theorem refuses_seq_of_total (ha : Refuses v w p a) (hb : Total b) :
    Refuses v w p (.seq a b) := by
  intro s hs hnone
  rcases parse_seq_eq_none.mp hnone with hnone | ⟨x, t, -, hnone⟩
  · exact parse_seq_none (ha hs hnone) b
  · exact absurd hnone (hb t)

theorem refuses_left_of_total (ha : Refuses v w p a) (hb : Total b) : Refuses v w p (a <* b) :=
  refuses_map _ (refuses_seq_of_total ha hb)

theorem refuses_right_of_total (ha : Refuses v w p a) (hb : Total b) : Refuses v w p (a *> b) :=
  refuses_map _ (refuses_seq_of_total ha hb)

/-- Where the second of two expressions is read, the first is read with more behind the text. -/
theorem refuses_seq (ha : ∀ n, Swaps [] v n p' q a) (hb : Refuses v [] Anywhere b)
    (hq : ∀ t, parse b t ≠ none → q t) : Refuses v [] p (.seq a b) := by
  intro s _ hnone
  rw [List.append_nil]
  cases hx : parse a s with
  | none => exact parse_seq_none hx b
  | some found =>
    obtain ⟨x, t⟩ := found
    refine parse_seq_of_none hx (Decidable.byContradiction fun hy => ?_)
    have hread : parse a (s ++ []) = some (x, t ++ []) := by rwa [List.append_nil, List.append_nil]
    obtain ⟨-, hread⟩ := ha (s.length + 1) (Nat.lt_succ_self _) hread (hq t hy)
    rcases parse_seq_eq_none.mp hnone with hnone | ⟨x', t', hx', hnone⟩
    · rw [hread] at hnone
      cases hnone
    · rw [hread] at hx'
      cases hx'
      have hnone := hb trivial hnone
      rw [List.append_nil] at hnone
      exact hy hnone

/-! ### What is always read -/

theorem total_opt (a : Expression α) : Total (.opt a) := by
  intro s h
  obtain ⟨found, t, hread⟩ := exists_parse_opt a s
  rw [h] at hread
  cases hread

theorem total_star (hnull : a.nullable Nonterminal.isNullable = false) : Total (.star a) := by
  intro s h
  obtain ⟨xs, t, hread⟩ := exists_parse_star hnull s
  rw [h] at hread
  cases hread

theorem total_map (f : α → β) (ha : Total a) : Total (f <$> a) :=
  fun s h => ha s (parse_map_eq_none.mp h)

theorem total_seq (ha : Total a) (hb : Total b) : Total (.seq a b) := by
  intro s h
  rcases parse_seq_eq_none.mp h with h | ⟨_, t, -, h⟩
  · exact ha s h
  · exact hb t h

theorem total_left (ha : Total a) (hb : Total b) : Total (a <* b) := total_map _ (total_seq ha hb)

theorem total_right (ha : Total a) (hb : Total b) : Total (a *> b) := total_map _ (total_seq ha hb)

theorem total_blank : Total blank := by
  intro s h
  obtain ⟨t, hread, -⟩ := exists_parse_blank s
  rw [h] at hread
  cases hread

end Operators

/-! ## Tokens -/

section Tokens

variable {v w : Text} {n : Nat}

theorem swaps_satisfy (f : CodePoint → Bool) : Swaps v w n (· ≠ []) Anywhere (.satisfy f) := by
  intro s x t _ h _
  cases s with
  | nil =>
    have hlt := length_lt_of_append rfl h
    exact absurd hlt (Nat.not_lt_zero _)
  | cons c s =>
    refine ⟨List.cons_ne_nil c s, ?_⟩
    rw [List.cons_append, parse_satisfy_cons, Option.ite_none_right_eq_some] at h ⊢
    obtain ⟨hc, hread⟩ := h
    obtain ⟨rfl, hst⟩ := Prod.mk.inj (Option.some.inj hread)
    exact ⟨hc, by rw [List.append_cancel_right hst]⟩

theorem refuses_satisfy (f : CodePoint → Bool) : Refuses v w (Held w) (.satisfy f) := by
  intro s hs h
  cases s with
  | nil =>
    rw [hs rfl]
    rfl
  | cons c s =>
    rw [List.cons_append, parse_satisfy_cons, ite_eq_right_iff] at h ⊢
    exact fun hc => absurd (h hc) (Option.some_ne_none _)

theorem swaps_char (c : Char) : Swaps v w n (Begins [c]) Anywhere (.char c) := by
  refine (swaps_satisfy _).of_parse fun s x t h hs _ => ?_
  obtain ⟨d, s, rfl⟩ := List.exists_cons_of_ne_nil hs
  exact ⟨c, List.mem_singleton_self c, s, by rw [(List.cons.inj (parse_char_eq_some h)).1]⟩

theorem swaps_satisfies (f : CodePoint → Bool) :
    Swaps v w n (Held w) (Held w) (.star (.satisfy f)) :=
  swaps_star rfl (swaps_satisfy f).upTo (fun _ hs h => absurd h hs) (fun _ => id)
    (refuses_satisfy f)

theorem swaps_identifier : Swaps v w n (· ≠ []) (Held w) (rule .identifier) :=
  swaps_rule (swaps_source (swaps_right (swaps_satisfy _).upTo (swaps_satisfies _)))

theorem swaps_digits :
    Swaps v w n (· ≠ []) (Held w) (.source (.plus (.satisfy CodePoint.isDigit))) :=
  swaps_source (swaps_map _ (swaps_seq (swaps_satisfy _).upTo (swaps_satisfies _)))

theorem refuses_digits :
    Refuses v w (Held w) (.source (.plus (.satisfy CodePoint.isDigit))) :=
  refuses_source (refuses_map _ (refuses_seq_of_total (refuses_satisfy _) (total_star rfl)))

theorem refuses_identifier : Refuses v w (Held w) (rule .identifier) :=
  refuses_rule (refuses_source (refuses_right_of_total (refuses_satisfy _) (total_star rfl)))

theorem swaps_flag : Swaps v w n (· ≠ []) (Held w) flag :=
  swaps_map _ (swaps_left (swaps_satisfy _).upTo (swaps_notAt (refuses_satisfy _)))

/-! ### Marks -/

theorem ne_nil_of_begins {cs : List Char} {t : Text} (h : Begins cs t) : t ≠ [] := by
  obtain ⟨c, -, u, rfl⟩ := h
  exact List.cons_ne_nil _ u

theorem swaps_unit (mark : Char) : Swaps v w n (· ≠ []) Anywhere (unit mark) := by
  have hescaped : Swaps v w n (Begins ['\\']) Anywhere escaped :=
    swaps_right (swaps_char '\\').upTo (swaps_satisfy _)
  exact swaps_or (swaps_satisfy _) hescaped (fun _ => ne_nil_of_begins)
    ((refuses_satisfy _).mono fun _ h => held_of_begins h w)

theorem swaps_units {mark : Char} (hne : CodePoint.ofChar mark ≠ '\\') :
    Swaps v w n (· ≠ []) (Begins [mark]) (.star (unit mark)) := by
  refine swaps_star rfl (swaps_unit mark).upTo (fun _ => id) (fun _ => ne_nil_of_begins)
    (refuses_of_begins fun c hc s => ?_)
  obtain rfl := List.mem_singleton.mp hc
  exact parse_unit_none (.inr (.inr ⟨s, rfl⟩)) hne

theorem swaps_quoted {mark : Char} (hne : CodePoint.ofChar mark ≠ '\\') :
    Swaps v w n (Begins [mark]) Anywhere (quoted mark) :=
  swaps_left (swaps_right (swaps_char mark).upTo (swaps_source (swaps_units hne)))
    (swaps_char mark)

theorem swaps_stringLiteral :
    Swaps v w n (Begins ['"', '\'']) Anywhere (rule .stringLiteral) := by
  refine swaps_rule (swaps_or ((swaps_quoted (by decide)).weaken ?_)
    (swaps_quoted (by decide)) ?_ (refuses_of_begins ?_))
  · exact fun _ h => h.mono (List.cons_subset_cons _ (List.nil_subset _))
  · exact fun _ h => h.mono (List.subset_cons_self _ _)
  · rintro c hc s
    obtain rfl := List.mem_singleton.mp hc
    exact parse_quoted_none (by decide) s

theorem swaps_brackets : Swaps v w n (Begins ['[']) Anywhere brackets :=
  swaps_right (swaps_right (swaps_char '[').upTo (swaps_units (by decide))) (swaps_char ']')

/-- A code block ends at the brace that closes it, whatever stands behind. -/
theorem swaps_codeBlock (n : Nat) : Swaps v w n (Begins ['{']) Anywhere (rule .codeBlock) := by
  induction n with
  | zero => intro s x t hs; cases hs
  | succ n ih =>
    have hrun : Swaps v w n (· ≠ []) (· ≠ []) (skip (.plus (.satisfy isPlain))) :=
      swaps_map _ (swaps_map _ (swaps_seq (swaps_satisfy _).upTo
        ((swaps_satisfies _).narrow fun _ ht h => absurd h ht)))
    have hpart : Swaps v w n (· ≠ []) (· ≠ []) codePart := by
      refine swaps_or hrun (swaps_map _ ih.upTo) (fun _ => ne_nil_of_begins)
        (refuses_of_begins fun c hc s => ?_)
      obtain rfl := List.mem_singleton.mp hc
      exact parse_run_none (by decide) s
    have hbody : Swaps v w n (· ≠ []) (Begins ['}']) (rule .codeBody) := by
      refine swaps_rule (swaps_map _ (swaps_star rfl hpart (fun _ => id)
        (fun _ => ne_nil_of_begins) (refuses_of_begins fun c hc s => ?_)))
      obtain rfl := List.mem_singleton.mp hc
      exact parse_codePart_none (.inr ⟨s, rfl⟩)
    exact swaps_rule (swaps_source (swaps_right (swaps_map _ (swaps_seq_of_lt rfl
      (swaps_char _).upTo hbody)) (swaps_char _)))

/-! ### Blanks -/

/-- The places before two characters. -/
def BeginsBoth (c d : Char) (t : Text) : Prop :=
  ∃ u, t = CodePoint.ofChar c :: CodePoint.ofChar d :: u

theorem ne_nil_of_beginsBoth {c d : Char} {t : Text} (h : BeginsBoth c d t) : t ≠ [] := by
  obtain ⟨u, rfl⟩ := h
  exact List.cons_ne_nil _ _

theorem swaps_twice (c d : Char) : Swaps v w n (BeginsBoth c d) Anywhere (twice c d) := by
  have hboth : Swaps v w n (Begins [c]) Anywhere (twice c d) :=
    swaps_right (swaps_char c).upTo (swaps_char d)
  refine hboth.of_parse fun s x t h _ _ => ⟨t, ?_⟩
  obtain ⟨y, u, hfirst, hsecond⟩ := parse_right_eq_some.mp h
  have hs := parse_char_eq_some hfirst
  rw [parse_char_eq_some hsecond] at hs
  rw [← List.cons_append, ← List.cons_append] at hs
  exact List.append_cancel_right hs

/-- Two code points tell whether two characters are there. -/
theorem refuses_twice (c d : Char) :
    Refuses v w (fun t => ∃ x y u, t = x :: y :: u) (twice c d) := by
  rintro s ⟨x, y, u, rfl⟩ h
  refine parse_twice_none fun hc hd => ?_
  obtain rfl := Option.some.inj hc
  obtain rfl := Option.some.inj hd
  exact absurd ((parse_twice c d (u ++ v)).symm.trans h) (Option.some_ne_none _)

/-- A comment that is closed in a text is read of it. -/
theorem swaps_blockComment : Swaps v w n (BeginsBoth '/' '*') Anywhere blockComment := by
  have hany : Swaps v w n (fun t => ∃ x y u, t = x :: y :: u) (· ≠ []) anything := by
    refine (swaps_satisfy _).upTo.of_parse fun s c t h _ ht => ?_
    have hlt := length_lt_of_append rfl h
    match s, hlt with
    | [_], hlt => exact absurd (List.length_eq_zero_iff.mp (Nat.lt_one_iff.mp hlt)) ht
    | x :: y :: u, _ => exact ⟨x, y, u, rfl⟩
  have hinside : Swaps v w n (· ≠ []) (BeginsBoth '*' '/')
      (.star (.notAt (twice '*' '/') *> anything)) := by
    refine swaps_star rfl (swaps_right (swaps_notAt (refuses_twice '*' '/')) hany) ?_
      (fun _ => ne_nil_of_beginsBoth) (refuses_of_none ?_)
    · rintro s ⟨x, y, u, rfl⟩
      exact List.cons_ne_nil _ _
    · rintro s ⟨u, rfl⟩
      refine parse_right_none ?_ _
      rw [parse_notAt, List.cons_append, List.cons_append, parse_twice]
      rfl
  exact swaps_right (swaps_twice '/' '*').upTo
    (swaps_map _ (swaps_right hinside (swaps_twice '*' '/')))

theorem swaps_gap : Swaps v w n (· ≠ []) (Held w) gap := by
  have hline : Swaps v w n (BeginsBoth '/' '/') (Held w) lineComment :=
    swaps_right (swaps_twice '/' '/').upTo (swaps_map _ (swaps_satisfies _))
  have hcomment : Swaps v w n (· ≠ []) (Held w) (lineComment <|> blockComment) := by
    refine swaps_or (hline.weaken fun _ => ne_nil_of_beginsBoth) swaps_blockComment.upTo
      (fun _ => ne_nil_of_beginsBoth) (refuses_of_none ?_)
    rintro s ⟨u, rfl⟩
    refine parse_right_none (parse_twice_none fun _ h => ?_) _
    exact absurd (Option.some.inj h) (by decide)
  exact swaps_or (swaps_map _ (swaps_satisfy _).upTo) hcomment
    (fun _ => id) (refuses_map _ ((refuses_satisfy _).mono fun _ hs h => absurd h hs))

/-- Blanks are skipped up to where none stands with either end. -/
theorem swaps_blank {q : Text → Prop} (hq : ∀ t, q t → Held w t) (hrefuses : Refuses v w q gap) :
    Swaps v w n (Held w) q blank :=
  swaps_rule (swaps_map _ (swaps_star rfl swaps_gap (fun _ hs h => absurd h hs) hq hrefuses))

/-! ### With more text behind -/

/-- The places behind blanks before another code point than a slash. -/
def Firm (t : Text) : Prop := behindBlank? t = none → ∃ c u, t = c :: u ∧ c ≠ '/'

theorem firm_of_begins {cs : List Char}
    (hcs : (cs.all fun c => CodePoint.ofChar c ≠ '/') = true) {t : Text} (h : Begins cs t) :
    Firm t := by
  obtain ⟨c, hc, u, rfl⟩ := h
  exact fun _ => ⟨_, u, rfl, of_decide_eq_true (List.all_eq_true.mp hcs c hc)⟩

/-- A blank is told by its first code point, unless that is a slash. -/
theorem refuses_gap_firm : Refuses [] w Firm gap := by
  intro s hs h
  rw [List.append_nil, parse_gap, Option.map_eq_none_iff] at h
  obtain ⟨c, u, rfl, hslash⟩ := hs h
  have hspace : c.isSpace = false :=
    Bool.eq_false_iff.mpr fun hc => by rw [behindBlank?_space hc] at h; cases h
  rw [parse_gap, List.cons_append, behindBlank?_cons hspace hslash]
  rfl

/-- Up to another code point than a slash the same blanks are skipped with more behind the text. -/
theorem swaps_blank_firm : Swaps [] w n (Held w) Firm blank := by
  refine swaps_blank (fun t ht hnil => ?_) refuses_gap_firm
  obtain ⟨c, u, rfl, -⟩ := ht (by rw [hnil]; rfl)
  cases hnil

end Tokens

/-! ## Texts that are cut off -/

section Cut

variable {w : Text} {n : Nat} {p q : Text → Prop} {e : Expression α} {f : Expression β}

/-- Where the end is cut off no token goes on. -/
theorem Swaps.cut (h : Swaps w [] n p (Held []) e) : Swaps w [] n Anywhere Anywhere e :=
  h.mono (fun _ _ => trivial) fun t _ => held_nil t

theorem refuses_one (g : CodePoint → Bool) : Refuses w [] p (.satisfy g) :=
  (refuses_satisfy g).mono fun s _ => held_nil s

theorem refuses_token (c : Char) : Refuses w [] p (token c) :=
  refuses_left_of_total (refuses_one _) total_blank

theorem refuses_stringLiteral : Refuses w [] p (rule .stringLiteral) :=
  refuses_of_swaps fun _ => swaps_stringLiteral

theorem refuses_brackets : Refuses w [] p brackets := refuses_of_swaps fun _ => swaps_brackets

theorem refuses_codeBlock : Refuses w [] p (rule .codeBlock) :=
  refuses_of_swaps fun n => swaps_codeBlock n

theorem refuses_displayName : Refuses w [] p (rule .displayName) :=
  refuses_rule (refuses_left_of_total refuses_stringLiteral total_blank)

theorem refuses_action : Refuses w [] p (rule .action) :=
  refuses_rule (refuses_left_of_total refuses_codeBlock total_blank)

theorem refuses_gap : Refuses w [] p gap := by
  intro s _ h
  rw [parse_gap, Option.map_eq_none_iff] at h
  rw [List.append_nil, parse_gap, behindBlank?_eq_none_of_append h]
  rfl

theorem swaps_blank_cut : Swaps w [] n Anywhere Anywhere blank :=
  (swaps_blank (fun t _ => held_nil t) refuses_gap).anywhere

end Cut

end RuleTypes.Source
