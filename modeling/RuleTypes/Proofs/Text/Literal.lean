import Mathlib.Algebra.Group.Nat.Defs
import RuleTypes.Proofs.Text.Escape
import RuleTypes.Text.Literal

/-!
# Literals are read back

The literal of a text ends at its own closing quote, and decoding what stands between its quotes
gives the UTF-16 units of the text. So two texts have one literal exactly when they have the same
units.

* `Numeral.readHex?_hex`: a hexadecimal numeral is read back.
* `Text.behindMark?_literalBody`: the body of a literal holds no quote that would end it.
* `unescape_literalBody`: decoding the body of a literal.
* `Text.inRange_literal`: literals are printable ASCII.
* `Text.literal_append_inj`: what two texts that begin with literals have in common.
-/

namespace RuleTypes

/-! ## Hexadecimal numerals -/

/-- The hexadecimal digit of a number below sixteen. -/
def CodePoint.ofHexDigit (d : Nat) : CodePoint := .ofChar (Nat.digitChar d)

theorem CodePoint.hexDigit?_ofHexDigit {d : Nat} (h : d < 16) :
    (CodePoint.ofHexDigit d).hexDigit? = some d := by
  revert d
  decide

theorem CodePoint.ofHexDigit_ne {d : Nat} (h : d < 16) :
    CodePoint.ofHexDigit d ≠ '"' ∧ CodePoint.ofHexDigit d ≠ '\\' ∧
      CodePoint.ofHexDigit d ≠ '{' := by
  revert d
  decide

namespace Numeral

theorem exists_digits (n : Nat) : ∃ ds : List Nat, (∀ d ∈ ds, d < 16) ∧
    (Nat.toDigits 16 n).map CodePoint.ofChar = ds.map CodePoint.ofHexDigit ∧
    ofDigits 16 ds = n := by
  induction n using Nat.strongRecOn with
  | _ n ih =>
    by_cases hn : n < 16
    · refine ⟨[n], by simpa using hn, ?_, by simp [ofDigits]⟩
      rw [Nat.toDigits_of_lt_base hn]
      rfl
    · obtain ⟨ds, hds, hdigits, hvalue⟩ := ih (n / 16) (by omega)
      refine ⟨ds ++ [n % 16], ?_, ?_, ?_⟩
      · intro d hd
        rcases List.mem_append.mp hd with hd | hd
        · exact hds d hd
        · rw [List.mem_singleton.mp hd]
          omega
      · rw [Nat.toDigits_of_base_le (by omega) (by omega), List.map_append, hdigits,
          List.map_append]
        rfl
      · unfold ofDigits at hvalue ⊢
        rw [List.foldl_append, hvalue, List.foldl_cons, List.foldl_nil]
        omega

theorem ofDigits_replicate_zero (k : Nat) (ds : List Nat) :
    ofDigits 16 (List.replicate k 0 ++ ds) = ofDigits 16 ds := by
  induction k with
  | zero => rfl
  | succ k ih => exact ih

/-- A numeral is a row of digits that denote its number. -/
theorem hex_eq (width n : Nat) : ∃ ds : List Nat, (∀ d ∈ ds, d < 16) ∧
    hex width n = ds.map CodePoint.ofHexDigit ∧ ofDigits 16 ds = n := by
  obtain ⟨ds, hds, hdigits, hvalue⟩ := exists_digits n
  refine ⟨List.replicate (width - ds.length) 0 ++ ds, ?_, ?_, ?_⟩
  · intro d hd
    rcases List.mem_append.mp hd with hd | hd
    · rw [List.eq_of_mem_replicate hd]
      omega
    · exact hds d hd
  · simp only [hex, hdigits, List.map_append, List.map_replicate, List.length_map]
    rfl
  · rw [ofDigits_replicate_zero, hvalue]

theorem length_hex {width n : Nat} (hw : 0 < width) (h : n < 16 ^ width) :
    (hex width n).length = width := by
  have hle : (Nat.toDigits 16 n).length ≤ width :=
    (Nat.length_toDigits_le_iff (by omega) hw).mpr h
  simp only [hex, List.length_append, List.length_replicate, List.length_map]
  omega

theorem mapM_hexDigit? {ds : List Nat} (h : ∀ d ∈ ds, d < 16) :
    (ds.map CodePoint.ofHexDigit).mapM CodePoint.hexDigit? = some ds := by
  induction ds with
  | nil => rfl
  | cons d ds ih =>
    obtain ⟨hd, hds⟩ := List.forall_mem_cons.mp h
    rw [List.map_cons, List.mapM_cons, CodePoint.hexDigit?_ofHexDigit hd, ih hds]
    rfl

theorem readHex?_hex {width n : Nat} (hw : 0 < width) (h : n < 16 ^ width) :
    readHex? (hex width n) = some n := by
  obtain ⟨ds, hds, heq, hvalue⟩ := hex_eq width n
  have hne : (hex width n).isEmpty = false := by
    have := length_hex hw h
    cases hhex : hex width n with
    | nil => rw [hhex, List.length_nil] at this; omega
    | cons c rest => rfl
  rw [readHex?, hne, heq, mapM_hexDigit? hds]
  simp [hvalue]

end Numeral

/-! ## The body of a literal -/

/-- What stands between the quotes of a literal. -/
def Text.literalBody (units : Text) : Text := units.flatMap CodePoint.literal

theorem Text.literal_eq (t : Text) :
    t.literal = CodePoint.ofChar '"' :: (t.units16.literalBody ++ [CodePoint.ofChar '"']) :=
  rfl

theorem Text.literalBody_cons (c : CodePoint) (units : Text) :
    Text.literalBody (c :: units) = c.literal ++ units.literalBody :=
  List.flatMap_cons

/-- Code points that are neither marks nor backslashes are passed over. -/
theorem Text.behindMark?_plain {mark : Char} {s : Text}
    (h : ∀ c ∈ s, c ≠ CodePoint.ofChar mark ∧ c ≠ CodePoint.ofChar '\\') (t : Text) :
    behindMark? mark false (s ++ t) = behindMark? mark false t := by
  induction s with
  | nil => rfl
  | cons c s ih =>
    obtain ⟨⟨hmark, hback⟩, hs⟩ := List.forall_mem_cons.mp h
    rw [List.cons_append, behindMark?_cons hmark hback, ih hs]

/-- A code point is written as a letter behind a backslash, as itself or by number. -/
theorem CodePoint.literal_cases (c : CodePoint) :
    (∃ d, c.literal = [CodePoint.ofChar '\\', d] ∧
      (∀ t, Escape.scan? (d :: t) = some (.single d, 1)) ∧ (Escape.single d).decode = .ok [c]) ∨
    (c ≠ '"' ∧ c ≠ '\\' ∧ c.literal = [c]) ∨
    c.literal = CodePoint.ofChar '\\' :: CodePoint.ofChar 'u' :: Numeral.hex 4 c.toNat := by
  by_cases hquote : c = '"'
  · subst hquote
    exact .inl ⟨_, rfl, fun _ => rfl, rfl⟩
  by_cases hback : c = '\\'
  · subst hback
    exact .inl ⟨_, rfl, fun _ => rfl, rfl⟩
  unfold CodePoint.literal
  rw [if_neg hquote, if_neg hback]
  -- Five letters are left, then the printable code points and all others.
  iterate 5
    split
    · rename_i hc
      subst hc
      exact .inl ⟨_, rfl, fun _ => rfl, rfl⟩
  split
  · exact .inr (.inl ⟨hquote, hback, rfl⟩)
  · exact .inr (.inr rfl)

/-- A quote inside a literal stands behind a backslash. -/
theorem CodePoint.behindMark?_literal (c : CodePoint) (t : Text) :
    Text.behindMark? '"' false (c.literal ++ t) = Text.behindMark? '"' false t := by
  have hescaped (d : CodePoint) (s : Text) :
      Text.behindMark? '"' false (CodePoint.ofChar '\\' :: d :: s) =
        Text.behindMark? '"' false s :=
    Text.behindMark?_backslash (by decide) (d :: s)
  rcases c.literal_cases with ⟨d, h, -⟩ | ⟨hquote, hback, h⟩ | h
  · rw [h]
    exact hescaped d t
  · rw [h]
    exact Text.behindMark?_cons hquote hback t
  · obtain ⟨ds, hds, heq, -⟩ := Numeral.hex_eq 4 c.toNat
    rw [h, heq]
    refine (hescaped _ _).trans (Text.behindMark?_plain (fun d hd => ?_) t)
    obtain ⟨n, hn, rfl⟩ := List.mem_map.mp hd
    have hne := CodePoint.ofHexDigit_ne (hds n hn)
    exact ⟨hne.1, hne.2.1⟩

theorem Text.behindMark?_literalBody (units rest : Text) :
    behindMark? '"' false (units.literalBody ++ CodePoint.ofChar '"' :: rest) = some rest := by
  induction units with
  | nil => exact behindMark?_mark '"' rest
  | cons c units ih => rw [literalBody_cons, List.append_assoc, CodePoint.behindMark?_literal, ih]

/-! ## Decoding -/

/-- A letter behind a backslash that is no number and no line break stands for one code point. -/
theorem unescape_single {c d : CodePoint} {t : Text}
    (hscan : Escape.scan? (c :: t) = some (.single c, 1))
    (hdecode : (Escape.single c).decode = .ok [d]) :
    unescape (CodePoint.ofChar '\\' :: c :: t) = (unescape t).map (d :: ·) := by
  rw [unescape, if_pos rfl, hscan]
  simp only [hdecode, List.drop_succ_cons, List.drop_zero]
  cases unescape t <;> rfl

theorem scanUnicode?_hex {n : Nat} (h : n < 0x10000) (t : Text) :
    Escape.scanUnicode? (Numeral.hex 4 n ++ t) = some (n, 4) := by
  have hlength : (Numeral.hex 4 n).length = 4 := Numeral.length_hex (by omega) h
  have hread : Numeral.readHex? (Numeral.hex 4 n) = some n := Numeral.readHex?_hex (by omega) h
  obtain ⟨ds, hds, heq, -⟩ := Numeral.hex_eq 4 n
  have htake : (Numeral.hex 4 n ++ t).take 4 = Numeral.hex 4 n := List.take_left' hlength
  cases hhex : Numeral.hex 4 n with
  | nil => rw [hhex] at hlength; cases hlength
  | cons c rest =>
    have hc : c ≠ '{' := by
      have hmem : c ∈ ds.map CodePoint.ofHexDigit := by
        rw [← heq, hhex]
        exact List.mem_cons_self
      obtain ⟨d, hd, rfl⟩ := List.mem_map.mp hmem
      exact (CodePoint.ofHexDigit_ne (hds d hd)).2.2
    have hle : 4 ≤ (c :: (rest ++ t)).length := by
      rw [hhex] at hlength
      simp only [List.length_cons, List.length_append] at hlength ⊢
      omega
    rw [hhex, List.cons_append] at htake
    rw [List.cons_append]
    unfold Escape.scanUnicode?
    simp only
    rw [if_neg hc, if_pos hle, htake, ← hhex, hread]
    rfl

theorem scan?_hex {n : Nat} (h : n < 0x10000) (t : Text) :
    Escape.scan? (CodePoint.ofChar 'u' :: (Numeral.hex 4 n ++ t)) = some (.number n, 5) := by
  have hx : CodePoint.ofChar 'u' ≠ 'x' := by decide
  simp only [Escape.scan?, if_neg hx, if_true, scanUnicode?_hex h]

/-- What is written for a code point inside a literal decodes to the code point. -/
theorem unescape_literal {c : CodePoint} (h : c.toNat < 0x10000) (t : Text) :
    unescape (c.literal ++ t) = (unescape t).map (c :: ·) := by
  rcases c.literal_cases with ⟨d, heq, hscan, hdecode⟩ | ⟨-, hback, heq⟩ | heq
  · rw [heq]
    exact unescape_single (hscan t) hdecode
  · rw [heq]
    exact unescape_cons hback t
  · have hdecode : (Escape.number c.toNat).decode = .ok [c] := by
      simp [Escape.decode, CodePoint.ofNat?, c.toNat_lt]
    have hdrop : (CodePoint.ofChar 'u' :: (Numeral.hex 4 c.toNat ++ t)).drop 5 = t :=
      List.drop_left' (Numeral.length_hex (by omega) h)
    rw [heq, List.cons_append, List.cons_append, unescape, if_pos rfl, scan?_hex h]
    simp only [hdecode, hdrop]
    cases unescape t <;> rfl

/-- Decoding the body of a literal gives the units that it was written for. -/
theorem unescape_literalBody {units : Text} (h : ∀ c ∈ units, c.toNat < 0x10000) :
    unescape units.literalBody = .ok units := by
  induction units with
  | nil => rw [Text.literalBody, List.flatMap_nil, unescape]
  | cons c units ih =>
    obtain ⟨hc, hunits⟩ := List.forall_mem_cons.mp h
    rw [Text.literalBody_cons, unescape_literal hc, ih hunits]
    rfl

/-! ## Printable ASCII -/

/-- What is written for a code point inside a literal lies between the space and the tilde. -/
theorem CodePoint.inRange_literal {c d : CodePoint} (h : d ∈ c.literal) :
    d.inRange ' ' '~' = true := by
  have hhex : ∀ n < 16, (CodePoint.ofHexDigit n).inRange ' ' '~' = true := by decide
  unfold CodePoint.literal at h
  -- Seven code points are written as a backslash and a letter.
  iterate 7
    split at h
    · revert d
      decide
  split at h
  · rename_i hprintable
    rwa [List.mem_singleton.mp h]
  · obtain ⟨ds, hds, heq, -⟩ := Numeral.hex_eq 4 c.toNat
    rw [heq, List.mem_cons, List.mem_cons] at h
    rcases h with rfl | rfl | h
    · decide
    · decide
    · obtain ⟨n, hn, rfl⟩ := List.mem_map.mp h
      exact hhex n (hds n hn)

/-- Literals are written in printable ASCII. -/
theorem Text.inRange_literal {t : Text} {d : CodePoint} (h : d ∈ t.literal) :
    d.inRange ' ' '~' = true := by
  rw [literal_eq, List.mem_cons, List.mem_append, List.mem_singleton] at h
  rcases h with rfl | h | rfl
  · decide
  · obtain ⟨c, -, hc⟩ := List.mem_flatMap.mp h
    exact CodePoint.inRange_literal hc
  · decide

/-! ## Equal literals -/

namespace Text

theorem units16_lt (t : Text) : ∀ c ∈ t.units16, c.toNat < 0x10000 := by
  intro c hc
  obtain ⟨d, -, hc⟩ := List.mem_flatMap.mp hc
  unfold CodePoint.units16 at hc
  split at hc
  · rename_i hd
    rwa [List.mem_singleton.mp hc]
  · simp only [List.mem_cons, List.not_mem_nil, or_false] at hc
    rcases hc with rfl | rfl
    · show 0xD800 + _ < 0x10000
      omega
    · show 0xDC00 + _ < 0x10000
      omega

@[simp] theorem units16_units16 (t : Text) : t.units16.units16 = t.units16 :=
  units16_eq_self t.units16_lt

/-- The literal of a text is that of its units. -/
@[simp] theorem literal_units16 (t : Text) : t.units16.literal = t.literal := by
  rw [literal_eq, units16_units16, literal_eq]

/-- If two texts that begin with literals are the same, then the literals are of texts with the same
units, and the same stands behind them. -/
theorem literal_append_inj {v w r s : Text} (h : v.literal ++ r = w.literal ++ s) :
    v.units16 = w.units16 ∧ r = s := by
  rw [literal_eq, literal_eq, List.cons_append, List.cons_append, List.append_assoc,
    List.append_assoc] at h
  have hbody : v.units16.literalBody ++ CodePoint.ofChar '"' :: r =
      w.units16.literalBody ++ CodePoint.ofChar '"' :: s := (List.cons.inj h).2
  have hrest : r = s := by
    have hmark := congrArg (behindMark? '"' false) hbody
    rw [behindMark?_literalBody, behindMark?_literalBody] at hmark
    exact Option.some.inj hmark
  subst hrest
  have hunits := congrArg unescape (List.append_cancel_right hbody)
  rw [unescape_literalBody v.units16_lt, unescape_literalBody w.units16_lt] at hunits
  exact ⟨Except.ok.inj hunits, rfl⟩

end Text

end RuleTypes
