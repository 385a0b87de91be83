import RuleTypes.Text.CodePoint

/-!
# UTF-16 code units

A code point up to `0xFFFF` is one unit, a higher one is a pair of surrogate units.
-/

namespace RuleTypes

/-- The code point of a UTF-16 code unit. -/
def CodePoint.ofUnit (n : Nat) (h : n < 0x10000) : CodePoint := ⟨n, by omega⟩

/-- The UTF-16 units of a code point, each as the code point of the same number. -/
def CodePoint.units16 (c : CodePoint) : Text :=
  if c.toNat < 0x10000 then [c]
  else
    let n := c.toNat - 0x10000
    [.ofUnit (0xD800 + n / 0x400 % 0x400) (by omega), .ofUnit (0xDC00 + n % 0x400) (by omega)]

/-- The UTF-16 units of a text. -/
def Text.units16 (t : Text) : Text := t.flatMap CodePoint.units16

namespace Text

@[simp] theorem units16_cons (c : CodePoint) (t : Text) :
    units16 (c :: t) = c.units16 ++ units16 t := rfl

/-- A text without code points above `0xFFFF` is its own sequence of units. -/
theorem units16_eq_self {t : Text} (h : ∀ c ∈ t, c.toNat < 0x10000) : t.units16 = t := by
  induction t with
  | nil => rfl
  | cons c t ih =>
    simp [CodePoint.units16, h c (by simp), ih fun d hd => h d (by simp [hd])]

end Text

end RuleTypes
