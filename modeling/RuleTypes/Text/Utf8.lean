import RuleTypes.Text.CodePoint

/-!
# UTF-8

Bytes to texts and back. Decoding refuses overlong forms, surrogates and numbers above `0x10FFFF`;
encoding refuses surrogates.
-/

namespace RuleTypes.Utf8

/-- The six payload bits of a continuation byte. -/
def tail? (b : UInt8) : Option Nat :=
  if 0x80 ≤ b.toNat ∧ b.toNat ≤ 0xBF then some (b.toNat - 0x80) else none

/-- The code point with this number, if it is no surrogate and needs a form of this length, which is
for numbers from `least` on. -/
def scalar? (least n : Nat) : Option CodePoint := do
  let c ← CodePoint.ofNat? n
  if least ≤ n ∧ !c.isSurrogate then return c else failure

/-- The text of a sequence of bytes. -/
def decode? : List UInt8 → Option Text
  | [] => some []
  | a :: rest =>
    if a.toNat < 0x80 then do
      return (← scalar? 0 a.toNat) :: (← decode? rest)
    else if a.toNat < 0xC0 then none
    else if a.toNat < 0xE0 then
      match rest with
      | b :: rest => do
        let c ← scalar? 0x80 ((a.toNat - 0xC0) * 0x40 + (← tail? b))
        return c :: (← decode? rest)
      | _ => none
    else if a.toNat < 0xF0 then
      match rest with
      | b :: d :: rest => do
        let c ← scalar? 0x800 (((a.toNat - 0xE0) * 0x40 + (← tail? b)) * 0x40 + (← tail? d))
        return c :: (← decode? rest)
      | _ => none
    else
      match rest with
      | b :: d :: e :: rest => do
        let high := ((a.toNat - 0xF0) * 0x40 + (← tail? b)) * 0x40 + (← tail? d)
        let c ← scalar? 0x10000 (high * 0x40 + (← tail? e))
        return c :: (← decode? rest)
      | _ => none

/-- The bytes of a code point that is no surrogate. -/
def encodeScalar (c : CodePoint) : List UInt8 :=
  let n := c.toNat
  let tail (n : Nat) : UInt8 := .ofNat (0x80 + n % 0x40)
  if n < 0x80 then [.ofNat n]
  else if n < 0x800 then [.ofNat (0xC0 + n / 0x40), tail n]
  else if n < 0x10000 then [.ofNat (0xE0 + n / 0x1000), tail (n / 0x40), tail n]
  else [.ofNat (0xF0 + n / 0x40000), tail (n / 0x1000), tail (n / 0x40), tail n]

/-- The bytes of a text. -/
def encode? (t : Text) : Option (List UInt8) :=
  if t.any CodePoint.isSurrogate then none else some (t.flatMap encodeScalar)

end RuleTypes.Utf8
