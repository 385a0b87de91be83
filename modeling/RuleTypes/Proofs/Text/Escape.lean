import RuleTypes.Proofs.Text.Delimited
import RuleTypes.Text.Escape

/-!
# Shielded texts

Any text can stand between double quotes: a backslash before every quote and every backslash is
enough, and every other code point stands for itself, surrogates and line breaks included.

* `Text.behindMark?_shielded`: a shielded text ends at the quote behind it.
* `unescape_shielded`: decoding a shielded text gives the text back.
-/

namespace RuleTypes

/-- How a code point is written between double quotes. -/
def CodePoint.shielded (c : CodePoint) : Text :=
  if c = '"' ∨ c = '\\' then [CodePoint.ofChar '\\', c] else [c]

/-- A text as it is written between double quotes. -/
def Text.shielded (t : Text) : Text := t.flatMap CodePoint.shielded

theorem Text.shielded_cons (c : CodePoint) (t : Text) :
    Text.shielded (c :: t) = c.shielded ++ t.shielded :=
  List.flatMap_cons

theorem Text.behindMark?_shielded (t rest : Text) :
    behindMark? '"' false (t.shielded ++ CodePoint.ofChar '"' :: rest) = some rest := by
  induction t with
  | nil => exact behindMark?_mark '"' rest
  | cons c t ih =>
    rw [shielded_cons, List.append_assoc, CodePoint.shielded]
    split
    · rw [List.cons_append, behindMark?_backslash (by decide)]
      exact ih
    · next h =>
      rw [not_or] at h
      rw [List.singleton_append, behindMark?_cons h.1 h.2, ih]

/-! ## Decoding -/

theorem unescape_cons {c : CodePoint} (h : c ≠ '\\') (t : Text) :
    unescape (c :: t) = (unescape t).map (c :: ·) := by
  rw [unescape, if_neg h]
  cases unescape t <;> rfl

/-- A quote or a backslash behind a backslash stands for itself. -/
theorem unescape_backslash {c : CodePoint} (h : c = '"' ∨ c = '\\') (t : Text) :
    unescape (CodePoint.ofChar '\\' :: c :: t) = (unescape t).map (c :: ·) := by
  have hscan : Escape.scan? (c :: t) = some (.single c, 1) := by
    rcases h with rfl | rfl <;> rfl
  have hdecode : (Escape.single c).decode = .ok [c] := by
    rcases h with rfl | rfl <;> rfl
  rw [unescape, if_pos rfl, hscan]
  simp only [hdecode]
  cases h : unescape t <;> simp [h] <;> rfl

theorem unescape_shielded (t : Text) : unescape t.shielded = .ok t := by
  induction t with
  | nil => rw [Text.shielded, List.flatMap_nil, unescape]
  | cons c t ih =>
    rw [Text.shielded_cons, CodePoint.shielded]
    split
    · next h => rw [List.cons_append, List.singleton_append, unescape_backslash h, ih]; rfl
    · next h =>
      rw [not_or] at h
      rw [List.singleton_append, unescape_cons h.2, ih]
      rfl

end RuleTypes
