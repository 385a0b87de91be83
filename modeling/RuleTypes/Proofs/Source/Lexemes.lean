import RuleTypes.Proofs.Source.Blank

/-!
# Lexemes

A text can be cut into pieces without knowing what they are pieces of: blanks, string literals, the
brackets of character classes, code blocks, and single code points. Only what is opened and never
closed cannot be cut off.

* `Text.behindLexeme?`: the text behind a lexeme.
* `Text.Lexes`: texts that are cut into lexemes up to their end. Of a text and the text behind its
  first lexeme, either both are or none is (`lexes_iff`).
-/

namespace RuleTypes

namespace Text

/-- The text behind a lexeme: a blank, a string literal, the brackets of a character class, a code
block, or any other code point. What is open must be closed. -/
def behindLexeme? : Text → Option Text
  | [] => none
  | c :: s =>
    match behindBlank? (c :: s) with
    | some t => some t
    | none =>
      if c = '{' then behindBrace? 0 s
      else if c = '"' then behindMark? '"' false s
      else if c = '\'' then behindMark? '\'' false s
      else if c = '[' then behindMark? ']' false s
      else if c = '/' ∧ s.head? = some (CodePoint.ofChar '*') then none
      else some s

/-- Whether a text is cut into lexemes up to its end. -/
inductive Lexes : Text → Prop where
  | nil : Lexes []
  | step {s t : Text} (h : behindLexeme? s = some t) (ht : Lexes t) : Lexes s

end Text

/-- Whether a code point is a lexeme wherever it stands. -/
def CodePoint.isMark (c : CodePoint) : Bool :=
  !c.isSpace && c ≠ '{' && c ≠ '"' && c ≠ '\'' && c ≠ '[' && c ≠ '/'

namespace Text

variable {s t : Text} {c : CodePoint}

theorem lexes_iff (h : behindLexeme? s = some t) : Lexes s ↔ Lexes t := by
  constructor
  · rintro (- | ⟨h', ht⟩)
    · cases h
    · rw [h] at h'
      cases h'
      exact ht
  · exact .step h

theorem not_lexes (h : behindLexeme? (c :: s) = none) : ¬ Lexes (c :: s) := by
  rintro (- | ⟨h', -⟩)
  rw [h] at h'
  cases h'

theorem lexes_blank_iff (h : behindBlank? s = some t) : Lexes s ↔ Lexes t := by
  refine lexes_iff ?_
  cases s with
  | nil => cases h
  | cons c s => rw [behindLexeme?, h]

theorem lexes_mark_iff (h : c.isMark = true) (s : Text) : Lexes (c :: s) ↔ Lexes s := by
  simp only [CodePoint.isMark, Bool.and_eq_true, Bool.not_eq_true', decide_eq_true_eq] at h
  obtain ⟨⟨⟨⟨⟨hspace, hbrace⟩, hdouble⟩, hsingle⟩, hbracket⟩, hslash⟩ := h
  refine lexes_iff ?_
  rw [behindLexeme?, behindBlank?_cons hspace hslash]
  simp [hbrace, hdouble, hsingle, hbracket, hslash]

/-- A slash is a lexeme where it begins no comment. -/
theorem lexes_slash_iff (hline : s.head? ≠ some (CodePoint.ofChar '/'))
    (hblock : s.head? ≠ some (CodePoint.ofChar '*')) :
    Lexes (CodePoint.ofChar '/' :: s) ↔ Lexes s := by
  refine lexes_iff ?_
  rw [behindLexeme?, behindBlank?_slash hline hblock]
  simp only [hblock, and_false, if_false]
  rfl

/-- A comment that is not closed is no lexeme. -/
theorem not_lexes_comment (h : behindBlank? (CodePoint.ofChar '/' :: s) = none)
    (hblock : s.head? = some (CodePoint.ofChar '*')) : ¬ Lexes (CodePoint.ofChar '/' :: s) := by
  refine not_lexes ?_
  rw [behindLexeme?, h]
  simp only [hblock, and_self, if_true]
  rfl

theorem behindLexeme?_brace (s : Text) :
    behindLexeme? (CodePoint.ofChar '{' :: s) = behindBrace? 0 s := by
  rw [behindLexeme?, behindBlank?_cons rfl (by decide)]
  rfl

/-- A literal ends behind its second quote, and a character class behind its bracket. -/
theorem behindLexeme?_mark {mark close : Char}
    (h : (mark, close) ∈ [('"', '"'), ('\'', '\''), ('[', ']')]) (s : Text) :
    behindLexeme? (CodePoint.ofChar mark :: s) = behindMark? close false s := by
  simp only [List.mem_cons, Prod.mk.injEq, List.not_mem_nil, or_false] at h
  rcases h with ⟨rfl, rfl⟩ | ⟨rfl, rfl⟩ | ⟨rfl, rfl⟩ <;>
    rw [behindLexeme?, behindBlank?_cons rfl (by decide)] <;> rfl

end Text

end RuleTypes
