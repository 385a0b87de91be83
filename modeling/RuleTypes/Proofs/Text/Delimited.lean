import RuleTypes.Text.CodePoint

/-!
# Delimited texts

Where a text ends that is closed by a mark, with backslashes that take the meaning from marks, and
where one ends that is closed by a brace of its own.

* `Text.behindMark?`: the text behind the first mark that counts.
* `Text.behindBrace?`: the text behind the brace that closes what is open. Opening two blocks is
  opening one and then the other (`behindBrace?_add`).
* `Text.isIdentifier`, `Text.isBlock`, `Text.isClass`: the texts of identifiers, of code blocks and
  of character classes.
-/

namespace RuleTypes.Text

/-! ## Marks -/

/-- The text behind the first `mark` that stands behind no backslash. A backslash belongs to the
code point behind it; `shielded` says that there is one before the text. -/
def behindMark? (mark : Char) : (shielded : Bool) → Text → Option Text
  | _, [] => none
  | true, _ :: s => behindMark? mark false s
  | false, c :: s => if c = mark then some s else behindMark? mark (c = '\\') s

variable {mark : Char} {s t rest : Text}

theorem behindMark?_mark (mark : Char) (s : Text) :
    behindMark? mark false (CodePoint.ofChar mark :: s) = some s :=
  if_pos rfl

theorem behindMark?_cons {c : CodePoint} (hmark : c ≠ mark) (hback : c ≠ '\\') (s : Text) :
    behindMark? mark false (c :: s) = behindMark? mark false s := by
  rw [behindMark?, if_neg hmark, decide_eq_false hback]

theorem behindMark?_backslash (hmark : CodePoint.ofChar '\\' ≠ mark) (s : Text) :
    behindMark? mark false (CodePoint.ofChar '\\' :: s) = behindMark? mark true s := by
  rw [behindMark?, if_neg hmark, decide_eq_true rfl]

/-- What stands behind the mark does not matter. -/
theorem behindMark?_append {shielded : Bool} (h : behindMark? mark shielded s = some rest)
    (t : Text) : behindMark? mark shielded (s ++ t) = some (rest ++ t) := by
  induction s generalizing shielded with
  | nil => cases h
  | cons c s ih =>
    rw [List.cons_append]
    cases shielded with
    | true => exact ih h
    | false =>
      rw [behindMark?] at h ⊢
      by_cases hc : c = mark
      · rw [if_pos hc] at h ⊢
        rw [Option.some.inj h]
      · rw [if_neg hc] at h ⊢
        exact ih h

/-! ## Braces -/

/-- The text behind the brace that closes a block in which `depth` more are open. -/
def behindBrace? : Nat → Text → Option Text
  | _, [] => none
  | depth, c :: s =>
    if c = '{' then behindBrace? (depth + 1) s
    else if c = '}' then if depth = 0 then some s else behindBrace? (depth - 1) s
    else behindBrace? depth s

theorem behindBrace?_open (depth : Nat) (s : Text) :
    behindBrace? depth (CodePoint.ofChar '{' :: s) = behindBrace? (depth + 1) s := by
  rw [behindBrace?, if_pos rfl]

theorem behindBrace?_close_zero (s : Text) :
    behindBrace? 0 (CodePoint.ofChar '}' :: s) = some s := by
  rw [behindBrace?, if_neg (by decide), if_pos rfl, if_pos rfl]

theorem behindBrace?_close_succ (depth : Nat) (s : Text) :
    behindBrace? (depth + 1) (CodePoint.ofChar '}' :: s) = behindBrace? depth s := by
  rw [behindBrace?, if_neg (by decide), if_pos rfl, if_neg (Nat.succ_ne_zero depth),
    Nat.add_sub_cancel]

theorem behindBrace?_cons {c : CodePoint} (hopen : c ≠ '{') (hclose : c ≠ '}') (depth : Nat)
    (s : Text) : behindBrace? depth (c :: s) = behindBrace? depth s := by
  rw [behindBrace?, if_neg hopen, if_neg hclose]

/-- With two blocks open one closes first and then the other. -/
theorem behindBrace?_add (depth depth' : Nat) (s : Text) :
    behindBrace? (depth + depth' + 1) s = (behindBrace? depth s).bind (behindBrace? depth') := by
  induction s generalizing depth with
  | nil => rfl
  | cons c s ih =>
    by_cases hopen : c = '{'
    · subst hopen
      rw [behindBrace?_open, behindBrace?_open, ← ih]
      congr 1
      omega
    · by_cases hclose : c = '}'
      · subst hclose
        rw [behindBrace?_close_succ]
        cases depth with
        | zero => rw [behindBrace?_close_zero, Nat.zero_add]; rfl
        | succ depth =>
          rw [behindBrace?_close_succ, ← ih]
          congr 1
          omega
      · rw [behindBrace?_cons hopen hclose, behindBrace?_cons hopen hclose, ih]

theorem behindBrace?_append {depth : Nat} (h : behindBrace? depth s = some rest) (t : Text) :
    behindBrace? depth (s ++ t) = some (rest ++ t) := by
  induction s generalizing depth with
  | nil => cases h
  | cons c s ih =>
    rw [List.cons_append]
    by_cases hopen : c = '{'
    · subst hopen
      rw [behindBrace?_open] at h ⊢
      exact ih h
    · by_cases hclose : c = '}'
      · subst hclose
        cases depth with
        | zero =>
          rw [behindBrace?_close_zero] at h ⊢
          rw [Option.some.inj h]
        | succ depth =>
          rw [behindBrace?_close_succ] at h ⊢
          exact ih h
      · rw [behindBrace?_cons hopen hclose] at h ⊢
        exact ih h

theorem length_lt_of_behindBrace? {depth : Nat} (h : behindBrace? depth s = some rest) :
    rest.length < s.length := by
  induction s generalizing depth with
  | nil => cases h
  | cons c s ih =>
    rw [List.length_cons]
    by_cases hopen : c = '{'
    · subst hopen
      rw [behindBrace?_open] at h
      have := ih h
      omega
    · by_cases hclose : c = '}'
      · subst hclose
        cases depth with
        | zero =>
          rw [behindBrace?_close_zero] at h
          rw [Option.some.inj h]
          omega
        | succ depth =>
          rw [behindBrace?_close_succ] at h
          have := ih h
          omega
      · rw [behindBrace?_cons hopen hclose] at h
        have := ih h
        omega

/-! ## Tokens -/

/-- An identifier: a letter or underscore, and letters, digits and underscores behind it. -/
def isIdentifier : Text → Bool
  | [] => false
  | c :: s => c.isWordStart && s.all CodePoint.isWord

/-- A block in braces that ends with the brace that closes it. -/
def isBlock : Text → Bool
  | [] => false
  | c :: s => c = '{' && behindBrace? 0 s = some []

/-- A character class in brackets, and the letter `i` behind it or not. -/
def isClass : Text → Bool
  | [] => false
  | c :: s =>
    c = '[' && (behindMark? ']' false s = some [] ||
      behindMark? ']' false s = some [CodePoint.ofChar 'i'])

theorem exists_cons_of_isIdentifier (h : s.isIdentifier = true) :
    ∃ c others, s = c :: others ∧ c.isWordStart = true ∧ others.all CodePoint.isWord = true := by
  cases s with
  | nil => cases h
  | cons c s =>
    obtain ⟨hc, hs⟩ := (Bool.and_eq_true _ _).mp h
    exact ⟨c, s, rfl, hc, hs⟩

theorem exists_cons_of_isBlock (h : s.isBlock = true) :
    ∃ inner, s = CodePoint.ofChar '{' :: inner ∧ behindBrace? 0 inner = some [] := by
  cases s with
  | nil => cases h
  | cons c s =>
    obtain ⟨hc, hs⟩ := (Bool.and_eq_true _ _).mp h
    exact ⟨s, congrArg (· :: s) (of_decide_eq_true hc), of_decide_eq_true hs⟩

theorem exists_cons_of_isClass (h : s.isClass = true) :
    ∃ inner, s = CodePoint.ofChar '[' :: inner ∧
      (behindMark? ']' false inner = some [] ∨
        behindMark? ']' false inner = some [CodePoint.ofChar 'i']) := by
  cases s with
  | nil => cases h
  | cons c s =>
    obtain ⟨hc, hs⟩ := (Bool.and_eq_true _ _).mp h
    refine ⟨s, congrArg (· :: s) (of_decide_eq_true hc), ?_⟩
    rw [Bool.or_eq_true] at hs
    exact hs.imp of_decide_eq_true of_decide_eq_true

end RuleTypes.Text
