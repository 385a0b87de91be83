import Mathlib.Data.List.Perm.Subperm
import Mathlib.Data.List.Nodup
import RuleTypes.Naming

/-!
# Identifiers are new

A fresh name is new because among one candidate more than there are taken names one is free, and the
candidates are all different. So a namer never gives one identifier to two rules.

* `freshName_not_mem`: a fresh name is not taken.
* `Namer.Assigned`: the invariant of giving identifiers, kept by every step (`Assigned.assign`).
* `Namer.ofRules_assigned`: what is known of the namer of a list of rules.
-/

namespace RuleTypes

/-! ## Numerals -/

namespace CodePoint

theorem ofChar_injective : Function.Injective CodePoint.ofChar := by
  intro c d h
  have hnat : c.toNat = d.toNat := congrArg CodePoint.toNat h
  exact Char.toNat_inj.mp hnat

theorem isDigit_ofChar {c : Char} (h : c.isDigit = true) : (CodePoint.ofChar c).isDigit = true := by
  simp only [Char.isDigit, Bool.and_eq_true, decide_eq_true_eq] at h
  simp only [isDigit, inRange, Bool.and_eq_true, decide_eq_true_eq]
  exact h

end CodePoint

namespace Numeral

theorem decimal_injective : Function.Injective decimal := by
  intro n m h
  have hdigits : Nat.toDigits 10 n = Nat.toDigits 10 m :=
    List.map_injective_iff.mpr CodePoint.ofChar_injective h
  rw [← Nat.ofDigitChars_ten_toDigits (n := n), hdigits, Nat.ofDigitChars_ten_toDigits]

theorem decimal_ne_nil (n : Nat) : decimal n ≠ [] := by
  simp [decimal, Nat.toDigits_ne_nil]

theorem isDigit_of_mem_decimal {n : Nat} {c : CodePoint} (h : c ∈ decimal n) :
    c.isDigit = true := by
  obtain ⟨d, hd, rfl⟩ := List.mem_map.mp h
  exact CodePoint.isDigit_ofChar (Nat.isDigit_of_mem_toDigits (by omega) (by omega) hd)

end Numeral

/-! ## Fresh names -/

/-- The names that a rule may get: its base, and the base with a number behind it. -/
def nameCandidates (base : Text) (count : Nat) : List Text :=
  base :: (List.range count).map fun k => base ++ Numeral.decimal (k + 2)

theorem nodup_nameCandidates (base : Text) (count : Nat) : (nameCandidates base count).Nodup := by
  refine List.nodup_cons.mpr ⟨?_, ?_⟩
  · intro h
    obtain ⟨k, -, hk⟩ := List.mem_map.mp h
    exact Numeral.decimal_ne_nil (k + 2) (List.append_right_eq_self.mp hk)
  · refine List.Nodup.map (fun k l h => ?_) List.nodup_range
    have := Numeral.decimal_injective (List.append_cancel_left h)
    omega

/-- Of one candidate more than there are taken names one is free. -/
theorem exists_free_candidate (taken : List Text) (base : Text) :
    ∃ name ∈ nameCandidates base taken.length, name ∉ taken := by
  by_contra hall
  push Not at hall
  have hle := ((nodup_nameCandidates base taken.length).subperm hall).length_le
  rw [nameCandidates, List.length_cons, List.length_map, List.length_range] at hle
  omega

theorem freshName_eq_some (taken : List Text) (base : Text) :
    (nameCandidates base taken.length).find? (· ∉ taken) = some (freshName taken base) := by
  obtain ⟨name, hname, hfree⟩ := exists_free_candidate taken base
  have hsome : ((nameCandidates base taken.length).find? (· ∉ taken)).isSome = true :=
    List.find?_isSome.mpr ⟨name, hname, by simpa using hfree⟩
  obtain ⟨found, hfound⟩ := Option.isSome_iff_exists.mp hsome
  have hfresh : freshName taken base =
      ((nameCandidates base taken.length).find? (· ∉ taken)).getD base := rfl
  rw [hfresh, hfound, Option.getD_some]

theorem freshName_not_mem (taken : List Text) (base : Text) : freshName taken base ∉ taken := by
  simpa using List.find?_some (freshName_eq_some taken base)

theorem freshName_mem_candidates (taken : List Text) (base : Text) :
    freshName taken base ∈ nameCandidates base taken.length :=
  List.mem_of_find?_eq_some (freshName_eq_some taken base)

/-- A fresh name is its base with digits behind it, or with nothing. -/
theorem exists_digits_of_freshName (taken : List Text) (base : Text) :
    ∃ digits, freshName taken base = base ++ digits ∧ ∀ d ∈ digits, d.isDigit = true := by
  rcases List.mem_cons.mp (freshName_mem_candidates taken base) with h | h
  · exact ⟨[], by rw [h, List.append_nil], by simp⟩
  · obtain ⟨k, -, hk⟩ := List.mem_map.mp h
    exact ⟨Numeral.decimal (k + 2), hk.symm, fun d => Numeral.isDigit_of_mem_decimal⟩

/-! ## Giving identifiers -/

namespace Namer

/-- The name that a rule asks for. -/
def base (camelCase : Bool) (rule : Text) : Text := if camelCase then typeName rule else rule

/-- What holds when the rules of a list have their identifiers: the rules with an identifier are
those of the list, their identifiers are taken, no two of them have the same, and each is what its
rule asks for with digits behind it or with nothing. -/
structure Assigned (camelCase : Bool) (rules : List Text) (state : List Text × Dictionary Text) :
    Prop where
  known : ∀ {rule}, (state.2.get? rule).isSome = true ↔ rule ∈ rules
  taken : ∀ {rule id}, state.2.get? rule = some id → id ∈ state.1
  injective : ∀ {rule other id}, state.2.get? rule = some id → state.2.get? other = some id →
    rule = other
  digits : ∀ {rule id}, state.2.get? rule = some id →
    ∃ digits, id = base camelCase rule ++ digits ∧ ∀ d ∈ digits, d.isDigit = true

variable {camelCase : Bool} {rules : List Text} {state : List Text × Dictionary Text}

theorem assigned_nil (camelCase : Bool) : Assigned camelCase [] ([], .empty) where
  known := by simp [Dictionary.get?, Dictionary.empty]
  taken := by simp [Dictionary.get?, Dictionary.empty]
  injective := by simp [Dictionary.get?, Dictionary.empty]
  digits := by simp [Dictionary.get?, Dictionary.empty]

/-- Giving one more rule its identifier keeps what is known. -/
theorem Assigned.assign (h : Assigned camelCase rules state) (rule : Text) :
    Assigned camelCase (rules ++ [rule]) (assign camelCase state rule) := by
  obtain ⟨taken, identifiers⟩ := state
  have hfresh := freshName_not_mem taken (base camelCase rule)
  have hget (other : Text) : (Namer.assign camelCase (taken, identifiers) rule).2.get? other =
      if other = rule then some (freshName taken (base camelCase rule))
      else identifiers.get? other :=
    Dictionary.get?_insert ..
  constructor
  · intro other
    rw [hget]
    by_cases heq : other = rule
    · simp [heq]
    · rw [if_neg heq, h.known]
      simp [heq]
  · intro other id hid
    rw [hget] at hid
    by_cases heq : other = rule
    · rw [if_pos heq] at hid
      exact Option.some.inj hid ▸ List.mem_cons_self
    · rw [if_neg heq] at hid
      exact List.mem_cons_of_mem _ (h.taken hid)
  · intro a b id ha hb
    rw [hget] at ha hb
    by_cases hra : a = rule
    · by_cases hrb : b = rule
      · rw [hra, hrb]
      · rw [if_pos hra] at ha
        rw [if_neg hrb] at hb
        exact absurd (h.taken hb) (Option.some.inj ha ▸ hfresh)
    · rw [if_neg hra] at ha
      by_cases hrb : b = rule
      · rw [if_pos hrb] at hb
        exact absurd (h.taken ha) (Option.some.inj hb ▸ hfresh)
      · rw [if_neg hrb] at hb
        exact h.injective ha hb
  · intro other id hid
    rw [hget] at hid
    by_cases heq : other = rule
    · rw [if_pos heq] at hid
      obtain rfl := Option.some.inj hid
      rw [heq]
      exact exists_digits_of_freshName taken _
    · rw [if_neg heq] at hid
      exact h.digits hid

theorem Assigned.foldl (h : Assigned camelCase rules state) (more : List Text) :
    Assigned camelCase (rules ++ more) (more.foldl (Namer.assign camelCase) state) := by
  induction more generalizing rules state with
  | nil => rwa [List.append_nil]
  | cons rule more ih =>
    have hmore := ih (h.assign rule)
    rwa [List.append_assoc] at hmore

theorem ofRules_assigned (camelCase : Bool) (rules : List Text) :
    ∃ taken, Assigned camelCase rules (taken, (ofRules camelCase rules).identifiers) :=
  ⟨_, (assigned_nil camelCase).foldl rules⟩

/-! ## The identifiers of rules -/

theorem isSome_get?_ofRules {rule : Text} :
    ((ofRules camelCase rules).get? rule).isSome = true ↔ rule ∈ rules := by
  obtain ⟨taken, h⟩ := ofRules_assigned camelCase rules
  exact h.known

theorem get?_ofRules {rule : Text} (h : rule ∈ rules) :
    (ofRules camelCase rules).get? rule = some ((ofRules camelCase rules).nameOf rule) := by
  obtain ⟨id, hid⟩ := Option.isSome_iff_exists.mp (isSome_get?_ofRules.mpr h)
  rw [nameOf, hid, Option.getD_some]

/-- Two rules have two identifiers. -/
theorem nameOf_injective {rule other : Text} (h : rule ∈ rules) (h' : other ∈ rules)
    (heq : (ofRules camelCase rules).nameOf rule = (ofRules camelCase rules).nameOf other) :
    rule = other := by
  obtain ⟨taken, hassigned⟩ := ofRules_assigned camelCase rules
  exact hassigned.injective (get?_ofRules h) (heq ▸ get?_ofRules h')

theorem nameOf_digits (camelCase : Bool) {rule : Text} (h : rule ∈ rules) :
    ∃ digits, (ofRules camelCase rules).nameOf rule = base camelCase rule ++ digits ∧
      ∀ d ∈ digits, d.isDigit = true := by
  obtain ⟨taken, hassigned⟩ := ofRules_assigned camelCase rules
  exact hassigned.digits (get?_ofRules h)

end Namer

end RuleTypes
