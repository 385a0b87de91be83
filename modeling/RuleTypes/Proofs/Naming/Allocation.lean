import Mathlib.Data.List.Induction
import RuleTypes.Proofs.Naming.Fresh

/-!
# How identifiers are allocated

Identifiers are given one occurrence of a name after the other. Each occurrence gets its base, or
the base with the least number from two on that makes it new, and what comes later does not matter
to it. A name that occurs more than once goes by the identifier of its last occurrence.

* `Search`: the search for a free name, one candidate after the other. `search_freshName`: it ends.
* `Chosen`: the name that an occurrence gets, said without a search.
* `Namer.given`: the identifiers of the occurrences; `Namer.given_stays`: they stay.
* `Namer.allocation`: all of it together.
-/

namespace RuleTypes

/-! ## One name -/

/-- The search for a free name from a candidate on: a free candidate is taken, and behind one that
is not free comes the base with the next number. -/
inductive Search (taken : List Text) (base : Text) : Text → Nat → Text → Prop where
  | free {candidate : Text} {counter : Nat} (h : candidate ∉ taken) :
      Search taken base candidate counter candidate
  | next {candidate found : Text} {counter : Nat} (h : candidate ∈ taken)
      (later : Search taken base (base ++ Numeral.decimal (counter + 1)) (counter + 1) found) :
      Search taken base candidate counter found

/-- The name that is given next, where `taken` are given already: the base if it is free, or the
base with the least number from two on with which it is. -/
inductive Chosen (taken : List Text) (base : Text) : Text → Prop where
  | plain (h : base ∉ taken) : Chosen taken base base
  | numbered {k : Nat} (htaken : base ∈ taken) (htwo : 2 ≤ k)
      (hfree : base ++ Numeral.decimal k ∉ taken)
      (hleast : ∀ j, 2 ≤ j → j < k → base ++ Numeral.decimal j ∈ taken) :
      Chosen taken base (base ++ Numeral.decimal k)

section Choosing

variable {taken : List Text} {base name : Text}

theorem Search.unique {candidate found found' : Text} {counter : Nat}
    (h : Search taken base candidate counter found)
    (h' : Search taken base candidate counter found') : found = found' := by
  induction h with
  | free hfree =>
    cases h' with
    | free _ => rfl
    | next htaken _ => exact absurd htaken hfree
  | next htaken _ ih =>
    cases h' with
    | free hfree => exact absurd htaken hfree
    | next _ later => exact ih later

/-- Candidates that are all taken are passed over, up to the first that is free. -/
theorem search_numbered {n k : Nat} (hfree : base ++ Numeral.decimal (n + k) ∉ taken)
    (htaken : ∀ j, n ≤ j → j < n + k → base ++ Numeral.decimal j ∈ taken) :
    Search taken base (base ++ Numeral.decimal n) n (base ++ Numeral.decimal (n + k)) := by
  induction k generalizing n with
  | zero => exact .free hfree
  | succ k ih =>
    have hsum : n + (k + 1) = n + 1 + k := by omega
    rw [hsum] at hfree htaken ⊢
    exact .next (htaken n (Nat.le_refl n) (by omega)) (ih hfree fun j hj => htaken j (by omega))

/-- The search ends with the chosen name. -/
theorem Chosen.search (h : Chosen taken base name) : Search taken base base 1 name := by
  cases h with
  | plain h => exact .free h
  | @numbered k htaken htwo hfree hleast =>
    obtain ⟨k, rfl⟩ := Nat.exists_eq_add_of_le htwo
    exact .next htaken (search_numbered hfree hleast)

theorem getElem_nameCandidates_succ {count k : Nat}
    (h : k + 1 < (nameCandidates base count).length) :
    (nameCandidates base count)[k + 1] = base ++ Numeral.decimal (k + 2) := by
  simp [nameCandidates]

/-- A fresh name is the chosen one, in whatever order the taken names are listed. -/
theorem chosen_freshName {taken' : List Text} (base : Text)
    (h : ∀ id, id ∈ taken ↔ id ∈ taken') :
    Chosen taken base (freshName taken' base) := by
  obtain ⟨hfree, i, hi, hget, hbefore⟩ :=
    List.find?_eq_some_iff_getElem.mp (freshName_eq_some taken' base)
  have hfree : freshName taken' base ∉ taken := by simpa [h] using hfree
  have htaken (j : Nat) (hj : j < i) : (nameCandidates base taken'.length)[j] ∈ taken' := by
    simpa only [Bool.not_eq_true', decide_eq_false_iff_not, Decidable.not_not] using hbefore j hj
  cases i with
  | zero =>
    have hbase : base = freshName taken' base := hget
    rw [← hbase] at hfree ⊢
    exact .plain hfree
  | succ k =>
    rw [getElem_nameCandidates_succ] at hget
    rw [← hget] at hfree ⊢
    refine .numbered ((h base).mpr (htaken 0 (Nat.succ_pos k))) (by omega) hfree ?_
    intro j htwo hlt
    obtain ⟨j, rfl⟩ := Nat.exists_eq_add_of_le' htwo
    have hj := htaken (j + 1) (by omega)
    rw [getElem_nameCandidates_succ] at hj
    exact (h _).mpr hj

theorem freshName_of_not_mem (h : base ∉ taken) : freshName taken base = base :=
  (chosen_freshName base fun _ => Iff.rfl).search.unique (Chosen.plain h).search

end Choosing

/-! ## One name after the other -/

namespace Namer

/-- The identifiers that are given to the occurrences of names in a list, in order. -/
def given (camelCase : Bool) (rules : List Text) : List Text :=
  (rules.foldl (assign camelCase) ([], .empty)).1.reverse

variable {camelCase : Bool} {rules more : List Text} {rule : Text}

/-- One more occurrence gets a name that is fresh among those given so far. -/
theorem given_concat (camelCase : Bool) (rules : List Text) (rule : Text) :
    given camelCase (rules ++ [rule]) =
      given camelCase rules ++
        [freshName (given camelCase rules).reverse (base camelCase rule)] := by
  simp only [given, List.foldl_append, List.foldl_cons, List.foldl_nil, List.reverse_reverse]
  exact List.reverse_cons

theorem get?_concat (other : Text) :
    (ofRules camelCase (rules ++ [rule])).get? other =
      if other = rule then some (freshName (given camelCase rules).reverse (base camelCase rule))
      else (ofRules camelCase rules).get? other := by
  simp only [ofRules, given, List.foldl_append, List.foldl_cons, List.foldl_nil,
    List.reverse_reverse]
  exact Dictionary.get?_insert ..

theorem length_given (camelCase : Bool) (rules : List Text) :
    (given camelCase rules).length = rules.length := by
  induction rules using List.reverseRecOn with
  | nil => rfl
  | append_singleton rules rule ih =>
    rw [given_concat, List.length_append, List.length_append, ih, List.length_singleton,
      List.length_singleton]

theorem nodup_given (camelCase : Bool) (rules : List Text) : (given camelCase rules).Nodup := by
  induction rules using List.reverseRecOn with
  | nil => exact .nil
  | append_singleton rules rule ih =>
    rw [given_concat, ← List.concat_eq_append]
    refine ih.concat fun hmem => ?_
    exact freshName_not_mem _ _ (List.mem_reverse.mpr hmem)

/-- What is given stays given. -/
theorem given_stays (camelCase : Bool) (rules more : List Text) :
    given camelCase rules <+: given camelCase (rules ++ more) := by
  induction more using List.reverseRecOn with
  | nil => exact (List.append_nil rules).symm ▸ List.prefix_rfl
  | append_singleton more rule ih =>
    rw [← List.append_assoc, given_concat]
    exact ih.trans (List.prefix_append _ _)

/-- A rule that does not come again keeps its identifier. -/
theorem get?_append (h : rule ∉ more) :
    (ofRules camelCase (rules ++ more)).get? rule = (ofRules camelCase rules).get? rule := by
  induction more using List.reverseRecOn with
  | nil => rw [List.append_nil]
  | append_singleton more last ih =>
    rw [List.mem_append, not_or, List.mem_singleton] at h
    rw [← List.append_assoc, get?_concat, if_neg h.2, ih h.1]

/-- The identifier of an occurrence is settled by what has been given before, and a rule goes by
that of its last occurrence. -/
theorem given_occurrence (camelCase : Bool) (before : List Text) (rule : Text) (after : List Text) :
    (given camelCase (before ++ rule :: after))[before.length]? =
        some (freshName (given camelCase before).reverse (base camelCase rule)) ∧
      (rule ∉ after → (ofRules camelCase (before ++ rule :: after)).get? rule =
        some (freshName (given camelCase before).reverse (base camelCase rule))) := by
  rw [List.append_cons]
  constructor
  · obtain ⟨later, hlater⟩ := given_stays camelCase (before ++ [rule]) after
    rw [← hlater, given_concat, ← length_given camelCase before, List.append_assoc]
    rw [List.getElem?_append_right (Nat.le_refl _), Nat.sub_self]
    rfl
  · intro hlast
    rw [get?_append hlast, get?_concat, if_pos rfl]

/-- Without camel casing, names that do not repeat stand for themselves. -/
theorem given_of_nodup (h : rules.Nodup) : given false rules = rules := by
  induction rules using List.reverseRecOn with
  | nil => rfl
  | append_singleton rules rule ih =>
    obtain ⟨hnew, hrules⟩ := List.nodup_cons.mp (List.nodup_middle.mp h)
    rw [List.append_nil] at hnew hrules
    rw [given_concat, ih hrules]
    exact congrArg (rules ++ [·]) (freshName_of_not_mem (mt List.mem_reverse.mp hnew))

theorem nameOf_of_nodup (h : rules.Nodup) (rule : Text) :
    (ofRules false rules).nameOf rule = rule := by
  by_cases hmem : rule ∈ rules
  · obtain ⟨before, after, rfl⟩ := List.append_of_mem hmem
    obtain ⟨hnew, hothers⟩ := List.nodup_cons.mp (List.nodup_middle.mp h)
    rw [List.mem_append, not_or] at hnew
    have hlast := (given_occurrence false before rule after).2 hnew.2
    rw [nameOf, hlast, given_of_nodup (List.nodup_append.mp hothers).1, Option.getD_some]
    exact freshName_of_not_mem (mt List.mem_reverse.mp hnew.1)
  · have hnone : (ofRules false rules).get? rule = none :=
      Option.not_isSome_iff_eq_none.mp fun h => hmem (isSome_get?_ofRules.mp h)
    rw [nameOf, hnone, Option.getD_none]

/-- **Allocating identifiers.** Every occurrence of a name in a list gets an identifier: the search
for it ends, and it is the base, or the base with the least number from two on, that no earlier
occurrence has got. No identifier is given twice, so different rules have different ones. What is
given stays given when the list goes on, and so does the identifier of a rule that does not come
again. Without camel casing, rules that do not repeat have their own names. -/
theorem allocation (camelCase : Bool) (rules : List Text) :
    (given camelCase rules).length = rules.length ∧
      (∀ before rule after, rules = before ++ rule :: after →
        ∃ id, (given camelCase rules)[before.length]? = some id ∧
          (∀ found, Search (given camelCase before) (base camelCase rule) (base camelCase rule) 1
            found ↔ found = id) ∧
          Chosen (given camelCase before) (base camelCase rule) id ∧
          (rule ∉ after → (ofRules camelCase rules).get? rule = some id)) ∧
      (given camelCase rules).Nodup ∧
      (∀ rule ∈ rules, ∀ other ∈ rules, rule ≠ other →
        (ofRules camelCase rules).nameOf rule ≠ (ofRules camelCase rules).nameOf other) ∧
      (∀ more, given camelCase rules <+: given camelCase (rules ++ more) ∧
        ∀ rule ∈ rules, rule ∉ more →
          (ofRules camelCase (rules ++ more)).nameOf rule =
            (ofRules camelCase rules).nameOf rule) ∧
      (camelCase = false → rules.Nodup → given camelCase rules = rules ∧
        ∀ rule, (ofRules camelCase rules).nameOf rule = rule) := by
  refine ⟨length_given camelCase rules, ?_, nodup_given camelCase rules, ?_, ?_, ?_⟩
  · rintro before rule after rfl
    obtain ⟨hget, hlast⟩ := given_occurrence camelCase before rule after
    have hchosen : Chosen (given camelCase before) (base camelCase rule)
        (freshName (given camelCase before).reverse (base camelCase rule)) :=
      chosen_freshName _ fun _ => List.mem_reverse.symm
    refine ⟨_, hget, fun found => ⟨fun h => h.unique hchosen.search, ?_⟩, hchosen, hlast⟩
    rintro rfl
    exact hchosen.search
  · intro rule hrule other hother hne heq
    exact hne (nameOf_injective hrule hother heq)
  · intro more
    refine ⟨given_stays camelCase rules more, fun rule _ hnew => ?_⟩
    rw [nameOf, nameOf, get?_append hnew]
  · rintro rfl hnodup
    exact ⟨given_of_nodup hnodup, nameOf_of_nodup hnodup⟩

/-- A base that is taken, and so is the base with the number two behind it. -/
theorem allocation_colliding :
    let rules : List Text := ["foo", "Foo2", "Foo"]
    given true rules = ["Foo", "Foo2", "Foo3"] ∧
      (∃ id, (given true rules)[2]? = some id ∧ Search ["Foo", "Foo2"] "Foo" "Foo" 1 id ∧
        Chosen ["Foo", "Foo2"] "Foo" id ∧ (ofRules true rules).get? "Foo" = some id) ∧
      (ofRules true rules).nameOf "foo" ≠ (ofRules true rules).nameOf "Foo" ∧
      (ofRules true (rules ++ [("foo3" : Text)])).nameOf "Foo" =
        (ofRules true rules).nameOf "Foo" ∧
      (ofRules false rules).nameOf "Foo" = "Foo" := by
  intro rules
  have hnodup : rules.Nodup := by decide
  have hgiven : given true ["foo", "Foo2"] = ["Foo", "Foo2"] := by decide
  obtain ⟨-, hoccurrences, -, hdifferent, hmore, -⟩ := allocation true rules
  obtain ⟨id, hid, hsearch, hchosen, hlast⟩ := hoccurrences ["foo", "Foo2"] "Foo" [] rfl
  rw [hgiven] at hsearch hchosen
  obtain ⟨-, -, -, -, -, hplain⟩ := allocation false rules
  exact ⟨by decide, ⟨id, hid, (hsearch id).mpr rfl, hchosen, hlast List.not_mem_nil⟩,
    hdifferent "foo" (by decide) "Foo" (by decide) (by decide),
    (hmore ["foo3"]).2 "Foo" (by decide) (by decide), (hplain rfl hnodup).2 "Foo"⟩

end Namer

end RuleTypes
