import Mathlib.Data.List.Nodup
import RuleTypes.Proofs.Distinct
import RuleTypes.TsType.Union

/-!
# Laws of joining

Flat types are those that joining gives: a union of them has two members or more, all different and
none a union. On flat types joining is concatenation of parts with repeats left out, so it does not
matter how types are grouped, and a type that brings nothing new is not noticed.

* `TsType.Flat`: a type that is no union, or a flat union.
* `TsType.parts_join`: what a join is made of.
* `TsType.join_map_join`: types may be joined in groups.
* `TsType.join_of_flat`: the laws together.
-/

namespace RuleTypes.TsType

/-- Whether a type is no union, or a union of two members or more, all different and none of them a
union. -/
def Flat : TsType → Prop
  | union members => 2 ≤ members.length ∧ members.Nodup ∧ ∀ m ∈ members, ∀ us, m ≠ union us
  | _ => True

variable {t : TsType} {ts : List TsType}

/-! ## Parts -/

theorem parts_ne_nil (h : ∀ members, t = union members → 2 ≤ members.length) : t.parts ≠ [] := by
  cases t with
  | union members =>
    have hlength : 2 ≤ members.length := h members rfl
    rintro rfl
    simp at hlength
  | _ => simp [parts]

/-- A type is that of its parts, unless it is a union of fewer than two members. -/
theorem ofParts_parts (h : ∀ members, t = union members → 2 ≤ members.length) :
    ofParts t.parts = t := by
  cases t with
  | union members =>
    match members, h members rfl with
    | m :: m' :: ms, _ => rfl
  | _ => rfl

theorem Flat.two_le_length (h : t.Flat) (members : List TsType) (ht : t = union members) :
    2 ≤ members.length := by
  subst ht
  exact h.1

theorem Flat.ne_union_of_mem_parts (h : t.Flat) : ∀ p ∈ t.parts, ∀ us, p ≠ union us := by
  cases t with
  | union members => exact h.2.2
  | _ => simp [parts]

theorem Flat.nodup_parts (h : t.Flat) : t.parts.Nodup := by
  cases t with
  | union members => exact h.2.1
  | _ => exact List.nodup_singleton _

/-- The parts of the type of some parts are these, unless there are none or one is a union. -/
theorem parts_ofParts (hne : ts ≠ []) (h : ∀ p ∈ ts, ∀ us, p ≠ union us) :
    (ofParts ts).parts = ts := by
  match ts with
  | [] => exact absurd rfl hne
  | [p] =>
    cases p with
    | union us => exact absurd rfl (h _ (List.mem_singleton_self _) us)
    | _ => rfl
  | p :: q :: ts => rfl

theorem flat_ofParts (hnodup : ts.Nodup) (h : ∀ p ∈ ts, ∀ us, p ≠ union us) :
    (ofParts ts).Flat := by
  match ts with
  | [] => trivial
  | [p] =>
    cases p with
    | union us => exact absurd rfl (h _ (List.mem_singleton_self _) us)
    | _ => trivial
  | p :: q :: ts => exact ⟨by simp, hnodup, h⟩

/-! ## Joins -/

theorem ne_union_of_mem_flatMap (h : ∀ t ∈ ts, t.Flat) :
    ∀ p ∈ distinct (ts.flatMap parts), ∀ us, p ≠ union us := by
  intro p hp
  obtain ⟨t, ht, hp⟩ := List.mem_flatMap.mp (mem_distinct.mp hp)
  exact (h t ht).ne_union_of_mem_parts p hp

/-- The join of flat types is flat. -/
theorem flat_join (h : ∀ t ∈ ts, t.Flat) : (join ts).Flat :=
  flat_ofParts (nodup_distinct _) (ne_union_of_mem_flatMap h)

/-- The parts of a join are those of its members, without repeats. -/
theorem parts_join (hne : ts ≠ []) (h : ∀ t ∈ ts, t.Flat) :
    (join ts).parts = distinct (ts.flatMap parts) := by
  refine parts_ofParts ?_ (ne_union_of_mem_flatMap h)
  obtain ⟨t, ts, rfl⟩ := List.exists_cons_of_ne_nil hne
  obtain ⟨p, ps, hparts⟩ :=
    List.exists_cons_of_ne_nil (parts_ne_nil (h t List.mem_cons_self).two_le_length)
  exact List.ne_nil_of_mem (a := p) (by simp [hparts])

/-- Flat types may be joined in groups first. -/
theorem join_map_join {groups : List (List TsType)}
    (h : ∀ ts ∈ groups, ts ≠ [] ∧ ∀ t ∈ ts, t.Flat) :
    join (groups.map join) = join groups.flatten := by
  have hparts : (groups.map join).flatMap parts =
      groups.flatMap fun ts => distinct (ts.flatMap parts) := by
    rw [List.flatMap_map]
    exact List.flatMap_congr fun ts hts => parts_join (h ts hts).1 (h ts hts).2
  rw [join, join, hparts, distinct_flatMap_distinct, List.flatten_eq_flatMap, List.flatMap_assoc]
  rfl

theorem join_singleton (h : t.Flat) : join [t] = t := by
  rw [join, List.flatMap_singleton, distinct_of_nodup h.nodup_parts,
    ofParts_parts h.two_le_length]

/-- A type of which nothing is new does not change a join. -/
theorem join_append_of_subset (h : ∀ p ∈ t.parts, p ∈ ts.flatMap parts) :
    join (ts ++ [t]) = join ts := by
  rw [join, join, List.flatMap_append, List.flatMap_singleton, distinct_append_of_subset h]

/-- **Joining.** On flat types joining gives a flat type, may be done in groups, leaves a single
type as it is, and has the parts of its members in order of first occurrence; a type of which
nothing is new does not change it. -/
theorem join_of_flat {xs ys : List TsType} (hxs : xs ≠ []) (hys : ys ≠ [])
    (hxsFlat : ∀ t ∈ xs, t.Flat) (hysFlat : ∀ t ∈ ys, t.Flat) :
    (join xs).Flat ∧
      join [join xs, join ys] = join (xs ++ ys) ∧
      (∀ t : TsType, t.Flat → join [t] = t) ∧
      FirstOccurrences (xs.flatMap parts) (join xs).parts ∧
      ∀ t : TsType, (∀ p ∈ t.parts, p ∈ xs.flatMap parts) → join (xs ++ [t]) = join xs := by
  refine ⟨flat_join hxsFlat, ?_, fun t => join_singleton, ?_, fun t => join_append_of_subset⟩
  · have hgroups : ∀ ts ∈ [xs, ys], ts ≠ [] ∧ ∀ t ∈ ts, t.Flat := by
      simpa using ⟨⟨hxs, hxsFlat⟩, hys, hysFlat⟩
    simpa using join_map_join hgroups
  · rw [parts_join hxs hxsFlat]
    exact firstOccurrences_distinct _

/-- Two groups with a repeat inside the first and one across them. -/
theorem join_of_flat_overlap :
    join [join [union [literal "a", null], null], join [ref "b", union [string, literal "a"]]] =
        union [literal "a", null, ref "b", string] ∧
      join [union [literal "a", null]] = union [literal "a", null] ∧
      join ([union [literal "a", null], null] ++ [union [null, literal "a"]]) =
        union [literal "a", null] := by
  have hflat : (union [literal "a", null]).Flat := by simp [Flat, null]
  obtain ⟨-, hgroups, hsingle, -, hsame⟩ :=
    @join_of_flat [union [literal "a", null], null] [ref "b", union [string, literal "a"]]
      (List.cons_ne_nil _ _) (List.cons_ne_nil _ _)
      (by simp [Flat, null]) (by simp [Flat, string])
  exact ⟨hgroups.trans (by decide), hsingle _ hflat, (hsame _ (by decide)).trans (by decide)⟩

end RuleTypes.TsType
