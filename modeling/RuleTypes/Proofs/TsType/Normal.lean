import RuleTypes.Proofs.Expr.Inferred
import RuleTypes.Proofs.Expr.WellFormed
import RuleTypes.Proofs.TsType.Join

/-!
# Types in normal form

A type is in normal form when it can be written and its unions, at any depth, have two members or
more, all different and none of them a union. Joining types in normal form keeps it, although it
opens unions one level deep only, since there is no second level to open.

The type without values comes from an empty join alone, and written expressions have none.

* `TsType.Normal`: normal form, node by node.
* `TsType.Inferred.normal`: inferred types are in normal form.
* `Expr.never_not_mem_valueType`: the types of well-formed expressions do not hold `never`.
-/

namespace RuleTypes

namespace TsType

/-- What a node of a type in normal form is. -/
def NormalNode : TsType → Prop
  | unwritten => False
  | keyword _ => True
  | literal _ => True
  | ref _ => True
  | raw _ => True
  | array _ => True
  | union members => 2 ≤ members.length ∧ members.Nodup ∧ ∀ m ∈ members, ∀ us, m ≠ union us

/-- Whether a type is in normal form at every depth. -/
def Normal (t : TsType) : Prop := ∀ n ∈ t.nodes, n.NormalNode

variable {fallback : Text} {known : Text → Prop} {n t : TsType}

theorem Inferred.normal (h : t.Inferred fallback known) : t.Normal := by
  intro n hn
  have hnode := h n hn
  cases n with
  | unwritten => exact hnode
  | union members => exact hnode
  | _ => trivial

/-- A type without parts is in normal form unless it is the type of no particular kind. -/
theorem normal_of_leaf (hc : t.children = []) (ht : t.NormalNode) : t.Normal := by
  refine forall_mem_nodes_iff.mpr ⟨ht, fun c hmem => ?_⟩
  rw [hc] at hmem
  cases hmem

/-- A type in normal form can be written. -/
theorem Normal.exists_render (h : t.Normal) (nameOf : Text → Text) :
    ∃ text, t.render nameOf = some text := by
  rw [← Option.ne_none_iff_exists']
  intro hnone
  exact h unwritten ((render_eq_none_iff nameOf t).mp hnone)

theorem Normal.flat (h : t.Normal) : t.Flat := by
  have hnode : t.NormalNode := h t (mem_nodes_self t)
  cases t with
  | union members => exact hnode
  | _ => trivial

/-! ## The type without values -/

theorem not_mem_nodes_of_leaf (hc : t.children = []) (hne : n ≠ t) : n ∉ t.nodes := by
  rw [mem_nodes_iff, hc]
  simp [hne]

/-- The parts of a type hold nothing that the type does not hold. -/
theorem mem_nodes_of_parts {p : TsType} (hp : p ∈ t.parts) (hn : n ∈ p.nodes) : n ∈ t.nodes := by
  cases t with
  | union members => exact mem_nodes_of_child hp hn
  | _ => exact List.mem_singleton.mp hp ▸ hn

theorem never_not_mem_ofParts {ps : List TsType} (hne : ps ≠ []) (h : ∀ p ∈ ps, never ∉ p.nodes) :
    never ∉ (ofParts ps).nodes := by
  match ps with
  | [] => exact absurd rfl hne
  | [p] => exact h p (List.mem_singleton_self p)
  | p :: q :: ps =>
    intro hmem
    rcases mem_nodes_iff.mp hmem with heq | ⟨c, hc, hmem⟩
    · cases heq
    · exact h c hc hmem

/-- Joining some types in normal form brings no `never` in: each of them has a part. -/
theorem never_not_mem_join {ts : List TsType} (hne : ts ≠ [])
    (h : ∀ t ∈ ts, t.Normal ∧ never ∉ t.nodes) : never ∉ (join ts).nodes := by
  apply never_not_mem_ofParts
  · obtain ⟨t, ts, rfl⟩ := List.exists_cons_of_ne_nil hne
    obtain ⟨p, ps, hparts⟩ :=
      List.exists_cons_of_ne_nil (parts_ne_nil (h t List.mem_cons_self).1.flat.two_le_length)
    have hp : p ∈ distinct ((t :: ts).flatMap parts) := by simp [hparts]
    exact List.ne_nil_of_mem hp
  · intro p hp hmem
    obtain ⟨t, ht, hp⟩ := List.mem_flatMap.mp (mem_distinct.mp hp)
    exact (h t ht).2 (mem_nodes_of_parts hp hmem)

end TsType

namespace Expr

open TsType

/-- The type of any expression is in normal form. -/
theorem normal_valueType (fallback : Text) (e : Expr) : (e.valueType fallback).Normal := by
  have h : (e.valueType fallback).Inferred fallback fun _ => True :=
    e.inferred_valueType fallback fun _ _ => trivial
  exact h.normal

/-- The type of a well-formed expression does not hold the type without values. -/
theorem never_not_mem_valueType (fallback : Text) {e : Expr} (h : e.WellFormed) :
    never ∉ (e.valueType fallback).nodes := by
  induction e using Expr.induction with
  | step e ih =>
    obtain ⟨hformed, hchildren⟩ := wellFormed_iff.mp h
    have hparts : ∀ c ∈ e.children, never ∉ (c.valueType fallback).nodes :=
      fun c hc => ih c hc (hchildren c hc)
    have hstring : never ∉ string.nodes := not_mem_nodes_of_leaf rfl (by decide)
    have hundefined : never ∉ undefined.nodes := not_mem_nodes_of_leaf rfl (by decide)
    have hraw : never ∉ (raw fallback).nodes := not_mem_nodes_of_leaf rfl nofun
    cases e with
    | unknown => exact hformed.elim
    | literals values ignoreCase =>
      cases ignoreCase with
      | true => exact hstring
      | false =>
        refine never_not_mem_join (by simpa using hformed.1) fun t ht => ?_
        obtain ⟨value, -, rfl⟩ := List.mem_map.mp ht
        exact ⟨normal_of_leaf rfl trivial, not_mem_nodes_of_leaf rfl nofun⟩
    | charClass _ => exact hstring
    | anyChar => exact hstring
    | reference rule => exact not_mem_nodes_of_leaf rfl nofun
    | choice alternatives =>
      have hne : alternatives ≠ [] := List.ne_nil_of_length_pos (by have := hformed.1; omega)
      rw [valueType, valueTypes_eq_map]
      refine never_not_mem_join (by simpa using hne) fun t ht => ?_
      obtain ⟨alternative, ha, rfl⟩ := List.mem_map.mp ht
      exact ⟨normal_valueType fallback alternative, hparts alternative ha⟩
    | sequence elements =>
      rw [valueType_sequence]
      split
      · rename_i e heq
        have he : e ∈ elements.filter isPlucked := by simp [heq]
        exact hparts e (List.mem_of_mem_filter he)
      · exact hraw
    | repetition operand _ =>
      intro hmem
      rcases mem_nodes_iff.mp hmem with heq | ⟨c, hc, hmem⟩
      · cases heq
      · obtain rfl := List.mem_singleton.mp hc
        exact hparts operand (by simp [children]) hmem
    | optional operand =>
      refine never_not_mem_join (List.cons_ne_nil _ _) fun t ht => ?_
      rcases List.mem_cons.mp ht with rfl | ht
      · exact ⟨normal_valueType fallback operand, hparts operand (by simp [children])⟩
      · obtain rfl := List.mem_singleton.mp ht
        exact ⟨normal_of_leaf rfl trivial, not_mem_nodes_of_leaf rfl (by decide)⟩
    | capture operand _ _ => exact hparts operand (by simp [children])
    | text _ => exact hstring
    | lookahead _ _ _ => exact hundefined
    | semantic _ _ => exact hundefined
    | action _ _ => exact hraw

end Expr

end RuleTypes
