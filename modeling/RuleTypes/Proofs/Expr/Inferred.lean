import RuleTypes.Expr.Typing
import RuleTypes.Proofs.Expr.Nodes
import RuleTypes.Proofs.Source.Pluck
import RuleTypes.Proofs.TsType.Nodes

/-!
# Inferred types

The types of expressions can be written, their unions are flat and without repeats, and they refer
to no rules but those that the expression refers to.

* `TsType.InferredNode`: what is known of a single node. `TsType.Inferred`: it is known of all.
* `TsType.inferred_join`: joining inferred types gives an inferred type.
* `Expr.inferred_valueType`: the type of an expression is inferred.
-/

namespace RuleTypes

namespace TsType

/-- What a node of an inferred type is: a keyword that inference knows, any literal, a reference to
a known rule, the fallback text, an array, or a union of two members or more, all different and none
of them a union. -/
def InferredNode (fallback : Text) (known : Text → Prop) : TsType → Prop
  | unwritten => False
  | keyword name => keyword name ∈ [string, null, undefined, never]
  | literal _ => True
  | ref rule => known rule
  | raw text => text = fallback
  | array _ => True
  | union members => 2 ≤ members.length ∧ members.Nodup ∧ ∀ m ∈ members, ∀ us, m ≠ union us

/-- Whether all nodes of a type are those of an inferred one. -/
def Inferred (fallback : Text) (known : Text → Prop) (t : TsType) : Prop :=
  ∀ n ∈ t.nodes, n.InferredNode fallback known

variable {fallback : Text} {known : Text → Prop}

theorem inferred_iff {t : TsType} : t.Inferred fallback known ↔
    t.InferredNode fallback known ∧ ∀ c ∈ t.children, c.Inferred fallback known :=
  forall_mem_nodes_iff

/-- A type without parts is inferred when its one node is. -/
theorem inferred_of_leaf {t : TsType} (hc : t.children = []) (ht : t.InferredNode fallback known) :
    t.Inferred fallback known := by
  rw [inferred_iff, hc]
  exact ⟨ht, by simp⟩

theorem inferred_keyword {t : TsType} (h : t ∈ [string, null, undefined, never]) :
    t.Inferred fallback known := by
  have hkeyword : ∃ name, t = keyword name := by
    simp only [List.mem_cons, List.not_mem_nil, or_false] at h
    rcases h with rfl | rfl | rfl | rfl <;> exact ⟨_, rfl⟩
  obtain ⟨name, rfl⟩ := hkeyword
  exact inferred_of_leaf rfl h

/-- An inferred type can be written. -/
theorem Inferred.render_isSome {t : TsType} (h : t.Inferred fallback known)
    (nameOf : Text → Text) : (t.render nameOf).isSome = true := by
  rw [Option.isSome_iff_ne_none]
  intro hnone
  exact h unwritten ((render_eq_none_iff nameOf t).mp hnone)

/-! ## Joining -/

/-- The parts of an inferred type are inferred and no unions. -/
theorem Inferred.parts {t : TsType} (h : t.Inferred fallback known) :
    ∀ p ∈ t.parts, p.Inferred fallback known ∧ ∀ us, p ≠ union us := by
  obtain ⟨hnode, hchildren⟩ := inferred_iff.mp h
  cases t with
  | union members =>
    intro p hp
    exact ⟨hchildren p hp, hnode.2.2 p hp⟩
  | _ =>
    intro p hp
    obtain rfl := List.mem_singleton.mp hp
    exact ⟨h, nofun⟩

theorem inferred_ofParts {ts : List TsType} (hnodup : ts.Nodup)
    (h : ∀ p ∈ ts, p.Inferred fallback known ∧ ∀ us, p ≠ union us) :
    (ofParts ts).Inferred fallback known := by
  match ts with
  | [] => exact inferred_keyword (by simp [ofParts])
  | [t] => exact (h t (List.mem_singleton_self t)).1
  | t :: u :: ts =>
    refine inferred_iff.mpr ⟨⟨by simp, hnodup, fun m hm => (h m hm).2⟩, fun c hc => (h c hc).1⟩

theorem inferred_join {ts : List TsType} (h : ∀ t ∈ ts, t.Inferred fallback known) :
    (join ts).Inferred fallback known := by
  refine inferred_ofParts (nodup_distinct _) fun p hp => ?_
  obtain ⟨t, ht, hp⟩ := List.mem_flatMap.mp (mem_distinct.mp hp)
  exact (h t ht).parts p hp

end TsType

namespace Expr

open TsType

/-- The type of an expression is inferred, and refers to rules that the expression refers to. -/
theorem inferred_valueType (fallback : Text) {known : Text → Prop} (e : Expr)
    (h : ∀ target ∈ e.references, known target) :
    (e.valueType fallback).Inferred fallback known := by
  induction e using Expr.induction with
  | step e ih =>
    have hparts : ∀ c ∈ e.children, (c.valueType fallback).Inferred fallback known := by
      intro c hc
      refine ih c hc fun target htarget => h target ?_
      rw [references_eq]
      exact List.mem_append_right _ (List.mem_flatMap.mpr ⟨c, hc, htarget⟩)
    have hraw : (raw fallback).Inferred fallback known := inferred_of_leaf rfl rfl
    cases e with
    | unknown => exact hraw
    | literals values ignoreCase =>
      cases ignoreCase with
      | true => exact inferred_keyword (by simp [valueType])
      | false =>
        refine inferred_join fun t ht => ?_
        obtain ⟨value, -, rfl⟩ := List.mem_map.mp ht
        exact inferred_of_leaf rfl trivial
    | charClass _ => exact inferred_keyword (by simp [valueType])
    | anyChar => exact inferred_keyword (by simp [valueType])
    | reference rule =>
      exact inferred_of_leaf rfl (h rule (by rw [references_eq]; simp [reference?]))
    | choice alternatives =>
      rw [valueType, valueTypes_eq_map]
      refine inferred_join fun t ht => ?_
      obtain ⟨alternative, ha, rfl⟩ := List.mem_map.mp ht
      exact hparts alternative ha
    | sequence elements =>
      rw [valueType_sequence]
      split
      · rename_i e heq
        have he : e ∈ elements.filter isPlucked := by simp [heq]
        exact hparts e (List.mem_of_mem_filter he)
      · exact hraw
    | repetition operand _ =>
      refine inferred_iff.mpr ⟨trivial, fun t ht => ?_⟩
      obtain rfl := List.mem_singleton.mp ht
      exact hparts operand (by simp [children])
    | optional operand =>
      refine inferred_join fun t ht => ?_
      rcases List.mem_cons.mp ht with rfl | ht
      · exact hparts operand (by simp [children])
      · obtain rfl := List.mem_singleton.mp ht
        exact inferred_keyword (by simp)
    | capture operand _ _ => exact hparts operand (by simp [children])
    | text _ => exact inferred_keyword (by simp [valueType])
    | lookahead _ _ _ => exact inferred_keyword (by simp [valueType])
    | semantic _ _ => exact inferred_keyword (by simp [valueType])
    | action _ _ => exact hraw

end Expr

end RuleTypes
