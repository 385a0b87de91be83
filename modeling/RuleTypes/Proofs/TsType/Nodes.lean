import RuleTypes.TsType.Render

/-!
# Nodes of types

A type is a tree as well: the element of an array and the members of a union are its parts. A type
can be written unless one of its nodes is the type of no particular kind.

* `TsType.mem_nodes_iff`: the nodes of a type, one level at a time.
* `TsType.render_eq_none_iff`: which types cannot be written.
-/

namespace RuleTypes.TsType

/-- The direct parts of a type. -/
def children : TsType → List TsType
  | unwritten => []
  | keyword _ => []
  | literal _ => []
  | ref _ => []
  | raw _ => []
  | array element => [element]
  | union members => members

mutual

/-- The nodes of a type: itself, then those of its parts. -/
def nodes : TsType → List TsType
  | unwritten => [unwritten]
  | keyword name => [keyword name]
  | literal value => [literal value]
  | ref rule => [ref rule]
  | raw text => [raw text]
  | array element => array element :: nodes element
  | union members => union members :: nodesOf members

/-- The nodes of several types, one after the other. -/
def nodesOf : List TsType → List TsType
  | [] => []
  | t :: ts => nodes t ++ nodesOf ts

end

theorem mem_nodesOf_iff {n : TsType} {ts : List TsType} :
    n ∈ nodesOf ts ↔ ∃ t ∈ ts, n ∈ t.nodes := by
  induction ts with
  | nil => simp [nodesOf]
  | cons t ts ih => simp [nodesOf, ih]

theorem mem_nodes_iff {n t : TsType} : n ∈ t.nodes ↔ n = t ∨ ∃ c ∈ t.children, n ∈ c.nodes := by
  cases t <;> simp [nodes, children, mem_nodesOf_iff]

theorem mem_nodes_self (t : TsType) : t ∈ t.nodes := mem_nodes_iff.mpr (.inl rfl)

theorem mem_nodes_of_child {n c t : TsType} (hc : c ∈ t.children) (h : n ∈ c.nodes) :
    n ∈ t.nodes :=
  mem_nodes_iff.mpr (.inr ⟨c, hc, h⟩)

/-- Something holds of all nodes of a type if it holds of the type and of all nodes of its parts. -/
theorem forall_mem_nodes_iff {P : TsType → Prop} {t : TsType} :
    (∀ n ∈ t.nodes, P n) ↔ P t ∧ ∀ c ∈ t.children, ∀ n ∈ c.nodes, P n := by
  constructor
  · intro h
    exact ⟨h t (mem_nodes_self t), fun c hc n hn => h n (mem_nodes_of_child hc hn)⟩
  · rintro ⟨ht, hc⟩ n hn
    rcases mem_nodes_iff.mp hn with rfl | ⟨c, hmem, hn⟩
    · exact ht
    · exact hc c hmem n hn

mutual

/-- Induction from the parts of a type to the type. -/
theorem induction {motive : TsType → Prop}
    (step : ∀ t : TsType, (∀ c ∈ t.children, motive c) → motive t) : ∀ t, motive t
  | unwritten => step _ nofun
  | keyword _ => step _ nofun
  | literal _ => step _ nofun
  | ref _ => step _ nofun
  | raw _ => step _ nofun
  | array element => step _ fun _ hc => List.mem_singleton.mp hc ▸ induction step element
  | union members => step _ (induction_members step members)

theorem induction_members {motive : TsType → Prop}
    (step : ∀ t : TsType, (∀ c ∈ t.children, motive c) → motive t) :
    ∀ ts : List TsType, ∀ t ∈ ts, motive t
  | [] => nofun
  | t :: ts => List.forall_mem_cons.mpr ⟨induction step t, induction_members step ts⟩

end

/-- The nodes of a node are nodes of the whole. -/
theorem mem_nodes_trans {n m t : TsType} (hm : m ∈ t.nodes) (hn : n ∈ m.nodes) : n ∈ t.nodes := by
  induction t using TsType.induction with
  | step t ih =>
    rcases mem_nodes_iff.mp hm with rfl | ⟨c, hc, hm⟩
    · exact hn
    · exact mem_nodes_of_child hc (ih c hc hm)

/-! ## Writing -/

variable (nameOf : Text → Text)

mutual

/-- A type cannot be written where the type of no particular kind is one of its nodes. -/
theorem render_eq_none_iff : ∀ t : TsType, t.render nameOf = none ↔ unwritten ∈ t.nodes
  | unwritten => by simp [render, nodes]
  | keyword _ => by simp [render, nodes]
  | literal _ => by simp [render, nodes]
  | ref _ => by simp [render, nodes]
  | raw _ => by simp [render, nodes]
  | array element => by
    rw [nodes, List.mem_cons, ← render_eq_none_iff element, render]
    cases render nameOf element <;> simp
  | union members => by
    rw [nodes, List.mem_cons, ← renderAll_eq_none_iff members, render]
    cases renderAll nameOf members <;> simp

theorem renderAll_eq_none_iff :
    ∀ ts : List TsType, renderAll nameOf ts = none ↔ unwritten ∈ nodesOf ts
  | [] => by simp [renderAll, nodesOf]
  | t :: ts => by
    rw [nodesOf, List.mem_append, ← render_eq_none_iff t, ← renderAll_eq_none_iff ts, renderAll]
    cases render nameOf t <;> cases renderAll nameOf ts <;> simp

end

end RuleTypes.TsType
