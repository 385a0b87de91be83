import Mathlib.Data.List.Basic
import Mathlib.Logic.Relation
import RuleTypes.Proofs.Expr.Nodes

/-!
# Walks through expressions

A walk keeps the nodes that are pending. In every round it visits the last of them and puts its
parts in its place, turned around, so that the first part is the next node. It ends after as many
rounds as there are nodes, and it has visited them in preorder then.

A place in an expression is a list of numbers: which part to go to, at one level after the other.
Equal nodes may stand at different places, so it is places that are visited once each, and they are
visited in lexicographic order.

* `Walk.Step`: one round. `Step.ahead_eq`: visiting a node takes it from what is ahead.
* `Walk.Lists`, `Walk.lists_walk`: every walk ends, and with what.
* `Expr.at?`, `Expr.places`: the node at a place, and all places. `Expr.map_at?_places`: the nodes
  at these places are the nodes in preorder.
-/

namespace RuleTypes

namespace Expr

/-- The nodes of an expression: itself, then those of its parts in order. -/
theorem walk_eq (e : Expr) : e.walk = e :: e.children.flatMap walk := by
  have hwalk : walk = preorder := funext walk_eq_preorder
  rw [hwalk, preorder_eq, preorders_eq_flatMap]

theorem sizes_reverse (es : List Expr) : sizes es.reverse = sizes es := by
  induction es with
  | nil => rfl
  | cons e es ih =>
    rw [List.reverse_cons, sizes_append, ih]
    simp only [sizes]
    omega

end Expr

/-! ## Rounds -/

/-- A walk that is going on: the nodes that are pending, the last of them to be visited next, and
the nodes that have been visited. -/
structure Walk where
  pending : List Expr
  visited : List Expr

namespace Walk

open RuleTypes.Expr

/-- The walk through an expression, before its first round. -/
def start (e : Expr) : Walk := ⟨[e], []⟩

/-- One round: the last of the pending nodes is visited and its parts come in its place, the last
of them first. -/
inductive Step : Walk → Walk → Prop where
  | visit (pending : List Expr) (e : Expr) (visited : List Expr) :
    Step ⟨pending ++ [e], visited⟩ ⟨pending ++ e.children.reverse, visited ++ [e]⟩

/-- Any number of rounds. -/
abbrev Run : Walk → Walk → Prop := Relation.ReflTransGen Step

/-- The nodes of the pending ones, in the order in which they will be visited. -/
def ahead (w : Walk) : List Expr := preorders w.pending.reverse

variable {e : Expr} {w w' : Walk}

/-- What is visited in a round was the first of what is ahead. -/
theorem Step.ahead_eq (h : Step w w') : w'.visited ++ w'.ahead = w.visited ++ w.ahead := by
  cases h with
  | visit pending e visited =>
    simp [ahead, preorders, preorder_eq e, preorders_append]

/-- A round visits one node, and there is one node less ahead. -/
theorem Step.length_eq (h : Step w w') :
    w'.visited.length = w.visited.length + 1 ∧ sizes w.pending = sizes w'.pending + 1 := by
  cases h with
  | visit pending e visited =>
    refine ⟨by rw [List.length_append, List.length_singleton], ?_⟩
    simp only [sizes_append, sizes_reverse, sizes, size_eq e]
    omega

/-- There is a round to go as long as a node is pending. -/
theorem exists_step (h : w.pending ≠ []) : ∃ w', Step w w' := by
  obtain ⟨pending, visited⟩ := w
  obtain ⟨init, last, rfl⟩ := (List.eq_nil_or_concat pending).resolve_left h
  rw [List.concat_eq_append]
  exact ⟨_, Step.visit init last visited⟩

/-- No walk goes on for ever: every round leaves one node less. -/
theorem acc_step (w : Walk) : Acc (fun w' w => Step w w') w := by
  induction hn : sizes w.pending generalizing w with
  | zero =>
    refine ⟨_, fun w' hstep => ?_⟩
    have := hstep.length_eq
    omega
  | succ n ih =>
    refine ⟨_, fun w' hstep => ih w' ?_⟩
    have := hstep.length_eq
    omega

/-- A walk can be ended, and what has been ahead has been visited then. -/
theorem run_ahead (w : Walk) : Run w ⟨[], w.visited ++ w.ahead⟩ := by
  induction acc_step w with
  | intro w _ ih =>
    by_cases hpending : w.pending = []
    · obtain ⟨pending, visited⟩ := w
      obtain rfl := hpending
      rw [ahead, List.reverse_nil, preorders, List.append_nil]
    · obtain ⟨w', hstep⟩ := exists_step hpending
      rw [← hstep.ahead_eq]
      exact .head hstep (ih w' hstep)

theorem Run.ahead_eq (h : Run w w') : w'.visited ++ w'.ahead = w.visited ++ w.ahead := by
  induction h with
  | refl => rfl
  | tail _ hstep ih => rw [hstep.ahead_eq, ih]

theorem Run.length_eq (h : Run w w') :
    w'.visited.length + sizes w'.pending = w.visited.length + sizes w.pending := by
  induction h with
  | refl => rfl
  | tail _ hstep ih =>
    have := hstep.length_eq
    omega

/-- What walks through an expression come to: they always end, with these nodes visited, each of them
in a round of its own, and in no other way. -/
structure Lists (e : Expr) (nodes : List Expr) : Prop where
  ends : Acc (fun w' w => Step w w') (start e)
  run : Run (start e) ⟨[], nodes⟩
  visited : ∀ w, Run (start e) w → w.visited <+: nodes
  rounds : ∀ w, Run (start e) w → w.visited.length + sizes w.pending = e.size
  last : ∀ w, Run (start e) w → (∀ w', ¬Step w w') → w = ⟨[], nodes⟩

theorem lists_walk (e : Expr) : Lists e e.walk := by
  have hwalk : (start e).visited ++ (start e).ahead = e.walk := by
    rw [walk_eq_preorder]
    exact List.append_nil _
  have hahead : ∀ w, Run (start e) w → w.visited ++ w.ahead = e.walk :=
    fun w hrun => hrun.ahead_eq.trans hwalk
  refine ⟨acc_step _, hwalk ▸ run_ahead (start e), fun w hrun => ⟨w.ahead, hahead w hrun⟩,
    fun w hrun => hrun.length_eq.trans (Nat.zero_add _), fun w hrun hlast => ?_⟩
  have hpending : w.pending = [] := by
    by_contra hpending
    obtain ⟨w', hstep⟩ := exists_step hpending
    exact hlast w' hstep
  have hnodes := hahead w hrun
  obtain ⟨pending, visited⟩ := w
  obtain rfl := hpending
  rw [ahead, List.reverse_nil, preorders, List.append_nil] at hnodes
  exact congrArg (Walk.mk []) hnodes

end Walk

/-! ## Places -/

namespace Expr

/-- The node at a place: which part to go to, at one level after the other. -/
def at? : Expr → List Nat → Option Expr
  | e, [] => some e
  | e, i :: place => e.children[i]?.bind (at? · place)

/-- The places in an expression: that of itself, and those of its parts in order. -/
def places (e : Expr) : List (List Nat) :=
  [] :: e.children.zipIdx.attach.flatMap fun ⟨(c, i), _⟩ => c.places.map (i :: ·)
termination_by e.size
decreasing_by exact size_lt_of_mem_children (List.fst_mem_of_mem_zipIdx ‹_›)

theorem places_eq (e : Expr) :
    e.places = [] :: e.children.zipIdx.flatMap fun part => part.1.places.map (part.2 :: ·) := by
  rw [places, List.flatMap_subtype fun _ _ => rfl, List.unattach_attach]

/-- The places are those at which there is a node. -/
theorem mem_places_iff (e : Expr) (place : List Nat) :
    place ∈ e.places ↔ (e.at? place).isSome = true := by
  induction place generalizing e with
  | nil => rw [places_eq, at?]; simp
  | cons i place ih =>
    have hpart : i :: place ∈ e.places ↔ ∃ c, e.children[i]? = some c ∧ place ∈ c.places := by
      rw [places_eq, List.mem_cons, List.mem_flatMap]
      constructor
      · rintro (hnil | ⟨⟨c, j⟩, hpart, hplace⟩)
        · cases hnil
        · obtain ⟨place', hplace', hcons⟩ := List.mem_map.mp hplace
          obtain ⟨rfl, rfl⟩ := List.cons.inj hcons
          exact ⟨c, List.mk_mem_zipIdx_iff_getElem?.mp hpart, hplace'⟩
      · rintro ⟨c, hc, hplace⟩
        exact .inr ⟨(c, i), List.mk_mem_zipIdx_iff_getElem?.mpr hc, List.mem_map_of_mem hplace⟩
    rw [hpart, at?]
    cases e.children[i]? with
    | none => simp
    | some c => simp [ih]

/-- The places are in lexicographic order. -/
theorem pairwise_places (e : Expr) : e.places.Pairwise (· < ·) := by
  induction e using Expr.induction with
  | step e ih =>
    rw [places_eq, List.pairwise_cons, List.pairwise_flatMap]
    refine ⟨fun place hplace => ?_, fun part hpart => ?_, ?_⟩
    · obtain ⟨part, -, hplace⟩ := List.mem_flatMap.mp hplace
      obtain ⟨place', -, rfl⟩ := List.mem_map.mp hplace
      exact List.nil_lt_cons _ _
    · rw [List.pairwise_map]
      refine (ih part.1 (List.fst_mem_of_mem_zipIdx hpart)).imp fun h => ?_
      exact List.cons_lt_cons_iff.mpr (.inr ⟨rfl, h⟩)
    · have hindices : (e.children.zipIdx.map Prod.snd).Pairwise (· < ·) := by
        rw [List.zipIdx_map_snd]
        exact List.pairwise_lt_range' 1
      rw [List.pairwise_map] at hindices
      refine hindices.imp fun {a b} hlt p hp q hq => ?_
      obtain ⟨p', -, rfl⟩ := List.mem_map.mp hp
      obtain ⟨q', -, rfl⟩ := List.mem_map.mp hq
      exact List.cons_lt_cons_iff.mpr (.inl hlt)

/-- The nodes at the places are the nodes in preorder. -/
theorem map_at?_places (e : Expr) : e.places.map e.at? = e.preorder.map some := by
  induction e using Expr.induction with
  | step e ih =>
    have hparts : ∀ part ∈ e.children.zipIdx,
        (part.1.places.map (part.2 :: ·)).map e.at? = part.1.preorder.map some := by
      intro part hpart
      rw [← ih part.1 (List.fst_mem_of_mem_zipIdx hpart), List.map_map]
      refine List.map_congr_left fun place _ => ?_
      have hc : e.children[part.2]? = some part.1 := List.mk_mem_zipIdx_iff_getElem?.mp hpart
      simp [at?, hc]
    rw [places_eq, preorder_eq, preorders_eq_flatMap, List.map_cons, List.map_cons, at?,
      List.map_flatMap, List.map_flatMap, List.flatMap_congr hparts]
    conv_rhs => rw [← List.zipIdx_map_fst 0 e.children, List.flatMap_map]

end Expr

end RuleTypes
