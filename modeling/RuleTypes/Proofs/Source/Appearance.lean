import RuleTypes.Proofs.Expr.Walk
import RuleTypes.Proofs.Source.References

/-!
# The order of references

The references of an expression are those of its nodes, as the walk through it comes to them. In a
rule that is read from a source, that is the order in which they are written: at increasing
positions of the source a reference to one name after the other is read. A name that is referred to
several times is listed as often.

* `Kept.Found.exists_positions`: names that are found in a text are read at increasing positions.
* `Grammar.exists_positions_of_parse`: so it is with the references of a parsed grammar.
* `walk_visits_in_written_order`: the order of a walk, and of the references that come from it.
-/

namespace RuleTypes

/-- Whether a reference to this rule is read at this position of a source. -/
def Source.RefersAt (source : Text) (position : Nat) (rule : Text) : Prop :=
  ∃ width rest, Nonterminal.ruleRef.scan (source.drop position) = .ok (.reference rule) width rest

open Source

/-- What is read in the end of a text is read in the text, by as much further on. -/
theorem forall₂_refersAt_append (before : Text) {s : Text} {positions : List Nat}
    {rules : List Text} (h : List.Forall₂ (RefersAt s) positions rules) :
    List.Forall₂ (RefersAt (before ++ s)) (positions.map (before.length + ·)) rules := by
  rw [List.forall₂_map_left_iff]
  refine h.imp fun position rule hrule => ?_
  rwa [RefersAt, List.drop_length_add_append]

/-- The names that are found in a text are read in it at increasing positions. -/
theorem Kept.Found.exists_positions {ks : List Kept} {s rest : Text} (h : Kept.Found ks s rest) :
    ∃ positions : List Nat, positions.Pairwise (· < ·) ∧
      List.Forall₂ (RefersAt s) positions (ks.filterMap Kept.reference?) := by
  induction h with
  | nil _ => exact ⟨[], .nil, .nil⟩
  | @cons k ks s t rest hk hne hreads _ ih =>
    obtain ⟨before, rfl⟩ := hk
    obtain ⟨positions, hsorted, hpositions⟩ := ih
    have hlater := forall₂_refersAt_append (before ++ k.text) hpositions
    have hsorted' : (positions.map ((before ++ k.text).length + ·)).Pairwise (· < ·) :=
      hsorted.map _ fun _ _ hlt => Nat.add_lt_add_left hlt _
    rw [List.append_assoc] at hlater
    cases k with
    | code code => exact ⟨_, hsorted', hlater⟩
    | reference rule =>
      refine ⟨before.length :: _, List.pairwise_cons.mpr ⟨?_, hsorted'⟩, .cons ?_ hlater⟩
      · intro position hposition
        obtain ⟨p, -, rfl⟩ := List.mem_map.mp hposition
        have := List.length_pos_iff.mpr hne
        rw [List.length_append]
        omega
      · rw [RefersAt, List.drop_left]
        exact hreads

/-- The references of a parsed grammar are read at increasing positions of its source. -/
theorem Grammar.exists_positions_of_parse {source : Text} {startRules : List Text} {g : Grammar}
    (h : Grammar.parse source startRules = .ok g) :
    ∃ written, readRules source = .ok written ∧
      List.Forall₂ (fun w rule => rule.name = w.name ∧
        rule.body.references = w.body.keptReferences) written g.rules ∧
      ∃ positions : List Nat, positions.Pairwise (· < ·) ∧
        List.Forall₂ (RefersAt source) positions (g.rules.flatMap (·.body.references)) := by
  obtain ⟨written, hread, hl⟩ := Grammar.parse_spec h
  refine ⟨written, hread, hl.imp fun w rule hw => references_of_lower hw, ?_⟩
  have hkept : g.rules.flatMap (·.body.references) =
      (written.flatMap (·.body.kept)).filterMap Kept.reference? := by
    rw [← kept_of_lower hl, List.filterMap_flatMap]
    exact List.flatMap_congr fun rule _ => Expr.references_eq_kept rule.body
  rw [hkept]
  exact (found_of_readRules hread).exists_positions

/-- **Walks list nodes in the order in which they are written.** The nodes that a walk lists are the
expression and then those that walks through its parts list, in order. The walk with a stack of
pending nodes always ends, it visits these nodes one after the other, each of its rounds one, and it
comes to each place in the expression once, in the order of the places. The references of an
expression are those at its places in this order, repeats included. In a parsed grammar they are the
references that are written outside the delimiters of ranges, and they are read at increasing
positions of the source. -/
theorem walk_visits_in_written_order :
    (∀ e : Expr,
      e.walk = e :: e.children.flatMap Expr.walk ∧
      Walk.Lists e e.walk ∧
      (e.places.Pairwise (· < ·) ∧ (∀ place, place ∈ e.places ↔ (e.at? place).isSome = true) ∧
        e.walk.map some = e.places.map e.at?) ∧
      e.references = e.places.filterMap fun place => (e.at? place).bind Expr.reference?) ∧
    ∀ source startRules g, Grammar.parse source startRules = .ok g →
      ∃ written, readRules source = .ok written ∧
        List.Forall₂ (fun w rule => rule.name = w.name ∧
          rule.body.references = w.body.keptReferences) written g.rules ∧
        ∃ positions : List Nat, positions.Pairwise (· < ·) ∧
          List.Forall₂ (RefersAt source) positions (g.rules.flatMap (·.body.references)) := by
  refine ⟨fun e => ?_, fun source startRules g => Grammar.exists_positions_of_parse⟩
  have hnodes : e.walk.map some = e.places.map e.at? := by
    rw [e.map_at?_places, e.walk_eq_preorder]
  refine ⟨e.walk_eq, Walk.lists_walk e, ⟨e.pairwise_places, e.mem_places_iff, hnodes⟩, ?_⟩
  calc e.references = (e.walk.map some).filterMap (Option.bind · Expr.reference?) := by
        rw [List.filterMap_map]; rfl
    _ = e.places.filterMap fun place => (e.at? place).bind Expr.reference? := by
        rw [hnodes, List.filterMap_map]; rfl

/-- A rule that refers to `b` twice, the second time in a group, and to `c` once. The code is no
reference, and what the delimiter refers to is not kept. -/
theorem walk_visits_in_written_order_repeats :
    ∃ g, Grammar.parse "a=b(c/.b)* .|..,c|{c}" [] = .ok g ∧
      g.rules.map (·.body.references) = [(["b", "c", "b"] : List Text)] ∧
      ∃ positions : List Nat, positions.Pairwise (· < ·) ∧
        List.Forall₂ (RefersAt "a=b(c/.b)* .|..,c|{c}") positions ["b", "c", "b"] := by
  let body : Expr := .action (.sequence [.reference "b",
    .repetition (.choice [.reference "c", .sequence [.anyChar, .reference "b"]]) false,
    .repetition .anyChar false]) "{c}"
  have hparse : Grammar.parse "a=b(c/.b)* .|..,c|{c}" [] =
      .ok ⟨[⟨"a", body, false, none⟩], by decide⟩ := rfl
  have hreferences : body.references = ["b", "c", "b"] := body.references_eq_kept
  obtain ⟨-, -, -, hpositions⟩ := walk_visits_in_written_order.2 _ _ _ hparse
  rw [List.flatMap_singleton, hreferences] at hpositions
  exact ⟨_, hparse, congrArg ([·]) hreferences, hpositions⟩

end RuleTypes
