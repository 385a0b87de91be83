import RuleTypes.Proofs.Generation.Declared

/-!
# Where an override acts

A given text may cut a cycle of bare references, and without it the cycle is closed again; either
way only the rules that lead to the rule of given type notice. All other rules are declared as
before, and none gets another place, identifier or mark.

* `Overrides.AgreeExcept`: overrides that differ on one rule at most, and on names of no rule.
* `Overrides.AgreeExcept.agreeFrom`: resolvers with such overrides agree on the chains that do not
  reach the rule.
* `generate_override`: the blocks with such overrides.
-/

namespace RuleTypes

variable {g : Grammar} {o o' : Overrides} {c : Config} {rule name : Text}

/-- Whether two overrides give the same texts to all rules of a grammar, one rule apart. -/
def Overrides.AgreeExcept (o o' : Overrides) (g : Grammar) (rule : Text) : Prop :=
  ∀ name ∈ g.names, name ≠ rule → o.get? name = o'.get? name

namespace Overrides.AgreeExcept

theorem symm (h : o.AgreeExcept o' g rule) : o'.AgreeExcept o g rule :=
  fun name hname hne => (h name hname hne).symm

theorem explicit?_eq (h : o.AgreeExcept o' g rule) (hne : name ≠ rule) :
    o.explicit? g name = o'.explicit? g name := by
  by_cases hname : name ∈ g.names
  · rw [Overrides.explicit?_eq hname, Overrides.explicit?_eq hname, h name hname hne]
  · have hcontains : ¬ g.contains name = true := fun hc => hname (Grammar.contains_iff.mp hc)
    rw [explicit?, if_neg hcontains, explicit?, if_neg hcontains]

/-- A chain that does not reach the rule sees nothing of what is given for it. -/
theorem agreeFrom (h : o.AgreeExcept o' g rule) (hn : ¬ (g.resolver o c).Leads name rule) :
    (g.resolver o c).AgreeFrom (g.resolver o' c) name := by
  intro later hl
  have hne : later ≠ rule := by
    rintro rfl
    exact hn hl
  exact ⟨h.explicit?_eq hne, rfl, rfl⟩

/-- The chains that reach the rule are the same whatever is given for it. -/
theorem leads_iff (h : o.AgreeExcept o' g rule) (c : Config) (name : Text) :
    (g.resolver o c).Leads name rule ↔ (g.resolver o' c).Leads name rule := by
  constructor
  · intro hl
    by_contra hn
    exact hn ((h.symm.agreeFrom hn).leads_iff.mpr hl)
  · intro hl
    by_contra hn
    exact hn ((h.agreeFrom hn).leads_iff.mpr hl)

end Overrides.AgreeExcept

/-- **An override acts only where it is referred to.** Where two overrides agree on all rules of a
closed grammar but one, the same rules have chains that reach this one, and the two blocks have the
same header, and the same identifiers and marks in the same order. Every rule whose chain does not
reach it has the same declaration in both, with the same text. -/
theorem generate_override (hclosed : g.Closed) (h : o.AgreeExcept o' g rule) (c : Config) :
    (∀ name, (g.resolver o c).Leads name rule ↔ (g.resolver o' c).Leads name rule) ∧
    ∃ declarations pieces declarations' pieces',
      g.Declares o c declarations pieces ∧ g.Declares o' c declarations' pieces' ∧
      ∀ (k : Nat) (name : Text), g.names[k]? = some name →
        ¬ (g.resolver o c).Leads name rule →
          declarations[k]? = declarations'[k]? ∧ pieces[k]? = pieces'[k]? := by
  obtain ⟨types, htypes, hnames, hcorrect⟩ := resolveTypes_of_closed hclosed o c
  obtain ⟨types', htypes', hnames', hcorrect'⟩ := resolveTypes_of_closed hclosed o' c
  obtain ⟨pieces, hpieces⟩ := Grammar.exists_declares hclosed htypes hnames hcorrect
  obtain ⟨pieces', hpieces'⟩ := Grammar.exists_declares hclosed htypes' hnames' hcorrect'
  refine ⟨h.leads_iff c, _, pieces, _, pieces', hpieces, hpieces', fun k name hk hn => ?_⟩
  have hdeclared := getElem?_declarations_eq hnames hcorrect hnames' hcorrect' rfl rfl hk
    (h.agreeFrom hn) (g.namer c).nameOf
  refine ⟨hdeclared, ?_⟩
  rw [hpieces.getElem?_pieces, hpieces'.getElem?_pieces, hdeclared]

/-- A text given for a rule on a cycle cuts the cycle; the first rule leads to it, the third does
not. -/
theorem generate_override_cycle :
    let g : Grammar :=
      ⟨[⟨"a", .reference "b", true, none⟩, ⟨"b", .reference "c", false, none⟩,
        ⟨"d", .choice [.reference "b", .repetition (.reference "a") true], false, none⟩,
        ⟨"c", .reference "b", true, none⟩], by decide⟩
    let o : Overrides := .ofList [("b", "Date"), ("z", "A")]
    let o' : Overrides := .ofList [("z", "B[]")]
    let c : Config := { keepNames := true }
    g.Closed ∧ o.AgreeExcept o' g "b" ∧ ¬ (g.resolver o c).Leads "d" "b" ∧
      (∀ name, (g.resolver o c).Leads name "b" ↔ (g.resolver o' c).Leads name "b") ∧
      ∃ declarations pieces declarations' pieces',
        g.Declares o c declarations pieces ∧ g.Declares o' c declarations' pieces' ∧
        ∀ (k : Nat) (name : Text), g.names[k]? = some name →
          ¬ (g.resolver o c).Leads name "b" →
            declarations[k]? = declarations'[k]? ∧ pieces[k]? = pieces'[k]? := by
  intro g o o' c
  have hclosed : g.Closed := by
    simp [g, Grammar.Closed, Grammar.Binds, Grammar.names, Expr.preorder, Expr.preorders]
  have hagree : o.AgreeExcept o' g "b" := by
    unfold Overrides.AgreeExcept
    decide
  have hshaped : (g.resolver o c).Settled "d" (.ok _) := .shaped (by decide) rfl rfl
  have hleads : ¬ (g.resolver o c).Leads "d" "b" := fun hl => by
    have heq := hl.eq_of_settled hshaped
    revert heq
    decide
  exact ⟨hclosed, hagree, hleads, generate_override hclosed hagree c⟩

end RuleTypes
