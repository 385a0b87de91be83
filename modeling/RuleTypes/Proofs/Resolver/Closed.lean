import RuleTypes.Proofs.Expr.Inferred
import RuleTypes.Proofs.Grammar.Closed
import RuleTypes.Proofs.Resolver.Memo

/-!
# Resolving closed grammars

In a closed grammar no chain leaves the rules, so every rule is resolved to a type. The type is a
given text or an inferred one, and it refers to rules of the grammar only.

* `Answer.exists_ok`: in a closed grammar every rule is resolved to a type.
* `Answer.raw_or_inferred`: what these types are.
* `resolveAll_ok`: resolving all rules gives one type for each.
-/

namespace RuleTypes.Resolver

variable {r : Resolver} {m : Memo}

/-! ## Chains of closed grammars -/

/-- In a closed grammar chains stay among the rules. -/
theorem Follows.mem_names (hclosed : r.grammar.Closed) {a b : Text} (h : r.Follows a b) :
    b ∈ r.grammar.names := by
  obtain ⟨-, htarget⟩ := h
  obtain ⟨rule, hrule, hbody⟩ := Option.bind_eq_some_iff.mp htarget
  have hmem := Expr.mem_references_iff.mp (Expr.mem_references_of_pureReference? hbody)
  exact hclosed rule (Grammar.rule_mem hrule) b hmem

theorem Leads.mem_names (hclosed : r.grammar.Closed) {a b : Text} (h : r.Leads a b)
    (ha : a ∈ r.grammar.names) : b ∈ r.grammar.names :=
  h.closed (fun _ hf => hf.mem_names hclosed) ha

/-- In a closed grammar every rule is resolved to a type. -/
theorem Answer.exists_ok (hclosed : r.grammar.Closed) {name : Text} {a : Except Failure TsType}
    (h : r.Answer name a) (hname : name ∈ r.grammar.names) : ∃ type, a = .ok type := by
  cases h with
  | settled hl hs =>
    cases hs with
    | explicit _ => exact ⟨_, rfl⟩
    | shaped _ _ _ => exact ⟨_, rfl⟩
    | missing hm =>
      have hlast := Grammar.mem_names_iff.mp (hl.mem_names hclosed hname)
      rw [hm] at hlast
      cases hlast
  | onCycle _ _ => exact ⟨_, rfl⟩
  | entering _ _ => exact ⟨_, rfl⟩

/-! ## Types of closed grammars -/

/-- A rule of given type is resolved to its text. -/
theorem Answer.of_given {name text : Text} {type : TsType} (h : r.Answer name (.ok type))
    (hg : r.given? name = some text) : type = .raw text :=
  Except.ok.inj (h.unique (.settled .refl (.explicit hg)))

/-- The target of a rule on a cycle is the rule that it follows. -/
theorem OnCycle.follows {name target : Text} (h : r.OnCycle name)
    (ht : r.target? name = some target) : r.Follows name target := by
  obtain ⟨next, hnext, -⟩ := Relation.TransGen.head'_iff.mp h
  obtain rfl := Option.some.inj (hnext.2.symm.trans ht)
  exact hnext

/-- In a closed grammar a rule is resolved to the given text of some rule, or to an inferred type
that refers to rules of the grammar. -/
theorem Answer.raw_or_inferred (hclosed : r.grammar.Closed) {name : Text} {type : TsType}
    (h : r.Answer name (.ok type)) (hname : name ∈ r.grammar.names) :
    (∃ last text, r.given? last = some text ∧ type = .raw text) ∨
      type.Inferred r.fallback (· ∈ r.grammar.names) := by
  cases h with
  | settled hl hs =>
    cases hs with
    | explicit hg => exact .inl ⟨_, _, hg, rfl⟩
    | @shaped rule _ hr _ =>
      refine .inr (Expr.inferred_valueType _ rule.body fun target htarget => ?_)
      exact hclosed rule (Grammar.rule_mem hr) target (Expr.mem_references_iff.mp htarget)
  | onCycle hc ht =>
    exact .inr (TsType.inferred_of_leaf rfl ((hc.follows ht).mem_names hclosed))
  | entering _ he =>
    exact .inr (TsType.inferred_of_leaf rfl (he.leads.mem_names hclosed hname))

/-- What the rules of a closed grammar are resolved to can be written. -/
theorem Answer.render_isSome (hclosed : r.grammar.Closed) {name : Text} {type : TsType}
    (h : r.Answer name (.ok type)) (hname : name ∈ r.grammar.names) (nameOf : Text → Text) :
    (type.render nameOf).isSome = true := by
  rcases h.raw_or_inferred hclosed hname with ⟨_, text, _, rfl⟩ | hinferred
  · rfl
  · exact hinferred.render_isSome nameOf

/-! ## All rules -/

/-- Resolving rules of a closed grammar one after the other gives the answer of each. -/
theorem resolveEach_ok (hclosed : r.grammar.Closed) (hm : m.Sound r) {names : List Text}
    (hnames : ∀ name ∈ names, name ∈ r.grammar.names) :
    ∃ types, (r.resolveEach m names).1 = .ok types ∧
      List.Forall₂ (fun name type => r.Answer name (.ok type)) names types := by
  induction names generalizing m with
  | nil => exact ⟨[], rfl, .nil⟩
  | cons name names ih =>
    obtain ⟨hname, hnames⟩ := List.forall_mem_cons.mp hnames
    obtain ⟨hm', ha, -⟩ := resolve_spec hm name
    obtain ⟨type, htype⟩ := ha.exists_ok hclosed hname
    obtain ⟨types, htypes, hall⟩ := ih hm' hnames
    refine ⟨type :: types, ?_, .cons (htype ▸ ha) hall⟩
    rw [resolveEach]
    generalize r.resolve m name = answer at htype htypes
    obtain ⟨answer, m'⟩ := answer
    obtain rfl : answer = .ok type := htype
    generalize hrest : r.resolveEach m' names = rest at htypes
    obtain ⟨rest, m''⟩ := rest
    obtain rfl : rest = .ok types := htypes
    simp only [hrest]

theorem resolveAll_ok (hclosed : r.grammar.Closed) :
    ∃ types, (r.resolveAll {}).1 = .ok types ∧
      List.Forall₂ (fun name type => r.Answer name (.ok type)) r.grammar.names types :=
  resolveEach_ok hclosed .empty fun _ => id

end RuleTypes.Resolver
