import Mathlib.Data.List.Chain
import Mathlib.Logic.Relation
import RuleTypes.Resolver

/-!
# Chains of bare references

What the type of a rule is, said without a memo and without an order of calls. A rule that is not
explicit and whose body is a bare reference follows its target; following from rule to rule gives
the chain of a rule, and there is only one.

* `Follows`, `Leads`, `OnCycle`, `Enters`: one step of a chain, any number of steps, a step or more
  back to the start, and the way to the first rule on a cycle.
* `Settled`: what a rule that follows none is resolved to. `Answer`: what any rule is resolved to.
* `Answer.unique`: a rule has at most one answer.
* `Answer.of_leads`: outside the cycles, a rule has the answer of every rule of its chain.
-/

namespace RuleTypes

namespace Resolver

open Relation

variable (r : Resolver)

/-- The text that the caller gave for the type of a rule. -/
def given? (rule : Text) : Option Text := r.overrides.explicit? r.grammar rule

/-- `rule` is not explicit and its body is a bare reference to `target`. -/
def Follows (rule target : Text) : Prop := r.given? rule = none ∧ r.target? rule = some target

/-- The chain of `rule` passes through `later`, or `later` is `rule` itself. -/
def Leads (rule later : Text) : Prop := ReflTransGen r.Follows rule later

/-- The chain of `rule` comes back to it. -/
def OnCycle (rule : Text) : Prop := TransGen r.Follows rule rule

/-- The chain of `rule` passes through rules on no cycle until it reaches `entry`, which is on
one. -/
def Enters (rule entry : Text) : Prop :=
  ReflTransGen (fun a b => r.Follows a b ∧ ¬ r.OnCycle a) rule entry ∧ r.OnCycle entry

/-- What a rule is resolved to at which a chain ends. -/
inductive Settled : Text → Except Failure TsType → Prop where
  | explicit {rule text : Text} (h : r.given? rule = some text) : Settled rule (.ok (.raw text))
  | shaped {name : Text} {rule : Rule} (hg : r.given? name = none)
      (hr : r.grammar.rule? name = some rule) (hp : rule.body.pureReference? = none) :
      Settled name (.ok (rule.body.valueType r.fallback))
  | missing {name : Text} (h : r.grammar.rule? name = none) :
      Settled name (.error (.unknownRule name))

/-- What a rule is resolved to. -/
inductive Answer : Text → Except Failure TsType → Prop where
  /-- Its chain ends: the answer is that of the end. -/
  | settled {rule last : Text} {a : Except Failure TsType} (h : r.Leads rule last)
      (hs : r.Settled last a) : Answer rule a
  /-- It lies on a cycle: the answer is a reference to its direct target. -/
  | onCycle {rule target : Text} (h : r.OnCycle rule) (ht : r.target? rule = some target) :
      Answer rule (.ok (.ref target))
  /-- Its chain runs into a cycle: the answer is a reference to the rule where it enters. -/
  | entering {rule entry : Text} (h : ¬ r.OnCycle rule) (he : r.Enters rule entry) :
      Answer rule (.ok (.ref entry))

variable {r}

/-! ## Steps -/

theorem Follows.unique {a b c : Text} (h : r.Follows a b) (h' : r.Follows a c) : b = c :=
  Option.some.inj (h.2.symm.trans h'.2)

theorem Follows.leads {a b : Text} (h : r.Follows a b) : r.Leads a b := .single h

/-- A rule that follows another is no end of a chain. -/
theorem Settled.not_follows {a b : Text} {t : Except Failure TsType} (h : r.Settled a t) :
    ¬ r.Follows a b := by
  rintro ⟨hg, ht⟩
  cases h with
  | explicit h => rw [h] at hg; cases hg
  | shaped _ hr hp => simp [target?, hr, hp] at ht
  | missing h => simp [target?, h] at ht

/-- A name that no rule bears has no given text. -/
theorem given?_eq_none_of_missing {name : Text} (h : r.grammar.rule? name = none) :
    r.given? name = none := by
  have hn : name ∉ r.grammar.names := fun hm => by
    have := Grammar.mem_names_iff.mp hm
    rw [h] at this
    cases this
  simp [given?, Overrides.explicit?, Grammar.contains, hn]

theorem Settled.unique {a : Text} {t u : Except Failure TsType} (h : r.Settled a t)
    (h' : r.Settled a u) : t = u := by
  cases h with
  | explicit h =>
    cases h' with
    | explicit h' => rw [Option.some.inj (h.symm.trans h')]
    | shaped hg => rw [h] at hg; cases hg
    | missing hm => rw [given?_eq_none_of_missing hm] at h; cases h
  | shaped hg hr _ =>
    cases h' with
    | explicit h' => rw [h'] at hg; cases hg
    | shaped _ hr' _ => rw [Option.some.inj (hr.symm.trans hr')]
    | missing hm => rw [hr] at hm; cases hm
  | missing hm =>
    cases h' with
    | explicit h' => rw [given?_eq_none_of_missing hm] at h'; cases h'
    | shaped _ hr _ => rw [hr] at hm; cases hm
    | missing _ => rfl

/-! ## Chains -/

/-- Two rules of one chain come one after the other. -/
theorem Leads.total {a b c : Text} (h : r.Leads a b) (h' : r.Leads a c) :
    r.Leads b c ∨ r.Leads c b :=
  ReflTransGen.total_of_right_unique (fun _ _ _ => Follows.unique) h h'

/-- What is closed under following holds everything that is led to. -/
theorem Leads.closed {P : Text → Prop} (hP : ∀ {a b}, P a → r.Follows a b → P b) {a b : Text}
    (h : r.Leads a b) (ha : P a) : P b := by
  induction h with
  | refl => exact ha
  | tail _ hf ih => exact hP ih hf

/-- From an end a chain leads nowhere else. -/
theorem Leads.eq_of_settled {a b : Text} {t : Except Failure TsType} (h : r.Leads a b)
    (hs : r.Settled a t) : b = a := by
  rcases ReflTransGen.cases_head h with rfl | ⟨c, hc, -⟩
  · rfl
  · exact absurd hc hs.not_follows

/-- Every rule of the chain of a rule on a cycle leads back to that rule. -/
theorem OnCycle.leads_back {a b : Text} (h : r.OnCycle a) (hl : r.Leads a b) : r.Leads b a := by
  induction hl with
  | refl => exact .refl
  | @tail b c _ hbc ih =>
    rcases ReflTransGen.cases_head ih with rfl | ⟨d, hbd, hda⟩
    · obtain ⟨d, had, hda⟩ := TransGen.head'_iff.mp h
      rwa [hbc.unique had]
    · rwa [hbc.unique hbd]

/-- The chain of a rule on a cycle stays on cycles. -/
theorem OnCycle.of_leads {a b : Text} (h : r.OnCycle a) (hl : r.Leads a b) : r.OnCycle b := by
  have hba := h.leads_back hl
  exact (TransGen.trans_right hba h).trans_left hl

theorem OnCycle.not_settled {a : Text} {t : Except Failure TsType} (h : r.OnCycle a) :
    ¬ r.Settled a t := by
  intro hs
  obtain ⟨b, hab, -⟩ := TransGen.head'_iff.mp h
  exact hs.not_follows hab

/-- A chain that ends passes through no cycle. -/
theorem Leads.not_onCycle_of_settled {a b last : Text} {t : Except Failure TsType}
    (h : r.Leads a last) (hs : r.Settled last t) (hb : r.Leads a b) : ¬ r.OnCycle b := by
  intro hc
  rcases h.total hb with hl | hl
  · exact hc.not_settled (hl.eq_of_settled hs ▸ hs)
  · exact (hc.of_leads hl).not_settled hs

/-- A chain that leads to a rule on no cycle passes through no cycle on the way. -/
theorem Leads.outside {a b : Text} (h : r.Leads a b) (hb : ¬ r.OnCycle b) :
    ReflTransGen (fun a b => r.Follows a b ∧ ¬ r.OnCycle a) a b := by
  induction h using ReflTransGen.head_induction_on with
  | refl => exact .refl
  | head hab hl ih =>
    exact .head ⟨hab, fun ha => hb (ha.of_leads (.head hab hl))⟩ ih

theorem Enters.leads {a c : Text} (h : r.Enters a c) : r.Leads a c :=
  ReflTransGen.mono (fun _ _ hab => hab.1) _ _ h.1

/-- A chain enters the cycles at one rule only. -/
theorem Enters.unique {a b c : Text} (h : r.Enters a b) (h' : r.Enters a c) : b = c := by
  obtain ⟨hp, hb⟩ := h
  induction hp using ReflTransGen.head_induction_on with
  | refl =>
    rcases ReflTransGen.cases_head h'.1 with he | ⟨d, hd, -⟩
    · exact he
    · exact absurd hb hd.2
  | head hab _ ih =>
    obtain ⟨hq, hc⟩ := h'
    rcases ReflTransGen.cases_head hq with rfl | ⟨d, had, hdc⟩
    · exact absurd hc hab.2
    · exact ih ⟨hab.1.unique had.1 ▸ hdc, hc⟩

/-! ## Paths

A path is a list of rules each of which follows the next. -/

/-- The first rule of a path leads to every rule of it. -/
theorem leads_of_head {a : Text} {rest : List Text} (h : (a :: rest).IsChain r.Follows) :
    ∀ x ∈ a :: rest, r.Leads a x := by
  induction rest generalizing a with
  | nil => intro x hx; rw [List.mem_singleton.mp hx]; exact .refl
  | cons b rest ih =>
    obtain ⟨hab, hb⟩ := List.isChain_cons_cons.mp h
    intro x hx
    rcases List.mem_cons.mp hx with rfl | hx
    · exact .refl
    · exact .head hab (ih hb x hx)

/-- Every rule of a path leads to its last. -/
theorem leads_of_mem {path : List Text} {last : Text} (h : (path ++ [last]).IsChain r.Follows) :
    ∀ x ∈ path ++ [last], r.Leads x last := by
  induction path with
  | nil => intro x hx; rw [List.mem_singleton.mp hx]; exact .refl
  | cons a path ih =>
    intro x hx
    rcases List.mem_cons.mp hx with rfl | hx
    · exact leads_of_head h last (by simp)
    · exact ih h.tail x hx

/-- Every rule of a path before its last follows another one of it. -/
theorem exists_follows_of_mem {path : List Text} {last : Text}
    (h : (path ++ [last]).IsChain r.Follows) :
    ∀ x ∈ path, ∃ y ∈ path ++ [last], r.Follows x y := by
  induction path with
  | nil => nofun
  | cons a path ih =>
    obtain ⟨hh, ht⟩ := List.isChain_cons.mp h
    intro x hx
    rcases List.mem_cons.mp hx with rfl | hx
    · cases path with
      | nil => exact ⟨last, by simp, hh last rfl⟩
      | cons b path => exact ⟨b, by simp, hh b rfl⟩
    · obtain ⟨y, hy, hxy⟩ := ih ht x hx
      exact ⟨y, List.mem_cons_of_mem _ hy, hxy⟩

/-- Rules each of which follows one of them are closed under following. -/
theorem mem_of_follows {rules : List Text} (h : ∀ x ∈ rules, ∃ y ∈ rules, r.Follows x y)
    {a b : Text} (ha : a ∈ rules) (hab : r.Follows a b) : b ∈ rules := by
  obtain ⟨c, hc, hac⟩ := h a ha
  exact hab.unique hac ▸ hc

/-- A path through rules on no cycle that ends on one enters it there. -/
theorem enters_of_mem {path : List Text} {last : Text} (h : (path ++ [last]).IsChain r.Follows)
    (hc : r.OnCycle last) (hn : ∀ x ∈ path, ¬ r.OnCycle x) : ∀ x ∈ path, r.Enters x last := by
  induction path with
  | nil => nofun
  | cons a path ih =>
    obtain ⟨hh, ht⟩ := List.isChain_cons.mp h
    obtain ⟨ha, hn'⟩ := List.forall_mem_cons.mp hn
    intro x hx
    rcases List.mem_cons.mp hx with rfl | hx
    · cases path with
      | nil => exact ⟨.single ⟨hh last rfl, ha⟩, hc⟩
      | cons b path => exact ⟨.head ⟨hh b rfl, ha⟩ (ih ht hn' b (by simp)).1, hc⟩
    · exact ih ht hn' x hx

/-! ## Answers -/

namespace Answer

/-- A rule has at most one answer. -/
theorem unique {a : Text} {t u : Except Failure TsType} (h : r.Answer a t) (h' : r.Answer a u) :
    t = u := by
  cases h with
  | settled h hs =>
    cases h' with
    | settled h' hs' =>
      rcases h.total h' with hl | hl
      · exact hs.unique (hl.eq_of_settled hs ▸ hs')
      · exact (hl.eq_of_settled hs' ▸ hs).unique hs'
    | onCycle hc _ => exact absurd hc (h.not_onCycle_of_settled hs .refl)
    | entering _ he => exact absurd he.2 (h.not_onCycle_of_settled hs he.leads)
  | onCycle hc ht =>
    cases h' with
    | settled h' hs' => exact absurd hc (h'.not_onCycle_of_settled hs' .refl)
    | onCycle _ ht' => rw [Option.some.inj (ht.symm.trans ht')]
    | entering hn _ => exact absurd hc hn
  | entering hn he =>
    cases h' with
    | settled h' hs' => exact absurd he.2 (h'.not_onCycle_of_settled hs' he.leads)
    | onCycle hc _ => exact absurd hc hn
    | entering _ he' => rw [he.unique he']

/-- Outside the cycles, a rule has the answer of every rule of its chain. -/
theorem of_leads {a b : Text} {t : Except Failure TsType} (hl : r.Leads a b)
    (hb : ¬ r.OnCycle b) (h : r.Answer b t) : r.Answer a t := by
  have ha : ¬ r.OnCycle a := fun hc => hb (hc.of_leads hl)
  cases h with
  | settled h hs => exact .settled (hl.trans h) hs
  | onCycle hc _ => exact absurd hc hb
  | entering _ he => exact .entering ha ⟨(hl.outside hb).trans he.1, he.2⟩

end Answer

end Resolver

end RuleTypes
