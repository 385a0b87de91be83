import RuleTypes.Proofs.Resolver.Chain

/-!
# Resolvers that agree along a chain

What a rule is resolved to depends on the rules of its chain and on no others. Of each of them it
depends on three things: its given text, the rule that it is a bare reference to, and the type of
its body.

* `Agree`, `AgreeFrom`: two resolvers have the same to say about one rule, and about every rule of a
  chain.
* `AgreeFrom.leads_iff`: then both have the same chain.
* `Answer.of_agree`: and both resolve its first rule to the same.
-/

namespace RuleTypes.Resolver

open Relation

/-- The type of a rule's body. -/
def bodyType? (r : Resolver) (name : Text) : Option TsType :=
  (r.grammar.rule? name).map (·.body.valueType r.fallback)

/-- Whether two resolvers have the same to say about a rule. -/
structure Agree (r r' : Resolver) (name : Text) : Prop where
  given : r.given? name = r'.given? name
  target : r.target? name = r'.target? name
  bodyType : r.bodyType? name = r'.bodyType? name

/-- Whether two resolvers agree on every rule that `name` leads to in the first of them. -/
def AgreeFrom (r r' : Resolver) (name : Text) : Prop := ∀ later, r.Leads name later → r.Agree r' later

variable {r r' : Resolver} {a b : Text}

/-! ## One rule -/

namespace Agree

theorem symm (h : r.Agree r' a) : r'.Agree r a := ⟨h.given.symm, h.target.symm, h.bodyType.symm⟩

theorem follows (h : r.Agree r' a) (hf : r.Follows a b) : r'.Follows a b :=
  ⟨h.given ▸ hf.1, h.target ▸ hf.2⟩

theorem settled (h : r.Agree r' a) {t : Except Failure TsType} (hs : r.Settled a t) :
    r'.Settled a t := by
  cases hs with
  | explicit hg => exact .explicit (h.given ▸ hg)
  | @shaped rule hg hr hp =>
    have hbody : r'.bodyType? a = some (rule.body.valueType r.fallback) := by
      rw [← h.bodyType, bodyType?, hr, Option.map_some]
    have htarget : r'.target? a = none := by
      rw [← h.target, target?, hr, Option.bind_some, hp]
    obtain ⟨rule', hr', htype⟩ := Option.map_eq_some_iff.mp hbody
    rw [target?, hr', Option.bind_some] at htarget
    exact htype ▸ .shaped (h.given ▸ hg) hr' htarget
  | missing hr =>
    have hbody : r'.bodyType? a = none := by
      rw [← h.bodyType, bodyType?, hr, Option.map_none]
    exact .missing (Option.map_eq_none_iff.mp hbody)

end Agree

/-! ## The rules of a chain -/

namespace AgreeFrom

theorem agree (h : r.AgreeFrom r' a) : r.Agree r' a := h a .refl

theorem of_leads (h : r.AgreeFrom r' a) (hl : r.Leads a b) : r.AgreeFrom r' b :=
  fun later hb => h later (hl.trans hb)

theorem leads (h : r.AgreeFrom r' a) (hl : r.Leads a b) : r'.Leads a b := by
  induction hl with
  | refl => exact .refl
  | @tail b c hl hf ih => exact ih.tail ((h b hl).follows hf)

/-- A chain of the second resolver is one of the first as well: each of its rules is met in the
first before its next rule is. -/
theorem leads_iff (h : r.AgreeFrom r' a) : r.Leads a b ↔ r'.Leads a b := by
  refine ⟨h.leads, fun hl => ?_⟩
  induction hl with
  | refl => exact .refl
  | @tail b c _ hf ih => exact ih.tail ((h b ih).symm.follows hf)

theorem symm (h : r.AgreeFrom r' a) : r'.AgreeFrom r a :=
  fun later hl => (h later (h.leads_iff.mpr hl)).symm

theorem onCycle (h : r.AgreeFrom r' a) (hc : r.OnCycle a) : r'.OnCycle a := by
  obtain ⟨b, hf, hl⟩ := TransGen.head'_iff.mp hc
  exact .head' (h.agree.follows hf) ((h.of_leads hf.leads).leads hl)

theorem not_onCycle (h : r.AgreeFrom r' a) (hc : ¬ r.OnCycle a) : ¬ r'.OnCycle a :=
  fun hc' => hc (h.symm.onCycle hc')

theorem enters (h : r.AgreeFrom r' a) (he : r.Enters a b) : r'.Enters a b := by
  have hl := he.leads
  obtain ⟨hp, hc⟩ := he
  refine ⟨?_, (h.of_leads hl).onCycle hc⟩
  clear hl
  induction hp using ReflTransGen.head_induction_on with
  | refl => exact .refl
  | head hab _ ih =>
    exact .head ⟨h.agree.follows hab.1, h.not_onCycle hab.2⟩ (ih (h.of_leads hab.1.leads))

end AgreeFrom

/-- **A rule is resolved from its chain.** Resolvers that agree on the chain of a rule resolve it to
the same. -/
theorem Answer.of_agree {t : Except Failure TsType} (h : r.AgreeFrom r' a) (ha : r.Answer a t) :
    r'.Answer a t := by
  cases ha with
  | settled hl hs => exact .settled (h.leads hl) ((h _ hl).settled hs)
  | onCycle hc ht => exact .onCycle (h.onCycle hc) (h.agree.target ▸ ht)
  | entering hn he => exact .entering (h.not_onCycle hn) (h.enters he)

end RuleTypes.Resolver
