import RuleTypes.Expr.Typing
import RuleTypes.Overrides

/-!
# Resolving rules to types

The type of a rule is its given text, or the type of its body's value. A body that is a bare
reference has the type of the rule it refers to, so a resolver follows such references along a chain
until something stops it. Rules on a cycle of bare references are given a reference to their direct
target, and a rule that leads into a cycle a reference to the member it reaches.

* `Resolver.walk` follows a chain; it visits no rule twice, so it ends.
* `Resolver.resolve` gives the type of a rule and remembers the types of all rules on its chain.
-/

namespace RuleTypes

/-- What types are worked out from. -/
structure Resolver where
  grammar : Grammar
  overrides : Overrides
  /-- The type where the shape of a rule says nothing. -/
  fallback : Text

/-- What a resolver has found out. -/
structure Memo where
  /-- The types found, the latest first. -/
  types : List (Text × TsType) := []
  /-- The rules that lie on cycles. -/
  cyclic : List Text := []
  /-- The cycles in the order in which they were found, each from the member reached first. -/
  cycles : List (List Text) := []

/-- Why a chain ends. -/
inductive ChainEnd where
  /-- At a rule that is known to lie on a cycle. -/
  | cyclic (rule : Text)
  /-- At a rule of known type. -/
  | known (type : TsType)
  /-- At a rule of given type. -/
  | explicit (rule text : Text)
  /-- At a rule of the chain itself. -/
  | loop (rule : Text)
  /-- At a rule with a structure of its own. -/
  | shaped (rule : Text) (body : Expr)
  /-- At a name that no rule bears. -/
  | missing (rule : Text)

namespace Memo

def get? (m : Memo) (rule : Text) : Option TsType := m.types.lookup rule

/-- Remembers one type for several rules. -/
def record (m : Memo) (rules : List Text) (type : TsType) : Memo :=
  { m with types := rules.map (·, type) ++ m.types }

end Memo

namespace Resolver

variable (r : Resolver)

/-- The rule that `rule` is a bare reference to. -/
def target? (rule : Text) : Option Text := (r.grammar.rule? rule).bind (·.body.pureReference?)

private theorem unvisited_lt {chain names : List Text} {current : Text} (h : current ∈ names)
    (hc : current ∉ chain) :
    (names.filter (fun n => n ∉ chain ++ [current])).length <
      (names.filter (fun n => n ∉ chain)).length := by
  induction names with
  | nil => cases h
  | cons n names ih =>
    by_cases hn : n = current
    · subst hn
      have hle : (names.filter (fun m => m ∉ chain ++ [n])).length ≤
          (names.filter (fun m => m ∉ chain)).length := by
        apply List.Sublist.length_le
        rw [show (fun m => decide (m ∉ chain ++ [n])) =
          fun m => decide (m ≠ n) && decide (m ∉ chain) by funext m; simp [not_or, and_comm]]
        rw [← List.filter_filter]
        exact List.filter_sublist
      simp [hc]
      simpa using Nat.lt_succ_of_le hle
    · have h' : current ∈ names := by simpa [Ne.symm hn] using h
      have := ih h'
      by_cases hm : n ∈ chain <;> simp_all

/-- Follows bare references from `current`, behind the rules of `chain`. The result is the chain
and what ended it. -/
def walk (m : Memo) (chain : List Text) (current : Text) : List Text × ChainEnd :=
  if current ∈ m.cyclic then (chain, .cyclic current)
  else
    match m.get? current with
    | some type => (chain, .known type)
    | none =>
      match r.overrides.explicit? r.grammar current with
      | some text => (chain, .explicit current text)
      | none =>
        if _ : current ∈ chain then (chain, .loop current)
        else
          match _ : r.grammar.rule? current with
          | none => (chain, .missing current)
          | some rule =>
            match rule.body.pureReference? with
            | none => (chain, .shaped current rule.body)
            | some target => walk m (chain ++ [current]) target
termination_by (r.grammar.names.filter (· ∉ chain)).length
decreasing_by
  have h : r.grammar.rule? current = some rule := by assumption
  exact unvisited_lt (Grammar.mem_names_iff.mpr (by simp [h])) (by assumption)

/-- The type of a rule, and the memo with the types of the rules on its chain. A chain that runs
into a name no rule bears teaches nothing. -/
def resolve (m : Memo) (name : Text) : Except Failure TsType × Memo :=
  match m.get? name with
  | some type => (.ok type, m)
  | none =>
    let (chain, stop) := r.walk m [] name
    let answer (m : Memo) : Except Failure TsType × Memo :=
      (match m.get? name with
        | some type => .ok type
        | none => .error (.unknownRule name), m)
    match stop with
    | .cyclic rule => answer (m.record chain (.ref rule))
    | .known type => answer (m.record chain type)
    | .explicit rule text => answer (m.record (chain ++ [rule]) (.raw text))
    | .shaped rule body => answer (m.record (chain ++ [rule]) (body.valueType r.fallback))
    | .missing rule => (.error (.unknownRule rule), m)
    | .loop rule =>
      let lead := chain.takeWhile (· ≠ rule)
      let cycle := chain.dropWhile (· ≠ rule)
      let found := cycle.map fun member => (member, .ref ((r.target? member).getD member))
      let m := { m with
        types := found ++ m.types
        cyclic := cycle ++ m.cyclic
        cycles := m.cycles ++ [cycle ++ [rule]] }
      answer (m.record lead (.ref rule))

/-- The types of several rules, one after the other with one memo. -/
def resolveEach (m : Memo) : List Text → Except Failure (List TsType) × Memo
  | [] => (.ok [], m)
  | name :: names =>
    match r.resolve m name with
    | (.error e, m) => (.error e, m)
    | (.ok type, m) =>
      match resolveEach m names with
      | (.error e, m) => (.error e, m)
      | (.ok types, m) => (.ok (type :: types), m)

/-- The types of all rules, in rule order. -/
def resolveAll (m : Memo) : Except Failure (List TsType) × Memo :=
  r.resolveEach m r.grammar.names

end Resolver

end RuleTypes
