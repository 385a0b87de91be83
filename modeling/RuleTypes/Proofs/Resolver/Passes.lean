import RuleTypes.Proofs.Resolver.Closed

/-!
# How long a resolver walks

A walk is a loop: each pass is at one rule, and either ends the walk or goes on at the rule that is
referred to. A walk leaves the types of the rules that it passes known, and a later one ends at the
first of them that it meets. So every walk ends, and all calls together make at most two passes for
each rule, one that teaches its type and one that ends the walk.

* `Resolver.pass`, `Trail`, `Visits`: one pass of a walk, and the rules that the passes of a walk and
  of a call are at.
* `learned`, `get?_resolve`: the types that a call teaches; it changes nothing else.
* `passes_add_unresolved_le`: the passes of one call, paid for by the rules whose types it teaches.
* `resolve_passes`: how many passes one call makes after any calls, and all of them together.
-/

namespace RuleTypes

/-- What a pass of a walk comes to. -/
inductive Pass where
  /-- The walk ends. -/
  | stop (why : ChainEnd)
  /-- It goes on at the rule that is referred to. -/
  | next (target : Text)

namespace Resolver

variable (r : Resolver) (m : Memo)

/-! ## Passes -/

/-- One pass of a walk, at `current` and behind the rules of `chain`. -/
def pass (chain : List Text) (current : Text) : Pass :=
  if current ∈ m.cyclic then .stop (.cyclic current)
  else
    match m.get? current with
    | some type => .stop (.known type)
    | none =>
      match r.given? current with
      | some text => .stop (.explicit current text)
      | none =>
        if current ∈ chain then .stop (.loop current)
        else
          match r.grammar.rule? current with
          | none => .stop (.missing current)
          | some rule =>
            match rule.body.pureReference? with
            | none => .stop (.shaped current rule.body)
            | some target => .next target

/-- A walk from `current`, behind the rules of `chain`, makes its passes at the rules of `visited`,
one after the other, and ends in `out`: the chain and what ended it. -/
inductive Trail : (chain : List Text) → (current : Text) → (visited : List Text) →
    (out : List Text × ChainEnd) → Prop where
  | stop {chain : List Text} {current : Text} {why : ChainEnd}
      (h : r.pass m chain current = .stop why) : Trail chain current [current] (chain, why)
  | next {chain visited : List Text} {current target : Text} {out : List Text × ChainEnd}
      (h : r.pass m chain current = .next target)
      (hrest : Trail (chain ++ [current]) target visited out) :
      Trail chain current (current :: visited) out

/-- A call makes its passes at the rules of `visited`: at none where the type is known. -/
inductive Visits (name : Text) : (visited : List Text) → Prop where
  | known (h : (m.get? name).isSome = true) : Visits name []
  | walk {visited : List Text} (h : m.get? name = none)
      (ht : r.Trail m [] name visited (r.walk m [] name)) : Visits name visited

/-- The number of passes of a call. -/
def passes (name : Text) : Nat :=
  match m.get? name with
  | some _ => 0
  | none => (r.walk m [] name).1.length + 1

/-- The number of passes for several rules, one after the other with one memo, up to the first that
fails. -/
def passesEach (m : Memo) : List Text → Nat
  | [] => 0
  | name :: names =>
    r.passes m name +
      match r.resolve m name with
      | (.error _, _) => 0
      | (.ok _, m) => passesEach m names

/-- The number of passes that a call makes. -/
def Call.passes : Call → Nat
  | .resolve rule => r.passes m rule
  | .infer _ => 0
  | .resolveAll => r.passesEach m r.grammar.names

/-- The number of passes that calls make, one after the other. -/
def totalPasses (m : Memo) : List Call → Nat
  | [] => 0
  | call :: calls => call.passes r m + totalPasses (call.memo r m) calls

/-- Whether a call asks for the type of a name that no rule bears. -/
def Call.isStray : Call → Bool
  | .resolve name => name ∉ r.grammar.names
  | .infer _ => false
  | .resolveAll => false

/-- The rules whose types are not known. -/
def unresolved : List Text := r.grammar.names.filter fun rule => (m.get? rule).isNone

variable {r m}

/-- A walk ends, and is made pass by pass. -/
theorem exists_trail (m : Memo) (chain : List Text) (current : Text) :
    ∃ visited, r.Trail m chain current visited (r.walk m chain current) := by
  fun_induction r.walk m chain current with
  | case1 chain current hc => exact ⟨_, .stop (by simp [pass, hc])⟩
  | case2 chain current hc type hk => exact ⟨_, .stop (by simp [pass, hc, hk])⟩
  | case3 chain current hc hk text hg => exact ⟨_, .stop (by simp [pass, given?, hc, hk, hg])⟩
  | case4 chain current hc hk hg hl => exact ⟨_, .stop (by simp [pass, given?, hc, hk, hg, hl])⟩
  | case5 chain current hc hk hg hl hr =>
    exact ⟨_, .stop (by simp [pass, given?, hc, hk, hg, hl, hr])⟩
  | case6 chain current hc hk hg hl rule hr hp =>
    exact ⟨_, .stop (by simp [pass, given?, hc, hk, hg, hl, hr, hp])⟩
  | case7 chain current hc hk hg hl rule hr target hp ih =>
    obtain ⟨visited, hv⟩ := ih
    exact ⟨_, .next (by simp [pass, given?, hc, hk, hg, hl, hr, hp]) hv⟩

/-- A pass ends the walk where something stops it, and goes one rule on where nothing does. -/
theorem pass_spec {chain : List Text} {current : Text} (h : r.Walked m chain current) :
    match r.pass m chain current with
    | .stop why => r.Stops m chain current why
    | .next target => r.Walked m (chain ++ [current]) target := by
  unfold pass
  by_cases hc : current ∈ m.cyclic
  · rw [if_pos hc]
    exact .cyclic hc
  rw [if_neg hc]
  cases hk : m.get? current with
  | some type => exact .known hc hk
  | none =>
    cases hg : r.given? current with
    | some text => exact .explicit ⟨hc, hk⟩ hg
    | none =>
      by_cases hl : current ∈ chain
      · rw [if_pos hl]
        exact .loop ⟨hc, hk⟩ hl
      rw [if_neg hl]
      cases hr : r.grammar.rule? current with
      | none => exact .missing ⟨hc, hk⟩ hr
      | some rule =>
        cases hp : rule.body.pureReference? with
        | none => simpa only [hp] using .shaped ⟨hc, hk⟩ hg hr hp
        | some target =>
          simpa only [hp] using h.next ⟨hc, hk⟩ ⟨hg, by simp [target?, hr, hp]⟩ hl

/-- The passes of a walk are at the rules of its chain and at the one that ends it. -/
theorem Trail.spec {chain visited : List Text} {current : Text} {out : List Text × ChainEnd}
    (ht : r.Trail m chain current visited out) (h : r.Walked m chain current) :
    ∃ last, chain ++ visited = out.1 ++ [last] ∧ r.Walked m out.1 last ∧
      r.Stops m out.1 last out.2 := by
  induction ht with
  | stop hpass =>
    have hs := pass_spec h
    rw [hpass] at hs
    exact ⟨_, rfl, h, hs⟩
  | next hpass _ ih =>
    have hnext := pass_spec h
    rw [hpass] at hnext
    obtain ⟨last, hvisited, hw, hs⟩ := ih hnext
    exact ⟨last, by rw [← hvisited, List.append_assoc, List.singleton_append], hw, hs⟩

/-! ## What a call teaches -/

/-- The rules whose types a walk teaches, from its chain and what ended it. -/
def learned : List Text × ChainEnd → List Text
  | (_, .missing _) => []
  | (chain, .explicit rule _) => chain ++ [rule]
  | (chain, .shaped rule _) => chain ++ [rule]
  | (chain, .cyclic _) => chain
  | (chain, .known _) => chain
  | (chain, .loop _) => chain

/-- A call teaches the types that its walk does, and changes no other. -/
theorem get?_resolve {name : Text} (h : m.get? name = none) (rule : Text) :
    (rule ∈ learned (r.walk m [] name) → ((r.resolve m name).2.get? rule).isSome = true) ∧
      (rule ∉ learned (r.walk m [] name) → (r.resolve m name).2.get? rule = m.get? rule) := by
  have recorded (rules : List Text) (type : TsType) :
      (rule ∈ rules → ((m.record rules type).get? rule).isSome = true) ∧
        (rule ∉ rules → (m.record rules type).get? rule = m.get? rule) :=
    ⟨fun hr => Memo.isSome_get?_record.mpr (.inl hr),
      fun hr => (Memo.get?_record ..).trans (if_neg hr)⟩
  unfold resolve
  rw [h]
  generalize r.walk m [] name = out
  obtain ⟨chain, stop⟩ := out
  cases stop with
  | missing _ => exact ⟨nofun, fun _ => rfl⟩
  | cyclic _ => exact recorded _ _
  | known _ => exact recorded _ _
  | explicit _ _ => exact recorded _ _
  | shaped _ _ => exact recorded _ _
  | loop last =>
    -- The chain is the lead and the cycle; the one is recorded behind the other.
    have hsplit : rule ∈ chain ↔
        rule ∈ chain.takeWhile (· ≠ last) ∨ rule ∈ chain.dropWhile (· ≠ last) := by
      rw [← List.mem_append, List.takeWhile_append_dropWhile]
    have hcycle := lookup_map_pair_append (fun x => TsType.ref ((r.target? x).getD x))
      (chain.dropWhile (· ≠ last)) m.types rule
    constructor
    · intro hr
      refine Memo.isSome_get?_record.mpr ((hsplit.mp hr).imp_right fun hr => ?_)
      rw [Memo.get?, hcycle, if_pos hr]
      rfl
    · intro hr
      obtain ⟨hlead, hrest⟩ := not_or.mp (hsplit.not.mp hr)
      rw [Memo.get?_record, if_neg hlead, Memo.get?, hcycle, if_neg hrest]
      rfl

theorem Follows.mem_names_left {a b : Text} (h : r.Follows a b) : a ∈ r.grammar.names := by
  obtain ⟨rule, hrule, -⟩ := Option.bind_eq_some_iff.mp h.2
  exact Grammar.mem_names_iff.mpr (by rw [hrule]; rfl)

theorem mem_names_of_given? {name text : Text} (h : r.given? name = some text) :
    name ∈ r.grammar.names := by
  by_contra hn
  simp [given?, Overrides.explicit?, Grammar.contains, hn] at h

/-- Nothing is known of the rules of a chain. -/
theorem Walked.mem_unresolved {chain : List Text} {last rule : Text} (h : r.Walked m chain last)
    (hrule : rule ∈ chain) : rule ∈ r.unresolved m := by
  obtain ⟨next, -, hnext⟩ := exists_follows_of_mem h.path rule hrule
  exact List.mem_filter.mpr ⟨hnext.mem_names_left, by rw [(h.fresh rule hrule).2]; rfl⟩

/-- What a walk teaches are types of rules that were not known, each once. -/
theorem Walked.learned_spec {chain : List Text} {last : Text} {why : ChainEnd}
    (h : r.Walked m chain last) (hs : r.Stops m chain last why) :
    (learned (chain, why)).Nodup ∧ ∀ x ∈ learned (chain, why), x ∈ r.unresolved m := by
  have hmem : ∀ x ∈ chain, x ∈ r.unresolved m := fun _ => h.mem_unresolved
  -- The rule that ends the walk follows none, and those of the chain do.
  have hend {type : Except Failure TsType} (hsettled : r.Settled last type) (hfresh : m.Fresh last)
      (hlast : last ∈ r.grammar.names) :
      (chain ++ [last]).Nodup ∧ ∀ x ∈ chain ++ [last], x ∈ r.unresolved m := by
    have hn : last ∉ chain := fun hx => by
      obtain ⟨y, -, hxy⟩ := exists_follows_of_mem h.path last hx
      exact hsettled.not_follows hxy
    refine ⟨List.nodup_append.mpr ⟨h.nodup, by simp, ?_⟩, fun x hx => ?_⟩
    · intro x hx y hy hxy
      rw [List.mem_singleton.mp hy] at hxy
      exact hn (hxy ▸ hx)
    · rcases List.mem_append.mp hx with hx | hx
      · exact hmem x hx
      · rw [List.mem_singleton.mp hx]
        exact List.mem_filter.mpr ⟨hlast, by rw [hfresh.2]; rfl⟩
  cases hs with
  | cyclic _ => exact ⟨h.nodup, hmem⟩
  | known _ _ => exact ⟨h.nodup, hmem⟩
  | loop _ _ => exact ⟨h.nodup, hmem⟩
  | missing _ _ => exact ⟨List.nodup_nil, nofun⟩
  | explicit hf hg => exact hend (.explicit hg) hf (mem_names_of_given? hg)
  | shaped hf hg hr hp =>
    exact hend (.shaped hg hr hp) hf (Grammar.mem_names_iff.mpr (by rw [hr]; rfl))

/-- A walk passes the rules of its chain and the one that ends it, the rule it begins with first. -/
theorem exists_walk (m : Memo) (name : Text) :
    ∃ visited last, r.Trail m [] name visited (r.walk m [] name) ∧ visited.head? = some name ∧
      visited = (r.walk m [] name).1 ++ [last] ∧ r.Walked m (r.walk m [] name).1 last ∧
      r.Stops m (r.walk m [] name).1 last (r.walk m [] name).2 := by
  obtain ⟨visited, ht⟩ := exists_trail (r := r) m [] name
  have hstart : r.Walked m [] name := ⟨.singleton _, nofun, List.nodup_nil⟩
  obtain ⟨last, hvisited, hw, hs⟩ := ht.spec hstart
  refine ⟨visited, last, ht, ?_, hvisited, hw, hs⟩
  generalize r.walk m [] name = out at ht
  cases ht <;> rfl

/-- A call forgets nothing and changes nothing that is known. -/
theorem get?_resolve_of_known {rule : Text} {type : TsType} (name : Text)
    (h : m.get? rule = some type) : (r.resolve m name).2.get? rule = some type := by
  cases hname : m.get? name with
  | some _ =>
    rw [resolve, hname]
    exact h
  | none =>
    obtain ⟨visited, last, -, -, -, hw, hs⟩ := exists_walk (r := r) m name
    refine ((get?_resolve hname rule).2 fun hl => ?_).trans h
    have hunresolved := (hw.learned_spec hs).2 rule hl
    rw [unresolved, List.mem_filter, h] at hunresolved
    exact absurd hunresolved.2 Bool.false_ne_true

/-- In a closed grammar a call leaves the types of all rules known that its walk passes. -/
theorem Stops.isSome_get?_resolve (hm : m.Sound r) {chain : List Text} {name last rule : Text}
    {why : ChainEnd} (hname : m.get? name = none) (hwalk : r.walk m [] name = (chain, why))
    (hs : r.Stops m chain last why) (hlast : last ∈ r.grammar.names)
    (hrule : rule ∈ chain ++ [last]) : ((r.resolve m name).2.get? rule).isSome = true := by
  have hlearned (x : Text) := (get?_resolve (r := r) hname x).1
  rw [hwalk] at hlearned
  have hknown (h : (m.get? last).isSome = true) :
      ((r.resolve m name).2.get? last).isSome = true := by
    obtain ⟨type, h⟩ := Option.isSome_iff_exists.mp h
    rw [get?_resolve_of_known name h]
    rfl
  cases hs with
  | explicit _ _ => exact hlearned rule hrule
  | shaped _ _ _ _ => exact hlearned rule hrule
  | missing _ hr =>
    have := Grammar.mem_names_iff.mp hlast
    rw [hr] at this
    cases this
  | cyclic hl =>
    rcases List.mem_append.mp hrule with hx | hx
    · exact hlearned rule hx
    · rw [List.mem_singleton.mp hx]
      exact hknown (hm.known hl)
  | known _ hk =>
    rcases List.mem_append.mp hrule with hx | hx
    · exact hlearned rule hx
    · rw [List.mem_singleton.mp hx]
      exact hknown (by rw [hk]; rfl)
  | loop _ hl =>
    rcases List.mem_append.mp hrule with hx | hx
    · exact hlearned rule hx
    · rw [List.mem_singleton.mp hx]
      exact hlearned last hl

/-! ## What passes cost -/

/-- A call makes at most two passes for each rule whose type it teaches. -/
theorem Walked.length_le (hclosed : r.grammar.Closed) (hm : m.Sound r) {chain : List Text}
    {name last : Text} {why : ChainEnd} (hname : m.get? name = none) (h : r.Walked m chain last)
    (hs : r.Stops m chain last why) (hhead : (chain ++ [last]).head? = some name) :
    chain.length + 1 ≤
      2 * (learned (chain, why)).length + if name ∈ r.grammar.names then 0 else 1 := by
  have hpos (hne : chain ≠ []) : chain.length + 1 ≤ 2 * chain.length := by
    have := List.length_pos_iff.mpr hne
    omega
  have hknown (hl : (m.get? last).isSome = true) : chain ≠ [] := by
    rintro rfl
    rw [Option.some.inj hhead, hname] at hl
    cases hl
  cases hs with
  | cyclic hl => exact Nat.le_add_right_of_le (hpos (hknown (hm.known hl)))
  | known _ hk => exact Nat.le_add_right_of_le (hpos (hknown (by rw [hk]; rfl)))
  | loop _ hl => exact Nat.le_add_right_of_le (hpos (List.ne_nil_of_mem hl))
  | explicit _ _ =>
    simp only [learned, List.length_append, List.length_singleton]
    omega
  | shaped _ _ _ _ =>
    simp only [learned, List.length_append, List.length_singleton]
    omega
  | missing _ hr =>
    have hlast : last ∉ r.grammar.names := fun hmem => by
      have := Grammar.mem_names_iff.mp hmem
      rw [hr] at this
      cases this
    have hmem : name ∈ chain ++ [last] := List.mem_of_head? hhead
    have hnames : name ∉ r.grammar.names := fun hn =>
      hlast ((leads_of_mem h.path name hmem).mem_names hclosed hn)
    have hnil : chain = [] := by
      cases chain with
      | nil => rfl
      | cons x chain =>
        obtain rfl := Option.some.inj hhead
        obtain ⟨y, -, hxy⟩ := exists_follows_of_mem h.path x List.mem_cons_self
        exact absurd hxy.mem_names_left hnames
    rw [hnil, if_neg hnames]
    exact Nat.le_refl 1

/-- What a call teaches is no longer unknown. -/
theorem length_unresolved_resolve {name : Text} (hname : m.get? name = none) :
    (r.unresolved (r.resolve m name).2).length + (learned (r.walk m [] name)).length ≤
      (r.unresolved m).length := by
  obtain ⟨visited, last, -, -, -, hw, hs⟩ := exists_walk (r := r) m name
  obtain ⟨hnodup, hmem⟩ := hw.learned_spec hs
  have hnone (x : Text) (hx : x ∈ r.unresolved (r.resolve m name).2) :
      (r.resolve m name).2.get? x = none :=
    Option.isNone_iff_eq_none.mp (List.mem_filter.mp hx).2
  rw [← List.length_append]
  refine List.Nodup.length_le_of_subset (List.nodup_append.mpr ⟨?_, hnodup, ?_⟩) fun x hx => ?_
  · exact r.grammar.nodup.filter _
  · rintro x hx y hy rfl
    have := (get?_resolve hname x).1 hy
    rw [hnone x hx] at this
    cases this
  · rcases List.mem_append.mp hx with hx | hx
    · refine List.mem_filter.mpr ⟨(List.mem_filter.mp hx).1, ?_⟩
      cases hk : m.get? x with
      | none => rfl
      | some type =>
        have := get?_resolve_of_known (r := r) name hk
        rw [hnone x hx] at this
        cases this
    · exact hmem x hx

/-- The passes of a call are paid for by the rules whose types are no longer unknown, twice each; a
name that no rule bears costs one more. -/
theorem passes_add_unresolved_le (hclosed : r.grammar.Closed) (hm : m.Sound r) (name : Text) :
    r.passes m name + 2 * (r.unresolved (r.resolve m name).2).length ≤
      2 * (r.unresolved m).length + if name ∈ r.grammar.names then 0 else 1 := by
  unfold passes
  cases hname : m.get? name with
  | some type =>
    have hsame : (r.resolve m name).2 = m := by rw [resolve, hname]
    rw [hsame, Nat.zero_add]
    exact Nat.le_add_right _ _
  | none =>
    obtain ⟨visited, last, -, hhead, hvisited, hw, hs⟩ := exists_walk (r := r) m name
    have hlength : (r.walk m [] name).1.length + 1 ≤ 2 * (learned (r.walk m [] name)).length + _ :=
      hw.length_le hclosed hm hname hs (hvisited ▸ hhead)
    have hunresolved := length_unresolved_resolve (r := r) hname
    dsimp only
    omega

theorem passesEach_add_unresolved_le (hclosed : r.grammar.Closed) (hm : m.Sound r)
    {names : List Text} (hnames : ∀ name ∈ names, name ∈ r.grammar.names) :
    r.passesEach m names + 2 * (r.unresolved (r.resolveEach m names).2).length ≤
      2 * (r.unresolved m).length := by
  induction names generalizing m with
  | nil => exact (Nat.zero_add _).le
  | cons name names ih =>
    obtain ⟨hname, hnames⟩ := List.forall_mem_cons.mp hnames
    have hfirst := passes_add_unresolved_le hclosed hm name
    have hothers := ih (resolve_spec hm name).1 hnames
    rw [if_pos hname] at hfirst
    rw [passesEach, resolveEach]
    generalize r.resolve m name = answer at hfirst hothers
    obtain ⟨answer, m'⟩ := answer
    cases answer with
    | error e => exact hfirst
    | ok type =>
      dsimp only at hfirst hothers ⊢
      split <;> rename_i hrest <;> rw [hrest] at hothers <;> dsimp only at hothers ⊢ <;> omega

theorem Call.passes_add_unresolved_le (hclosed : r.grammar.Closed) (hm : m.Sound r) (call : Call) :
    call.passes r m + 2 * (r.unresolved (call.memo r m)).length ≤
      2 * (r.unresolved m).length + if call.isStray r then 1 else 0 := by
  cases call with
  | resolve name =>
    have hle := Resolver.passes_add_unresolved_le hclosed hm name
    simpa [Call.passes, Call.memo, Call.isStray] using hle
  | infer e => exact (Nat.zero_add _).le
  | resolveAll => exact passesEach_add_unresolved_le hclosed hm fun _ => id

theorem totalPasses_le (hclosed : r.grammar.Closed) (hm : m.Sound r) (calls : List Call) :
    r.totalPasses m calls ≤
      2 * (r.unresolved m).length + (calls.filter (Call.isStray r)).length := by
  induction calls generalizing m with
  | nil => exact Nat.zero_le _
  | cons call calls ih =>
    have hfirst := call.passes_add_unresolved_le hclosed hm
    have hothers := ih (call.memo_sound hm)
    rw [totalPasses, List.filter_cons]
    split at hfirst <;> rename_i hstray
    · rw [if_pos hstray, List.length_cons]
      omega
    · rw [if_neg hstray]
      omega

/-! ## Calls in any order -/

/-- **Walks end, and no rule is walked through again and again.** Whatever was called before, a call
makes at most one pass more than there are rules of unknown type; it leaves the type of its rule and
of every rule it passes known, and changes no type that was. Any calls together make at most two
passes for each rule, and one for each call with a name that no rule bears. -/
theorem resolve_passes {r : Resolver} (hclosed : r.grammar.Closed) (calls : List Call) :
    (∀ name,
      let m := r.memoAfter calls
      let m' := (r.resolve m name).2
      ∃ visited, r.Visits m name visited ∧ visited.length = r.passes m name ∧
        visited.length ≤ (r.unresolved m).length + 1 ∧
        (name ∈ r.grammar.names → ∀ rule ∈ name :: visited, (m'.get? rule).isSome = true) ∧
        ∀ rule type, m.get? rule = some type → m'.get? rule = some type) ∧
    r.totalPasses {} calls ≤ 2 * r.grammar.size + (calls.filter (Call.isStray r)).length := by
  refine ⟨fun name => ?_, ?_⟩
  · intro m m'
    have hm : m.Sound r := memoAfter_sound r calls
    have hkept (rule : Text) (type : TsType) (h : m.get? rule = some type) :
        m'.get? rule = some type := get?_resolve_of_known name h
    cases hname : m.get? name with
    | some type =>
      refine ⟨[], .known (by rw [hname]; rfl), ?_, Nat.zero_le _, fun _ rule hrule => ?_, hkept⟩
      · simp only [passes, hname, List.length_nil]
      · rw [List.mem_singleton.mp hrule, hkept name type hname]
        rfl
    | none =>
      obtain ⟨visited, last, ht, hhead, hvisited, hw, hs⟩ := exists_walk (r := r) m name
      refine ⟨visited, .walk hname ht, ?_, ?_, fun hn rule hrule => ?_, hkept⟩
      · simp only [passes, hname, hvisited, List.length_append, List.length_singleton]
      · rw [hvisited, List.length_append, List.length_singleton]
        exact Nat.succ_le_succ (hw.nodup.length_le_of_subset fun _ => hw.mem_unresolved)
      · have hmem : name ∈ visited := List.mem_of_head? hhead
        rw [hvisited] at hmem hrule
        have hlast := (leads_of_mem hw.path name hmem).mem_names hclosed hn
        have hrule : rule ∈ (r.walk m [] name).1 ++ [last] := by
          rcases List.mem_cons.mp hrule with rfl | hrule
          · exact hmem
          · exact hrule
        exact hs.isSome_get?_resolve hm hname rfl hlast hrule
  · have hle := totalPasses_le hclosed .empty calls
    have hall : r.unresolved {} = r.grammar.names := List.filter_eq_self.mpr fun _ _ => rfl
    rwa [hall, Grammar.names, List.length_map] at hle

/-- Behind the cycle of `b` and `c`, which was walked from `c`, the rule `a` is resolved in two
passes; nothing is learned of a name that no rule bears, and `d` is a cycle of its own. -/
theorem resolve_passes_cycles :
    let r : Resolver :=
      { grammar := ⟨[⟨"a", .reference "b", false, none⟩, ⟨"b", .reference "c", false, none⟩,
          ⟨"c", .choice [.reference "b"], true, none⟩, ⟨"d", .reference "d", false, none⟩,
          ⟨"e", .reference "a", false, none⟩], by decide⟩
        overrides := .ofList [("e", "Date")]
        fallback := "string[]" }
    let calls : List Call := [.resolve "c", .resolve "f", .resolve "d"]
    let name : Text := "a"
    let m := r.memoAfter calls
    let m' := (r.resolve m name).2
    r.grammar.Closed ∧ r.passes m name = 2 ∧ r.unresolved m = ["a", "e"] ∧
      (∃ visited, r.Visits m name visited ∧ visited.length = r.passes m name ∧
        visited.length ≤ (r.unresolved m).length + 1 ∧
        (name ∈ r.grammar.names → ∀ rule ∈ name :: visited, (m'.get? rule).isSome = true) ∧
        ∀ rule type, m.get? rule = some type → m'.get? rule = some type) ∧
      r.totalPasses {} calls = 6 ∧
      r.totalPasses {} calls ≤ 2 * r.grammar.size + (calls.filter (Call.isStray r)).length := by
  intro r calls name m m'
  have hclosed : r.grammar.Closed := by
    simp [r, Grammar.Closed, Grammar.Binds, Grammar.names, Expr.preorder, Expr.preorders]
  obtain ⟨hcall, htotal⟩ := resolve_passes hclosed calls
  have hpasses : r.passes m name = 2 := by decide +kernel
  have hunresolved : r.unresolved m = ["a", "e"] := by decide +kernel
  have hcalls : r.totalPasses {} calls = 6 := by decide +kernel
  exact ⟨hclosed, hpasses, hunresolved, hcall name, hcalls, htotal⟩

end Resolver

end RuleTypes
