import RuleTypes.Proofs.Resolver.Chain

/-!
# The memo of a resolver

A resolver answers from what it remembers, yet its answers do not depend on what it was asked
before: every answer is the one of `Resolver.Answer`, which knows no memo.

* `Resolver.walk_spec`: what a walk along a chain can end in.
* `Memo.Sound`: the invariant. What is remembered is an answer, and whoever meets a rule on a cycle
  of which anything is remembered finds it marked as such, with its whole cycle.
* `Resolver.resolve_spec`: one call keeps the invariant and gives the answer.
* `resolve_eq_iff_answer`: so does any call after any calls, those that failed included.
-/

namespace RuleTypes

/-! ## Looking up what was recorded -/

theorem lookup_map_pair {α : Type} (f : Text → α) (rules : List Text) (rule : Text) :
    (rules.map fun x => (x, f x)).lookup rule = if rule ∈ rules then some (f rule) else none := by
  induction rules with
  | nil => rfl
  | cons x rules ih =>
    rw [List.map_cons, List.lookup_cons]
    by_cases h : rule = x
    · subst h; simp
    · rw [show (rule == x) = false by simpa using h, ih]
      simp [h]

theorem lookup_map_pair_append {α : Type} (f : Text → α) (rules : List Text)
    (types : List (Text × α)) (rule : Text) :
    ((rules.map fun x => (x, f x)) ++ types).lookup rule =
      if rule ∈ rules then some (f rule) else types.lookup rule := by
  rw [List.lookup_append, lookup_map_pair]
  split <;> rfl

namespace Memo

theorem get?_record (m : Memo) (rules : List Text) (type : TsType) (rule : Text) :
    (m.record rules type).get? rule = if rule ∈ rules then some type else m.get? rule :=
  lookup_map_pair_append (fun _ => type) rules m.types rule

/-- After recording, a memo knows what was recorded and what it knew before. -/
theorem isSome_get?_record {m : Memo} {rules : List Text} {type : TsType} {rule : Text} :
    ((m.record rules type).get? rule).isSome = true ↔
      rule ∈ rules ∨ (m.get? rule).isSome = true := by
  rw [get?_record]
  by_cases h : rule ∈ rules
  · rw [if_pos h]
    exact iff_of_true rfl (.inl h)
  · rw [if_neg h]
    exact ⟨.inr, fun hk => hk.resolve_left h⟩

/-- The type that a memo holds for a rule, or the failure where it holds none. -/
def found (m : Memo) (name : Text) : Except Failure TsType :=
  match m.get? name with
  | some type => .ok type
  | none => .error (.unknownRule name)

/-- Nothing is known about a rule. -/
def Fresh (m : Memo) (rule : Text) : Prop := rule ∉ m.cyclic ∧ m.get? rule = none

/-- What a memo holds is right, and it says of every rule on a cycle that it is on one. -/
structure Sound (r : Resolver) (m : Memo) : Prop where
  answer : ∀ {rule type}, m.get? rule = some type → r.Answer rule (.ok type)
  onCycle : ∀ {rule}, rule ∈ m.cyclic → r.OnCycle rule
  known : ∀ {rule}, rule ∈ m.cyclic → (m.get? rule).isSome = true
  closed : ∀ {rule target}, rule ∈ m.cyclic → r.Follows rule target → target ∈ m.cyclic
  marked : ∀ {rule type}, m.get? rule = some type → r.OnCycle rule → rule ∈ m.cyclic

namespace Sound

variable {r : Resolver} {m : Memo}

theorem empty : Sound r {} :=
  ⟨nofun, nofun, nofun, nofun, nofun⟩

/-- What a sound memo finds is the answer. -/
theorem found_spec (h : m.Sound r) {name : Text} (hk : (m.get? name).isSome = true) :
    ∃ type, m.found name = .ok type ∧ r.Answer name (.ok type) := by
  obtain ⟨type, hk⟩ := Option.isSome_iff_exists.mp hk
  exact ⟨type, by rw [found, hk], h.answer hk⟩

theorem closed_of_leads (h : m.Sound r) {a b : Text} (ha : a ∈ m.cyclic) (hl : r.Leads a b) :
    b ∈ m.cyclic :=
  Resolver.Leads.closed h.closed hl ha

/-- A rule whose chain meets a marked rule is on no cycle unless it is marked itself. -/
theorem not_onCycle (h : m.Sound r) {a b : Text} (hl : r.Leads a b) (hb : b ∈ m.cyclic)
    (ha : a ∉ m.cyclic) : ¬ r.OnCycle a :=
  fun hc => ha (h.closed_of_leads hb (hc.leads_back hl))

/-- Recording the answer of rules on no cycle keeps a memo sound. -/
theorem record (h : m.Sound r) {rules : List Text} {type : TsType}
    (ha : ∀ x ∈ rules, ¬ r.OnCycle x ∧ r.Answer x (.ok type)) : (m.record rules type).Sound r where
  answer := by
    intro x t hx
    rw [get?_record] at hx
    split at hx
    · rename_i hm; cases hx; exact (ha x hm).2
    · exact h.answer hx
  onCycle := h.onCycle
  known := fun hx => isSome_get?_record.mpr (.inr (h.known hx))
  closed := h.closed
  marked := by
    intro x t hx hc
    rw [get?_record] at hx
    split at hx
    · rename_i hm; exact absurd hc (ha x hm).1
    · exact h.marked hx hc

/-- Marking a cycle and recording the targets of its rules keeps a memo sound. -/
theorem mark (h : m.Sound r) {cycle : List Text} (cycles : List (List Text))
    (hc : ∀ x ∈ cycle, r.OnCycle x) (hf : ∀ x ∈ cycle, ∃ y ∈ cycle, r.Follows x y) :
    Sound r
      { types := (cycle.map fun x => (x, .ref ((r.target? x).getD x))) ++ m.types
        cyclic := cycle ++ m.cyclic
        cycles } := by
  have hget := lookup_map_pair_append (fun x => TsType.ref ((r.target? x).getD x)) cycle m.types
  constructor
  · intro x t hx
    rw [get?, hget] at hx
    split at hx
    · rename_i hm
      obtain ⟨y, -, hy⟩ := hf x hm
      rw [hy.2] at hx
      cases hx
      exact .onCycle (hc x hm) hy.2
    · exact h.answer hx
  · intro x hx
    rcases List.mem_append.mp hx with hx | hx
    · exact hc x hx
    · exact h.onCycle hx
  · intro x hx
    rw [get?, hget]
    split
    · rfl
    · rename_i hm
      exact h.known ((List.mem_append.mp hx).resolve_left hm)
  · intro x y hx hxy
    rcases List.mem_append.mp hx with hx | hx
    · exact List.mem_append_left _ (Resolver.mem_of_follows hf hx hxy)
    · exact List.mem_append_right _ (h.closed hx hxy)
  · intro x t hx hcx
    rw [get?, hget] at hx
    split at hx
    · rename_i hm; exact List.mem_append_left _ hm
    · exact List.mem_append_right _ (h.marked hx hcx)

end Sound

end Memo

namespace Resolver

variable {r : Resolver} {m : Memo}

/-! ## Walks -/

/-- The rules of `chain` follow one another and then `last`, each once, and nothing is known about
them. -/
structure Walked (r : Resolver) (m : Memo) (chain : List Text) (last : Text) : Prop where
  path : (chain ++ [last]).IsChain r.Follows
  fresh : ∀ x ∈ chain, m.Fresh x
  nodup : chain.Nodup

/-- What ends a walk at `last`, behind the rules of `chain`. -/
inductive Stops (r : Resolver) (m : Memo) (chain : List Text) (last : Text) : ChainEnd → Prop where
  | cyclic (h : last ∈ m.cyclic) : Stops r m chain last (.cyclic last)
  | known {type : TsType} (hn : last ∉ m.cyclic) (h : m.get? last = some type) :
      Stops r m chain last (.known type)
  | explicit {text : Text} (hf : m.Fresh last) (h : r.given? last = some text) :
      Stops r m chain last (.explicit last text)
  | loop (hf : m.Fresh last) (h : last ∈ chain) : Stops r m chain last (.loop last)
  | shaped {rule : Rule} (hf : m.Fresh last) (hg : r.given? last = none)
      (hr : r.grammar.rule? last = some rule) (hp : rule.body.pureReference? = none) :
      Stops r m chain last (.shaped last rule.body)
  | missing (hf : m.Fresh last) (h : r.grammar.rule? last = none) :
      Stops r m chain last (.missing last)

/-- A walk goes one rule on. -/
theorem Walked.next {chain : List Text} {current target : Text} (h : r.Walked m chain current)
    (hfresh : m.Fresh current) (hf : r.Follows current target) (hl : current ∉ chain) :
    r.Walked m (chain ++ [current]) target where
  path := by
    rw [List.append_assoc]
    exact List.isChain_append_cons_cons.mpr ⟨h.path, hf, .singleton _⟩
  fresh := by
    intro x hx
    rcases List.mem_append.mp hx with hx | hx
    · exact h.fresh x hx
    · rwa [List.mem_singleton.mp hx]
  nodup := by
    rw [List.nodup_append]
    refine ⟨h.nodup, by simp, ?_⟩
    intro x hx y hy hxy
    rw [List.mem_singleton.mp hy] at hxy
    exact hl (hxy ▸ hx)

/-- A walk goes on from the rules behind it along the chain until something stops it. -/
theorem walk_spec {chain : List Text} {current : Text} (h : r.Walked m chain current) :
    ∃ last, r.Walked m (r.walk m chain current).1 last ∧
      r.Stops m (r.walk m chain current).1 last (r.walk m chain current).2 ∧
      chain ++ [current] <+: (r.walk m chain current).1 ++ [last] := by
  fun_induction r.walk m chain current with
  | case1 chain current hc => exact ⟨current, h, .cyclic hc, List.prefix_rfl⟩
  | case2 chain current hc type hk => exact ⟨current, h, .known hc hk, List.prefix_rfl⟩
  | case3 chain current hc hk text ht => exact ⟨current, h, .explicit ⟨hc, hk⟩ ht, List.prefix_rfl⟩
  | case4 chain current hc hk hg hl => exact ⟨current, h, .loop ⟨hc, hk⟩ hl, List.prefix_rfl⟩
  | case5 chain current hc hk hg hl hr => exact ⟨current, h, .missing ⟨hc, hk⟩ hr, List.prefix_rfl⟩
  | case6 chain current hc hk hg hl rule hr hp =>
    exact ⟨current, h, .shaped ⟨hc, hk⟩ hg hr hp, List.prefix_rfl⟩
  | case7 chain current hc hk hg hl rule hr target hp ih =>
    have hf : r.Follows current target := ⟨hg, by simp [target?, hr, hp]⟩
    obtain ⟨last, hw, hs, hpre⟩ := ih (h.next ⟨hc, hk⟩ hf hl)
    exact ⟨last, hw, hs, (List.prefix_append _ _).trans hpre⟩

/-! ## The ends of a walk -/

/-- A walk that ends where the answer is settled. -/
theorem Walked.settled {chain : List Text} {last x : Text} {type : TsType}
    (h : r.Walked m chain last) (hs : r.Settled last (.ok type)) (hx : x ∈ chain ++ [last]) :
    ¬ r.OnCycle x ∧ r.Answer x (.ok type) := by
  have hl := leads_of_mem h.path x hx
  exact ⟨hl.not_onCycle_of_settled hs .refl, .settled hl hs⟩

/-- A walk that ends at a marked rule. -/
theorem Walked.cyclic (hm : m.Sound r) {chain : List Text} {last x : Text}
    (h : r.Walked m chain last) (hl : last ∈ m.cyclic) (hx : x ∈ chain) :
    ¬ r.OnCycle x ∧ r.Answer x (.ok (.ref last)) := by
  have hn : ∀ x ∈ chain, ¬ r.OnCycle x := fun x hx =>
    hm.not_onCycle (leads_of_mem h.path x (List.mem_append_left _ hx)) hl (h.fresh x hx).1
  exact ⟨hn x hx, .entering (hn x hx) (enters_of_mem h.path (hm.onCycle hl) hn x hx)⟩

/-- A walk that ends at a rule of known type. -/
theorem Walked.known (hm : m.Sound r) {chain : List Text} {last x : Text} {type : TsType}
    (h : r.Walked m chain last) (hn : last ∉ m.cyclic) (hk : m.get? last = some type)
    (hx : x ∈ chain) : ¬ r.OnCycle x ∧ r.Answer x (.ok type) := by
  have hl := leads_of_mem h.path x (List.mem_append_left _ hx)
  have hc : ¬ r.OnCycle last := fun hc => hn (hm.marked hk hc)
  exact ⟨fun hx => hc (hx.of_leads hl), .of_leads hl hc (hm.answer hk)⟩

/-- A walk that comes back to one of its rules: the rules from there on are a cycle, and the ones
before it lead into it. -/
theorem Walked.loop {chain : List Text} {last : Text} (h : r.Walked m chain last)
    (hl : last ∈ chain) :
    (∀ x ∈ chain.dropWhile (· ≠ last), r.OnCycle x) ∧
      (∀ x ∈ chain.dropWhile (· ≠ last), ∃ y ∈ chain.dropWhile (· ≠ last), r.Follows x y) ∧
      ∀ x ∈ chain.takeWhile (· ≠ last), ¬ r.OnCycle x ∧ r.Answer x (.ok (.ref last)) := by
  obtain ⟨lead, rest, rfl, hn⟩ := List.eq_append_cons_of_mem hl
  have hne : ∀ x ∈ lead, decide (x ≠ last) = true := fun x hx =>
    decide_eq_true fun he => hn (he ▸ hx)
  rw [List.dropWhile_append_of_pos hne, List.takeWhile_append_of_pos hne]
  simp only [ne_eq, not_true_eq_false, decide_false, Bool.false_eq_true, not_false_eq_true,
    List.dropWhile_cons_of_neg, List.takeWhile_cons_of_neg, List.append_nil]
  have hpath := h.path
  rw [List.append_assoc, List.cons_append] at hpath
  have hcycle : (last :: rest ++ [last]).IsChain r.Follows := hpath.right_of_append
  have hlead : (lead ++ [last]).IsChain r.Follows := (List.isChain_split.mp hpath).1
  have hback : ∀ x ∈ last :: rest, r.Leads x last := fun x hx =>
    leads_of_mem hcycle x (List.mem_append_left _ hx)
  have hfollow : ∀ x ∈ last :: rest, ∃ y ∈ last :: rest, r.Follows x y := by
    intro x hx
    obtain ⟨y, hy, hxy⟩ := exists_follows_of_mem hcycle x hx
    refine ⟨y, ?_, hxy⟩
    rcases List.mem_append.mp hy with hy | hy
    · exact hy
    · rw [List.mem_singleton.mp hy]; simp
  have hlast : r.OnCycle last := by
    obtain ⟨y, hy, hxy⟩ := hfollow last (by simp)
    exact .head' hxy (hback y hy)
  have hout : ∀ x ∈ lead, ¬ r.OnCycle x := by
    intro x hx hc
    have hl := leads_of_mem hlead x (List.mem_append_left _ hx)
    -- The rules of the cycle are closed under following, so they are all that `last` leads to.
    have hmem : x ∈ last :: rest :=
      (hc.leads_back hl).closed (mem_of_follows hfollow) List.mem_cons_self
    exact (List.nodup_append.mp h.nodup).2.2 x hx x hmem rfl
  refine ⟨fun x hx => ?_, hfollow, fun x hx => ?_⟩
  · exact hlast.of_leads (leads_of_head hcycle x (List.mem_append_left _ hx))
  · exact ⟨hout x hx, .entering (hout x hx) (enters_of_mem hlead hlast hout x hx)⟩

/-! ## One call -/

/-- One call keeps a memo sound and gives the answer of the rule; if it fails, the memo stays as it
is. -/
theorem resolve_spec (h : m.Sound r) (name : Text) :
    (r.resolve m name).2.Sound r ∧ r.Answer name (r.resolve m name).1 ∧
      ∀ e, (r.resolve m name).1 = .error e → (r.resolve m name).2 = m := by
  unfold resolve
  split
  · rename_i type ht
    exact ⟨h, h.answer ht, fun e he => by cases he⟩
  rename_i hnone
  have hstart : r.Walked m [] name :=
    ⟨.singleton _, fun x hx => (List.not_mem_nil hx).elim, List.nodup_nil⟩
  obtain ⟨last, hw, hs, hpre⟩ := walk_spec hstart
  have hname : name ∈ (r.walk m [] name).1 ++ [last] := hpre.subset (by simp)
  generalize r.walk m [] name = walked at hw hs hname
  obtain ⟨chain, stop⟩ := walked
  simp only at hw hs hname ⊢
  -- Wherever the new memo is sound and knows the rule, it holds the rule's answer.
  have done {m' : Memo} (hm' : m'.Sound r) (hk : (m'.get? name).isSome = true) :
      m'.Sound r ∧ r.Answer name (m'.found name) ∧ ∀ e, m'.found name = .error e → m' = m := by
    obtain ⟨type, hfound, ha⟩ := hm'.found_spec hk
    rw [hfound]
    exact ⟨hm', ha, fun e he => by cases he⟩
  cases hs with
  | cyclic hl =>
    refine done (h.record fun x hx => hw.cyclic h hl hx) (Memo.isSome_get?_record.mpr ?_)
    rcases List.mem_append.mp hname with hx | hx
    · exact .inl hx
    · rw [List.mem_singleton.mp hx]
      exact .inr (h.known hl)
  | known hn hk =>
    refine done (h.record fun x hx => hw.known h hn hk hx) (Memo.isSome_get?_record.mpr ?_)
    rcases List.mem_append.mp hname with hx | hx
    · exact .inl hx
    · rw [List.mem_singleton.mp hx]
      exact .inr (Option.isSome_iff_exists.mpr ⟨_, hk⟩)
  | explicit _ hg =>
    exact done (h.record fun x hx => hw.settled (.explicit hg) hx)
      (Memo.isSome_get?_record.mpr (.inl hname))
  | shaped _ hg hr hp =>
    exact done (h.record fun x hx => hw.settled (.shaped hg hr hp) hx)
      (Memo.isSome_get?_record.mpr (.inl hname))
  | missing _ hr =>
    exact ⟨h, .settled (leads_of_mem hw.path name hname) (.missing hr), fun _ _ => rfl⟩
  | loop _ hl =>
    obtain ⟨hc, hf, hlead⟩ := hw.loop hl
    have hmark := h.mark (m.cycles ++ [chain.dropWhile (· ≠ last) ++ [last]]) hc hf
    refine done (hmark.record hlead) (Memo.isSome_get?_record.mpr ?_)
    have hmem : name ∈ chain := by
      rcases List.mem_append.mp hname with hx | hx
      · exact hx
      · rw [List.mem_singleton.mp hx]
        exact hl
    rw [← List.takeWhile_append_dropWhile (p := (· ≠ last)) (l := chain)] at hmem
    rcases List.mem_append.mp hmem with hx | hx
    · exact .inl hx
    · exact .inr (hmark.known (List.mem_append_left _ hx))

/-! ## Calls in any order -/

theorem resolveEach_sound (h : m.Sound r) (names : List Text) :
    (r.resolveEach m names).2.Sound r := by
  induction names generalizing m with
  | nil => exact h
  | cons name names ih =>
    have hs := (resolve_spec h name).1
    unfold resolveEach
    split
    · rename_i hr; rwa [hr] at hs
    · rename_i hr
      rw [hr] at hs
      have := ih hs
      split <;> rename_i hn <;> rwa [hn] at this

/-- What a resolver can be asked: the type of a rule, of an expression's value, or of all rules. -/
inductive Call where
  | resolve (rule : Text)
  | infer (e : Expr)
  | resolveAll

/-- The memo that a call leaves behind, whether it fails or not. -/
def Call.memo (r : Resolver) (m : Memo) : Call → Memo
  | .resolve rule => (r.resolve m rule).2
  | .infer _ => m
  | .resolveAll => (r.resolveAll m).2

/-- The memo of a new resolver after these calls. -/
def memoAfter (r : Resolver) (calls : List Call) : Memo := calls.foldl (Call.memo r) {}

theorem Call.memo_sound (h : m.Sound r) (call : Call) : (call.memo r m).Sound r := by
  cases call with
  | resolve rule => exact (resolve_spec h rule).1
  | infer e => exact h
  | resolveAll => exact resolveEach_sound h _

theorem memoAfter_sound (r : Resolver) (calls : List Call) : (r.memoAfter calls).Sound r := by
  unfold memoAfter
  generalize hm : ({} : Memo) = m
  have h : m.Sound r := hm ▸ .empty
  clear hm
  induction calls generalizing m with
  | nil => exact h
  | cons call calls ih => exact ih _ (call.memo_sound h)

/-- **Answers are independent of the order of calls.** Whatever was called before, and whether it
failed or not, a call gives the one answer of its rule. A call that fails leaves no trace. -/
theorem resolve_eq_iff_answer (r : Resolver) (calls : List Call) (name : Text) :
    (∀ answer, (r.resolve (r.memoAfter calls) name).1 = answer ↔ r.Answer name answer) ∧
      ∀ e, (r.resolve (r.memoAfter calls) name).1 = .error e →
        r.memoAfter (calls ++ [.resolve name]) = r.memoAfter calls := by
  obtain ⟨-, ha, hfail⟩ := resolve_spec (memoAfter_sound r calls) name
  refine ⟨fun answer => ⟨fun h => h ▸ ha, fun h => ha.unique h⟩, fun e he => ?_⟩
  rw [memoAfter, List.foldl_append]
  exact hfail e he

end Resolver

end RuleTypes
