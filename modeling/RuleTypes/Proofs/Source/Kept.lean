import RuleTypes.Proofs.Expr.Nodes
import RuleTypes.Proofs.Peg.Leaving
import RuleTypes.Proofs.Source.Lowering
import RuleTypes.Proofs.Source.Parse

/-!
# What a grammar keeps of its source

The names that rules refer to and the code of actions and predicates are taken over from a source
as they stand there. Reading collects them in the order in which they are written, and lowering
neither changes one nor moves one before another. Only the delimiter of a range is dropped, with
what stands in it.

* `Kept.InOrder`: names and code stand in a text, one behind the other. `Kept.Found`: they are read
  there as references and blocks, and a rest is left.
* `Nonterminal.finds_of_leaves`: what every nonterminal reads is found before the rest it leaves.
* `Phrase.retains_lower`: lowering keeps names and code in their order.
* `Grammar.inOrder_of_parse`: the names and the code of a parsed grammar stand in its source in the
  order of its rules and their parts.
-/

namespace RuleTypes

/-- A part of an expression that is taken over from a source as it stands there. -/
inductive Kept where
  /-- The name in a reference. -/
  | reference (rule : Text)
  /-- The code of an action or a predicate. -/
  | code (code : Text)

namespace Kept

def text : Kept → Text
  | .reference rule => rule
  | .code t => t

def reference? : Kept → Option Text
  | .reference rule => some rule
  | .code _ => none

def code? : Kept → Option Text
  | .reference _ => none
  | .code t => some t

/-- Names and code stand in a text, one behind the other. -/
inductive InOrder : List Kept → Text → Prop where
  | nil (t : Text) : InOrder [] t
  | cons (before : Text) (k : Kept) {ks : List Kept} {t : Text} :
    InOrder ks t → InOrder (k :: ks) (before ++ (k.text ++ t))

/-- Whether a reference to this name, or a block of this code, is read at the start of a text. -/
def ReadsAt : Kept → Text → Prop
  | .reference rule, s =>
    ∃ n rest, Source.Nonterminal.ruleRef.scan s = .ok (.reference rule) n rest
  | .code t, s => ∃ n rest, Source.Nonterminal.codeBlock.scan s = .ok t n rest

/-- Names and code are read in a text, one behind the other, and a rest is left behind them. -/
inductive Found : List Kept → Text → Text → Prop where
  | nil {s rest : Text} : rest <:+ s → Found [] s rest
  | cons {k : Kept} {ks : List Kept} {s t rest : Text} :
    k.text ++ t <:+ s → k.text ≠ [] → k.ReadsAt (k.text ++ t) → Found ks t rest →
    Found (k :: ks) s rest

namespace Found

variable {ks ls : List Kept} {s t rest : Text}

theorem single {k : Kept} (hne : k.text ≠ []) (h : k.ReadsAt (k.text ++ s)) :
    Found [k] (k.text ++ s) s :=
  cons (List.suffix_refl _) hne h (nil (List.suffix_refl s))

/-- What is found in the end of a text is found in the text. -/
theorem behind (ht : t <:+ s) (h : Found ks t rest) : Found ks s rest := by
  cases h with
  | nil hrest => exact nil (hrest.trans ht)
  | cons hk hne hreads h => exact cons (hk.trans ht) hne hreads h

theorem append (h : Found ks s t) (h' : Found ls t rest) : Found (ks ++ ls) s rest := by
  induction h with
  | nil ht => exact h'.behind ht
  | cons hk hne hreads _ ih => exact cons hk hne hreads (ih h')

theorem before (hrest : rest <:+ t) (h : Found ks s t) : Found ks s rest := by
  have h' := h.append (nil hrest)
  rwa [List.append_nil] at h'

theorem suffix (h : Found ks s rest) : rest <:+ s := by
  induction h with
  | nil hrest => exact hrest
  | cons hk _ _ _ ih => exact ih.trans ((List.suffix_append _ _).trans hk)

/-- What is found in the members of a row is found in the row. -/
theorem row {α : Type} {Q : α → Text → Text → Prop} {f : α → List Kept} {vs : List α}
    (hQ : ∀ v s t, Q v s t → Found (f v) s t) (h : Peg.Row Q vs s rest) :
    Found (vs.flatMap f) s rest := by
  induction h with
  | nil s => exact nil (List.suffix_refl s)
  | cons hv _ ih => exact (hQ _ _ _ hv).append ih

theorem inOrder (h : Found ks s rest) : InOrder ks s := by
  induction h with
  | nil _ => exact .nil _
  | cons hk _ _ _ ih =>
    obtain ⟨before, rfl⟩ := hk
    exact .cons before _ ih

end Found

end Kept

/-! ## Expressions -/

namespace Expr

/-- What a node itself takes over from a source. -/
def own? : Expr → Option Kept
  | reference rule => some (.reference rule)
  | lookahead _ _ code => code.map .code
  | semantic _ code => code.map .code
  | action _ code => some (.code code)
  | _ => none

mutual

/-- The names and the code in an expression, in the order in which they are written. -/
def kept : Expr → List Kept
  | unknown => []
  | literals _ _ => []
  | charClass _ => []
  | anyChar => []
  | reference rule => [.reference rule]
  | choice es => keptAll es
  | sequence es => keptAll es
  | repetition e _ => kept e
  | optional e => kept e
  | capture e _ _ => kept e
  | text e => kept e
  | lookahead e _ code => kept e ++ (code.map .code).toList
  | semantic _ code => (code.map .code).toList
  | action e code => kept e ++ [.code code]

/-- The names and the code in several expressions, one after the other. -/
def keptAll : List Expr → List Kept
  | [] => []
  | e :: es => kept e ++ keptAll es

end

theorem keptAll_eq (es : List Expr) : keptAll es = es.flatMap kept := by
  induction es with
  | nil => rfl
  | cons e es ih => rw [keptAll, ih, List.flatMap_cons]

/-- The parts of a node are written before its own code. -/
theorem kept_eq (e : Expr) : e.kept = e.children.flatMap kept ++ e.own?.toList := by
  cases e <;> simp [kept, keptAll_eq, children, own?]

/-- What is kept is what the nodes take over. -/
theorem mem_kept_iff {k : Kept} (e : Expr) :
    k ∈ e.kept ↔ ∃ node ∈ e.preorder, node.own? = some k := by
  induction e using Expr.induction with
  | step e ih =>
    rw [kept_eq, List.mem_append, List.mem_flatMap, Option.mem_toList]
    constructor
    · rintro (⟨c, hc, hk⟩ | hown)
      · obtain ⟨node, hnode, hk⟩ := (ih c hc).mp hk
        exact ⟨node, mem_preorder_of_child hc hnode, hk⟩
      · exact ⟨e, mem_preorder_self e, hown⟩
    · rintro ⟨node, hnode, hk⟩
      rcases mem_preorder_iff.mp hnode with rfl | ⟨c, hc, hnode⟩
      · exact .inr hk
      · exact .inl ⟨c, hc, (ih c hc).mpr ⟨node, hnode, hk⟩⟩

/-- An expression with one part and nothing of its own keeps what that part keeps. -/
theorem kept_of_single {e operand : Expr} (ho : e.own? = none) (hc : e.children = [operand]) :
    e.kept = operand.kept := by
  rw [kept_eq, ho, hc, List.flatMap_singleton]
  exact List.append_nil _

/-- A choice keeps what its alternatives keep, merged or not. -/
theorem kept_ofAlternatives (es : List Expr) : (ofAlternatives es).kept = es.flatMap kept := by
  rcases ofAlternatives_cases es with ⟨e, rfl, h⟩ | ⟨values, rfl, -, h⟩ | ⟨-, -, h⟩
  · rw [h, List.flatMap_singleton]
  · have hnone : (values.map (literals · false)).flatMap kept = [] := by
      rw [List.flatMap_eq_nil_iff]
      intro e he
      obtain ⟨vs, -, rfl⟩ := List.mem_map.mp he
      rfl
    rw [h, hnone]
    rfl
  · rw [h]
    exact keptAll_eq es

theorem kept_ofElements (es : List Expr) : (ofElements es).kept = es.flatMap kept := by
  rcases ofElements_cases es with ⟨e, rfl, h⟩ | ⟨-, h⟩
  · rw [h, List.flatMap_singleton]
  · rw [h]
    exact keptAll_eq es

end Expr

namespace Source

/-! ## Phrases -/

namespace Phrase

/-- The names and the code in a phrase, in the order in which they are written. A suffix keeps
none: the delimiter of a range is dropped. -/
def kept : {k : Kind} → Phrase k → List Kept
  | _, .last a => a.kept
  | _, .or a others => a.kept ++ others.kept
  | _, .alternative elements action => elements.kept ++ (action.map .code).toList
  | _, .one e => e.kept
  | _, .cons e others => e.kept ++ others.kept
  | _, .element _ _ a => a.kept
  | _, .semantic _ code => [.code code]
  | _, .operand _ primary _ => primary.kept
  | _, .literal _ _ => []
  | _, .charClass _ => []
  | _, .anyChar => []
  | _, .reference rule => [.reference rule]
  | _, .group choice => choice.kept
  | _, .bare => []
  | _, .optional => []
  | _, .star => []
  | _, .plus => []
  | _, .range _ => []
  | _, .separated _ _ => []

theorem kept_ofAlternatives (first : Phrase .alternative) (others : List (Phrase .alternative)) :
    (ofAlternatives first others).kept = first.kept ++ others.flatMap kept := by
  induction others generalizing first with
  | nil => exact (List.append_nil _).symm
  | cons second others ih => exact congrArg (first.kept ++ ·) (ih second)

theorem kept_ofElements (first : Phrase .element) (others : List (Phrase .element)) :
    (ofElements first others).kept = first.kept ++ others.flatMap kept := by
  induction others generalizing first with
  | nil => exact (List.append_nil _).symm
  | cons second others ih => exact congrArg (first.kept ++ ·) (ih second)

end Phrase

/-! ## Reading -/

namespace Nonterminal

/-- The names and the code in what a nonterminal reads. -/
def kept : (r : Nonterminal) → r.Value → List Kept
  | .grammar, written => written.flatMap (·.body.kept)
  | .rule, w => w.body.kept
  | .choice, p => p.kept
  | .actionExpr, p => p.kept
  | .action, code => [.code code]
  | .sequence, p => p.kept
  | .labeled, p => p.kept
  | .prefixed, p => p.kept
  | .semanticPredicate, p => p.kept
  | .operatorExpr, p => p.kept
  | .suffixed, p => p.1.kept
  | .primary, p => p.kept
  | .literal, p => p.kept
  | .charClass, p => p.kept
  | .anyChar, p => p.kept
  | .ruleRef, p => p.kept
  | .group, p => p.kept
  | .codeBlock, code => [.code code]
  | _, _ => []

/-- Whether what a nonterminal reads is found before the rest that it leaves. -/
def Finds : (r : Nonterminal) → r.Value → Text → Text → Prop
  -- An identifier may also be a label or the name of a rule, so it is no reference yet.
  | .identifier, name, s, rest => s = name ++ rest ∧ name ≠ []
  | r, v, s, rest => Kept.Found (r.kept v) s rest

open Expression Peg

theorem Finds.suffix {r : Nonterminal} {v : r.Value} {s rest : Text} (h : r.Finds v s rest) :
    rest <:+ s := by
  cases r with
  | identifier =>
    obtain ⟨rfl, -⟩ := h
    exact List.suffix_append v rest
  | _ => exact Kept.Found.suffix h

/-- What a nonterminal takes is not empty where it cannot match nothing. -/
theorem ne_nil_of_matchRule {fuel n : Nat} {r : Nonterminal} {t rest : Text} {v : r.Value}
    (hr : r.isNullable = false) (h : matchRule body fuel r (t ++ rest) = .ok v n rest) :
    t ≠ [] := by
  rintro rfl
  have hpos := matchRule_progresses nullable_body fuel r hr _ _ _ _ h
  have hlength := (matchRule_splits body fuel r).length_eq h
  rw [List.nil_append] at hlength
  omega

/-- What is found in the parts of a nonterminal is found in it. -/
theorem finds_of_leaves (fuel : Nat) (r : Nonterminal) (s : Text) (v : r.Value) (n : Nat)
    (rest : Text) (hm : matchRule body fuel r s = .ok v n rest)
    (h : (body r).Leaves Finds v s rest) : r.Finds v s rest := by
  have passed : ∀ {α : Type} {e : Expression α} {x : α} {s t : Text},
      e.Leaves Finds x s t → t <:+ s := fun h => h.suffix fun _ _ _ _ => Finds.suffix
  cases r with
  | grammar =>
    obtain ⟨t, ⟨_, hbefore⟩, hrules⟩ := leaves_right.mp h
    exact (Kept.Found.row (fun _ _ _ hrule => hrule) hrules).behind (passed hbefore)
  | rule =>
    obtain ⟨⟨name, displayName, p⟩, ⟨t, hname, u, hdisplay, hp⟩, rfl⟩ := h
    obtain ⟨w, hp, _, hend⟩ := leaves_left.mp hp
    have hp : Kept.Found p.kept u w := hp
    exact ((hp.before (passed hend)).behind (passed hdisplay)).behind (passed hname)
  | choice =>
    obtain ⟨⟨first, others⟩, ⟨t, hfirst, hothers⟩, rfl⟩ := h
    have hfirst : Kept.Found first.kept s t := hfirst
    have hfound : Kept.Found (first.kept ++ others.flatMap Phrase.kept) s rest := by
      refine hfirst.append (Kept.Found.row (fun v s t hv => ?_) hothers)
      obtain ⟨u, ⟨_, hslash⟩, hv⟩ := leaves_right.mp hv
      have hv : Kept.Found v.kept u t := hv
      exact hv.behind (passed hslash)
    rwa [← Phrase.kept_ofAlternatives] at hfound
  | actionExpr =>
    obtain ⟨⟨elements, action⟩, ⟨t, helements, haction⟩, rfl⟩ := h
    have helements : Kept.Found elements.kept s t := helements
    rcases leaves_opt.mp haction with ⟨code, hcode, rfl⟩ | ⟨rfl, rfl⟩
    · exact helements.append hcode
    · exact helements.append (.nil (List.suffix_refl t))
  | action =>
    obtain ⟨t, hcode, _, hblank⟩ := leaves_left.mp h
    have hcode : Kept.Found [.code v] s t := hcode
    exact hcode.before (passed hblank)
  | sequence =>
    obtain ⟨⟨first, others⟩, ⟨t, hfirst, hothers⟩, rfl⟩ := h
    have hfirst : Kept.Found first.kept s t := hfirst
    have hfound : Kept.Found (first.kept ++ others.flatMap Phrase.kept) s rest :=
      hfirst.append (Kept.Found.row (fun _ _ _ hv => hv) hothers)
    rwa [← Phrase.kept_ofElements] at hfound
  | labeled =>
    obtain ⟨⟨pluck, label, a⟩, ⟨t, hpluck, u, hlabel, ha⟩, rfl⟩ := h
    have ha : Kept.Found a.kept u rest := ha
    exact (ha.behind (passed hlabel)).behind (passed hpluck)
  | prefixed => exact (leaves_or.mp h).elim id id
  | semanticPredicate =>
    obtain ⟨⟨negated, code⟩, ⟨t, hsign, hcode⟩, rfl⟩ := h
    obtain ⟨u, hcode, _, hblank⟩ := leaves_left.mp hcode
    have hcode : Kept.Found [.code code] t u := hcode
    exact (hcode.before (passed hblank)).behind (passed hsign)
  | operatorExpr =>
    obtain ⟨⟨sign, primary, suffix⟩, ⟨t, hsign, hsuffixed⟩, rfl⟩ := h
    have hprimary : Kept.Found primary.kept t rest := hsuffixed
    exact hprimary.behind (passed hsign)
  | suffixed =>
    obtain ⟨⟨primary, suffix⟩, ⟨t, hprimary, hsuffix⟩, rfl⟩ := h
    have hprimary : Kept.Found primary.kept s t := hprimary
    exact hprimary.before (passed hsuffix)
  | primary =>
    rcases leaves_or.mp h with h | h
    · exact h
    rcases leaves_or.mp h with h | h
    · exact h
    rcases leaves_or.mp h with h | h
    · exact h
    · exact (leaves_or.mp h).elim id id
  | literal =>
    have hs := passed h
    obtain ⟨_, -, rfl⟩ := h
    exact .nil hs
  | charClass =>
    have hs := passed h
    obtain ⟨_, ⟨_, -, rfl⟩, -⟩ := leaves_left.mp h
    exact .nil hs
  | anyChar =>
    have hs := passed h
    obtain ⟨_, -, rfl⟩ := h
    exact .nil hs
  | ruleRef =>
    have hscan := scan_of_matchRule hm
    obtain ⟨name, hname, rfl⟩ := h
    obtain ⟨t, hname, _, hahead⟩ := leaves_left.mp hname
    obtain ⟨u, ⟨rfl, hne⟩, _, hblank⟩ := leaves_left.mp hname
    have hfound : Kept.Found [.reference name] (name ++ u) u := .single hne ⟨n, rest, hscan⟩
    exact (hfound.before (passed hblank)).before (passed hahead)
  | group =>
    obtain ⟨p, hp, rfl⟩ := h
    obtain ⟨t, hp, _, hclose⟩ := leaves_left.mp hp
    obtain ⟨u, ⟨_, hopen⟩, hp⟩ := leaves_right.mp hp
    have hp : Kept.Found p.kept u t := hp
    exact (hp.before (passed hclose)).behind (passed hopen)
  | codeBlock =>
    obtain ⟨rfl, -⟩ := h
    exact .single (k := .code v) (ne_nil_of_matchRule rfl hm) ⟨n, rest, scan_of_matchRule hm⟩
  | identifier =>
    obtain ⟨rfl, -⟩ := h
    exact ⟨rfl, ne_nil_of_matchRule rfl hm⟩
  | _ => exact .nil (passed h)

end Nonterminal

/-- The names and the code of the rules of a source are found in it. -/
theorem found_of_readRules {s : Text} {written : List Rule} (h : readRules s = .ok written) :
    Kept.Found (written.flatMap (·.body.kept)) s [] := by
  obtain ⟨n, hn⟩ := Outcome.result?_eq_some.mp (readRules_eq_ok_iff.mp h)
  exact Peg.run_leaves (Peg.matchRule_splits body _)
    (Peg.matchRule_leaves Nonterminal.finds_of_leaves _) _ _ _ _ _ hn

/-! ## Lowering -/

/-- Whether these are the names and the code of what a phrase lowers to. A suffix adds none to those
of its operand. -/
def Retains : {k : Kind} → Lowered k → List Kept → Prop
  | .choice, es, ks => es.flatMap Expr.kept = ks
  | .alternative, e, ks => e.kept = ks
  | .sequence, es, ks => es.flatMap Expr.kept = ks
  | .element, e, ks => e.kept = ks
  | .operand, e, ks => e.kept = ks
  | .primary, e, ks => e.kept = ks
  | .suffix, f, _ => ∀ e : Expr, (f e).kept = e.kept

theorem Sign.kept_apply (sign : Option Sign) (e : Expr) : (Sign.apply sign e).kept = e.kept := by
  cases sign with
  | none => rfl
  | some sign => cases sign <;> exact Expr.kept_of_single rfl rfl

/-- Lowering keeps names and code in their order. -/
theorem Phrase.retains_lower {k : Kind} (p : Phrase k) :
    ∀ v, p.lower = .ok v → Retains v p.kept := by
  induction p with
  | last a ih =>
    intro es h
    obtain ⟨e, he, rfl⟩ := lower_last.mp h
    exact (List.flatMap_singleton ..).trans (ih e he)
  | or a others iha iho =>
    intro es h
    obtain ⟨e, es', he, hes, rfl⟩ := lower_or.mp h
    exact congr (congrArg _ (iha e he)) (iho es' hes)
  | alternative s action ih =>
    intro e h
    obtain ⟨es, hs, rfl⟩ := lower_alternative.mp h
    have hk := (Expr.kept_ofElements es).trans (ih es hs)
    cases action with
    | none => exact hk.trans (List.append_nil _).symm
    | some code => exact congrArg (· ++ [Kept.code code]) hk
  | one a ih =>
    intro es h
    obtain ⟨e, he, rfl⟩ := lower_one.mp h
    exact (List.flatMap_singleton ..).trans (ih e he)
  | cons a others iha iho =>
    intro es h
    obtain ⟨e, es', he, hes, rfl⟩ := lower_cons.mp h
    exact congr (congrArg _ (iha e he)) (iho es' hes)
  | element pluck label a ih =>
    intro e h
    obtain ⟨e', he, rfl⟩ := lower_element.mp h
    split
    · exact (Expr.kept_of_single rfl rfl).trans (ih e' he)
    · exact ih e' he
  | semantic negated code =>
    intro e h
    obtain rfl := lower_semantic.mp h
    rfl
  | operand sign primary suffix ihp ihs =>
    intro e h
    obtain ⟨e', wrap, hp, hs, rfl⟩ := lower_operand.mp h
    exact (Sign.kept_apply sign _).trans ((ihs wrap hs e').trans (ihp e' hp))
  | literal body ignoreCase =>
    intro e h
    obtain ⟨v, -, rfl⟩ := lower_literal.mp h
    rfl
  | charClass pattern =>
    intro e h
    obtain rfl := lower_charClass.mp h
    rfl
  | anyChar =>
    intro e h
    obtain rfl := lower_anyChar.mp h
    rfl
  | reference rule =>
    intro e h
    obtain rfl := lower_reference.mp h
    rfl
  | group choice ih =>
    intro e h
    obtain ⟨es, hes, rfl⟩ := lower_group.mp h
    exact (Expr.kept_ofAlternatives es).trans (ih es hes)
  | bare =>
    intro f h e
    obtain rfl := lower_bare.mp h
    rfl
  | optional =>
    intro f h e
    obtain rfl := lower_optional.mp h
    exact Expr.kept_of_single rfl rfl
  | star =>
    intro f h e
    obtain rfl := lower_star.mp h
    exact Expr.kept_of_single rfl rfl
  | plus =>
    intro f h e
    obtain rfl := lower_plus.mp h
    exact Expr.kept_of_single rfl rfl
  | range bounds =>
    intro f h e
    obtain ⟨guaranteed, -, rfl⟩ := lower_range.mp h
    exact Expr.kept_of_single rfl rfl
  | separated bounds delimiter ih =>
    intro f h e
    obtain ⟨guaranteed, es, -, -, rfl⟩ := lower_separated.mp h
    exact Expr.kept_of_single rfl rfl

end Source

/-! ## Parsed grammars -/

/-- The names and the code in a grammar, in the order of its rules and of their parts. -/
def Grammar.kept (g : Grammar) : List Kept := g.rules.flatMap (·.body.kept)

theorem kept_of_lower {written : List Source.Rule} {rules : List Rule}
    (h : List.Forall₂ (fun w rule => Source.Rule.lower w = .ok { rule with start := false })
      written rules) :
    rules.flatMap (·.body.kept) = written.flatMap (·.body.kept) := by
  induction h with
  | nil => rfl
  | @cons w rule written rules hw _ ih =>
    obtain ⟨displayName, es, -, hes, hr⟩ := Source.Rule.lower_eq_ok.mp hw
    injection hr with hname hbody
    have hkept : rule.body.kept = w.body.kept := by
      rw [← hbody, Expr.kept_ofAlternatives]
      exact w.body.retains_lower es hes
    rw [List.flatMap_cons, List.flatMap_cons, ih, hkept]

/-- **What a grammar keeps of its source.** The names of its references and the code of its actions
and predicates stand in the source in the order of the rules and of their parts. -/
theorem Grammar.inOrder_of_parse {source : Text} {startRules : List Text} {g : Grammar}
    (h : Grammar.parse source startRules = .ok g) : Kept.InOrder g.kept source := by
  obtain ⟨written, hread, hl⟩ := Grammar.parse_spec h
  rw [Grammar.kept, kept_of_lower hl]
  exact (Source.found_of_readRules hread).inOrder

end RuleTypes
