import RuleTypes.Proofs.Expr.WellFormed
import RuleTypes.Proofs.Peg.Derivation
import RuleTypes.Proofs.Source.Lowering
import RuleTypes.Proofs.Source.Parse

/-!
# Parsed grammars are well-formed

What is read from a source has names that are identifiers, code in closed blocks and character
classes in closed brackets, because every derivation of the grammar of sources has. Lowering then
gives every node the fields of a written one: groups, sequences of one element and choices of one
alternative vanish, and literals are merged without repeats.

* `Phrase.WellFormed`: the names, blocks and classes of a phrase are such.
* `Nonterminal.reads_of_derives`: what every derivation of a nonterminal guarantees.
* `Phrase.wellFormed_lower`: a well-formed phrase lowers to well-formed expressions.
* `Grammar.wellFormed_of_parse`: the rules of a parsed grammar are well-formed.
-/

namespace RuleTypes

/-! ## Balanced texts -/

namespace Text

/-- Whether every brace that a text opens is closed in it, and no other. -/
def IsBalanced (t : Text) : Prop :=
  ∀ depth s, behindBrace? depth (t ++ s) = behindBrace? depth s

variable {t : Text}

theorem isBalanced_flatten {ts : List Text} (h : ∀ t ∈ ts, IsBalanced t) :
    IsBalanced ts.flatten := by
  induction ts with
  | nil => intro depth s; rfl
  | cons t ts ih =>
    obtain ⟨ht, hts⟩ := List.forall_mem_cons.mp h
    intro depth s
    rw [List.flatten_cons, List.append_assoc, ht, ih hts]

theorem isBalanced_singleton {c : CodePoint} (hopen : c ≠ '{') (hclose : c ≠ '}') :
    IsBalanced [c] :=
  behindBrace?_cons hopen hclose

/-- A block in braces is balanced when its inside is. -/
theorem IsBalanced.block (h : t.IsBalanced) :
    IsBalanced (CodePoint.ofChar '{' :: (t ++ [CodePoint.ofChar '}'])) := by
  intro depth s
  rw [List.cons_append, List.append_assoc, behindBrace?_open, h, List.singleton_append,
    behindBrace?_close_succ]

theorem IsBalanced.isBlock (h : t.IsBalanced) :
    isBlock (CodePoint.ofChar '{' :: (t ++ [CodePoint.ofChar '}'])) = true := by
  have hclose := (h 0 [CodePoint.ofChar '}']).trans (behindBrace?_close_zero [])
  simp [Text.isBlock, hclose]

/-- Units that hold no mark outside escapes lead up to the first mark. -/
theorem behindMark?_flatten {mark : Char} (hne : CodePoint.ofChar '\\' ≠ mark) {ts : List Text}
    (h : ∀ t ∈ ts, (∃ c : CodePoint, t = [c] ∧ c ≠ mark ∧ c ≠ '\\') ∨
      ∃ c : CodePoint, t = [CodePoint.ofChar '\\', c]) (s : Text) :
    behindMark? mark false (ts.flatten ++ CodePoint.ofChar mark :: s) = some s := by
  induction ts with
  | nil => exact behindMark?_mark mark s
  | cons t ts ih =>
    obtain ⟨ht, hts⟩ := List.forall_mem_cons.mp h
    rw [List.flatten_cons, List.append_assoc]
    rcases ht with ⟨c, rfl, hmark, hback⟩ | ⟨c, rfl⟩
    · rw [List.singleton_append, behindMark?_cons hmark hback, ih hts]
    · rw [List.cons_append, List.singleton_append, behindMark?_backslash hne]
      exact ih hts

end Text

namespace Source

/-! ## Well-formed phrases -/

/-- Whether the names in a phrase are identifiers, its code stands in blocks and its character
classes in brackets. -/
def Phrase.WellFormed : {k : Kind} → Phrase k → Prop
  | _, .last a => a.WellFormed
  | _, .or a others => a.WellFormed ∧ others.WellFormed
  | _, .alternative elements action => elements.WellFormed ∧ action.all Text.isBlock = true
  | _, .one e => e.WellFormed
  | _, .cons e others => e.WellFormed ∧ others.WellFormed
  | _, .element _ label a => label.all Text.isIdentifier = true ∧ a.WellFormed
  | _, .semantic _ code => code.isBlock = true
  | _, .operand _ primary suffix => primary.WellFormed ∧ suffix.WellFormed
  | _, .literal _ _ => True
  | _, .charClass pattern => pattern.isClass = true
  | _, .anyChar => True
  | _, .reference rule => rule.isIdentifier = true
  | _, .group choice => choice.WellFormed
  | _, .bare => True
  | _, .optional => True
  | _, .star => True
  | _, .plus => True
  | _, .range _ => True
  | _, .separated _ delimiter => delimiter.WellFormed

theorem Phrase.wellFormed_ofAlternatives {first : Phrase .alternative}
    {others : List (Phrase .alternative)} (h : first.WellFormed)
    (hothers : ∀ a ∈ others, a.WellFormed) : (ofAlternatives first others).WellFormed := by
  induction others generalizing first with
  | nil => exact h
  | cons second others ih =>
    obtain ⟨hsecond, hothers⟩ := List.forall_mem_cons.mp hothers
    exact ⟨h, ih hsecond hothers⟩

theorem Phrase.wellFormed_ofElements {first : Phrase .element} {others : List (Phrase .element)}
    (h : first.WellFormed) (hothers : ∀ e ∈ others, e.WellFormed) :
    (ofElements first others).WellFormed := by
  induction others generalizing first with
  | nil => exact h
  | cons second others ih =>
    obtain ⟨hsecond, hothers⟩ := List.forall_mem_cons.mp hothers
    exact ⟨h, ih hsecond hothers⟩

/-- Whether a written rule has an identifier for its name and a well-formed body. -/
def Rule.WellFormed (rule : Rule) : Prop := rule.name.isIdentifier = true ∧ rule.body.WellFormed

/-! ## What is read -/

namespace Nonterminal

/-- What is known of a value that a nonterminal reads from a text. -/
def Reads : (r : Nonterminal) → r.Value → Text → Prop
  | .grammar, rs, _ => ∀ r ∈ rs, r.WellFormed
  | .rule, r, _ => r.WellFormed
  | .choice, p, _ => p.WellFormed
  | .actionExpr, p, _ => p.WellFormed
  | .action, code, _ => code.isBlock = true
  | .sequence, p, _ => p.WellFormed
  | .labeled, p, _ => p.WellFormed
  | .label, name, _ => name.isIdentifier = true
  | .prefixed, p, _ => p.WellFormed
  | .semanticPredicate, p, _ => p.WellFormed
  | .operatorExpr, p, _ => p.WellFormed
  | .suffixed, p, _ => p.1.WellFormed ∧ p.2.WellFormed
  | .suffix, p, _ => p.WellFormed
  | .operatorSuffix, p, _ => p.WellFormed
  | .repeatRange, p, _ => p.WellFormed
  | .primary, p, _ => p.WellFormed
  | .literal, p, _ => p.WellFormed
  | .charClass, p, _ => p.WellFormed
  | .anyChar, p, _ => p.WellFormed
  | .ruleRef, p, _ => p.WellFormed
  | .group, p, _ => p.WellFormed
  | .codeBlock, code, t => code = t ∧ code.isBlock = true ∧ t.IsBalanced
  | .codeBody, _, t => t.IsBalanced
  | .identifier, name, _ => name.isIdentifier = true
  | _, _, _ => True

open Expression Peg

variable {t : Text}

theorem isIdentifier_of_derives {name : Text} (h : (body .identifier).Derives Reads name t) :
    name.isIdentifier = true := by
  obtain ⟨rfl, _, h⟩ := h
  obtain ⟨_, _, rfl, ⟨c, hc, rfl⟩, hword⟩ := derives_right.mp h
  obtain ⟨ts, rfl, hts⟩ := hword.exists_flatten
  have hall : ts.flatten.all CodePoint.isWord = true := by
    rw [List.all_flatten, List.all_eq_true]
    intro t ht
    obtain ⟨d, hd, rfl⟩ := hts t ht
    simpa using hd
  simp [Text.isIdentifier, hc, hall]

/-- The inside of a code block is made of other code points and of blocks. -/
theorem isBalanced_of_derives {u : Unit} (h : (body .codeBody).Derives Reads u t) :
    t.IsBalanced := by
  obtain ⟨_, hparts, -⟩ := h
  obtain ⟨ts, rfl, hts⟩ := hparts.exists_flatten
  refine Text.isBalanced_flatten fun t ht => ?_
  obtain ⟨_, hpart⟩ := hts t ht
  rcases derives_or.mp hpart with ⟨_, hrun, -⟩ | ⟨_, hcode, -⟩
  · obtain ⟨cs, rfl, hcs⟩ := hrun.star_of_plus.exists_flatten
    refine Text.isBalanced_flatten fun t ht => ?_
    obtain ⟨c, hc, rfl⟩ := hcs t ht
    simp only [Bool.and_eq_true, decide_eq_true_eq] at hc
    exact Text.isBalanced_singleton hc.1 hc.2
  · exact hcode.2.2

theorem isBlock_of_derives {code : Text} (h : (body .codeBlock).Derives Reads code t) :
    code = t ∧ code.isBlock = true ∧ t.IsBalanced := by
  obtain ⟨rfl, _, h⟩ := h
  obtain ⟨_, _, rfl, ⟨_, h⟩, hclose⟩ := derives_right.mp h
  obtain ⟨_, t, rfl, ⟨_, hopen⟩, hbody⟩ := derives_right.mp h
  obtain ⟨-, rfl⟩ := derives_char.mp hopen
  obtain ⟨-, rfl⟩ := derives_char.mp hclose
  have hbody : t.IsBalanced := hbody
  exact ⟨rfl, hbody.isBlock, hbody.block⟩

/-- A character class ends at the first bracket outside an escape, or with the flag behind it. -/
theorem isClass_of_derives {p : Phrase .primary} (h : (body .charClass).Derives Reads p t) :
    p.WellFormed := by
  obtain ⟨_, _, -, ⟨pattern, ⟨rfl, _, hclass⟩, rfl⟩, -⟩ := derives_left.mp h
  obtain ⟨_, flags, rfl, ⟨_, hclass⟩, hflags⟩ := derives_right.mp hclass
  obtain ⟨_, _, rfl, ⟨_, hclass⟩, hclose⟩ := derives_right.mp hclass
  obtain ⟨_, _, rfl, ⟨_, hopen⟩, hunits⟩ := derives_right.mp hclass
  obtain ⟨-, rfl⟩ := derives_char.mp hopen
  obtain ⟨-, rfl⟩ := derives_char.mp hclose
  obtain ⟨ts, rfl, hts⟩ := hunits.exists_flatten
  have hmark : Text.behindMark? ']' false (ts.flatten ++ CodePoint.ofChar ']' :: flags) =
      some flags := by
    refine Text.behindMark?_flatten (by decide) (fun t ht => ?_) flags
    obtain ⟨_, hunit⟩ := hts t ht
    rcases derives_or.mp hunit with ⟨hc, rfl⟩ | hescaped
    · exact .inl ⟨_, rfl, by simpa using hc⟩
    · obtain ⟨_, _, rfl, ⟨_, hback⟩, -, rfl⟩ := derives_right.mp hescaped
      obtain ⟨-, rfl⟩ := derives_char.mp hback
      exact .inr ⟨_, rfl⟩
  have hflag : flags = [] ∨ flags = [CodePoint.ofChar 'i'] := by
    rcases derives_opt.mp hflags with ⟨_, ⟨_, hflag, -⟩, -⟩ | ⟨-, rfl⟩
    · obtain ⟨_, _, rfl, hi, _, rfl⟩ := derives_left.mp hflag
      obtain ⟨-, rfl⟩ := derives_char.mp hi
      exact .inr rfl
    · exact .inl rfl
  change Text.isClass _ = true
  simp [Text.isClass, hmark, hflag]

/-- What is known of the nonterminals in a nonterminal tells what is known of itself. -/
theorem reads_of_derives (r : Nonterminal) (v : r.Value) (t : Text)
    (h : (body r).Derives Reads v t) : r.Reads v t := by
  cases r with
  | grammar =>
    obtain ⟨_, _, -, -, hrules⟩ := derives_right.mp h
    exact fun w hw => (hrules.exists_of_mem hw).elim fun _ hr => hr
  | rule =>
    obtain ⟨⟨name, displayName, p⟩, ⟨_, _, -, hname, _, _, -, -, hp⟩, rfl⟩ := h
    obtain ⟨_, _, -, hname, -⟩ := derives_left.mp hname
    obtain ⟨_, _, -, hp, -⟩ := derives_left.mp hp
    exact ⟨hname, hp⟩
  | choice =>
    obtain ⟨⟨first, others⟩, ⟨_, _, -, hfirst, hothers⟩, rfl⟩ := h
    refine Phrase.wellFormed_ofAlternatives hfirst fun a ha => ?_
    obtain ⟨_, ha⟩ := hothers.exists_of_mem ha
    obtain ⟨_, _, -, -, ha⟩ := derives_right.mp ha
    exact ha
  | actionExpr =>
    obtain ⟨⟨elements, action⟩, ⟨_, _, -, helements, haction⟩, rfl⟩ := h
    refine ⟨helements, ?_⟩
    rcases derives_opt.mp haction with ⟨code, hcode, rfl⟩ | ⟨rfl, -⟩
    · exact hcode
    · rfl
  | action =>
    obtain ⟨_, _, -, hcode, -⟩ := derives_left.mp h
    exact hcode.2.1
  | sequence =>
    obtain ⟨⟨first, others⟩, ⟨_, _, -, hfirst, hothers⟩, rfl⟩ := h
    exact Phrase.wellFormed_ofElements hfirst fun e he =>
      (hothers.exists_of_mem he).elim fun _ hr => hr
  | labeled =>
    obtain ⟨⟨pluck, label, a⟩, ⟨_, _, -, -, _, _, -, hlabel, ha⟩, rfl⟩ := h
    refine ⟨?_, ha⟩
    rcases derives_opt.mp hlabel with ⟨name, hname, rfl⟩ | ⟨rfl, -⟩
    · exact hname
    · rfl
  | label =>
    obtain ⟨_, _, -, hname, -⟩ := derives_left.mp h
    obtain ⟨_, _, -, hname, -⟩ := derives_left.mp hname
    exact hname
  | prefixed => exact (derives_or.mp h).elim id id
  | semanticPredicate =>
    obtain ⟨⟨negated, code⟩, ⟨_, _, -, -, hcode⟩, rfl⟩ := h
    obtain ⟨_, _, -, hcode, -⟩ := derives_left.mp hcode
    exact hcode.2.1
  | operatorExpr =>
    obtain ⟨⟨sign, primary, suffix⟩, ⟨_, _, -, -, hsuffixed⟩, rfl⟩ := h
    exact hsuffixed
  | suffixed =>
    obtain ⟨⟨primary, suffix⟩, ⟨_, _, -, hprimary, hsuffix⟩, rfl⟩ := h
    refine ⟨hprimary, ?_⟩
    rcases derives_opt.mp hsuffix with ⟨x, hx, rfl⟩ | ⟨rfl, -⟩
    · exact hx
    · trivial
  | suffix => exact (derives_or.mp h).elim id id
  | operatorSuffix =>
    obtain ⟨_, _, -, hmark, -⟩ := derives_left.mp h
    rcases derives_or.mp hmark with ⟨_, -, rfl⟩ | hmark
    · trivial
    · rcases derives_or.mp hmark with ⟨_, -, rfl⟩ | ⟨_, -, rfl⟩ <;> trivial
  | repeatRange =>
    obtain ⟨⟨bounds, delimiter⟩, ⟨_, _, -, -, hdelimiter⟩, rfl⟩ := h
    obtain ⟨_, _, -, hdelimiter, -⟩ := derives_left.mp hdelimiter
    rcases derives_opt.mp hdelimiter with ⟨p, hp, rfl⟩ | ⟨rfl, -⟩
    · obtain ⟨_, _, -, -, hp⟩ := derives_right.mp hp
      exact hp
    · trivial
  | primary =>
    rcases derives_or.mp h with h | h
    · exact h
    rcases derives_or.mp h with h | h
    · exact h
    rcases derives_or.mp h with h | h
    · exact h
    · exact (derives_or.mp h).elim id id
  | literal => obtain ⟨_, -, rfl⟩ := h; trivial
  | charClass => exact isClass_of_derives h
  | anyChar => obtain ⟨_, -, rfl⟩ := h; trivial
  | ruleRef =>
    obtain ⟨name, hname, rfl⟩ := h
    obtain ⟨_, _, -, hname, -⟩ := derives_left.mp hname
    obtain ⟨_, _, -, hname, -⟩ := derives_left.mp hname
    exact hname
  | group =>
    obtain ⟨p, hp, rfl⟩ := h
    obtain ⟨_, _, -, hp, -⟩ := derives_left.mp hp
    obtain ⟨_, _, -, -, hp⟩ := derives_right.mp hp
    exact hp
  | codeBlock => exact isBlock_of_derives h
  | codeBody => exact isBalanced_of_derives h
  | identifier => exact isIdentifier_of_derives h
  | _ => trivial

end Nonterminal

/-- The rules that are read from a source are well-formed. -/
theorem wellFormed_of_readRules {s : Text} {written : List Rule}
    (h : readRules s = .ok written) : ∀ w ∈ written, w.WellFormed := by
  obtain ⟨n, hn⟩ := Outcome.result?_eq_some.mp (readRules_eq_ok_iff.mp h)
  obtain ⟨t, -, -, hd⟩ := Peg.run_derives
    (fun r => Peg.matchRule_derives Nonterminal.reads_of_derives _ r) _ _ _ _ _ hn
  exact hd

end Source

/-! ## Lowering -/

namespace Expr

variable {es : List Expr}

/-- A choice of well-formed alternatives is well-formed, merged or not. -/
theorem wellFormed_ofAlternatives (hne : es ≠ []) (h : ∀ e ∈ es, e.WellFormed) :
    (ofAlternatives es).WellFormed := by
  rcases ofAlternatives_cases es with ⟨e, rfl, he⟩ | ⟨sets, rfl, -, he⟩ | ⟨hmixed, hone, he⟩
  · rw [he]
    exact h e (List.mem_singleton_self e)
  · rw [he]
    refine wellFormed_iff.mpr ⟨⟨?_, nodup_distinct _, nofun⟩, by simp [children]⟩
    -- The first of the sets has a value, and so has the merged one.
    obtain ⟨values, others, rfl⟩ : ∃ values others, sets = values :: others :=
      List.exists_cons_of_ne_nil fun hnil => hne (by rw [hnil]; rfl)
    have hformed := (wellFormed_iff.mp (h (literals values false) (by simp))).1
    obtain ⟨v, hv⟩ := List.exists_mem_of_ne_nil values hformed.1
    intro hnil
    have hmem : v ∈ distinct (values :: others).flatten := mem_distinct.mpr (by simp [hv])
    rw [hnil] at hmem
    cases hmem
  · rw [he]
    refine wellFormed_iff.mpr ⟨⟨?_, ?_⟩, h⟩
    · have := List.length_pos_iff.mpr hne
      omega
    · by_contra hall
      refine hmixed (es.map fun e => e.literalValues?.getD []) ?_
      rw [List.map_map]
      refine (List.map_id' es).symm.trans (List.map_congr_left fun e he => ?_)
      cases hvalues : e.literalValues? with
      | none => exact absurd ⟨e, he, hvalues⟩ hall
      | some values => obtain rfl := literalValues?_eq_some.mp hvalues; rfl

theorem wellFormed_ofElements (hne : es ≠ []) (h : ∀ e ∈ es, e.WellFormed) :
    (ofElements es).WellFormed := by
  rcases ofElements_cases es with ⟨e, rfl, he⟩ | ⟨hone, he⟩
  · rw [he]
    exact h e (List.mem_singleton_self e)
  · rw [he]
    have := List.length_pos_iff.mpr hne
    exact wellFormed_iff.mpr ⟨show 2 ≤ es.length by omega, h⟩

/-- A node without parts is well-formed when its fields are right. -/
theorem wellFormed_of_leaf {e : Expr} (hc : e.children = []) (he : e.Formed) : e.WellFormed := by
  rw [wellFormed_iff, hc]
  exact ⟨he, by simp⟩

/-- A node with one part is well-formed when its fields are right and the part is well-formed. -/
theorem wellFormed_of_single {e operand : Expr} (hc : e.children = [operand]) (he : e.Formed)
    (h : operand.WellFormed) : e.WellFormed := by
  rw [wellFormed_iff, hc]
  exact ⟨he, by simpa using h⟩

end Expr

namespace Source

/-- Whether what a phrase lowers to is well-formed. A suffix keeps its operand so. -/
def LowersWell : {k : Kind} → Lowered k → Prop
  | .choice, es => es ≠ [] ∧ ∀ e ∈ es, Expr.WellFormed e
  | .alternative, e => Expr.WellFormed e
  | .sequence, es => es ≠ [] ∧ ∀ e ∈ es, Expr.WellFormed e
  | .element, e => Expr.WellFormed e
  | .operand, e => Expr.WellFormed e
  | .primary, e => Expr.WellFormed e
  | .suffix, f => ∀ e : Expr, e.WellFormed → (f e).WellFormed

theorem Sign.wellFormed_apply (sign : Option Sign) {e : Expr} (h : e.WellFormed) :
    (Sign.apply sign e).WellFormed := by
  cases sign with
  | none => exact h
  | some sign =>
    cases sign with
    | text => exact Expr.wellFormed_of_single rfl trivial h
    | positive => exact Expr.wellFormed_of_single rfl rfl h
    | negative => exact Expr.wellFormed_of_single rfl rfl h

/-- A well-formed phrase lowers to well-formed expressions. -/
theorem Phrase.wellFormed_lower {k : Kind} (p : Phrase k) (hp : p.WellFormed) :
    ∀ v, p.lower = .ok v → LowersWell v := by
  induction p with
  | last a ih =>
    intro es h
    obtain ⟨e, he, rfl⟩ := lower_last.mp h
    exact ⟨by simp, fun e' he' => List.mem_singleton.mp he' ▸ ih hp e he⟩
  | or a others iha iho =>
    intro es h
    obtain ⟨e, es', he, hes, rfl⟩ := lower_or.mp h
    exact ⟨by simp, List.forall_mem_cons.mpr ⟨iha hp.1 e he, (iho hp.2 es' hes).2⟩⟩
  | alternative s action ih =>
    intro e h
    obtain ⟨es, hs, rfl⟩ := lower_alternative.mp h
    obtain ⟨hne, hes⟩ := ih hp.1 es hs
    have helements := Expr.wellFormed_ofElements hne hes
    cases action with
    | none => exact helements
    | some code => exact Expr.wellFormed_of_single rfl hp.2 helements
  | one a ih =>
    intro es h
    obtain ⟨e, he, rfl⟩ := lower_one.mp h
    exact ⟨by simp, fun e' he' => List.mem_singleton.mp he' ▸ ih hp e he⟩
  | cons a others iha iho =>
    intro es h
    obtain ⟨e, es', he, hes, rfl⟩ := lower_cons.mp h
    exact ⟨by simp, List.forall_mem_cons.mpr ⟨iha hp.1 e he, (iho hp.2 es' hes).2⟩⟩
  | element pluck label a ih =>
    intro e h
    obtain ⟨e', he, rfl⟩ := lower_element.mp h
    split
    · rename_i hcapture
      have hfields : label.isSome = true ∨ pluck = true := by
        rcases (Bool.or_eq_true _ _).mp hcapture with hpluck | hlabel
        · exact .inr hpluck
        · exact .inl hlabel
      exact Expr.wellFormed_of_single rfl ⟨hfields, hp.1⟩ (ih hp.2 e' he)
    · exact ih hp.2 e' he
  | semantic negated code =>
    intro e h
    obtain rfl := lower_semantic.mp h
    exact Expr.wellFormed_of_leaf rfl hp
  | operand sign primary suffix ihp ihs =>
    intro e h
    obtain ⟨e', wrap, he, hs, rfl⟩ := lower_operand.mp h
    exact Sign.wellFormed_apply sign (ihs hp.2 wrap hs e' (ihp hp.1 e' he))
  | literal body ignoreCase =>
    intro e h
    obtain ⟨v, -, rfl⟩ := lower_literal.mp h
    exact Expr.wellFormed_of_leaf rfl ⟨by simp, by simp, fun _ => rfl⟩
  | charClass pattern =>
    intro e h
    obtain rfl := lower_charClass.mp h
    exact Expr.wellFormed_of_leaf rfl hp
  | anyChar =>
    intro e h
    obtain rfl := lower_anyChar.mp h
    exact Expr.wellFormed_of_leaf rfl trivial
  | reference rule =>
    intro e h
    obtain rfl := lower_reference.mp h
    exact Expr.wellFormed_of_leaf rfl hp
  | group choice ih =>
    intro e h
    obtain ⟨es, hes, rfl⟩ := lower_group.mp h
    obtain ⟨hne, hall⟩ := ih hp es hes
    exact Expr.wellFormed_ofAlternatives hne hall
  | bare =>
    intro f h e he
    obtain rfl := lower_bare.mp h
    exact he
  | optional =>
    intro f h e he
    obtain rfl := lower_optional.mp h
    exact Expr.wellFormed_of_single rfl trivial he
  | star =>
    intro f h e he
    obtain rfl := lower_star.mp h
    exact Expr.wellFormed_of_single rfl trivial he
  | plus =>
    intro f h e he
    obtain rfl := lower_plus.mp h
    exact Expr.wellFormed_of_single rfl trivial he
  | range bounds =>
    intro f h e he
    obtain ⟨guaranteed, -, rfl⟩ := lower_range.mp h
    exact Expr.wellFormed_of_single rfl trivial he
  | separated bounds delimiter ih =>
    intro f h e he
    obtain ⟨guaranteed, es, -, -, rfl⟩ := lower_separated.mp h
    exact Expr.wellFormed_of_single rfl trivial he

end Source

/-! ## The rules of a parsed grammar -/

/-- Well-formed written rules are lowered to well-formed rules. -/
theorem wellFormed_of_lower {written : List Source.Rule} {rules : List Rule}
    (h : List.Forall₂ (fun w rule => Source.Rule.lower w = .ok { rule with start := false })
      written rules) (hw : ∀ w ∈ written, w.WellFormed) :
    ∀ rule ∈ rules, rule.name.isIdentifier = true ∧ rule.body.WellFormed := by
  induction h with
  | nil => simp
  | @cons w rule written rules hl _ ih =>
    obtain ⟨⟨hname, hbody⟩, hwritten⟩ := List.forall_mem_cons.mp hw
    obtain ⟨displayName, es, -, hes, hr⟩ := Source.Rule.lower_eq_ok.mp hl
    injection hr with hrname hrbody
    obtain ⟨hne, hall⟩ := w.body.wellFormed_lower hbody es hes
    refine List.forall_mem_cons.mpr ⟨⟨hrname ▸ hname, ?_⟩, ih hwritten⟩
    rw [← hrbody]
    exact Expr.wellFormed_ofAlternatives hne hall

theorem Grammar.rules_of_parse {source : Text} {startRules : List Text} {g : Grammar}
    (h : Grammar.parse source startRules = .ok g) :
    ∀ rule ∈ g.rules, rule.name.isIdentifier = true ∧ rule.body.WellFormed := by
  obtain ⟨written, hread, hl⟩ := Grammar.parse_spec h
  exact wellFormed_of_lower hl (Source.wellFormed_of_readRules hread)

theorem Grammar.isIdentifier_of_parse {source : Text} {startRules : List Text} {g : Grammar}
    (h : Grammar.parse source startRules = .ok g) :
    ∀ name ∈ g.names, name.isIdentifier = true := by
  intro name hname
  obtain ⟨rule, hrule, rfl⟩ := List.mem_map.mp hname
  exact (Grammar.rules_of_parse h rule hrule).1

/-- **Parsed grammars are well-formed.** The names of their rules are distinct identifiers, and
every node of every body has the fields of a written node. -/
theorem Grammar.wellFormed_of_parse {source : Text} {startRules : List Text} {g : Grammar}
    (h : Grammar.parse source startRules = .ok g) :
    g.names.Nodup ∧ (∀ name ∈ g.names, name.isIdentifier = true) ∧
      ∀ rule ∈ g.rules, ∀ node ∈ rule.body.preorder, node.Formed := by
  refine ⟨g.nodup, Grammar.isIdentifier_of_parse h, fun rule hrule => ?_⟩
  exact (Grammar.rules_of_parse h rule hrule).2

/-- Merged literals, a character class, a labeled group and code, all from one source. -/
theorem Grammar.wellFormed_of_parse_nested :
    let source : Text :=
      "a=('x'/('y'/'x')) n:(@[^\\]]i !\x7bp\x7d) \x7bf\x7b\x7d\x7d/b_1\nb_1=.\"z\"i"
    let elements : List Expr :=
      [.literals ["x", "y"] false,
        .capture (.sequence [.capture (.charClass "[^\\]]i") none true,
          .semantic true (some "\x7bp\x7d")]) (some "n") false]
    let g : Grammar :=
      ⟨[⟨"a", .choice [.action (.sequence elements) "\x7bf\x7b\x7d\x7d", .reference "b_1"], true,
          none⟩,
        ⟨"b_1", .sequence [.anyChar, .literals ["z"] true], true, none⟩], by decide⟩
    Grammar.parse source ["*"] = .ok g ∧
      g.names.Nodup ∧ (∀ name ∈ g.names, name.isIdentifier = true) ∧
        ∀ rule ∈ g.rules, ∀ node ∈ rule.body.preorder, node.Formed := by
  intro source elements g
  have h : Grammar.parse source ["*"] = .ok g := by
    set_option maxRecDepth 2000 in with_unfolding_all rfl
  exact ⟨h, wellFormed_of_parse h⟩

end RuleTypes
