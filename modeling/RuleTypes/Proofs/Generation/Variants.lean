import RuleTypes.Proofs.Expr.Inferred
import RuleTypes.Proofs.Generation.Total
import RuleTypes.Proofs.Naming.Identifier
import RuleTypes.Proofs.Source.WellFormed
import RuleTypes.Proofs.TsType.AsWritten

/-!
# Variants of unions

No union has a member twice, so a variant is listed twice only where two members have one text. Two
members have one text when they are written alike (`TsType.asWritten`), and not otherwise:
identifiers are never keywords and never shared, and what is written is read back.

* `Grammar.identifies_of_parse`: what is known of the identifiers of a parsed grammar's rules.
* `ResolvedType.Correct.inferred`: without overrides all types are inferred.
* `union_texts_of_parse`: which members of a union have the same text.
-/

namespace RuleTypes

namespace TsType

variable {nameOf : Text → Text} {known : Text → Prop} {t u : TsType}

/-- What the text of an inferred type shows is read back. -/
theorem Inferred.readable (h : t.Inferred defaultFallback known) : t.asWritten.Readable known := by
  refine readable_asWritten fun n hn => ?_
  have hnode := h n hn
  cases n with
  | unwritten => exact hnode.elim
  | keyword name => exact hnode
  | literal value => exact value.units16_lt
  | ref rule => exact hnode
  | raw text =>
    obtain rfl : text = defaultFallback := hnode
    trivial
  | array element => trivial
  | union members =>
    obtain ⟨hlength, -, hplain⟩ := hnode
    rw [asWritten, allAsWritten_eq_map]
    refine ⟨by rwa [List.length_map], fun m hm => ?_⟩
    obtain ⟨m, hmem, rfl⟩ := List.mem_map.mp hm
    exact asWritten_ne_union (hplain m hmem)

/-- Inferred types have the same text when they are written alike. -/
theorem Inferred.text_eq_iff (hnames : Identifies nameOf known)
    (ht : t.Inferred defaultFallback known) (hu : u.Inferred defaultFallback known) :
    text nameOf t = text nameOf u ↔ t.asWritten = u.asWritten := by
  rw [← text_asWritten nameOf t, ← text_asWritten nameOf u]
  exact ⟨text_injective hnames ht.readable hu.readable, congrArg _⟩

theorem Inferred.render_eq {fallback : Text} (h : t.Inferred fallback known)
    (nameOf : Text → Text) : t.render nameOf = some (text nameOf t) :=
  render_eq_some nameOf t fun hmem => h unwritten hmem

/-- The members of a union in an inferred type are different and inferred. -/
theorem Inferred.of_union_mem {fallback : Text} {members : List TsType}
    (h : t.Inferred fallback known) (hunion : union members ∈ t.nodes) :
    members.Nodup ∧ ∀ m ∈ members, m.Inferred fallback known := by
  refine ⟨(h _ hunion).2.1, fun m hm n hn => h n (mem_nodes_trans hunion ?_)⟩
  exact mem_nodes_of_child hm hn

end TsType

variable {g : Grammar}

/-- In camel case the rules of a parsed grammar have different identifiers, none a keyword. -/
theorem Grammar.identifies_of_parse {source : Text} {startRules : List Text}
    (h : Grammar.parse source startRules = .ok g) :
    TsType.Identifies (g.namer {}).nameOf (· ∈ g.names) := by
  have hidentifier := isIdentifier_of_parse h
  constructor
  · intro rule hrule
    exact Namer.isIdentifier_nameOf hrule (hidentifier rule hrule)
  · intro rule other hrule hother heq
    exact Namer.nameOf_injective hrule hother heq
  · intro rule hrule hkeyword
    obtain ⟨c, rest, hname, hlower⟩ := Namer.nameOf_head hrule (hidentifier rule hrule)
    have hname : (g.namer {}).nameOf rule = c :: rest := hname
    rw [hname] at hkeyword
    -- All keywords begin with a small letter.
    simp only [List.mem_cons, List.not_mem_nil, or_false] at hkeyword
    rcases hkeyword with h | h | h | h <;>
      (obtain ⟨rfl, -⟩ := List.cons.inj (TsType.keyword.inj h); cases hlower)

/-- Without overrides every type is inferred. -/
theorem ResolvedType.Correct.inferred {c : Config} {t : ResolvedType}
    (h : t.Correct g .empty c) (hclosed : g.Closed) :
    t.type.Inferred c.fallback (· ∈ g.names) := by
  refine (h.answer.raw_or_inferred hclosed h.mem).resolve_left ?_
  rintro ⟨last, text, hgiven, -⟩
  have hnone : Overrides.explicit? .empty g last = none := by
    unfold Overrides.explicit?
    split <;> rfl
  have hgiven : Overrides.explicit? .empty g last = some text := hgiven
  rw [hnone] at hgiven
  cases hgiven

/-- **Variants of unions.** In the default configuration and without overrides, the members of every
union in the types of a parsed grammar are all different, and two of them have the same text exactly
when they are written alike. -/
theorem union_texts_of_parse {source : Text} {startRules : List Text}
    (h : Grammar.parse source startRules = .ok g) (hclosed : g.Closed) :
    ∃ types, resolveTypes g .empty {} = .ok types ∧
      ∀ t ∈ types, ∀ members, .union members ∈ t.type.nodes →
        members.Nodup ∧ ∀ a ∈ members, ∀ b ∈ members, ∃ text,
          a.render (g.namer {}).nameOf = some text ∧
          (b.render (g.namer {}).nameOf = some text ↔ a.asWritten = b.asWritten) := by
  obtain ⟨types, htypes, -, hcorrect⟩ := resolveTypes_of_closed hclosed .empty {}
  refine ⟨types, htypes, fun t ht members hunion => ?_⟩
  obtain ⟨hnodup, hmembers⟩ := ((hcorrect t ht).inferred hclosed).of_union_mem hunion
  refine ⟨hnodup, fun a ha b hb => ⟨_, (hmembers a ha).render_eq _, ?_⟩⟩
  rw [(hmembers b hb).render_eq, Option.some.injEq, eq_comm]
  exact (hmembers a ha).text_eq_iff (Grammar.identifies_of_parse h) (hmembers b hb)

/-- A union of a literal, an array and an array of a union. -/
theorem union_texts_of_parse_nested :
    let source : Text := "a='x'/b*/(b/'y')*\nb=."
    let g : Grammar :=
      ⟨[⟨"a", .choice [.literals ["x"] false, .repetition (.reference "b") false,
          .repetition (.choice [.reference "b", .literals ["y"] false]) false], false, none⟩,
        ⟨"b", .anyChar, false, none⟩], by decide⟩
    Grammar.parse source [] = .ok g ∧ g.Closed ∧
      ∃ types, resolveTypes g .empty {} = .ok types ∧
        ∀ t ∈ types, ∀ members, .union members ∈ t.type.nodes →
          members.Nodup ∧ ∀ a ∈ members, ∀ b ∈ members, ∃ text,
            a.render (g.namer {}).nameOf = some text ∧
            (b.render (g.namer {}).nameOf = some text ↔ a.asWritten = b.asWritten) := by
  intro source g
  have hparse : Grammar.parse source [] = .ok g := by
    set_option maxRecDepth 2000 in with_unfolding_all rfl
  have hclosed : g.Closed := by
    simp [g, Grammar.Closed, Grammar.Binds, Grammar.names, Expr.preorder, Expr.preorders]
  exact ⟨hparse, hclosed, union_texts_of_parse hparse hclosed⟩

/-- Whether some union in the types of a source has two members with the same text. -/
def ListsVariantTwice (source : Text) : Prop :=
  ∃ g types, Grammar.parse source [] = .ok g ∧ g.Closed ∧ resolveTypes g .empty {} = .ok types ∧
    ∃ t ∈ types, ∃ members, .union members ∈ t.type.nodes ∧
      ¬ (members.map fun m => m.render (g.namer {}).nameOf).Nodup

/-- A variant is listed twice where the fallback text stands beside the array that it names, or a
code point beyond the units beside its two surrogates. -/
theorem union_texts_repeat :
    ListsVariantTwice "a=(. .)/.*" ∧ ListsVariantTwice "a='😀'/'\\ud83d\\ude00'" := by
  constructor
  · let g : Grammar :=
      ⟨[⟨"a", .choice [.sequence [.anyChar, .anyChar], .repetition .anyChar false], false, none⟩],
        by decide⟩
    let members : List TsType := [.raw "string[]", .array .string]
    refine ⟨g, [⟨"a", .union members, true, false⟩], ?_, ?_, ?_, _, List.mem_singleton_self _,
      members, TsType.mem_nodes_self _, by decide⟩
    · with_unfolding_all rfl
    · simp [g, Grammar.Closed, Grammar.Binds, Expr.preorder, Expr.preorders]
    · with_unfolding_all rfl
  · let surrogates : Text := [⟨0xD83D, by decide⟩, ⟨0xDE00, by decide⟩]
    let g : Grammar := ⟨[⟨"a", .literals ["😀", surrogates] false, false, none⟩], by decide⟩
    let members : List TsType := [.literal "😀", .literal surrogates]
    refine ⟨g, [⟨"a", .union members, true, false⟩], ?_, ?_, ?_, _, List.mem_singleton_self _,
      members, TsType.mem_nodes_self _, by decide⟩
    · with_unfolding_all rfl
    · simp [g, Grammar.Closed, Grammar.Binds, Expr.preorder]
    · with_unfolding_all rfl

end RuleTypes
