import RuleTypes.Proofs.Declaration.Block
import RuleTypes.Proofs.Generation.Total
import RuleTypes.Proofs.Source.Blank
import RuleTypes.Proofs.Source.Lowering
import RuleTypes.Proofs.Source.Phrases
import RuleTypes.Proofs.Text.Literal

/-!
# Literals from source to declaration

What is written for the type of one string is a literal that sources can hold as well: it is read up
to its own closing quote, whatever stands behind it, and decodes to the UTF-16 units of the string.
So a rule that is nothing but that literal is declared with the literal as its type.

* `scan_literal`: the literal is the token that its text begins with.
* `Grammar.parse_literalSource`: a source of one rule, which is a literal.
* `literal_agrees`: writing and reading literals.
-/

namespace RuleTypes

namespace Source

open Expression

/-- A literal is read up to its closing quote. -/
theorem parse_stringLiteral_literal (v rest : Text) :
    parse (rule .stringLiteral) (v.literal ++ rest) = some (v.units16.literalBody, rest) := by
  have hquoted := parse_quoted (by decide) (Text.behindMark?_literalBody v.units16 rest)
  rw [Text.literal_eq, List.cons_append, List.append_assoc, List.singleton_append]
  exact (parse_rule _ _).trans (parse_or_of hquoted _)

theorem scan_literal (v rest : Text) :
    Nonterminal.stringLiteral.scan (v.literal ++ rest) =
      .ok v.units16.literalBody v.literal.length rest := by
  rw [scan_eq, parse_stringLiteral_literal]
  simp only [List.length_append, Nat.add_sub_cancel]

/-! ## A source of one literal -/

/-- The choice between nothing but one literal. -/
def literalChoice (body : Text) : Phrase .choice :=
  .last (.alternative (.one (.element false none (.operand none (.literal body false) .bare))) none)

/-- At the end of a text a literal is read as a whole choice. -/
theorem parse_choice_literal (v : Text) :
    parse (rule .choice) v.literal = some (literalChoice v.units16.literalBody, []) := by
  have hprimary : parse (rule .primary) v.literal =
      some (.literal v.units16.literalBody false, []) :=
    parse_literal (Text.behindMark?_literalBody v.units16 [])
      (parse_opt_none (parse_ignoreCase_none rfl)) rfl
  have hsuffixed : parse (rule .suffixed) v.literal =
      some ((.literal v.units16.literalBody false, .bare), []) :=
    (parse_rule _ _).trans (parse_map_of _ (parse_seq_of hprimary (parse_opt_none rfl)))
  have hlabeled := parse_labeled (parse_opt_none (parse_pluck_none (by decide) _))
    (parse_opt_none (parse_label_none rfl _)) (parse_operand rfl hsuffixed)
  have hsequence := parse_sequence hlabeled (parse_star_none rfl)
  exact parse_choice (parse_actionExpr hsequence (parse_opt_none rfl)) (parse_star_none rfl)

/-- It stands for the units that the literal was written for. -/
theorem lower_literalChoice (v : Text) :
    (literalChoice v.units16.literalBody).lower = .ok [.literals [v.units16] false] := by
  have hprimary : (Phrase.literal v.units16.literalBody false).lower =
      .ok (.literals [v.units16] false) :=
    Phrase.lower_literal.mpr ⟨v.units16, unescape_literalBody v.units16_lt, rfl⟩
  have hoperand : (Phrase.operand none (.literal v.units16.literalBody false) .bare).lower =
      .ok (.literals [v.units16] false) :=
    Phrase.lower_operand.mpr ⟨_, id, hprimary, Phrase.lower_bare.mpr rfl, rfl⟩
  exact Phrase.lower_last.mpr ⟨_, Phrase.lower_alternative.mpr
    ⟨_, Phrase.lower_one.mpr ⟨_, Phrase.lower_element.mpr ⟨_, hoperand, rfl⟩, rfl⟩, rfl⟩, rfl⟩

/-- Blanks before what is none are skipped. -/
theorem parse_blank_space {t : Text} (h : t.isSolid = true) :
    parse blank (CodePoint.ofChar ' ' :: t) = some ((), t) :=
  (parse_blank_of_behindBlank? (Text.behindBlank?_space rfl t)).trans (parse_blank h)

/-- A source of the rule `a`, which is a literal. -/
def literalSource (v : Text) : Text := "a = " ++ v.literal

theorem readRules_literalSource (v : Text) :
    readRules (literalSource v) = .ok [⟨"a", none, literalChoice v.units16.literalBody⟩] := by
  have hidentifier : parse (rule .identifier) (literalSource v) =
      some (("a" : Text), " = " ++ v.literal) :=
    parse_identifier (show Text.isIdentifier "a" = true from rfl) rfl
  have hname : parse (rule .identifier <* blank) (literalSource v) =
      some (("a" : Text), CodePoint.ofChar '=' :: CodePoint.ofChar ' ' :: v.literal) :=
    parse_left_of hidentifier (parse_blank_space rfl)
  have hequals : parse (token '=') (CodePoint.ofChar '=' :: CodePoint.ofChar ' ' :: v.literal) =
      some (CodePoint.ofChar '=', v.literal) :=
    parse_left_of (parse_char '=' _) (parse_blank_space rfl)
  have hrule : parse (rule .rule) (literalSource v) =
      some (⟨"a", none, literalChoice v.units16.literalBody⟩, []) :=
    (parse_rule _ _).trans (parse_map_of _ (parse_seq_of hname (parse_seq_of
      (parse_left_of (parse_opt_none (parse_displayName_none (by decide) (by decide) _)) hequals)
      (parse_left_of (parse_choice_literal v) (parse_opt_none rfl)))))
  exact readRules_eq_ok_iff.mpr (parse_grammar rfl (fun h => absurd (Option.some.inj h) (by decide))
    (parse_star_of rfl hrule (parse_star_none rfl)))

end Source

/-- The grammar of one rule, which is a literal. -/
def literalGrammar (v : Text) : Grammar :=
  ⟨[{ name := "a", body := .literals [v.units16] false }], List.nodup_singleton _⟩

theorem Grammar.parse_literalSource (v : Text) :
    Grammar.parse (Source.literalSource v) [] = .ok (literalGrammar v) := by
  have hlower : Source.Rule.lower ⟨"a", none, Source.literalChoice v.units16.literalBody⟩ =
      .ok { name := "a", body := .literals [v.units16] false } :=
    Source.Rule.lower_eq_ok.mpr ⟨none, _, rfl, Source.lower_literalChoice v, rfl⟩
  simp only [Grammar.parse, bind_eq_ok, mapError_eq_ok, mapM_eq_ok]
  exact ⟨_, Source.readRules_literalSource v, _, .cons hlower .nil, _, rfl,
    Grammar.ofRules_eq_ok.mpr rfl⟩

/-! ## Its declaration -/

variable (v : Text)

theorem literalGrammar_closed : (literalGrammar v).Closed := by
  intro rule hrule target htarget
  obtain rfl := List.mem_singleton.mp hrule
  cases List.mem_singleton.mp htarget

theorem resolveTypes_literalGrammar (c : Config) :
    resolveTypes (literalGrammar v) .empty c = .ok [⟨"a", .literal v.units16, true, false⟩] := by
  obtain ⟨types, htypes, hrules, hcorrect⟩ :=
    resolveTypes_of_closed (literalGrammar_closed v) .empty c
  have hsettled : ((literalGrammar v).resolver .empty c).Settled "a" (.ok (.literal v.units16)) :=
    @Resolver.Settled.shaped _ "a" { name := "a", body := .literals [v.units16] false } rfl rfl rfl
  obtain ⟨t, rfl, hrule⟩ := List.map_eq_singleton_iff.mp hrules
  obtain ⟨hmem, hanswer, hexplicit, hexported⟩ := hcorrect t List.mem_cons_self
  obtain ⟨rule, type, exported, explicit⟩ := t
  obtain rfl : rule = "a" := hrule
  obtain rfl : type = .literal v.units16 :=
    Except.ok.inj (hanswer.unique (.settled .refl hsettled))
  obtain rfl : exported = true := hexported.mpr (Grammar.mem_startRules_iff.mp List.mem_cons_self)
  obtain rfl : explicit = false := Bool.eq_false_iff.mpr fun h => List.not_mem_nil (hexplicit.mp h)
  exact htypes

/-- The literal is declared as it was written. -/
theorem generate_literalGrammar (header : Option Text) (fallback : Text) :
    generate (literalGrammar v) .empty { header, fallback } =
      .ok (blockHead header ++ ("export type A = " ++ v.literal ++ ";\n")) := by
  have hdeclare : ResolvedType.declare ((literalGrammar v).namer { header, fallback })
      ⟨"a", .literal v.units16, true, false⟩ = .ok ⟨"A", .literal v.units16, true⟩ := by
    rfl
  have hrender (nameOf : Text → Text) :
      Declaration.render nameOf ⟨"A", .literal v.units16, true⟩ =
        some ("export type A = " ++ v.literal ++ ";\n") := by
    rw [← v.literal_units16]
    simp [Declaration.render, Declaration.emit, TsType.render, Declaration.head, Emitter.emitRaw]
    rfl
  have hblock : renderBlock ((literalGrammar v).namer { header, fallback }).nameOf header
      [⟨"A", .literal v.units16, true⟩] =
        some (blockHead header ++ ("export type A = " ++ v.literal ++ ";\n")) := by
    simp only [renderBlock_eq, List.mapM_cons, List.mapM_nil, hrender, Option.pure_def,
      Option.bind_eq_bind, Option.bind_some, Option.map_some, List.flatten_cons, List.flatten_nil,
      List.append_nil]
  rw [generate, resolveTypes_literalGrammar]
  simp only [bind, Except.bind, List.mapM_cons, List.mapM_nil, hdeclare, pure, Except.pure, hblock]

/-! ## Agreement -/

/-- **Writing and reading literals agree.** The literal of any text is printable ASCII, is the token
that a text begins with when it begins with the literal, and decodes to the UTF-16 units of the text,
which are the text itself if it has no code point above `0xFFFF`. So a rule that is the literal is
declared with the literal as its type; and two texts have one literal exactly when they have the
same units. -/
theorem literal_agrees (v w rest : Text) (nameOf : Text → Text) (header : Option Text)
    (fallback : Text) :
    (TsType.literal v).render nameOf = some v.literal ∧
      (∀ c ∈ v.literal, 0x20 ≤ c.toNat ∧ c.toNat ≤ 0x7E) ∧
      (∃ body, v.literal = CodePoint.ofChar '"' :: (body ++ [CodePoint.ofChar '"']) ∧
        Source.Nonterminal.stringLiteral.scan (v.literal ++ rest) =
          .ok body v.literal.length rest ∧
        unescape body = .ok v.units16 ∧
        ((∀ c ∈ v, c.toNat ≤ 0xFFFF) → unescape body = .ok v)) ∧
      (∃ g, Grammar.parse ("a = " ++ v.literal) [] = .ok g ∧
        generate g .empty { header, fallback } =
          .ok (blockHead header ++ ("export type A = " ++ v.literal ++ ";\n"))) ∧
      (v.literal = w.literal ↔ v.units16 = w.units16) := by
  have hdecode := unescape_literalBody v.units16_lt
  refine ⟨rfl, fun c hc => ?_, ⟨v.units16.literalBody, v.literal_eq, Source.scan_literal v rest,
    hdecode, fun hv => ?_⟩, ⟨literalGrammar v, Grammar.parse_literalSource v,
    generate_literalGrammar v header fallback⟩, fun h => ?_, fun h => ?_⟩
  · simpa [CodePoint.inRange] using Text.inRange_literal hc
  · exact hdecode.trans (congrArg _ (Text.units16_eq_self fun c hc => Nat.lt_succ_of_le (hv c hc)))
  · exact (Text.literal_append_inj (congrArg (· ++ rest) h)).1
  · rw [← v.literal_units16, h, w.literal_units16]

end RuleTypes
