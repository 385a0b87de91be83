import RuleTypes.Proofs.Expr.WellFormed
import RuleTypes.Proofs.Source.Writes

/-!
# The source text of rules

Every well-formed expression can be written down, with parentheses around every part and not a
blank between them, and reading the text gives the expression back. Rules are written one behind
the other, each closed by a semicolon.

* `Expr.written`, `Rule.written`, `writtenSource`: the texts of an expression, a rule and rules.
* `Expr.writesChoice_written`: the text of a well-formed expression is one of that expression.
* `Grammar.parse_writtenSource`: the text of rules is parsed to a grammar of these rules.
-/

namespace RuleTypes

/-! ## Expressions -/

namespace Expr

open Source (predicateMark)

mutual

/-- The text of an expression, as it stands in parentheses. -/
def written : Expr → Text
  | unknown => []
  | literals values ignoreCase =>
    Text.join [CodePoint.ofChar '/'] (values.map Text.inQuotes) ++
      if ignoreCase then [CodePoint.ofChar 'i'] else []
  | charClass pattern => pattern
  | anyChar => [CodePoint.ofChar '.']
  | reference rule => rule
  | choice alternatives => Text.join [CodePoint.ofChar '/'] (writtenParts alternatives)
  | sequence elements => (writtenParts elements).flatten
  | repetition operand atLeastOne =>
    (written operand).grouped ++ [CodePoint.ofChar (if atLeastOne then '+' else '*')]
  | optional operand => (written operand).grouped ++ [CodePoint.ofChar '?']
  | capture operand label pluck =>
    (if pluck then [CodePoint.ofChar '@'] else []) ++
      (label.elim [] (· ++ [CodePoint.ofChar ':']) ++ (written operand).grouped)
  | text operand => CodePoint.ofChar '$' :: (written operand).grouped
  | lookahead operand negated _ => predicateMark negated :: (written operand).grouped
  | semantic negated code => predicateMark negated :: code.getD []
  | action operand code => (written operand).grouped ++ code

/-- The texts of several expressions, each in parentheses. -/
def writtenParts : List Expr → List Text
  | [] => []
  | e :: es => (written e).grouped :: writtenParts es

end

theorem writtenParts_eq_map (es : List Expr) :
    writtenParts es = es.map fun e => e.written.grouped := by
  induction es with
  | nil => rfl
  | cons e es ih => rw [writtenParts, ih, List.map_cons]

open Source

/-- The text of a well-formed expression is read as that expression. -/
theorem writesChoice_written (e : Expr) (h : e.WellFormed) : WritesChoice e e.written := by
  induction e using Expr.induction with
  | step e ih =>
    obtain ⟨hformed, hchildren⟩ := wellFormed_iff.mp h
    have hparts : ∀ c ∈ e.children, WritesChoice c c.written := fun c hc => ih c hc (hchildren c hc)
    cases e with
    | unknown => exact absurd hformed not_false
    | literals values ignoreCase =>
      obtain ⟨hne, hnodup, hone⟩ := hformed
      rw [written]
      cases ignoreCase with
      | false =>
        rw [if_neg Bool.false_ne_true, List.append_nil]
        refine writesChoice_of_alternatives ?_ ?_ (ofAlternatives_literals hnodup)
        · rw [List.forall₂_map_left_iff, List.forall₂_map_right_iff, List.forall₂_same]
          exact fun v _ => writesAlternative_of_element (writesElement_literal v)
        · exact fun hnil => hne (List.map_eq_nil_iff.mp hnil)
      | true =>
        obtain ⟨v, rfl⟩ := List.length_eq_one_iff.mp (hone rfl)
        rw [if_pos rfl, List.map_singleton, Text.join_singleton]
        exact writesChoice_of_element (writesElement_literal_ignoreCase v)
    | charClass pattern =>
      rw [written]
      exact writesChoice_of_element (writesElement_charClass hformed)
    | anyChar =>
      rw [written]
      exact writesChoice_of_element writesElement_anyChar
    | reference rule =>
      rw [written]
      exact writesChoice_of_element (writesElement_reference hformed)
    | choice es =>
      obtain ⟨h2, hmixed⟩ := hformed
      rw [written, writtenParts_eq_map]
      refine writesChoice_of_alternatives ?_ ?_ (ofAlternatives_choice h2 hmixed)
      · rw [List.forall₂_map_left_iff, List.forall₂_same]
        exact fun e he => writesAlternative_of_element (writesElement_group (hparts e he))
      · rintro rfl
        cases h2
    | sequence es =>
      have hgroups : (es.map fun e => e.written.grouped) = (es.map written).map Text.grouped := by
        rw [List.map_map]
        rfl
      rw [written, writtenParts_eq_map, hgroups]
      refine writesChoice_of_alternative (writesAlternative_sequence ?_ hformed)
      rw [List.forall₂_map_left_iff, List.forall₂_same]
      exact hparts
    | repetition operand atLeastOne =>
      have hoperand := hparts operand (List.mem_singleton_self operand)
      rw [written]
      cases atLeastOne with
      | false =>
        exact writesChoice_of_element (writesElement_suffix hoperand rfl (by decide)
          parse_star_suffix (Phrase.lower_star.mpr rfl))
      | true =>
        exact writesChoice_of_element (writesElement_suffix hoperand rfl (by decide)
          parse_plus_suffix (Phrase.lower_plus.mpr rfl))
    | optional operand =>
      have hoperand := hparts operand (List.mem_singleton_self operand)
      rw [written]
      exact writesChoice_of_element (writesElement_suffix hoperand rfl (by decide)
        parse_optional (Phrase.lower_optional.mpr rfl))
    | capture operand label pluck =>
      have hoperand := hparts operand (List.mem_singleton_self operand)
      rw [written]
      exact writesChoice_of_element (writesElement_capture hoperand hformed.2 hformed.1)
    | text operand =>
      have hoperand := hparts operand (List.mem_singleton_self operand)
      rw [written]
      exact writesChoice_of_element (writesElement_text hoperand)
    | lookahead operand negated code =>
      have hoperand := hparts operand (List.mem_singleton_self operand)
      obtain rfl : code = none := hformed
      rw [written]
      exact writesChoice_of_element (writesElement_lookahead hoperand negated)
    | semantic negated code =>
      cases code with
      | none => exact absurd hformed Bool.false_ne_true
      | some block =>
        rw [written]
        exact writesChoice_of_element (writesElement_semantic hformed negated)
    | action operand code =>
      have hoperand := hparts operand (List.mem_singleton_self operand)
      rw [written]
      exact writesChoice_of_alternative (writesAlternative_action hoperand hformed)

end Expr

/-! ## Rules -/

/-- The text of a rule. -/
def Rule.written (rule : Rule) : Text :=
  rule.name ++ (rule.displayName.elim [] Text.inQuotes ++
    CodePoint.ofChar '=' :: (rule.body.written.grouped ++ [CodePoint.ofChar ';']))

/-- The text of several rules. -/
def writtenSource (rules : List Rule) : Text := rules.flatMap Rule.written

namespace Source

open Expression

/-- A display name is read where one is written. -/
theorem parse_written_displayName (displayName : Option Text) (s : Text) :
    parse (.opt (rule .displayName))
        (displayName.elim [] Text.inQuotes ++ CodePoint.ofChar '=' :: s) =
      some (displayName.map Text.shielded, CodePoint.ofChar '=' :: s) := by
  cases displayName with
  | none => exact parse_opt_none (parse_displayName_none (by decide) (by decide) s)
  | some name =>
    rw [Option.elim_some, Text.inQuotes_append]
    exact parse_opt_of (parse_displayName (Text.behindMark?_shielded name _) rfl)

/-- What stands behind the name of a rule ends it and begins no comment. -/
theorem endsWord_displayName (displayName : Option Text) (s : Text) :
    endsWord (displayName.elim [] Text.inQuotes ++ CodePoint.ofChar '=' :: s) = true ∧
      Text.isSolid (displayName.elim [] Text.inQuotes ++ CodePoint.ofChar '=' :: s) = true := by
  cases displayName with
  | none => exact ⟨rfl, rfl⟩
  | some name => exact ⟨rfl, rfl⟩

/-- The text of a rule is read, and what is read lowers to the rule. -/
theorem exists_rule_of_written {r : RuleTypes.Rule} (hname : r.name.isIdentifier = true)
    (hbody : r.body.WellFormed) {rest : Text} (hrest : rest.isSolid = true) :
    ∃ w : Rule, parse (rule .rule) (r.written ++ rest) = some (w, rest) ∧
      w.lower = .ok { r with start := false } := by
  have hgroup := writesChoice_of_element
    (writesElement_group (Expr.writesChoice_written r.body hbody))
  obtain ⟨p, hp, es, hes, he⟩ := hgroup.2 ';' rest rfl (Text.isSolid_cons rfl (by decide) rest)
  obtain ⟨hword, hsolid⟩ := endsWord_displayName r.displayName
    (r.body.written.grouped ++ CodePoint.ofChar ';' :: rest)
  refine ⟨⟨r.name, r.displayName.map Text.shielded, p⟩, ?_, ?_⟩
  · have hwritten : r.written ++ rest = r.name ++ (r.displayName.elim [] Text.inQuotes ++
        CodePoint.ofChar '=' :: (r.body.written.grouped ++ CodePoint.ofChar ';' :: rest)) := by
      simp [RuleTypes.Rule.written]
    rw [hwritten]
    exact parse_definition (parse_identifier hname hword) hsolid
      (parse_written_displayName r.displayName _) rfl hp hrest
  · refine Rule.lower_eq_ok.mpr ⟨r.displayName, es, ?_, hes, by rw [he]⟩
    cases r.displayName with
    | none => rfl
    | some name =>
      change some <$> unescape name.shielded = _
      rw [unescape_shielded]
      rfl

theorem beginsElement_written {r : RuleTypes.Rule} (hname : r.name.isIdentifier = true) :
    beginsElement r.written = true := by
  refine beginsElement_append ?_ _
  obtain ⟨c, name, hr, hc, -⟩ := Text.exists_cons_of_isIdentifier hname
  rw [hr]
  exact opensElement_of_isWordStart hc

/-- A text of rules begins with no blank, no comment and no initializer. -/
theorem writtenSource_spec {rules : List RuleTypes.Rule}
    (hname : ∀ r ∈ rules, r.name.isIdentifier = true) :
    (writtenSource rules).isSolid = true ∧
      (writtenSource rules).head? ≠ some (CodePoint.ofChar '{') := by
  cases rules with
  | nil => exact ⟨rfl, fun h => by cases h⟩
  | cons r rules =>
    have hbegins := beginsElement_append (beginsElement_written (hname r List.mem_cons_self))
      (writtenSource rules)
    refine ⟨isSolid_of_beginsElement hbegins, fun hbrace => ?_⟩
    rw [writtenSource, List.flatMap_cons] at hbrace
    rw [beginsElement, writtenSource, hbrace] at hbegins
    exact absurd hbegins (by decide)

/-- Texts of rules one behind the other are read rule by rule. -/
theorem exists_rules_of_written {rules : List RuleTypes.Rule}
    (hname : ∀ r ∈ rules, r.name.isIdentifier = true) (hbody : ∀ r ∈ rules, r.body.WellFormed) :
    ∃ written, parse (.star (rule .rule)) (writtenSource rules) = some (written, []) ∧
      List.Forall₂ (fun (w : Rule) (r : RuleTypes.Rule) => w.lower = .ok { r with start := false })
        written rules := by
  induction rules with
  | nil => exact ⟨[], parse_star_none rfl, .nil⟩
  | cons r rules ih =>
    obtain ⟨hr, hrules⟩ := List.forall_mem_cons.mp hname
    obtain ⟨hrb, hrulesb⟩ := List.forall_mem_cons.mp hbody
    obtain ⟨written, hwritten, hlowers⟩ := ih hrules hrulesb
    obtain ⟨w, hw, hlower⟩ := exists_rule_of_written hr hrb (writtenSource_spec hrules).1
    exact ⟨w :: written, parse_star_of rfl hw hwritten, .cons hlower hlowers⟩

end Source

/-- **Every list of well-formed rules has a source text.** Rules with distinct identifiers for names
and well-formed bodies, whatever their display names, are the rules of the grammar that their text
is parsed to. -/
theorem Grammar.parse_writtenSource {rules : List Rule} (hnodup : (rules.map Rule.name).Nodup)
    (hname : ∀ r ∈ rules, r.name.isIdentifier = true) (hbody : ∀ r ∈ rules, r.body.WellFormed) :
    ∃ g, Grammar.parse (writtenSource rules) [] = .ok g ∧
      g.rules = rules.map fun r => { r with start := false } := by
  obtain ⟨written, hwritten, hlowers⟩ := Source.exists_rules_of_written hname hbody
  obtain ⟨hsolid, hbrace⟩ := Source.writtenSource_spec hname
  have hread := Source.readRules_eq_ok_iff.mpr (Source.parse_grammar hsolid hbrace hwritten)
  have hnames : ((rules.map fun r => { r with start := false }).map Rule.name).Nodup := by
    rw [List.map_map]
    exact hnodup
  have hflag : flagStartRules [] (rules.map fun r => { r with start := false }) =
      .ok (rules.map fun r => { r with start := false }) := by
    simp [flagStartRules]
  refine ⟨⟨rules.map fun r => { r with start := false }, hnames⟩, ?_, rfl⟩
  simp only [Grammar.parse, bind_eq_ok, mapError_eq_ok, mapM_eq_ok]
  exact ⟨written, hread, _, List.forall₂_map_right_iff.mpr hlowers, _, hflag,
    Grammar.ofRules_eq_ok.mpr rfl⟩

/-- A rule whose display name holds a quote, a line break and a surrogate, with a predicate, a label
and literals that are not merged in its body. -/
theorem Grammar.parse_writtenSource_label :
    ∃ g, Grammar.parse (writtenSource
        [⟨"a", .sequence [.lookahead (.literals ["x", "\""] false) true none,
          .capture (.choice [.literals ["y"] true, .reference "b"]) (some "c") false], true,
          some (("\"\n" : Text) ++ [⟨0xD800, by decide⟩])⟩]) [] = .ok g ∧
      g.rules = [⟨"a", .sequence [.lookahead (.literals ["x", "\""] false) true none,
        .capture (.choice [.literals ["y"] true, .reference "b"]) (some "c") false], false,
        some (("\"\n" : Text) ++ [⟨0xD800, by decide⟩])⟩] :=
  Grammar.parse_writtenSource (by decide) (by decide) (by decide)

end RuleTypes
