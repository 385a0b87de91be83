import RuleTypes.Proofs.Declaration.Block
import RuleTypes.Proofs.Generation.Total
import RuleTypes.Proofs.Source.Decoding
import RuleTypes.Proofs.Source.Phrases

/-!
# What a source is parsed to and what is exported

Five things can come of a source text and a list of start rules: the text is no sequence of rules, a
bound of a range has too many digits, a start rule does not exist, two rules have one name, or there
is a grammar. The first of them that holds is what comes of it. The rules that the list asks for are
exported, and no others.

* `ParsesTo`: what comes of a source text, in order of precedence.
* `startsAmong`: the rules that a list of start rules asks for.
* `Grammar.ExportsExactly`: which rules are marked, among the types and in the block.
* `parsesTo_parse`: what parsing does, and what is exported of what has been parsed.
-/

namespace RuleTypes

/-! ## Outcomes -/

/-- Whether every string literal of a source can be decoded. -/
def Source.Decodable (source : Text) : Prop :=
  ∀ written, Matches source written →
    ∀ rule ∈ written, ∀ body ∈ rule.literalBodies, body.Decodable

/-- Whether no bound in a source has too many digits to be read. -/
def Source.ShortNumerals (source : Text) : Prop :=
  ∀ written, Matches source written →
    ∀ rule ∈ written, ∀ digits ∈ rule.numerals, digits.length ≤ Numeral.maxDigits

/-- Whether `name` is the first of a list that is none of `names`. -/
def FirstMissing (names list : List Text) (name : Text) : Prop :=
  ∃ before after, list = before ++ name :: after ∧ (∀ n ∈ before, n ∈ names) ∧ name ∉ names

/-- Whether `name` is the first of a list that stands in it before. -/
def FirstRepeated (list : List Text) (name : Text) : Prop :=
  ∃ before after, list = before ++ name :: after ∧ before.Nodup ∧ name ∈ before

/-- The rules that a list of start rules asks for: all where a star is in the list, the first where
the list is empty. -/
def startsAmong (starts names : List Text) : List Text :=
  if everyRule ∈ starts then names
  else if starts = [] then names.take 1
  else names.filter (· ∈ starts)

/-- What comes of a source text whose literals can be decoded, and a list of start rules, in order
of precedence. -/
inductive ParsesTo (source : Text) (starts : List Text) : Except Failure Grammar → Prop where
  | unmatched (message : Text) (line column : Int)
      (h : ∀ written, ¬ Source.Matches source written) :
      ParsesTo source starts (.error (.error (.syntaxError message line column)))
  | overlong {written : List Source.Rule} {rule : Source.Rule} {digits : Text}
      (h : Source.Matches source written) (hrule : rule ∈ written)
      (hdigits : digits ∈ rule.numerals) (hlong : Numeral.maxDigits < digits.length) :
      ParsesTo source starts (.error (.decoding .numeral))
  | undefined {written : List Source.Rule} {name : Text} (h : Source.Matches source written)
      (hshort : Source.ShortNumerals source) (hstar : everyRule ∉ starts)
      (hname : FirstMissing (written.map Source.Rule.name) starts name) :
      ParsesTo source starts (.error (.error (.undefinedRule name "allowed start rules")))
  | repeated {written : List Source.Rule} {name : Text} (h : Source.Matches source written)
      (hshort : Source.ShortNumerals source)
      (hstarts : everyRule ∈ starts ∨ ∀ n ∈ starts, n ∈ written.map Source.Rule.name)
      (hname : FirstRepeated (written.map Source.Rule.name) name) :
      ParsesTo source starts (.error (.error (.duplicateRule name)))
  | grammar {written : List Source.Rule} {g : Grammar} (h : Source.Matches source written)
      (hshort : Source.ShortNumerals source)
      (hstarts : everyRule ∈ starts ∨ ∀ n ∈ starts, n ∈ written.map Source.Rule.name)
      (hnames : g.names = written.map Source.Rule.name)
      (hstart : g.startRules = startsAmong starts g.names) :
      ParsesTo source starts (.ok g)

/-- Whether just the rules in `exported` are marked, among the types and in the block: every
declaration begins with its mark and the identifier of its rule. -/
def Grammar.ExportsExactly (g : Grammar) (o : Overrides) (c : Config) (exported : List Text) :
    Prop :=
  ∃ types pieces, resolveTypes g o c = .ok types ∧
    types.map ResolvedType.rule = g.names ∧
    (types.filter ResolvedType.exported).map ResolvedType.rule = exported ∧
    generate g o c = .ok (blockHead c.header ++ pieces.flatten) ∧
    List.Forall₂ (fun rule piece => ∃ rest, piece =
      (if rule ∈ exported then "export type " else "type ") ++ (g.namer c).nameOf rule ++ " =" ++
        rest) g.names pieces

namespace Source

/-- A text that is no sequence of rules is a syntax error. -/
theorem readRules_of_unmatched {source : Text} (h : ∀ written, ¬ Matches source written) :
    ∃ message line column, readRules source = .error (.syntaxError message line column) := by
  simp only [← readRules_eq_ok_iff_matches] at h
  unfold readRules at h ⊢
  split at h
  · exact absurd rfl (h _)
  all_goals exact ⟨_, _, _, rfl⟩

/-- A text is read as one sequence of rules at most. -/
theorem Matches.unique {source : Text} {written written' : List Rule} (h : Matches source written)
    (h' : Matches source written') : written = written' := by
  rw [← readRules_eq_ok_iff_matches] at h h'
  exact Except.ok.inj (h.symm.trans h')

/-- The rules of a text can be lowered where its literals can be decoded and its bounds read. -/
theorem Matches.exists_lower_iff {source : Text} {written : List Rule}
    (h : Matches source written) :
    (∃ rules, written.mapM Rule.lower = .ok rules) ↔ Decodable source ∧ ShortNumerals source := by
  rw [exists_mapM_lower_iff]
  constructor
  · intro hrules
    constructor <;> intro written' h' rule hrule <;> obtain rfl := h.unique h'
    · exact (hrules rule hrule).1
    · exact (hrules rule hrule).2
  · rintro ⟨hdecodable, hshort⟩ rule hrule
    exact ⟨hdecodable written h rule hrule, hshort written h rule hrule⟩

/-- What has been parsed has been decoded. -/
theorem decodes_of_parse {source : Text} {starts : List Text} {g : Grammar}
    (h : Grammar.parse source starts = .ok g) : Decodable source ∧ ShortNumerals source := by
  simp only [Grammar.parse, bind_eq_ok, mapError_eq_ok] at h
  obtain ⟨written, hread, rules, hrules, -⟩ := h
  exact (readRules_eq_ok_iff_matches.mp hread).exists_lower_iff.mp ⟨rules, hrules⟩

theorem map_name_of_lower {written : List Rule} {rules : List RuleTypes.Rule}
    (h : written.mapM Rule.lower = .ok rules) :
    rules.map RuleTypes.Rule.name = written.map Rule.name := by
  rw [mapM_eq_ok] at h
  induction h with
  | nil => rfl
  | cons hrule _ ih =>
    obtain ⟨_, _, -, -, rfl⟩ := Rule.lower_eq_ok.mp hrule
    rw [List.map_cons, List.map_cons, ih]

end Source

/-! ## Start rules -/

/-- The rule with the flag that a list of start rules gives it. -/
def Rule.flagged (starts : List Text) (rule : Rule) : Rule :=
  { rule with start := everyRule ∈ starts || rule.name ∈ starts }

theorem map_name_flagged (starts : List Text) (rules : List Rule) :
    (rules.map (Rule.flagged starts)).map Rule.name = rules.map Rule.name := by
  rw [List.map_map]
  rfl

/-- The first name that no rule bears is reported; where there is none, or every rule is asked for,
the rules are flagged. -/
theorem flagStartRules_spec (starts : List Text) (rules : List Rule) :
    (∃ name, everyRule ∉ starts ∧ FirstMissing (rules.map Rule.name) starts name ∧
      flagStartRules starts rules = .error (.undefinedRule name "allowed start rules")) ∨
    ((everyRule ∈ starts ∨ ∀ n ∈ starts, n ∈ rules.map Rule.name) ∧
      flagStartRules starts rules = .ok (rules.map (Rule.flagged starts))) := by
  unfold flagStartRules
  by_cases hstar : everyRule ∈ starts
  · rw [if_pos hstar]
    refine .inr ⟨.inl hstar, congrArg Except.ok (List.map_congr_left fun rule _ => ?_)⟩
    rw [Rule.flagged, decide_eq_true hstar, Bool.true_or]
  · rw [if_neg hstar]
    cases hfind : starts.find? (· ∉ rules.map Rule.name) with
    | none =>
      refine .inr ⟨.inr fun n hn => ?_, congrArg Except.ok (List.map_congr_left fun rule _ => ?_)⟩
      · simpa using List.find?_eq_none.mp hfind n hn
      · rw [Rule.flagged, decide_eq_false hstar, Bool.false_or]
    | some name =>
      obtain ⟨hname, before, after, hsplit, hbefore⟩ := List.find?_eq_some_iff_append.mp hfind
      refine .inl ⟨name, hstar, ⟨before, after, hsplit, fun n hn => ?_, ?_⟩, rfl⟩
      · simpa using hbefore n hn
      · simpa using hname

theorem firstRepeated?_eq_some {seen names : List Text} {name : Text}
    (h : firstRepeated? seen names = some name) :
    ∃ before after, names = before ++ name :: after ∧ before.Nodup ∧ (∀ n ∈ before, n ∉ seen) ∧
      (name ∈ seen ∨ name ∈ before) := by
  induction names generalizing seen with
  | nil => cases h
  | cons n names ih =>
    rw [firstRepeated?] at h
    split at h
    · rename_i hseen
      obtain rfl := Option.some.inj h
      exact ⟨[], names, rfl, List.nodup_nil, by simp, .inl hseen⟩
    · rename_i hseen
      obtain ⟨before, after, rfl, hnodup, hfresh, hname⟩ := ih h
      simp only [List.mem_cons, not_or] at hfresh hname
      refine ⟨n :: before, after, rfl, List.nodup_cons.mpr ⟨fun hn => (hfresh n hn).1 rfl, hnodup⟩,
        List.forall_mem_cons.mpr ⟨hseen, fun m hm => (hfresh m hm).2⟩, ?_⟩
      rw [List.mem_cons]
      tauto

/-- The first name that is repeated is reported; where there is none, the rules are a grammar. -/
theorem Grammar.ofRules_spec (rules : List Rule) :
    (∃ name, FirstRepeated (rules.map Rule.name) name ∧
      Grammar.ofRules rules = .error (.duplicateRule name)) ∨
    ∃ g, g.rules = rules ∧ Grammar.ofRules rules = .ok g := by
  cases h : Grammar.ofRules rules with
  | ok g => exact .inr ⟨g, Grammar.ofRules_eq_ok.mp h, rfl⟩
  | error e =>
    unfold ofRules at h
    split at h
    · rename_i name hname
      cases h
      obtain ⟨before, after, hsplit, hnodup, -, hmem⟩ := firstRepeated?_eq_some hname
      exact .inl ⟨name, ⟨before, after, hsplit, hnodup,
        hmem.resolve_left List.not_mem_nil⟩, rfl⟩
    · cases h

/-- The start rules of flagged rules are those that the list asks for. -/
theorem Grammar.startRules_of_flags {g : Grammar} {starts : List Text} {rules : List Rule}
    (hrules : g.rules = rules.map (Rule.flagged starts))
    (hstarts : everyRule ∈ starts ∨ ∀ n ∈ starts, n ∈ g.names) :
    g.startRules = startsAmong starts g.names := by
  have hflag : ∀ rule ∈ g.rules, rule.start = (everyRule ∈ starts || rule.name ∈ starts) := by
    rw [hrules]
    intro rule hrule
    obtain ⟨rule, -, rfl⟩ := List.mem_map.mp hrule
    rfl
  by_cases hflagged : ∃ rule ∈ g.rules, rule.start = true
  · obtain ⟨rule, hmem, hstart⟩ := hflagged
    have hasked : (everyRule ∈ starts || rule.name ∈ starts) = true := hflag rule hmem ▸ hstart
    have hfilter : (g.rules.filter Rule.start).map Rule.name =
        g.names.filter fun n => everyRule ∈ starts || n ∈ starts := by
      rw [names, List.filter_map]
      exact congrArg (List.map Rule.name) (List.filter_congr hflag)
    rw [startRules_of_flagged hmem hstart, hfilter, startsAmong]
    by_cases hstar : everyRule ∈ starts
    · simp [hstar]
    · have hne : starts ≠ [] := by
        rintro rfl
        simp [hstar] at hasked
      simp [hstar, hne]
  · have hnone : ∀ rule ∈ g.rules, rule.start = false := fun rule hrule =>
      Bool.eq_false_iff.mpr fun hstart => hflagged ⟨rule, hrule, hstart⟩
    rw [startRules_of_unflagged hnone, startsAmong, ← List.take_one]
    by_cases hstar : everyRule ∈ starts
    · -- A rule would be flagged, so there is none.
      have hempty : g.rules = [] := List.eq_nil_iff_forall_not_mem.mpr fun rule hrule => by
        have hfalse := hnone rule hrule
        simp [hflag rule hrule, hstar] at hfalse
      rw [if_pos hstar, names, hempty]
      rfl
    · have hnil : starts = [] := List.eq_nil_iff_forall_not_mem.mpr fun n hn => by
        obtain ⟨rule, hrule, rfl⟩ := List.mem_map.mp (hstarts.resolve_left hstar n hn)
        have hfalse := hnone rule hrule
        simp [hflag rule hrule, hn] at hfalse
      rw [if_neg hstar, if_pos hnil]

/-! ## Exports -/

/-- What a part of a list without repeats holds, taken from the list, is that part. -/
theorem filter_mem_of_sublist {part list : List Text} (h : part.Sublist list)
    (hnodup : list.Nodup) : list.filter (· ∈ part) = part := by
  induction h with
  | slnil => rfl
  | cons a hsub ih =>
    obtain ⟨ha, hnodup⟩ := List.nodup_cons.mp hnodup
    rw [List.filter_cons_of_neg (by simpa using fun hmem => ha (hsub.subset hmem)), ih hnodup]
  | @cons_cons part list a hsub ih =>
    obtain ⟨ha, hnodup⟩ := List.nodup_cons.mp hnodup
    have hothers : list.filter (· ∈ a :: part) = list.filter (· ∈ part) :=
      List.filter_congr fun b hb => by
        have hne : b ≠ a := fun hba => ha (hba ▸ hb)
        simp [hne]
    rw [List.filter_cons_of_pos (by simp), hothers, ih hnodup]

theorem Grammar.startRules_sublist (g : Grammar) : g.startRules.Sublist g.names := by
  refine List.Sublist.map Rule.name ?_
  split
  · exact List.take_sublist 1 g.rules
  · exact List.filter_sublist

/-- The start rules of a closed grammar are exported, and no others. -/
theorem Grammar.exportsExactly_startRules {g : Grammar} (hclosed : g.Closed) (o : Overrides)
    (c : Config) : g.ExportsExactly o c g.startRules := by
  obtain ⟨types, htypes, hnames, hcorrect⟩ := resolveTypes_of_closed hclosed o c
  obtain ⟨text, htext, hblock⟩ := generate_of_closed hclosed htypes hcorrect
  rw [renderBlock_eq, Option.map_eq_some_iff] at hblock
  obtain ⟨pieces, hpieces, rfl⟩ := hblock
  have hexported : ∀ t ∈ types, t.exported = decide (t.rule ∈ g.startRules) := fun t ht => by
    rw [Bool.eq_iff_iff, decide_eq_true_iff, (hcorrect t ht).exported, mem_startRules_iff]
  refine ⟨types, pieces, htypes, hnames, ?_, htext, ?_⟩
  · calc (types.filter ResolvedType.exported).map ResolvedType.rule
        = (types.filter fun t => t.rule ∈ g.startRules).map ResolvedType.rule :=
          congrArg _ (List.filter_congr hexported)
      _ = (types.map ResolvedType.rule).filter (· ∈ g.startRules) := by
          rw [List.filter_map]
          rfl
      _ = g.startRules := by rw [hnames, filter_mem_of_sublist g.startRules_sublist g.nodup]
  · rw [mapM_eq_some, List.forall₂_map_left_iff] at hpieces
    rw [← hnames, List.forall₂_map_left_iff]
    refine ((List.forall₂_and_left types pieces).mpr ⟨hexported, hpieces⟩).imp ?_
    rintro t piece ⟨hexport, hpiece⟩
    obtain ⟨rest, rfl⟩ := Declaration.exists_append_of_render hpiece
    refine ⟨rest, ?_⟩
    simp only [Declaration.head, ResolvedType.declaration, hexport, decide_eq_true_eq]

/-! ## Parsing -/

theorem Grammar.parse_of_unmatched {source : Text} (h : ∀ written, ¬ Source.Matches source written)
    (starts : List Text) :
    ∃ message line column,
      Grammar.parse source starts = .error (.error (.syntaxError message line column)) := by
  obtain ⟨message, line, column, hread⟩ := Source.readRules_of_unmatched h
  refine ⟨message, line, column, ?_⟩
  rw [parse, hread]
  rfl

/-- A text that cannot be decoded does not get as far as its start rules. -/
theorem Grammar.parse_of_lower_error {source : Text} {written : List Source.Rule}
    {e : DecodingError} (h : Source.Matches source written)
    (hrules : written.mapM Source.Rule.lower = .error e) (starts : List Text) :
    Grammar.parse source starts = .error (.decoding e) := by
  rw [parse, Source.readRules_eq_ok_iff_matches.mpr h]
  simp only [Except.mapError, bind, Except.bind, hrules]

/-- Once a text has been read and decoded, start rules are looked at and then repeated names. -/
theorem Grammar.parse_of_lower {source : Text} {written : List Source.Rule} {rules : List Rule}
    (h : Source.Matches source written) (hrules : written.mapM Source.Rule.lower = .ok rules)
    (starts : List Text) :
    Grammar.parse source starts =
      ((flagStartRules starts rules >>= Grammar.ofRules).mapError .error) := by
  rw [parse, Source.readRules_eq_ok_iff_matches.mpr h]
  simp only [Except.mapError, bind, Except.bind, hrules]
  cases flagStartRules starts rules <;> rfl

/-- A text that has been decoded has a start rule too many, a rule too many, or a grammar. -/
theorem Grammar.parsesTo_of_lower {source : Text} {written : List Source.Rule} {rules : List Rule}
    (h : Source.Matches source written) (hrules : written.mapM Source.Rule.lower = .ok rules)
    (starts : List Text) : ParsesTo source starts (Grammar.parse source starts) := by
  have hshort := (h.exists_lower_iff.mp ⟨rules, hrules⟩).2
  have hnames := Source.map_name_of_lower hrules
  rw [parse_of_lower h hrules]
  rcases flagStartRules_spec starts rules with ⟨name, hstar, hmissing, hflag⟩ | ⟨hstarts, hflag⟩
  · rw [hflag]
    exact .undefined h hshort hstar (hnames ▸ hmissing)
  · rw [hflag]
    rw [hnames] at hstarts
    change ParsesTo source starts ((ofRules (rules.map (Rule.flagged starts))).mapError .error)
    rcases ofRules_spec (rules.map (Rule.flagged starts)) with
      ⟨name, hrepeated, hof⟩ | ⟨g, hg, hof⟩
    · rw [hof]
      rw [map_name_flagged, hnames] at hrepeated
      exact .repeated h hshort hstarts hrepeated
    · have hgnames : g.names = written.map Source.Rule.name := by
        rw [names, hg, map_name_flagged, hnames]
      rw [hof]
      exact .grammar h hshort hstarts hgnames (startRules_of_flags hg (hgnames ▸ hstarts))

theorem Grammar.parsesTo {source : Text} (h : Source.Decodable source) (starts : List Text) :
    ParsesTo source starts (Grammar.parse source starts) := by
  by_cases hmatches : ∃ written, Source.Matches source written
  · obtain ⟨written, hwritten⟩ := hmatches
    cases hrules : written.mapM Source.Rule.lower with
    | ok rules => exact parsesTo_of_lower hwritten hrules starts
    | error e =>
      -- The literals are not at fault, so a bound is.
      obtain rfl := Source.eq_numeral_of_mapM_lower hrules (h written hwritten)
      have hlong : ¬ Source.ShortNumerals source := fun hshort => by
        obtain ⟨rules, hok⟩ := hwritten.exists_lower_iff.mpr ⟨h, hshort⟩
        rw [hrules] at hok
        cases hok
      simp only [Source.ShortNumerals, not_forall, Nat.not_le] at hlong
      obtain ⟨written', hwritten', rule, hrule, digits, hdigits, hlong⟩ := hlong
      rw [parse_of_lower_error hwritten hrules]
      exact .overlong hwritten' hrule hdigits hlong
  · obtain ⟨message, line, column, hparse⟩ := parse_of_unmatched (not_exists.mp hmatches) starts
    rw [hparse]
    exact .unmatched message line column (not_exists.mp hmatches)

/-- **What parsing does is decided in a fixed order.** Where the literals of a source can be
decoded, a text that is no sequence of rules comes first, then a bound with too many digits, then
the first start rule that does not exist, then the first rule whose name is taken. Otherwise there is
a grammar with the rules of the text, whose start rules are those that are asked for; and if no
reference dangles, they are marked as exported among the types and in the block, and no others. -/
theorem parsesTo_parse {source : Text} (h : Source.Decodable source) (starts : List Text) :
    ParsesTo source starts (Grammar.parse source starts) ∧
    ((∃ message line column,
        Grammar.parse source starts = .error (.error (.syntaxError message line column))) ↔
      ∀ written, ¬ Source.Matches source written) ∧
    ∀ g, Grammar.parse source starts = .ok g → g.Closed → ∀ o c,
      g.ExportsExactly o c (startsAmong starts g.names) := by
  have hparses := Grammar.parsesTo h starts
  refine ⟨hparses, ⟨?_, fun hunmatched => Grammar.parse_of_unmatched hunmatched starts⟩, ?_⟩
  · rintro ⟨message, line, column, hparse⟩
    rw [hparse] at hparses
    cases hparses with
    | unmatched _ _ _ hunmatched => exact hunmatched
  · intro g hparse hclosed o c
    rw [hparse] at hparses
    cases hparses with
    | grammar _ _ _ _ hstart => exact hstart ▸ Grammar.exportsExactly_startRules hclosed o c

/-- Two of three rules are asked for, out of order and one of them twice; one literal is an escape
with the greatest number. -/
theorem parsesTo_parse_asked :
    let source : Text := "a=b\nb=\"\\u\x7b10FFFF\x7d\"\nc'd'=a/c"
    let starts : List Text := ["c", "a", "c"]
    let g : Grammar :=
      ⟨[⟨"a", .reference "b", true, none⟩,
        ⟨"b", .literals [[⟨0x10FFFF, by decide⟩]] false, false, none⟩,
        ⟨"c", .choice [.reference "a", .reference "c"], true, some "d"⟩], by decide⟩
    Grammar.parse source starts = .ok g ∧ g.Closed ∧ startsAmong starts g.names = ["a", "c"] ∧
      Source.Decodable source ∧
      ParsesTo source starts (Grammar.parse source starts) ∧
      ((∃ message line column,
          Grammar.parse source starts = .error (.error (.syntaxError message line column))) ↔
        ∀ written, ¬ Source.Matches source written) ∧
      ∀ g, Grammar.parse source starts = .ok g → g.Closed → ∀ o c,
        g.ExportsExactly o c (startsAmong starts g.names) := by
  intro source starts g
  have hparse : Grammar.parse source starts = .ok g := by
    set_option maxRecDepth 2000 in with_unfolding_all rfl
  have hclosed : g.Closed := by
    simp [g, Grammar.Closed, Grammar.Binds, Grammar.names, Expr.preorder, Expr.preorders]
  have hdecodable := (Source.decodes_of_parse hparse).1
  exact ⟨hparse, hclosed, by decide, hdecodable, parsesTo_parse hdecodable starts⟩

/-! ## A number that is too long -/

namespace Source

open Expression

/-- A rule for as many code points as a number says. -/
def countedRule (digits : Text) : Rule where
  name := "a"
  displayName := none
  body := .last (.alternative (.one (.element false none
    (.operand none .anyChar (.range ⟨some digits, none⟩)))) none)

/-- The rule is read with all the digits of the number. -/
theorem matches_countedRule {digits : Text} (hdigits : digits.all CodePoint.isDigit = true)
    (hne : digits ≠ []) : Matches ("a=.|" ++ digits ++ "|;") [countedRule digits] := by
  let e : Text := [CodePoint.ofChar ';']
  let r : Text := CodePoint.ofChar '|' :: (digits ++ CodePoint.ofChar '|' :: e)
  have hsuffix : parse (rule .suffix) r = some (.range ⟨some digits, none⟩, e) :=
    parse_range hdigits hne rfl
  have hoperand : parse (rule .prefixed) (CodePoint.ofChar '.' :: r) =
      some (.operand none .anyChar (.range ⟨some digits, none⟩), e) :=
    parse_operand rfl (parse_suffixed (parse_primary_anyChar rfl) hsuffix)
  have helement := parse_labeled (parse_opt_none (parse_pluck_none (by decide) r))
    (parse_opt_none (parse_label_none rfl r)) hoperand
  have hchoice : parse (rule .choice) (CodePoint.ofChar '.' :: r) =
      some ((countedRule digits).body, e) :=
    parse_choice
      (parse_actionExpr (parse_sequence helement (parse_star_none (parse_labeled_none rfl [])))
        (parse_opt_none (parse_action_none (by decide))))
      (parse_star_none (parse_right_none (parse_token_none (by decide) []) _))
  have hname : parse (rule .identifier)
      (Text.ofString "a" ++ CodePoint.ofChar '=' :: CodePoint.ofChar '.' :: r) =
        some (Text.ofString "a", CodePoint.ofChar '=' :: CodePoint.ofChar '.' :: r) :=
    parse_identifier rfl rfl
  have hrule := parse_definition hname rfl
    (parse_opt_none (parse_displayName_none (by decide) (by decide) _)) rfl hchoice rfl
  have hsource : ("a=.|" : Text) ++ digits ++ "|;" =
      Text.ofString "a" ++ CodePoint.ofChar '=' :: CodePoint.ofChar '.' :: r := by
    rw [List.append_assoc]
    rfl
  rw [matches_iff, hsource]
  exact parse_grammar rfl (show some (CodePoint.ofChar 'a') ≠ some _ by decide)
    (parse_star_of rfl hrule rfl)

/-- The only thing to be decoded in the rule is its number. -/
theorem lower_countedRule {digits : Text} (hlong : Numeral.maxDigits < digits.length) :
    [countedRule digits].mapM Rule.lower = .error .numeral := by
  have hencoded : [countedRule digits].flatMap Rule.encoded = [.numeral digits] := rfl
  rw [← errorOf?_eq_some_iff, errorOf?_mapM_lower, hencoded, List.findSome?_singleton,
    Encoded.error?_numeral, if_neg (Nat.not_le.mpr hlong)]

theorem Matches.decodable_of_countedRule {source digits : Text}
    (h : Matches source [countedRule digits]) : Decodable source := by
  intro written hwritten rule hrule body hbody
  obtain rfl := h.unique hwritten
  obtain rfl := List.mem_singleton.mp hrule
  cases hbody

end Source

/-- A minimum with one digit too many, in a source without literals. -/
theorem parsesTo_parse_overlong :
    let source : Text := "a=.|" ++ List.replicate 4301 (CodePoint.ofChar '1') ++ "|;"
    Source.Decodable source ∧ (∃ written, Source.Matches source written) ∧
      Grammar.parse source [] = .error (.decoding .numeral) := by
  intro source
  have hlong : Numeral.maxDigits < (List.replicate 4301 (CodePoint.ofChar '1')).length := by
    rw [List.length_replicate]
    decide
  have hdigits : (List.replicate 4301 (CodePoint.ofChar '1')).all CodePoint.isDigit = true := by
    rw [List.all_replicate]
    rfl
  have hwritten := Source.matches_countedRule hdigits
    (List.ne_nil_of_length_pos (Nat.zero_lt_of_lt hlong))
  exact ⟨hwritten.decodable_of_countedRule, ⟨_, hwritten⟩,
    Grammar.parse_of_lower_error hwritten (Source.lower_countedRule hlong) []⟩

end RuleTypes
