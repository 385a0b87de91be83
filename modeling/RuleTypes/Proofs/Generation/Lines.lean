import RuleTypes.Proofs.Declaration.Layout
import RuleTypes.Proofs.Generation.Variants
import RuleTypes.Proofs.Text.Literal

/-!
# The lines of a block

A declaration begins a line, and it goes on to other lines only with the members of a wide union,
each of which stands behind a bar. What is written for types holds no line feed, unless a given text
does. So the declarations of a block can be told by how its lines begin, whatever the literals of
the grammar hold.

* `TsType.OnLine`: the types that are written on one line.
* `HasLines`: a text as lines, the first behind a head and the others behind a bar.
* `Declaration.hasLines_of_render`: the lines of a declaration.
* `declaration_lines_of_parse`: the lines of a block.
-/

namespace RuleTypes

namespace Text

/-- Whether a text stands on one line. -/
def OnLine (t : Text) : Prop := CodePoint.ofChar '\n' ∉ t

instance (t : Text) : Decidable t.OnLine := inferInstanceAs (Decidable (¬ _ ∈ t))

variable {s t : Text}

theorem onLine_append : (s ++ t).OnLine ↔ s.OnLine ∧ t.OnLine := by
  simp only [OnLine, List.mem_append, not_or]

theorem onLine_literal (t : Text) : t.literal.OnLine := fun h =>
  absurd (inRange_literal h) (by decide)

theorem onLine_of_isIdentifier (h : t.isIdentifier = true) : t.OnLine := fun hmem =>
  absurd (isWord_of_isIdentifier h _ hmem) (by decide)

theorem onLine_join {separator : Text} {parts : List Text} (hseparator : separator.OnLine)
    (h : ∀ part ∈ parts, part.OnLine) : (join separator parts).OnLine := by
  induction parts with
  | nil => exact List.not_mem_nil
  | cons part parts ih =>
    obtain ⟨hpart, hparts⟩ := List.forall_mem_cons.mp h
    cases parts with
    | nil => rwa [join_singleton]
    | cons other parts =>
      rw [join_cons_cons, onLine_append, onLine_append]
      exact ⟨⟨hpart, hseparator⟩, ih hparts⟩

/-- Cutting lines at their line feeds gives the lines, and nothing behind the last. -/
theorem splitOn_lines {lines : List Text} (h : ∀ l ∈ lines, l.OnLine) :
    (lines.flatMap line).splitOn (CodePoint.ofChar '\n') = lines ++ [[]] := by
  induction lines with
  | nil => rfl
  | cons l lines ih =>
    obtain ⟨hl, hlines⟩ := List.forall_mem_cons.mp h
    rw [List.flatMap_cons, line, List.append_assoc, List.singleton_append,
      List.splitOn_append_cons_self_of_not_mem hl, ih hlines, List.cons_append]

end Text

/-! ## Types on one line -/

namespace TsType

/-- Whether a node of a type is written without a line feed. -/
def NodeOnLine (nameOf : Text → Text) : TsType → Prop
  | keyword name => name.OnLine
  | ref rule => (nameOf rule).OnLine
  | raw text => text.OnLine
  | _ => True

/-- Whether all nodes of a type are written without line feeds. -/
def OnLine (nameOf : Text → Text) (t : TsType) : Prop := ∀ n ∈ t.nodes, n.NodeOnLine nameOf

variable {nameOf : Text → Text}

theorem onLine_iff {t : TsType} :
    t.OnLine nameOf ↔ t.NodeOnLine nameOf ∧ ∀ c ∈ t.children, c.OnLine nameOf :=
  forall_mem_nodes_iff

mutual

/-- The text of such a type stands on one line. -/
theorem onLine_render : ∀ {t : TsType} {text : Text}, t.render nameOf = some text →
    t.OnLine nameOf → text.OnLine
  | unwritten, _, h, _ => by cases h
  | keyword name, _, h, ht => by
    obtain rfl := Option.some.inj h
    exact (onLine_iff.mp ht).1
  | literal value, _, h, _ => by
    obtain rfl := Option.some.inj h
    exact value.onLine_literal
  | ref rule, _, h, ht => by
    obtain rfl := Option.some.inj h
    exact (onLine_iff.mp ht).1
  | raw _, _, h, ht => by
    obtain rfl := Option.some.inj h
    exact (onLine_iff.mp ht).1
  | array element, _, h, ht => by
    rw [render] at h
    obtain ⟨inner, hinner, h⟩ := Option.bind_eq_some_iff.mp h
    obtain rfl := Option.some.inj h
    have hline := onLine_render hinner ((onLine_iff.mp ht).2 element (List.mem_singleton_self _))
    have hgrouped : ("(" ++ inner ++ ")" : Text).OnLine :=
      Text.onLine_append.mpr ⟨Text.onLine_append.mpr ⟨by decide, hline⟩, by decide⟩
    refine Text.onLine_append.mpr ⟨?_, by decide⟩
    split
    · exact hgrouped
    · exact hline
  | union members, _, h, ht => by
    rw [render] at h
    obtain ⟨texts, htexts, h⟩ := Option.bind_eq_some_iff.mp h
    obtain rfl := Option.some.inj h
    exact Text.onLine_join (by decide) (onLine_renderAll htexts (onLine_iff.mp ht).2)

theorem onLine_renderAll : ∀ {ts : List TsType} {texts : List Text},
    renderAll nameOf ts = some texts → (∀ t ∈ ts, t.OnLine nameOf) → ∀ text ∈ texts, text.OnLine
  | [], _, h, _ => by
    obtain rfl := Option.some.inj h
    exact nofun
  | t :: ts, _, h, hts => by
    obtain ⟨ht, hts⟩ := List.forall_mem_cons.mp hts
    rw [renderAll] at h
    obtain ⟨text, htext, h⟩ := Option.bind_eq_some_iff.mp h
    obtain ⟨texts, htexts, h⟩ := Option.bind_eq_some_iff.mp h
    obtain rfl := Option.some.inj h
    exact List.forall_mem_cons.mpr ⟨onLine_render htext ht, onLine_renderAll htexts hts⟩

end

/-- An inferred type is written on one line where the fallback and the identifiers are. -/
theorem Inferred.onLine {fallback : Text} {known : Text → Prop} {t : TsType}
    (h : t.Inferred fallback known) (hfallback : fallback.OnLine)
    (hnames : ∀ rule, known rule → (nameOf rule).OnLine) : t.OnLine nameOf := by
  intro n hn
  have hnode := h n hn
  cases n with
  | keyword name =>
    have hkeywords : ∀ k ∈ (["string", "null", "undefined", "never"] : List Text), k.OnLine := by
      decide
    refine hkeywords name ?_
    simpa [InferredNode, string, null, undefined, never] using hnode
  | ref rule => exact hnames rule hnode
  | raw text =>
    obtain rfl : text = fallback := hnode
    exact hfallback
  | _ => trivial

end TsType

/-! ## The lines of a declaration -/

/-- Whether a text is lines, the first of which begins with `head`, and the others with a bar two
columns in. -/
def HasLines (head piece : Text) (lines : List Text) : Prop :=
  piece = lines.flatMap Text.line ∧ (∀ l ∈ lines, l.OnLine) ∧
    ∃ first others, lines = first :: others ∧ head <+: first ∧
      ∀ l ∈ others, ("  | " : Text) <+: l

namespace Declaration

/-- The lines of a union's members hold no line feed where the members hold none. -/
theorem onLine_memberLines {members : List Text} (h : ∀ m ∈ members, m.OnLine) :
    ∀ l ∈ memberLines members, l.OnLine := by
  rcases List.eq_nil_or_concat members with rfl | ⟨init, last, rfl⟩
  · exact nofun
  · rw [List.concat_eq_append] at *
    rw [memberLines_concat]
    obtain ⟨hinit, hlast⟩ := List.forall_mem_append.mp h
    refine List.forall_mem_append.mpr ⟨List.forall_mem_map.mpr fun m hm => ?_, ?_⟩
    · exact Text.onLine_append.mpr ⟨by decide, hinit m hm⟩
    · refine List.forall_mem_singleton.mpr ?_
      exact Text.onLine_append.mpr
        ⟨Text.onLine_append.mpr ⟨by decide, hlast last (List.mem_singleton_self _)⟩, by decide⟩

/-- A declaration is lines: its head and its type, or its head and the members of its union. -/
theorem hasLines_of_render {nameOf : Text → Text} {d : Declaration} {piece : Text}
    (h : d.render nameOf = some piece) (hid : d.identifier.OnLine) (htype : d.type.OnLine nameOf) :
    ∃ lines, HasLines d.head piece lines := by
  have hhead : d.head.OnLine := by
    refine Text.onLine_append.mpr ⟨Text.onLine_append.mpr ⟨?_, hid⟩, by decide⟩
    split <;> decide
  rcases render_cases h with ⟨type, hrender, rfl⟩ | ⟨members, texts, hunion, htexts, rfl⟩
  · refine ⟨[d.single type], by simp, ?_, _, [], rfl, ?_, fun _ hl => absurd hl List.not_mem_nil⟩
    · refine List.forall_mem_singleton.mpr ?_
      have htext := TsType.onLine_render hrender htype
      rw [single_eq]
      refine Text.onLine_append.mpr ⟨Text.onLine_append.mpr ⟨?_, htext⟩, by decide⟩
      exact Text.onLine_append.mpr ⟨hhead, by decide⟩
    · exact ⟨" " ++ type ++ ";", by simp [single_eq]⟩
  · rw [hunion] at htype
    have hmembers := onLine_memberLines
      (TsType.onLine_renderAll htexts (TsType.onLine_iff.mp htype).2)
    refine ⟨_, rfl, List.forall_mem_cons.mpr ⟨hhead, List.forall_mem_map.mpr fun l hl => ?_⟩,
      _, _, rfl, List.prefix_rfl, List.forall_mem_map.mpr fun l hl => ?_⟩
    · exact Text.onLine_append.mpr ⟨by decide, hmembers l hl⟩
    · obtain ⟨rest, rfl⟩ := bar_prefix_of_mem_memberLines hl
      exact ⟨rest, rfl⟩

end Declaration

/-! ## The lines of a block -/

/-- Whether a line begins as declarations do. -/
def beginsDeclaration (line : Text) : Bool :=
  ("type " : Text).isPrefixOf line || ("export type " : Text).isPrefixOf line

theorem Declaration.beginsDeclaration_of_head {d : Declaration} {line : Text}
    (h : d.head <+: line) : beginsDeclaration line = true := by
  obtain ⟨rest, rfl⟩ := h
  unfold beginsDeclaration head
  simp only [Bool.or_eq_true, List.isPrefixOf_iff_prefix, List.append_assoc]
  split
  · exact .inr (List.prefix_append _ _)
  · exact .inl (List.prefix_append _ _)

theorem beginsDeclaration_of_bar {line : Text} (h : ("  | " : Text) <+: line) :
    beginsDeclaration line = false := by
  obtain ⟨rest, rfl⟩ := h
  rfl

/-- Of the lines of declarations just one for each begins as declarations do, with the head of its
own; all others begin with a bar. -/
theorem exists_lines {nameOf : Text → Text} {ds : List Declaration} {pieces : List Text}
    (h : List.Forall₂ (fun d piece => d.render nameOf = some piece) ds pieces)
    (hds : ∀ d ∈ ds, d.identifier.OnLine ∧ d.type.OnLine nameOf) :
    ∃ lines : List Text, pieces.flatten = lines.flatMap Text.line ∧ (∀ l ∈ lines, l.OnLine) ∧
      List.Forall₂ (· <+: ·) (ds.map Declaration.head) (lines.filter beginsDeclaration) ∧
      ∀ l ∈ lines, beginsDeclaration l = false → ("  | " : Text) <+: l := by
  induction h with
  | nil => exact ⟨[], rfl, nofun, .nil, nofun⟩
  | cons hrender _ ih =>
    obtain ⟨hd, hds⟩ := List.forall_mem_cons.mp hds
    obtain ⟨lines, hpieces, honline, hheads, hbars⟩ := ih hds
    obtain ⟨_, rfl, hfirst, first, others, rfl, hhead, hothers⟩ :=
      Declaration.hasLines_of_render hrender hd.1 hd.2
    have hbegins := Declaration.beginsDeclaration_of_head hhead
    have hnone : others.filter beginsDeclaration = [] :=
      List.filter_eq_nil_iff.mpr fun l hl =>
        Bool.eq_false_iff.mp (beginsDeclaration_of_bar (hothers l hl))
    refine ⟨first :: others ++ lines, ?_, List.forall_mem_append.mpr ⟨hfirst, honline⟩, ?_, ?_⟩
    · rw [List.flatten_cons, hpieces, List.flatMap_append]
    · rw [List.filter_append, List.filter_cons_of_pos hbegins, hnone]
      exact .cons hhead hheads
    · refine List.forall_mem_append.mpr ⟨List.forall_mem_cons.mpr ⟨fun hfalse => ?_, ?_⟩, hbars⟩
      · rw [hbegins] at hfalse
        cases hfalse
      · exact fun l hl _ => hothers l hl

variable {g : Grammar} {o : Overrides} {c : Config}

/-- The types of a grammar are written on one line where the given texts, the fallback and the
identifiers are. -/
theorem ResolvedType.Correct.onLine {t : ResolvedType} (h : t.Correct g o c) (hclosed : g.Closed)
    (hoverrides : ∀ rule text, o.get? rule = some text → text.OnLine)
    (hfallback : c.fallback.OnLine)
    (hnames : ∀ rule ∈ g.names, ((g.namer c).nameOf rule).OnLine) :
    t.type.OnLine (g.namer c).nameOf := by
  rcases h.answer.raw_or_inferred hclosed h.mem with ⟨last, text, hgiven, htype⟩ | hinferred
  · rw [htype]
    refine TsType.onLine_iff.mpr ⟨hoverrides last text ?_, nofun⟩
    have hgiven : o.explicit? g last = some text := hgiven
    unfold Overrides.explicit? at hgiven
    split at hgiven
    · exact hgiven
    · cases hgiven
  · exact hinferred.onLine hfallback hnames

/-- The heads of a grammar's declarations, in rule order. -/
theorem Grammar.map_head {types : List ResolvedType} (h : types.map ResolvedType.rule = g.names)
    (hcorrect : ∀ t ∈ types, t.Correct g o c) :
    (types.map (ResolvedType.declaration (g.namer c).nameOf)).map Declaration.head =
      g.names.map fun rule =>
        (if rule ∈ g.startRules then "export type " else "type ") ++ (g.namer c).nameOf rule ++
          " =" := by
  rw [← h, List.map_map, List.map_map]
  refine List.map_congr_left fun t ht => ?_
  have hexported := (hcorrect t ht).exported.trans Grammar.mem_startRules_iff.symm
  simp only [Function.comp_apply, ResolvedType.declaration, Declaration.head, hexported]

/-- **Every rule is declared once, and nothing breaks out of its declaration.** Where the given texts
and the fallback hold no line feed, the lines of a parsed grammar's declarations that begin with
`type ` or `export type ` are one for each rule, in rule order, and begin with the mark and the
identifier of the rule; every other line that is not empty begins with a bar two columns in. -/
theorem declaration_lines_of_parse {source : Text} {startRules : List Text}
    (h : Grammar.parse source startRules = .ok g) (hclosed : g.Closed)
    (hoverrides : ∀ rule text, o.get? rule = some text → text.OnLine)
    (hfallback : c.fallback.OnLine) :
    ∃ rest, generate g o c =
        .ok (c.header.getD defaultHeader ++ "\n" ++ banner ++ "\n" ++ rest) ∧
      (g.rules = [] → rest = []) ∧ (g.rules ≠ [] → ∃ lines, rest = lines ++ "\n") ∧
      List.Forall₂ (fun rule line =>
          ((if rule ∈ g.startRules then "export type " else "type ") ++ (g.namer c).nameOf rule ++
            " =" : Text) <+: line)
        g.names ((rest.splitOn (CodePoint.ofChar '\n')).filter beginsDeclaration) ∧
      ∀ line ∈ rest.splitOn (CodePoint.ofChar '\n'), line ≠ [] →
        beginsDeclaration line = false → ("  | " : Text) <+: line := by
  obtain ⟨types, htypes, hnames, hcorrect⟩ := resolveTypes_of_closed hclosed o c
  obtain ⟨text, htext, hblock⟩ := generate_of_closed hclosed htypes hcorrect
  have hidentifiers : ∀ rule ∈ g.names, ((g.namer c).nameOf rule).OnLine := fun rule hrule =>
    Text.onLine_of_isIdentifier
      (Namer.isIdentifier_nameOf hrule (Grammar.isIdentifier_of_parse h rule hrule))
  rw [renderBlock_eq, Option.map_eq_some_iff] at hblock
  obtain ⟨pieces, hpieces, rfl⟩ := hblock
  rw [mapM_eq_some] at hpieces
  obtain ⟨lines, hflatten, honline, hheads, hbars⟩ := exists_lines hpieces fun d hd => by
    obtain ⟨t, ht, rfl⟩ := List.mem_map.mp hd
    have hcorrect := hcorrect t ht
    exact ⟨hidentifiers _ hcorrect.mem,
      hcorrect.onLine hclosed hoverrides hfallback hidentifiers⟩
  have hsplit := Text.splitOn_lines honline
  have hlast : ([[]] : List Text).filter beginsDeclaration = [] := rfl
  refine ⟨pieces.flatten, ?_, fun hrules => ?_, fun hrules => ?_, ?_, ?_⟩
  · simpa [blockHead] using htext
  · rw [Grammar.names, hrules, List.map_nil, List.map_eq_nil_iff] at hnames
    rw [hnames] at hpieces
    cases hpieces
    rfl
  · rcases List.eq_nil_or_concat lines with rfl | ⟨lines, line, rfl⟩
    · rw [Grammar.map_head hnames hcorrect] at hheads
      have hnone : g.names = [] := List.map_eq_nil_iff.mp (List.forall₂_nil_right_iff.mp hheads)
      exact absurd (List.map_eq_nil_iff.mp hnone) hrules
    · refine ⟨lines.flatMap Text.line ++ line, ?_⟩
      rw [hflatten, List.concat_eq_append, List.flatMap_append, List.append_assoc,
        List.flatMap_singleton]
      rfl
  · rw [hflatten, hsplit, List.filter_append, hlast, List.append_nil]
    rwa [Grammar.map_head hnames hcorrect, List.forall₂_map_left_iff] at hheads
  · rw [hflatten, hsplit]
    intro line hline hne hbegins
    rcases List.mem_append.mp hline with hline | hline
    · exact hbars line hline hbegins
    · exact absurd (List.mem_singleton.mp hline) hne

/-- A literal that holds line feeds, in a union that is too wide for one line, and given texts that
begin as declarations do. -/
theorem declaration_lines_of_parse_wide :
    let source : Text := "a=\"\\ntype B = 1;\\n\\0\\0\\0\\0\\0\\0\\0\\0\"/b*\nb=. .\nc=."
    let g : Grammar :=
      ⟨[⟨"a", .choice [.literals ["\ntype B = 1;\n\x00\x00\x00\x00\x00\x00\x00\x00"] false,
          .repetition (.reference "b") false], false, none⟩,
        ⟨"b", .sequence [.anyChar, .anyChar], false, none⟩, ⟨"c", .anyChar, false, none⟩],
        by decide⟩
    let o : Overrides := .ofList [("c", "type D")]
    let c : Config := { fallback := "type E" }
    Grammar.parse source [] = .ok g ∧ g.Closed ∧
      (∀ rule text, o.get? rule = some text → text.OnLine) ∧ c.fallback.OnLine ∧
      ∃ rest, generate g o c =
          .ok (c.header.getD defaultHeader ++ "\n" ++ banner ++ "\n" ++ rest) ∧
        (g.rules = [] → rest = []) ∧ (g.rules ≠ [] → ∃ lines, rest = lines ++ "\n") ∧
        List.Forall₂ (fun rule line =>
            ((if rule ∈ g.startRules then "export type " else "type ") ++
              (g.namer c).nameOf rule ++ " =" : Text) <+: line)
          g.names ((rest.splitOn (CodePoint.ofChar '\n')).filter beginsDeclaration) ∧
        ∀ line ∈ rest.splitOn (CodePoint.ofChar '\n'), line ≠ [] →
          beginsDeclaration line = false → ("  | " : Text) <+: line := by
  intro source g o c
  have hparse : Grammar.parse source [] = .ok g := by
    set_option maxRecDepth 2000 in with_unfolding_all rfl
  have hclosed : g.Closed := by
    simp [g, Grammar.Closed, Grammar.Binds, Grammar.names, Expr.preorder, Expr.preorders]
  have hoverrides : ∀ rule text, o.get? rule = some text → text.OnLine := by
    intro rule text h
    have hlookup : [(("c" : Text), ("type D" : Text))].lookup rule = some text := h
    rw [List.lookup_cons] at hlookup
    split at hlookup
    · obtain rfl := Option.some.inj hlookup
      decide
    · cases hlookup
  exact ⟨hparse, hclosed, hoverrides, by decide,
    declaration_lines_of_parse hparse hclosed hoverrides (by decide)⟩

end RuleTypes
