import RuleTypes.Naming
import RuleTypes.Proofs.Declaration.Block

/-!
# The two layouts of a declaration

A declaration stands on a single line, or it is wrapped: its head, and then the members of its union
one by one, each behind a bar. What is written is the same in both, and which of them is chosen
depends on the width of the single line.

* `Declaration.single`, `Declaration.wrapped`: the two layouts.
* `Declaration.layout_cases`: which of them a declaration is written in.
* `Declaration.render_layout`: the layouts spelled out, with the same members in the same order.
-/

namespace RuleTypes

/-! ## Emitted lines -/

namespace Emitter

/-- A line that is not blank is emitted behind its indentation. -/
theorem emit_eq {e : Emitter} {line : Text} (h : line.isBlank = false) :
    e.emit line =
      { e with text := e.text ++ Text.line ((List.replicate e.level e.step).flatten ++ line) } := by
  rw [emit, h]
  rfl

theorem emitLines_eq {lines : List Text} (h : ∀ l ∈ lines, l.isBlank = false) (e : Emitter) :
    e.emitLines lines =
      { e with text := e.text ++
        (lines.map ((List.replicate e.level e.step).flatten ++ ·)).flatMap Text.line } := by
  induction lines generalizing e with
  | nil => simp [emitLines]
  | cons line lines ih =>
    obtain ⟨hline, hlines⟩ := List.forall_mem_cons.mp h
    change (e.emit line).emitLines lines = _
    rw [ih hlines, emit_eq hline]
    simp only [List.map_cons, List.flatMap_cons, List.append_assoc]

end Emitter

/-- Several types are written one by one. -/
theorem TsType.renderAll_eq_mapM (nameOf : Text → Text) (ts : List TsType) :
    renderAll nameOf ts = ts.mapM (render nameOf) := by
  induction ts with
  | nil => rfl
  | cons t ts ih =>
    rw [renderAll, List.mapM_cons, ih]

namespace Declaration

variable {nameOf : Text → Text} {d : Declaration} {text : Text}

/-! ## Members behind bars -/

/-- Every member stands behind a bar, and a semicolon behind the last. -/
theorem memberLines_concat (init : List Text) (last : Text) :
    memberLines (init ++ [last]) = init.map (("| " : Text) ++ ·) ++ ["| " ++ last ++ ";"] := by
  induction init with
  | nil => rfl
  | cons member init ih =>
    rw [List.map_cons, List.cons_append, List.cons_append, ← ih]
    cases init <;> rfl

theorem bar_prefix_of_mem_memberLines {texts : List Text} {l : Text} (h : l ∈ memberLines texts) :
    ("| " : Text) <+: l := by
  rcases List.eq_nil_or_concat texts with rfl | ⟨init, last, rfl⟩
  · cases h
  · rw [List.concat_eq_append, memberLines_concat, List.mem_append, List.mem_map,
      List.mem_singleton] at h
    rcases h with ⟨member, -, rfl⟩ | rfl
    · exact List.prefix_append _ _
    · exact List.append_assoc .. ▸ List.prefix_append _ _

/-! ## The layouts -/

/-- The declaration of a type with this text on a single line. -/
def single (d : Declaration) (text : Text) : Text :=
  (if d.exported then "export " else "") ++ "type " ++ d.identifier ++ " = " ++ text ++ ";"

/-- The declaration of a union with members of these texts on a line for each. -/
def wrapped (d : Declaration) (texts : List Text) : Text :=
  (d.head :: (memberLines texts).map (("  " : Text) ++ ·)).flatMap Text.line

theorem wrapped_concat (d : Declaration) (init : List Text) (last : Text) :
    d.wrapped (init ++ [last]) =
      d.head ++ "\n" ++ init.flatMap (fun t => ("  | " ++ t ++ "\n" : Text)) ++
        ("  | " ++ last ++ ";" ++ "\n") := by
  have hhead : Text.line d.head = d.head ++ "\n" := rfl
  have hline (t : Text) : Text.line ("  " ++ ("| " ++ t)) = "  | " ++ t ++ "\n" := rfl
  have hlast : Text.line ("  " ++ ("| " ++ last ++ ";")) = "  | " ++ last ++ ";" ++ "\n" := rfl
  rw [wrapped, memberLines_concat, List.flatMap_cons, List.map_append, List.flatMap_append,
    List.map_map, List.flatMap_map, List.map_singleton, List.flatMap_singleton, hhead, hlast]
  simp only [Function.comp_def, hline, List.append_assoc]

theorem single_eq (d : Declaration) (text : Text) :
    d.single text = d.head ++ " " ++ text ++ ";" := by
  unfold single head
  split <;> simp only [List.append_assoc] <;> rfl

/-- A type that is no union, and a union that is not too wide, is written on a single line. -/
theorem render_of_fits (htype : d.type.render nameOf = some text)
    (h : (∀ members, d.type ≠ .union members) ∨ (d.single text).length ≤ maxLineWidth) :
    d.render nameOf = some (d.single text).line := by
  simp only [single_eq] at h ⊢
  simp only [render, emit, htype, Option.bind_eq_bind, Option.bind_some]
  split
  · rename_i members hunion
    rw [if_pos (h.resolve_left fun hne => hne members hunion)]
    rfl
  · rfl

/-- A wide union is wrapped. -/
theorem render_of_wide {members : List TsType} {texts : List Text}
    (hunion : d.type = .union members) (htexts : TsType.renderAll nameOf members = some texts)
    (h : maxLineWidth < (d.single (Text.join " | " texts)).length) :
    d.render nameOf = some (d.wrapped texts) := by
  have hbars : ∀ l ∈ memberLines texts, l.isBlank = false := by
    intro l hl
    obtain ⟨rest, rfl⟩ := bar_prefix_of_mem_memberLines hl
    rfl
  rw [single_eq] at h
  simp only [render, emit, hunion, TsType.render, htexts, Option.bind_eq_bind, Option.bind_some,
    pure]
  rw [if_neg (Nat.not_le.mpr h), Emitter.emitLines_eq hbars]
  rfl

/-- A declaration whose type can be written is on a single line where it fits, and wrapped where it
does not. -/
theorem layout_cases (htype : d.type.render nameOf = some text) :
    (((∀ members, d.type ≠ .union members) ∨ (d.single text).length ≤ maxLineWidth) ∧
        d.render nameOf = some (d.single text).line) ∨
      ∃ members texts, d.type = .union members ∧ TsType.renderAll nameOf members = some texts ∧
        text = Text.join " | " texts ∧ maxLineWidth < (d.single text).length ∧
        d.render nameOf = some (d.wrapped texts) := by
  by_cases hfits : (∀ members, d.type ≠ .union members) ∨ (d.single text).length ≤ maxLineWidth
  · exact .inl ⟨hfits, render_of_fits htype hfits⟩
  · simp only [not_or, not_forall, not_not, Nat.not_le] at hfits
    obtain ⟨⟨members, hunion⟩, hwide⟩ := hfits
    rw [hunion, TsType.render] at htype
    obtain ⟨texts, htexts, hjoin⟩ := Option.bind_eq_some_iff.mp htype
    obtain rfl := Option.some.inj hjoin
    exact .inr ⟨members, texts, hunion, htexts, rfl, hwide, render_of_wide hunion htexts hwide⟩

/-- A declaration can be written where its type can. -/
theorem render_eq_none_iff : d.render nameOf = none ↔ d.type.render nameOf = none := by
  constructor
  · intro h
    rw [← Option.not_isSome_iff_eq_none, Option.isSome_iff_exists]
    rintro ⟨text, htype⟩
    rcases layout_cases htype with ⟨-, hrender⟩ | ⟨_, _, -, -, -, -, hrender⟩ <;>
      rw [h] at hrender <;> cases hrender
  · intro h
    simp only [render, emit, h, Option.bind_eq_bind, Option.bind_none]

/-- What is written of a declaration is one of its layouts. -/
theorem render_cases {piece : Text} (h : d.render nameOf = some piece) :
    (∃ text, d.type.render nameOf = some text ∧ piece = (d.single text).line) ∨
      ∃ members texts, d.type = .union members ∧ TsType.renderAll nameOf members = some texts ∧
        piece = d.wrapped texts := by
  cases htype : d.type.render nameOf with
  | none =>
    rw [render_eq_none_iff.mpr htype] at h
    cases h
  | some text =>
    rcases layout_cases htype with ⟨-, hrender⟩ | ⟨members, texts, hunion, htexts, -, -, hrender⟩
    · exact .inl ⟨text, rfl, Option.some.inj (h.symm.trans hrender)⟩
    · exact .inr ⟨members, texts, hunion, htexts, Option.some.inj (h.symm.trans hrender)⟩

/-- **The layouts of a declaration.** A declaration is written on a single line unless its type is a
union and the line is wider than 80 code points. Then its head stands on a line of its own and each
member on one of the next, two columns in and behind a bar, in order, with a semicolon behind the
last; and the head and these texts, joined by bars, are those of the single line. -/
theorem render_layout (nameOf : Text → Text) (d : Declaration) :
    (d.render nameOf = none ↔ d.type.render nameOf = none) ∧
      ∀ text, d.type.render nameOf = some text →
        ((∀ members, d.type ≠ .union members) ∨ (d.single text).length ≤ 80 →
          d.render nameOf = some (d.single text ++ "\n")) ∧
        ∀ members, d.type = .union members → members ≠ [] → 80 < (d.single text).length →
          ∃ init last,
            List.Forall₂ (fun m t => m.render nameOf = some t) members (init ++ [last]) ∧
            d.render nameOf = some (d.head ++ "\n" ++
              init.flatMap (fun t => ("  | " ++ t ++ "\n" : Text)) ++
                ("  | " ++ last ++ ";" ++ "\n")) ∧
            d.head ++ " " ++ Text.join " | " (init ++ [last]) ++ ";" = d.single text := by
  refine ⟨render_eq_none_iff, fun text htype => ⟨fun h => render_of_fits htype h, ?_⟩⟩
  intro members hunion hne hwide
  rw [hunion, TsType.render] at htype
  obtain ⟨texts, htexts, hjoin⟩ := Option.bind_eq_some_iff.mp htype
  obtain rfl := Option.some.inj hjoin
  have hmembers := mapM_eq_some.mp (TsType.renderAll_eq_mapM nameOf members ▸ htexts)
  rcases List.eq_nil_or_concat texts with rfl | ⟨init, last, rfl⟩
  · cases hmembers
    exact absurd rfl hne
  · rw [List.concat_eq_append] at *
    refine ⟨init, last, hmembers, ?_, (single_eq d _).symm⟩
    rw [render_of_wide hunion htexts hwide, wrapped_concat]

/-- A union whose single line is 80 code points wide, and one whose line has one more. -/
theorem render_layout_boundary :
    let declare (n : Nat) : Declaration :=
      ⟨"K", .union [.literal (List.replicate n (CodePoint.ofChar 'x')), .ref "other"], true⟩
    let text (n : Nat) : Text := "\"" ++ List.replicate n (CodePoint.ofChar 'x') ++ "\" | Other"
    (declare 53).render typeName = some ((declare 53).single (text 53) ++ "\n") ∧
      ∃ init last,
        List.Forall₂ (fun (m : TsType) t => m.render typeName = some t)
          [.literal (List.replicate 54 (CodePoint.ofChar 'x')), .ref "other"] (init ++ [last]) ∧
        (declare 54).render typeName = some ((declare 54).head ++ "\n" ++
          init.flatMap (fun t => ("  | " ++ t ++ "\n" : Text)) ++
            ("  | " ++ last ++ ";" ++ "\n")) ∧
        (declare 54).head ++ " " ++ Text.join " | " (init ++ [last]) ++ ";" =
          (declare 54).single (text 54) := by
  intro declare text
  have hfits : (declare 53).type.render typeName = some (text 53) := by decide
  have hwide : (declare 54).type.render typeName = some (text 54) := by decide
  exact ⟨((render_layout typeName (declare 53)).2 _ hfits).1 (.inr (by decide)),
    ((render_layout typeName (declare 54)).2 _ hwide).2 _ rfl (List.cons_ne_nil _ _) (by decide)⟩

end Declaration

end RuleTypes
