import Mathlib.Data.List.Forall2
import RuleTypes.Declaration.Basic

/-!
# Blocks of declarations

Emitting only appends, and a declaration leaves the indentation as it found it. So a block is its
header, its banner and the texts of its declarations, each as it is written alone.

* `Emitter.behind`: an emitter with more text before what it has emitted; every step keeps it there.
* `Declaration.emit_spec`: a declaration is emitted as it is written alone.
* `renderBlock_eq`: the text of a block.
* `Declaration.exists_append_of_render`: a declaration begins with its mark, its identifier and the
  equals sign.
-/

namespace RuleTypes

/-- A partial map over a list has a value where it has one on every member. -/
theorem mapM_eq_some {α β : Type} {f : α → Option β} {as : List α} {bs : List β} :
    as.mapM f = some bs ↔ List.Forall₂ (fun a b => f a = some b) as bs := by
  induction as generalizing bs with
  | nil => cases bs <;> simp
  | cons a as ih =>
    simp only [List.mapM_cons, Option.bind_eq_bind, Option.bind_eq_some_iff, Option.pure_def,
      Option.some.injEq, ih, List.forall₂_cons_left_iff]
    constructor
    · rintro ⟨b, hb, bs, hbs, rfl⟩
      exact ⟨b, bs, hb, hbs, rfl⟩
    · rintro ⟨b, bs, hb, hbs, rfl⟩
      exact ⟨b, hb, bs, hbs, rfl⟩

/-- The text with a line feed behind it. -/
def Text.line (t : Text) : Text := t ++ [CodePoint.ofChar '\n']

namespace Emitter

/-- The emitter with `t` before what it has emitted. -/
def behind (t : Text) (e : Emitter) : Emitter := { e with text := t ++ e.text }

variable (t line : Text) (e : Emitter)

theorem emit_behind : (e.behind t).emit line = (e.emit line).behind t := by
  simp only [emit, behind, List.append_assoc]

theorem emitRaw_behind : (e.behind t).emitRaw line = (e.emitRaw line).behind t := by
  simp only [emitRaw, behind, List.append_assoc]

theorem indent_behind : (e.behind t).indent = e.indent.behind t := rfl

theorem dedent_behind : (e.behind t).dedent = e.dedent.behind t := rfl

theorem emitLines_behind (lines : List Text) :
    (e.behind t).emitLines lines = (e.emitLines lines).behind t := by
  induction lines generalizing e with
  | nil => rfl
  | cons line lines ih =>
    change ((e.behind t).emit line).emitLines lines = ((e.emit line).emitLines lines).behind t
    rw [emit_behind, ih]

/-- Emitting lines appends whole lines and changes nothing else. -/
theorem exists_emitLines (lines : List Text) :
    ∃ added : List Text,
      e.emitLines lines = { e with text := e.text ++ added.flatMap Text.line } := by
  induction lines generalizing e with
  | nil => exact ⟨[], by rw [List.flatMap_nil, List.append_nil]; rfl⟩
  | cons line lines ih =>
    obtain ⟨first, hfirst⟩ : ∃ first : Text,
      e.emit line = { e with text := e.text ++ first.line } := ⟨_, rfl⟩
    obtain ⟨added, hadded⟩ := ih (e.emit line)
    refine ⟨first :: added, ?_⟩
    change (e.emit line).emitLines lines = _
    rw [hadded, hfirst, List.flatMap_cons, List.append_assoc]

end Emitter

namespace Declaration

variable {nameOf : Text → Text}

/-- A declaration is emitted on one line, or its head and the members of its union are. -/
theorem emit_cases {e e' : Emitter} {d : Declaration} (h : d.emit nameOf e = some e') :
    (∃ type, d.type.render nameOf = some type ∧ e' = e.emitRaw (d.head ++ " " ++ type ++ ";")) ∨
      ∃ members texts, d.type = .union members ∧ TsType.renderAll nameOf members = some texts ∧
        e' = ((e.emitRaw d.head).indent.emitLines (memberLines texts)).dedent := by
  simp only [emit, Option.bind_eq_bind, Option.bind_eq_some_iff] at h
  obtain ⟨type, htype, h⟩ := h
  split at h
  · rename_i members hunion
    split at h
    · exact .inl ⟨type, htype, (Option.some.inj h).symm⟩
    · obtain ⟨texts, htexts, h⟩ := Option.bind_eq_some_iff.mp h
      exact .inr ⟨members, texts, hunion, htexts, (Option.some.inj h).symm⟩
  · exact .inl ⟨type, htype, (Option.some.inj h).symm⟩

/-- What has been emitted before does not matter to a declaration. -/
theorem emit_behind (t : Text) (e : Emitter) (d : Declaration) :
    d.emit nameOf (e.behind t) = (d.emit nameOf e).map (Emitter.behind t) := by
  unfold emit
  cases d.type.render nameOf with
  | none => rfl
  | some type =>
    simp only [Option.bind_eq_bind, Option.bind_some]
    split
    · split
      · simp only [Emitter.emitRaw_behind, Option.map_some, pure]
      · rename_i members _ _
        cases TsType.renderAll nameOf members with
        | none => rfl
        | some texts =>
          simp only [Option.bind_some, Emitter.emitRaw_behind, Emitter.indent_behind,
            Emitter.emitLines_behind, Emitter.dedent_behind, Option.map_some, pure]
    · simp only [Emitter.emitRaw_behind, Option.map_some, pure]

/-- A declaration appends whole lines and changes nothing else. -/
theorem exists_emit {e e' : Emitter} {d : Declaration} (h : d.emit nameOf e = some e') :
    ∃ added : List Text, e' = { e with text := e.text ++ added.flatMap Text.line } := by
  rcases emit_cases h with ⟨type, -, rfl⟩ | ⟨members, texts, -, -, rfl⟩
  · refine ⟨[d.head ++ " " ++ type ++ ";"], ?_⟩
    rw [List.flatMap_singleton]
    rfl
  · obtain ⟨added, hadded⟩ := (e.emitRaw d.head).indent.exists_emitLines (memberLines texts)
    refine ⟨d.head :: added, ?_⟩
    rw [hadded, List.flatMap_cons, ← List.append_assoc]
    rfl

/-- Behind any text a declaration is emitted as it is written alone. -/
theorem emit_spec (t : Text) (d : Declaration) :
    d.emit nameOf { text := t } =
      (d.render nameOf).map fun piece => ({ text := t ++ piece } : Emitter) := by
  have hbehind : d.emit nameOf (Emitter.behind t {}) = (d.emit nameOf {}).map (Emitter.behind t) :=
    d.emit_behind t {}
  rw [Emitter.behind, List.append_nil] at hbehind
  rw [hbehind, render]
  cases h : d.emit nameOf {} with
  | none => rfl
  | some e =>
    obtain ⟨added, rfl⟩ := exists_emit h
    rfl

/-- A declaration begins with its head. -/
theorem exists_append_of_render {d : Declaration} {piece : Text}
    (h : d.render nameOf = some piece) : ∃ rest, piece = d.head ++ rest := by
  simp only [render, Option.bind_eq_bind, Option.bind_eq_some_iff] at h
  obtain ⟨e, he, h⟩ := h
  obtain rfl := Option.some.inj h
  rcases emit_cases he with ⟨type, -, rfl⟩ | ⟨members, texts, -, -, rfl⟩
  · exact ⟨" " ++ type ++ ";" ++ "\n", by simp [Emitter.emitRaw]⟩
  · obtain ⟨added, hadded⟩ :=
      (Emitter.emitRaw {} d.head).indent.exists_emitLines (memberLines texts)
    rw [hadded]
    exact ⟨"\n" ++ added.flatMap Text.line,
      by simp [Emitter.dedent, Emitter.indent, Emitter.emitRaw]⟩

end Declaration

/-- The lines before the declarations of a block. -/
def blockHead (header : Option Text) : Text := header.getD defaultHeader ++ "\n" ++ (banner ++ "\n")

/-- Declarations are emitted one behind the other. -/
theorem foldlM_emit_eq (nameOf : Text → Text) (t : Text) (ds : List Declaration) :
    ds.foldlM (Declaration.emit nameOf) { text := t } =
      (ds.mapM (Declaration.render nameOf)).map fun pieces =>
        ({ text := t ++ pieces.flatten } : Emitter) := by
  induction ds generalizing t with
  | nil => simp
  | cons d ds ih =>
    rw [List.foldlM_cons, List.mapM_cons, Declaration.emit_spec]
    cases d.render nameOf with
    | none => rfl
    | some piece =>
      simp only [Option.map_some, Option.bind_eq_bind, Option.bind_some, ih, Option.map_bind]
      cases ds.mapM (Declaration.render nameOf) with
      | none => rfl
      | some pieces => simp

/-- A block is its header, its banner and the texts of its declarations. -/
theorem renderBlock_eq (nameOf : Text → Text) (header : Option Text) (ds : List Declaration) :
    renderBlock nameOf header ds =
      (ds.mapM (Declaration.render nameOf)).map fun pieces =>
        blockHead header ++ pieces.flatten := by
  have hstart : ((({} : Emitter).emitRaw (header.getD defaultHeader)).emitRaw banner) =
      { text := blockHead header } := by
    simp only [Emitter.emitRaw, blockHead, List.nil_append]
  rw [renderBlock, hstart, foldlM_emit_eq]
  cases ds.mapM (Declaration.render nameOf) <;> rfl

end RuleTypes
