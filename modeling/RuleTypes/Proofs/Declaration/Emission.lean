import RuleTypes.Proofs.Declaration.Block

/-!
# Calls on one emitter

An emitter is shared by what is called on it: lines and texts are emitted, the indentation goes up
and down, declarations are written on one line or on several. None of these calls sees or changes
what the calls before it have emitted. They only share the level of indentation, and a declaration
leaves that as it finds it, so declarations that are written one behind the other do not influence
each other.

* `Emitter.Call`, `Emitter.run`: the calls, and the emitter behind a sequence of them.
* `Call.exists_run`, `exists_run`: a call, and a sequence of calls, appends whole lines.
* `level_run`: the level counts indentations up and down, and down only as far as zero.
* `run_declarations`: declarations that are written into one emitter.
* `declarations_keep_apart`: what calls do to an emitter, and to a block of declarations.
-/

namespace RuleTypes

namespace Emitter

/-- A call on an emitter. -/
inductive Call where
  | emit (line : Text)
  | emitRaw (text : Text)
  | indent
  | dedent
  | declaration (d : Declaration)

namespace Call

/-- The emitter behind a call. A declaration that cannot be written leaves it as it is. -/
def run (nameOf : Text → Text) (e : Emitter) : Call → Emitter
  | emit line => e.emit line
  | emitRaw text => e.emitRaw text
  | indent => e.indent
  | dedent => e.dedent
  | declaration d => (d.emit nameOf e).getD e

/-- The level behind a call, as an integer that is kept from going below zero. -/
def shift (level : Int) : Call → Int
  | indent => level + 1
  | dedent => max 0 (level - 1)
  | _ => level

end Call

/-- The emitter behind several calls. -/
def run (nameOf : Text → Text) (e : Emitter) (calls : List Call) : Emitter :=
  calls.foldl (Call.run nameOf) e

variable (nameOf : Text → Text)

/-! ## One call -/

namespace Call

/-- A declaration appends whole lines, or none if it cannot be written, and changes nothing else. -/
theorem exists_run_declaration (e : Emitter) (d : Declaration) :
    ∃ added : List Text, (declaration d).run nameOf e =
      { e with text := e.text ++ added.flatMap Text.line } := by
  rw [run]
  cases h : d.emit nameOf e with
  | none => exact ⟨[], by rw [List.flatMap_nil, List.append_nil]; rfl⟩
  | some e' => exact Declaration.exists_emit h

/-- A call appends whole lines, and it does not change how far a level is indented. -/
theorem exists_run (e : Emitter) (c : Call) :
    (c.run nameOf e).step = e.step ∧
      ∃ added : List Text, (c.run nameOf e).text = e.text ++ added.flatMap Text.line := by
  cases c with
  | emit line => exact ⟨rfl, [_], by rw [List.flatMap_singleton]; rfl⟩
  | emitRaw text => exact ⟨rfl, [text], by rw [List.flatMap_singleton]; rfl⟩
  | indent => exact ⟨rfl, [], (List.append_nil _).symm⟩
  | dedent => exact ⟨rfl, [], (List.append_nil _).symm⟩
  | declaration d =>
    obtain ⟨added, hadded⟩ := exists_run_declaration nameOf e d
    rw [hadded]
    exact ⟨rfl, added, rfl⟩

/-- Only indentations up and down change the level. -/
theorem level_run (e : Emitter) (c : Call) : ((c.run nameOf e).level : Int) = c.shift e.level := by
  cases c with
  | emit line => rfl
  | emitRaw text => rfl
  | indent => rfl
  | dedent =>
    change ((e.level - 1 : Nat) : Int) = max 0 ((e.level : Int) - 1)
    omega
  | declaration d =>
    obtain ⟨added, hadded⟩ := exists_run_declaration nameOf e d
    rw [hadded]
    rfl

/-- What has been emitted before does not matter to a call. -/
theorem run_behind (t : Text) (e : Emitter) (c : Call) :
    c.run nameOf (e.behind t) = (c.run nameOf e).behind t := by
  cases c with
  | emit line => exact emit_behind t line e
  | emitRaw text => exact emitRaw_behind t text e
  | indent => rfl
  | dedent => rfl
  | declaration d => rw [run, run, Declaration.emit_behind, Option.getD_map]

/-- At the left margin, a declaration is emitted as it is written alone. -/
theorem run_declaration (t : Text) (d : Declaration) :
    (declaration d).run nameOf { text := t } = { text := t ++ (d.render nameOf).getD [] } := by
  rw [run, Declaration.emit_spec]
  cases d.render nameOf with
  | none => rw [Option.getD_none, List.append_nil]; rfl
  | some piece => rfl

end Call

/-! ## Sequences of calls -/

/-- Calls append whole lines to what has been emitted. -/
theorem exists_run (e : Emitter) (calls : List Call) :
    (e.run nameOf calls).step = e.step ∧
      ∃ added : List Text, (e.run nameOf calls).text = e.text ++ added.flatMap Text.line := by
  induction calls generalizing e with
  | nil => exact ⟨rfl, [], (List.append_nil _).symm⟩
  | cons c calls ih =>
    obtain ⟨hstep, first, hfirst⟩ := c.exists_run nameOf e
    obtain ⟨hsteps, added, hadded⟩ := ih (c.run nameOf e)
    refine ⟨hsteps.trans hstep, first ++ added, hadded.trans ?_⟩
    rw [hfirst, List.flatMap_append, List.append_assoc]

theorem level_run (e : Emitter) (calls : List Call) :
    ((e.run nameOf calls).level : Int) = calls.foldl Call.shift e.level := by
  induction calls generalizing e with
  | nil => rfl
  | cons c calls ih =>
    rw [List.foldl_cons, ← c.level_run nameOf]
    exact ih (c.run nameOf e)

theorem run_behind (t : Text) (e : Emitter) (calls : List Call) :
    (e.behind t).run nameOf calls = (e.run nameOf calls).behind t := by
  induction calls generalizing e with
  | nil => rfl
  | cons c calls ih =>
    change (c.run nameOf (e.behind t)).run nameOf calls = _
    rw [c.run_behind nameOf]
    exact ih (c.run nameOf e)

/-- Declarations are emitted one behind the other, each as it is written alone. -/
theorem run_declarations (t : Text) (ds : List Declaration) :
    run nameOf { text := t } (ds.map .declaration) =
      { text := t ++ ds.flatMap fun d => (d.render nameOf).getD [] } := by
  induction ds generalizing t with
  | nil => exact congrArg (fun text => ({ text } : Emitter)) (List.append_nil t).symm
  | cons d ds ih =>
    change ((Call.declaration d).run nameOf { text := t }).run nameOf (ds.map .declaration) = _
    rw [Call.run_declaration, ih, List.flatMap_cons, List.append_assoc]

end Emitter

/-! ## Blocks -/

variable {nameOf : Text → Text}

theorem mapM_render_getD {ds : List Declaration} {pieces : List Text}
    (h : ds.mapM (Declaration.render nameOf) = some pieces) :
    ds.flatMap (fun d => (d.render nameOf).getD []) = pieces.flatten := by
  have hpieces := mapM_eq_some.mp h
  clear h
  induction hpieces with
  | nil => rfl
  | cons hd _ ih => rw [List.flatMap_cons, List.flatten_cons, ih, hd, Option.getD_some]

/-- A block is what its header, its banner and its declarations leave in a new emitter. -/
theorem run_of_renderBlock {header : Option Text} {ds : List Declaration} {text : Text}
    (h : renderBlock nameOf header ds = some text) :
    Emitter.run nameOf {} (.emitRaw (header.getD defaultHeader) :: .emitRaw banner ::
      ds.map .declaration) = { text } := by
  rw [renderBlock_eq, Option.map_eq_some_iff] at h
  obtain ⟨pieces, hpieces, rfl⟩ := h
  rw [← mapM_render_getD hpieces]
  exact Emitter.run_declarations nameOf (blockHead header) ds

/-- More declarations in a block stand behind the block. -/
theorem renderBlock_append (header : Option Text) (ds more : List Declaration) :
    renderBlock nameOf header (ds ++ more) =
      (renderBlock nameOf header ds).bind fun text =>
        (more.mapM (Declaration.render nameOf)).map fun pieces => text ++ pieces.flatten := by
  simp only [renderBlock_eq, List.mapM_append]
  cases ds.mapM (Declaration.render nameOf) with
  | none => rfl
  | some pieces =>
    cases more.mapM (Declaration.render nameOf) with
    | none => rfl
    | some others => simp

/-- **Declarations keep apart.** Whatever is called on an emitter, its level is the count of steps in
and back, which never goes below zero. What has been emitted stays and gets whole lines behind it,
the same lines with any other text before them. A declaration leaves the level as it finds it. So a
block is its header, its banner and its declarations as each is written alone, it is what these
calls leave in a new emitter, and with more declarations it is the same text with theirs behind
it. -/
theorem declarations_keep_apart (nameOf : Text → Text) :
    (∀ (e : Emitter) (calls : List Emitter.Call),
      (((e.run nameOf calls).level : Int) = calls.foldl Emitter.Call.shift e.level ∧
        0 ≤ calls.foldl Emitter.Call.shift (e.level : Int)) ∧
      ((e.run nameOf calls).step = e.step ∧ ∃ added : List Text,
        (e.run nameOf calls).text = e.text ++ added.flatMap Text.line) ∧
      (∀ t, (e.behind t).run nameOf calls = (e.run nameOf calls).behind t) ∧
      ∀ (d : Declaration) (e' : Emitter), d.emit nameOf (e.run nameOf calls) = some e' →
        e'.level = (e.run nameOf calls).level) ∧
    ∀ header ds,
      renderBlock nameOf header ds =
        (ds.mapM (Declaration.render nameOf)).map (fun pieces =>
          header.getD defaultHeader ++ "\n" ++ (banner ++ "\n") ++ pieces.flatten) ∧
      (∀ text, renderBlock nameOf header ds = some text →
        Emitter.run nameOf {} (.emitRaw (header.getD defaultHeader) :: .emitRaw banner ::
          ds.map .declaration) = { text }) ∧
      ∀ more, renderBlock nameOf header (ds ++ more) =
        (renderBlock nameOf header ds).bind fun text =>
          (more.mapM (Declaration.render nameOf)).map fun pieces => text ++ pieces.flatten := by
  refine ⟨fun e calls => ⟨?_, e.exists_run nameOf calls, fun t => e.run_behind nameOf t calls, ?_⟩,
    fun header ds => ⟨renderBlock_eq nameOf header ds, fun _ => run_of_renderBlock,
      renderBlock_append header ds⟩⟩
  · have hlevel := e.level_run nameOf calls
    exact ⟨hlevel, hlevel ▸ Int.natCast_nonneg _⟩
  · intro d e' h
    obtain ⟨added, rfl⟩ := Declaration.exists_emit h
    rfl

/-- A union that is too wide for a line, one level in. One of the steps back before it came to
nothing at the left margin. In a block it stands between two other declarations. -/
theorem declarations_keep_apart_wrapped :
    let long : Text := List.replicate 72 (CodePoint.ofChar 'x')
    let wide : Declaration := ⟨"K", .union [.keyword long, .keyword "null"], false⟩
    let narrow : Declaration := ⟨"L", .keyword "string", true⟩
    let calls : List Emitter.Call := [.indent, .dedent, .dedent, .indent, .emit "x"]
    let block : Text := "h\n" ++ (banner ++ "\n") ++ "export type L = string;\n" ++
      ("type K =\n  | " ++ long ++ "\n  | null;\n") ++ "export type L = string;\n"
    (∃ e, wide.emit id (Emitter.run id {} calls) = some e ∧ e.level = 1 ∧
      e.text = "  x\ntype K =\n    | " ++ long ++ "\n    | null;\n") ∧
    renderBlock id (some "h") [narrow, wide, narrow] = some block ∧
    Emitter.run id {} [.emitRaw "h", .emitRaw banner, .declaration narrow, .declaration wide,
      .declaration narrow] = { text := block } := by
  intro long wide narrow calls block
  have hwide : (wide.emit id (Emitter.run id {} calls)).map Emitter.text =
      some ("  x\ntype K =\n    | " ++ long ++ "\n    | null;\n") := by decide
  have hpieces : [narrow, wide, narrow].mapM (Declaration.render id) =
      some [("export type L = string;\n" : Text), "type K =\n  | " ++ long ++ "\n  | null;\n",
        "export type L = string;\n"] := by decide
  obtain ⟨hcalls, hblocks⟩ := declarations_keep_apart id
  obtain ⟨hrender, hrun, -⟩ := hblocks (some "h") [narrow, wide, narrow]
  have hblock : renderBlock id (some "h") [narrow, wide, narrow] = some block := by
    rw [hrender, hpieces]
    rfl
  obtain ⟨e, he, htext⟩ := Option.map_eq_some_iff.mp hwide
  exact ⟨⟨e, he, (hcalls {} calls).2.2.2 wide e he, htext⟩, hblock, hrun block hblock⟩

end RuleTypes
