import Mathlib.Data.Nat.Find
import RuleTypes.Proofs.Source.Kept
import RuleTypes.Proofs.Source.Tokens
import RuleTypes.Proofs.Source.WellFormed

/-!
# Code blocks are the balanced ones

A code block is read by a rule that contains itself: blocks stand in blocks, and a block that is
not closed stops the one around it. What the rule reads can be told without it, by counting braces:
the block goes up to the place where as many have been closed as opened.

* `Text.ClosesAt`: where the block at the start of a text ends, by its depth alone.
* `Text.behindBrace?_eq_some_iff`: looking for the brace that closes is counting.
* `Source.scan_codeBlock_iff`: the nonterminal reads up to that place, and nowhere else.
* `Text.HasBlocks`, `codeBlocks_close`: the code of a grammar is made of such blocks, which stand in
  its source one behind the other.
-/

namespace RuleTypes

/-! ## Counting braces -/

namespace Text

/-- How many more braces a text opens than it closes. -/
def depth (t : Text) : Int := t.count (CodePoint.ofChar '{') - t.count (CodePoint.ofChar '}')

/-- With `d` braces open before a text, all are closed for the first time behind `n` code points. -/
structure ReturnsAt (d : Int) (s : Text) (n : Nat) : Prop where
  le : n ≤ s.length
  zero : d + depth (s.take n) = 0
  first : ∀ m < n, d + depth (s.take m) ≠ 0

/-- The block that begins with a text has its closing brace right before `n`: there the depth is
zero, and nowhere between. -/
structure ClosesAt (s : Text) (n : Nat) : Prop where
  opens : s.head? = some (CodePoint.ofChar '{')
  pos : 0 < n
  le : n ≤ s.length
  zero : depth (s.take n) = 0
  first : ∀ m, 0 < m → m < n → depth (s.take m) ≠ 0

variable {s t : Text} {n : Nat}

theorem depth_open (s : Text) : depth (CodePoint.ofChar '{' :: s) = 1 + depth s := by
  have hclose : CodePoint.ofChar '{' ≠ CodePoint.ofChar '}' := by decide
  rw [depth, depth, List.count_cons_self, List.count_cons_of_ne hclose]
  omega

theorem depth_close (s : Text) : depth (CodePoint.ofChar '}' :: s) = -1 + depth s := by
  have hopen : CodePoint.ofChar '}' ≠ CodePoint.ofChar '{' := by decide
  rw [depth, depth, List.count_cons_self, List.count_cons_of_ne hopen]
  omega

theorem depth_cons {c : CodePoint} (hopen : c ≠ '{') (hclose : c ≠ '}') (s : Text) :
    depth (c :: s) = depth s := by
  rw [depth, depth, List.count_cons_of_ne hopen, List.count_cons_of_ne hclose]

theorem ReturnsAt.ne_zero {d : Int} (hd : d ≠ 0) (h : ReturnsAt d s n) : n ≠ 0 := by
  rintro rfl
  exact hd (by simpa [depth] using h.zero)

/-- One code point further, with the braces that it opens or closes. -/
theorem returnsAt_cons {d d' : Int} {c : CodePoint} (hd : d ≠ 0)
    (hc : ∀ s, d + depth (c :: s) = d' + depth s) :
    ReturnsAt d (c :: s) (n + 1) ↔ ReturnsAt d' s n := by
  have htake : ∀ m, d + depth ((c :: s).take (m + 1)) = d' + depth (s.take m) := fun m => hc _
  constructor
  · rintro ⟨hle, hzero, hfirst⟩
    refine ⟨Nat.le_of_succ_le_succ hle, (htake n).symm.trans hzero, fun m hm => ?_⟩
    rw [← htake]
    exact hfirst (m + 1) (Nat.succ_lt_succ hm)
  · rintro ⟨hle, hzero, hfirst⟩
    refine ⟨Nat.succ_le_succ hle, (htake n).trans hzero, fun m hm => ?_⟩
    cases m with
    | zero => simpa [depth] using hd
    | succ m =>
      rw [htake]
      exact hfirst m (Nat.lt_of_succ_lt_succ hm)

theorem returnsAt_zero : ReturnsAt 0 s n ↔ n = 0 := by
  constructor
  · intro h
    by_contra hn
    exact h.first 0 (Nat.pos_of_ne_zero hn) (by simp [depth])
  · rintro rfl
    exact ⟨Nat.zero_le _, by simp [depth], fun m hm => absurd hm (Nat.not_lt_zero m)⟩

/-- The brace that closes a block in which `k` more are open is found where the depth returns. -/
theorem behindBrace?_eq_some_iff {k : Nat} :
    behindBrace? k s = some t ↔ ∃ n, ReturnsAt (k + 1) s n ∧ t = s.drop n := by
  -- By induction on the text, for every number of open blocks: a brace changes that number.
  induction s generalizing k with
  | nil =>
    refine iff_of_false (fun h => by cases h) ?_
    rintro ⟨n, h, -⟩
    exact h.ne_zero (by omega) (Nat.le_zero.mp h.le)
  | cons c s ih =>
    have hk : (k + 1 : Int) ≠ 0 := by omega
    have hstep : ∀ d' : Int, (∀ s, (k + 1 : Int) + depth (c :: s) = d' + depth s) →
        ((∃ n, ReturnsAt (k + 1) (c :: s) n ∧ t = (c :: s).drop n) ↔
          ∃ n, ReturnsAt d' s n ∧ t = s.drop n) := by
      intro d' hc
      constructor
      · rintro ⟨n, h, rfl⟩
        obtain ⟨n, rfl⟩ := Nat.exists_eq_succ_of_ne_zero (h.ne_zero hk)
        exact ⟨n, (returnsAt_cons hk hc).mp h, rfl⟩
      · rintro ⟨n, h, rfl⟩
        exact ⟨n + 1, (returnsAt_cons hk hc).mpr h, rfl⟩
    by_cases hopen : c = '{'
    · subst hopen
      rw [behindBrace?_open, ih, hstep (k + 1 + 1) fun s => by rw [depth_open]; omega]
      rw [Int.natCast_succ]
    · by_cases hclose : c = '}'
      · subst hclose
        rw [hstep k fun s => by rw [depth_close]; omega]
        cases k with
        | zero =>
          rw [behindBrace?_close_zero]
          simp [returnsAt_zero, eq_comm]
        | succ k =>
          rw [behindBrace?_close_succ, ih]
          rw [Int.natCast_succ]
      · rw [behindBrace?_cons hopen hclose, ih,
          hstep (k + 1) fun s => by rw [depth_cons hopen hclose]]

theorem behindBrace?_zero_eq_some_iff :
    behindBrace? 0 s = some t ↔ ∃ n, ReturnsAt 1 s n ∧ t = s.drop n :=
  behindBrace?_eq_some_iff

/-- A block is closed behind its first brace where the depth returns from one to zero. -/
theorem closesAt_iff :
    ClosesAt s n ↔
      ∃ inner m, s = CodePoint.ofChar '{' :: inner ∧ n = m + 1 ∧ ReturnsAt 1 inner m := by
  have htake : ∀ (inner : Text) m,
      depth ((CodePoint.ofChar '{' :: inner).take (m + 1)) = 1 + depth (inner.take m) :=
    fun inner m => depth_open _
  constructor
  · rintro ⟨hopens, hpos, hle, hzero, hfirst⟩
    obtain ⟨inner, rfl⟩ := List.head?_eq_some_iff.mp hopens
    obtain ⟨m, rfl⟩ := Nat.exists_eq_succ_of_ne_zero (Nat.ne_of_gt hpos)
    refine ⟨inner, m, rfl, rfl, Nat.le_of_succ_le_succ hle, ?_, fun j hj => ?_⟩
    · exact (htake inner m).symm.trans hzero
    · rw [← htake]
      exact hfirst (j + 1) (Nat.succ_pos j) (Nat.succ_lt_succ hj)
  · rintro ⟨inner, m, rfl, rfl, hle, hzero, hfirst⟩
    refine ⟨rfl, Nat.succ_pos m, Nat.succ_le_succ hle, (htake inner m).trans hzero, ?_⟩
    intro j hj hjm
    obtain ⟨j, rfl⟩ := Nat.exists_eq_succ_of_ne_zero (Nat.ne_of_gt hj)
    rw [htake]
    exact hfirst j (Nat.lt_of_succ_lt_succ hjm)

/-- There is a place where the block is closed as soon as the depth returns to zero somewhere. -/
theorem exists_closesAt_iff :
    (∃ n, ClosesAt s n) ↔ s.head? = some (CodePoint.ofChar '{') ∧
      ∃ n, 0 < n ∧ n ≤ s.length ∧ depth (s.take n) = 0 := by
  constructor
  · rintro ⟨n, h⟩
    exact ⟨h.opens, n, h.pos, h.le, h.zero⟩
  · rintro ⟨hopens, hreturns⟩
    obtain ⟨hpos, hle, hzero⟩ := Nat.find_spec hreturns
    refine ⟨Nat.find hreturns, hopens, hpos, hle, hzero, fun m hm hlt hm0 => ?_⟩
    exact Nat.find_min hreturns hlt ⟨hm, Nat.le_of_lt (Nat.lt_of_lt_of_le hlt hle), hm0⟩

/-- A block is closed where it ends, whatever stands behind it. -/
theorem closesAt_of_isBlock {code : Text} (h : code.isBlock = true) (rest : Text) :
    ClosesAt (code ++ rest) code.length := by
  obtain ⟨inner, rfl, hinner⟩ := exists_cons_of_isBlock h
  obtain ⟨m, hm, hrest⟩ := behindBrace?_zero_eq_some_iff.mp (behindBrace?_append hinner rest)
  refine closesAt_iff.mpr ⟨inner ++ rest, m, rfl, ?_, hm⟩
  have hle := hm.le
  have hlength := congrArg List.length hrest
  rw [List.nil_append, List.length_drop] at hlength
  rw [List.length_append] at hle hlength
  rw [List.length_cons]
  omega

/-- The pieces of code stand in a text, one behind the other, and each goes from an opening brace to
the brace that closes it. -/
inductive HasBlocks : List Text → Text → Prop where
  | nil (s : Text) : HasBlocks [] s
  | cons (before : Text) {s : Text} {n : Nat} {codes : List Text} :
    ClosesAt s n → HasBlocks codes (s.drop n) → HasBlocks (s.take n :: codes) (before ++ s)

theorem HasBlocks.behind {codes : List Text} (before : Text) (h : HasBlocks codes s) :
    HasBlocks codes (before ++ s) := by
  cases h with
  | nil => exact nil _
  | cons before' hcloses h =>
    rw [← List.append_assoc]
    exact cons _ hcloses h

theorem HasBlocks.of_isBlock {code : Text} {codes : List Text} (hcode : code.isBlock = true)
    (h : HasBlocks codes s) : HasBlocks (code :: codes) (code ++ s) := by
  have hblock := cons [] (closesAt_of_isBlock hcode s) (by rwa [List.drop_left])
  rwa [List.take_left] at hblock

end Text

/-- The code among what is kept in order stands in order, as blocks. -/
theorem Kept.InOrder.hasBlocks {ks : List Kept} {t : Text} (h : Kept.InOrder ks t)
    (hcode : ∀ code, Kept.code code ∈ ks → code.isBlock = true) :
    Text.HasBlocks (ks.filterMap Kept.code?) t := by
  induction h with
  | nil t => exact .nil t
  | @cons before k ks t _ ih =>
    have hrest := ih fun code hmem => hcode code (List.mem_cons_of_mem k hmem)
    cases k with
    | reference rule => exact (hrest.behind rule).behind before
    | code code => exact (hrest.of_isBlock (hcode code (List.mem_cons_self ..))).behind before

namespace Source

open Expression Text

/-! ## Reading code -/

variable {s rest code : Text} {n : Nat}

/-- A code block is read where its depth returns, up to that place. -/
theorem scan_codeBlock_iff :
    Nonterminal.scan .codeBlock s = .ok code n rest ↔
      s.ClosesAt n ∧ code = s.take n ∧ rest = s.drop n := by
  rw [scan_eq_ok_iff]
  constructor
  · rintro ⟨hparse, hlength⟩
    by_cases hopen : s.head? = some (CodePoint.ofChar '{')
    · obtain ⟨inner, rfl⟩ := List.head?_eq_some_iff.mp hopen
      rw [parse_codeBlock, Option.map_eq_some_iff] at hparse
      obtain ⟨t, hbehind, heq⟩ := hparse
      obtain ⟨m, hm, rfl⟩ := behindBrace?_zero_eq_some_iff.mp hbehind
      cases heq
      have hle := hm.le
      rw [List.length_cons, List.length_drop] at hlength
      obtain rfl : n = m + 1 := by omega
      refine ⟨closesAt_iff.mpr ⟨inner, m, rfl, rfl, hm⟩, ?_, rfl⟩
      rw [List.length_drop]
      congr 1
      omega
    · rw [parse_codeBlock_none hopen] at hparse
      cases hparse
  · rintro ⟨hcloses, rfl, rfl⟩
    obtain ⟨inner, m, rfl, rfl, hm⟩ := closesAt_iff.mp hcloses
    have hle := hm.le
    have hbehind := behindBrace?_zero_eq_some_iff.mpr ⟨m, hm, rfl⟩
    rw [parse_codeBlock, hbehind, Option.map_some, List.length_drop, List.drop_succ_cons]
    refine ⟨?_, by rw [List.length_cons, List.length_drop]; omega⟩
    rw [show inner.length + 1 - (inner.length - m) = m + 1 by omega]

theorem exists_scan_codeBlock_iff :
    (∃ code n rest, Nonterminal.scan .codeBlock s = .ok code n rest) ↔ ∃ n, s.ClosesAt n := by
  constructor
  · rintro ⟨code, n, rest, h⟩
    exact ⟨n, (scan_codeBlock_iff.mp h).1⟩
  · rintro ⟨n, h⟩
    exact ⟨s.take n, n, s.drop n, scan_codeBlock_iff.mpr ⟨h, rfl, rfl⟩⟩

/-- What is read as a code block ends with its closing brace. -/
theorem exists_closesAt_of_parse (h : parse (rule .codeBlock) s = some (code, rest)) :
    ∃ n, s.ClosesAt n ∧ code = s.take n := by
  obtain ⟨n, -, -, hscan⟩ := exists_scan_of_parse h
  obtain ⟨hcloses, hcode, -⟩ := scan_codeBlock_iff.mp hscan
  exact ⟨n, hcloses, hcode⟩

/-- The code of an action is the block that it begins with. -/
theorem closesAt_of_scan_action (h : Nonterminal.scan .action s = .ok code n rest) :
    ∃ m, s.ClosesAt m ∧ code = s.take m := by
  have hparse := (parse_rule .action s).symm.trans (scan_eq_ok_iff.mp h).1
  obtain ⟨t, _, hcode, -⟩ := parse_left_eq_some.mp hparse
  exact exists_closesAt_of_parse hcode

/-- The code of a predicate is the block behind its mark and the blanks after it. -/
theorem closesAt_of_scan_semantic {a : Phrase .operand}
    (h : Nonterminal.scan .semanticPredicate s = .ok a n rest) :
    ∃ negated width behind m, Nonterminal.scan .blank s.tail = .ok () width behind ∧
      behind.ClosesAt m ∧ a = .semantic negated (behind.take m) := by
  have hparse := (parse_rule .semanticPredicate s).symm.trans (scan_eq_ok_iff.mp h).1
  obtain ⟨⟨negated, code⟩, hparts, rfl⟩ := parse_map_eq_some.mp hparse
  obtain ⟨t, hmark, hcode⟩ := parse_seq_eq_some.mp hparts
  obtain ⟨u, _, hmark, hblank⟩ := parse_left_eq_some.mp hmark
  obtain ⟨v, _, hcode, -⟩ := parse_left_eq_some.mp hcode
  -- The mark is one code point, so the blanks are those of the tail.
  obtain rfl : u = s.tail := by
    rcases parse_or_eq_some.mp hmark with hmark | ⟨-, hmark⟩
    · obtain ⟨c, hc, -⟩ := parse_map_eq_some.mp hmark
      rw [parse_char_eq_some hc]
      rfl
    · obtain ⟨c, hc, -⟩ := parse_map_eq_some.mp hmark
      rw [parse_char_eq_some hc]
      rfl
  obtain ⟨width, -, -, hscan⟩ := exists_scan_of_parse hblank
  obtain ⟨m, hcloses, rfl⟩ := exists_closesAt_of_parse hcode
  exact ⟨negated, width, t, m, hscan, hcloses, rfl⟩

end Source

/-! ## Parsed grammars -/

/-- The code in a grammar, in the order of its rules and of their parts. -/
def Grammar.codes (g : Grammar) : List Text := g.kept.filterMap Kept.code?

theorem Grammar.mem_codes_iff {g : Grammar} {code : Text} :
    code ∈ g.codes ↔ ∃ rule ∈ g.rules, ∃ node ∈ rule.body.preorder,
      node.own? = some (.code code) := by
  have hcode : ∀ k, Kept.code? k = some code ↔ k = .code code := by
    intro k
    cases k <;> simp [Kept.code?]
  simp only [Grammar.codes, Grammar.kept, List.mem_filterMap, List.mem_flatMap, hcode,
    exists_eq_right, Expr.mem_kept_iff]

/-- The code of a well-formed node is a block. -/
theorem Expr.Formed.isBlock {e : Expr} {code : Text} (h : e.Formed)
    (hown : e.own? = some (.code code)) : code.isBlock = true := by
  cases e with
  | lookahead operand negated found =>
    obtain rfl : found = none := h
    cases hown
  | semantic negated found =>
    obtain ⟨_, rfl, hk⟩ := Option.map_eq_some_iff.mp hown
    cases hk
    simpa [Formed] using h
  | action operand found =>
    cases hown
    exact h
  | _ => cases hown

theorem Grammar.hasBlocks_of_parse {source : Text} {startRules : List Text} {g : Grammar}
    (h : Grammar.parse source startRules = .ok g) : source.HasBlocks g.codes := by
  refine (Grammar.inOrder_of_parse h).hasBlocks fun code hcode => ?_
  obtain ⟨rule, hrule, hkept⟩ := List.mem_flatMap.mp hcode
  obtain ⟨node, hnode, hown⟩ := (Expr.mem_kept_iff rule.body).mp hkept
  exact ((Grammar.rules_of_parse h rule hrule).2 node hnode).isBlock hown

open Source in
/-- **Code blocks are the balanced ones.** At a position of a source a code block is read where a
brace stands and the depth returns to zero behind it, and it goes up to the first place where it
does. So the code of an action is the block that begins where the action does, and that of a
predicate the one behind its mark and blanks. The code of the actions and predicates of a parsed
grammar stands in the source as such blocks, one behind the other in the order of the rules and of
their parts. -/
theorem codeBlocks_close (source : Text) :
    (∀ p, let s := source.drop p
      (∀ code n rest, Nonterminal.scan .codeBlock s = .ok code n rest ↔
        Text.ClosesAt s n ∧ code = s.take n ∧ rest = s.drop n) ∧
      ((∃ code n rest, Nonterminal.scan .codeBlock s = .ok code n rest) ↔
        s.head? = some (CodePoint.ofChar '{') ∧
          ∃ n, 0 < n ∧ n ≤ s.length ∧ Text.depth (s.take n) = 0) ∧
      (∀ code n rest, Nonterminal.scan .action s = .ok code n rest →
        ∃ m, Text.ClosesAt s m ∧ code = s.take m) ∧
      ∀ a n rest, Nonterminal.scan .semanticPredicate s = .ok a n rest →
        ∃ negated width behind m, Nonterminal.scan .blank s.tail = .ok () width behind ∧
          Text.ClosesAt behind m ∧ a = .semantic negated (behind.take m)) ∧
    ∀ startRules g, Grammar.parse source startRules = .ok g →
      Text.HasBlocks g.codes source ∧
        ∀ code, code ∈ g.codes ↔ ∃ rule ∈ g.rules, ∃ node ∈ rule.body.preorder,
          node.own? = some (.code code) := by
  refine ⟨fun p => ⟨fun code n rest => scan_codeBlock_iff, ?_, fun code n rest h => ?_,
    fun a n rest h => ?_⟩, fun startRules g h => ⟨Grammar.hasBlocks_of_parse h, fun code => ?_⟩⟩
  · exact exists_scan_codeBlock_iff.trans Text.exists_closesAt_iff
  · exact closesAt_of_scan_action h
  · exact closesAt_of_scan_semantic h
  · exact Grammar.mem_codes_iff

/-- An action with a block in its block, behind a predicate. -/
theorem codeBlocks_close_nested :
    let source : Text := "a=& \x7bp\x7d . \x7bf\x7b\x7d\x7d"
    let g : Grammar :=
      ⟨[⟨"a", .action (.sequence [.semantic false (some "\x7bp\x7d"), .anyChar])
        "\x7bf\x7b\x7d\x7d", true, none⟩], by decide⟩
    Grammar.parse source ["*"] = .ok g ∧ g.codes = ["\x7bp\x7d", "\x7bf\x7b\x7d\x7d"] ∧
      Text.HasBlocks g.codes source := by
  intro source g
  have h : Grammar.parse source ["*"] = .ok g := by
    set_option maxRecDepth 2000 in with_unfolding_all rfl
  exact ⟨h, rfl, ((codeBlocks_close source).2 ["*"] g h).1⟩

end RuleTypes
