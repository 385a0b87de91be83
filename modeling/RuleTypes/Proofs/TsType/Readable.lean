import Mathlib.Logic.Function.Iterate
import RuleTypes.Proofs.Text.Delimited
import RuleTypes.Proofs.Text.Literal
import RuleTypes.Proofs.TsType.Join
import RuleTypes.Proofs.TsType.Nodes

/-!
# Types are read back from their texts

The text of a type says what the type is, as far as the type is made of keywords, references,
literals, arrays and flat unions. A name ends where no letter, digit or underscore follows, a
literal at its own quote, and a union stands in parentheses inside an array, so what is read of a
text is settled from left to right.

* `TsType.text`: the text of a type, for types that can be written (`render_eq_some`).
* `TsType.Readable`: the types that are read back.
* `CoreReads`, `OperandReads`: a type is read off the beginning of a text, without the brackets
  behind it or with them. `coreReads` is the induction.
* `text_injective`: readable types with the same text are the same.
-/

namespace RuleTypes

namespace Text

/-- Whether a text does not go on with a letter, a digit or an underscore. -/
def EndsWord (r : Text) : Prop := ∀ c s, r = c :: s → c.isWord = false

/-- Words that nothing goes on with are read off the beginning of a text. -/
theorem word_append_inj {v w r s : Text} (hv : ∀ c ∈ v, c.isWord = true)
    (hw : ∀ c ∈ w, c.isWord = true) (hr : r.EndsWord) (hs : s.EndsWord) (h : v ++ r = w ++ s) :
    v = w ∧ r = s := by
  induction v generalizing w with
  | nil =>
    cases w with
    | nil => exact ⟨rfl, h⟩
    | cons d w =>
      have := hr d (w ++ s) h
      rw [hw d List.mem_cons_self] at this
      cases this
  | cons c v ih =>
    cases w with
    | nil =>
      have := hs c (v ++ r) h.symm
      rw [hv c List.mem_cons_self] at this
      cases this
    | cons d w =>
      obtain ⟨rfl, htail⟩ := List.cons.inj h
      obtain ⟨rfl, rfl⟩ := ih (fun e he => hv e (List.mem_cons_of_mem _ he))
        (fun e he => hw e (List.mem_cons_of_mem _ he)) htail
      exact ⟨rfl, rfl⟩

theorem isWord_of_isIdentifier {s : Text} (h : s.isIdentifier = true) :
    ∀ c ∈ s, c.isWord = true := by
  obtain ⟨c, rest, rfl, hc, hrest⟩ := exists_cons_of_isIdentifier h
  refine List.forall_mem_cons.mpr ⟨?_, List.all_eq_true.mp hrest⟩
  rcases (Bool.or_eq_true _ _).mp hc with hletter | hunderscore
  · simp [CodePoint.isWord, CodePoint.isAlphanumeric, hletter]
  · simp [CodePoint.isWord, hunderscore]

end Text

namespace TsType

/-! ## Texts -/

section Texts

variable (nameOf : Text → Text)

mutual

/-- The text of a type. The type of no particular kind has none. -/
def text : TsType → Text
  | unwritten => []
  | keyword name => name
  | literal value => value.literal
  | ref rule => nameOf rule
  | raw t => t
  | array element =>
    (if needsParentheses element (text element) then "(" ++ text element ++ ")"
      else text element) ++ "[]"
  | union members => Text.join " | " (texts members)

/-- The texts of several types. -/
def texts : List TsType → List Text
  | [] => []
  | t :: ts => text t :: texts ts

end

mutual

/-- A type that can be written has its text. -/
theorem render_eq_some : ∀ t : TsType, unwritten ∉ t.nodes → t.render nameOf = some (t.text nameOf)
  | unwritten, h => absurd (mem_nodes_self _) h
  | keyword _, _ => rfl
  | literal _, _ => rfl
  | ref _, _ => rfl
  | raw _, _ => rfl
  | array element, h => by
    have he : unwritten ∉ element.nodes := fun hmem => h (List.mem_cons_of_mem _ hmem)
    rw [render, render_eq_some element he, text]
    rfl
  | union members, h => by
    have hm : unwritten ∉ nodesOf members := fun hmem => h (List.mem_cons_of_mem _ hmem)
    rw [render, renderAll_eq_some members hm, text]
    rfl

theorem renderAll_eq_some :
    ∀ ts : List TsType, unwritten ∉ nodesOf ts → renderAll nameOf ts = some (texts nameOf ts)
  | [], _ => rfl
  | t :: ts, h => by
    have ht : unwritten ∉ t.nodes := fun hmem => h (List.mem_append_left _ hmem)
    have hts : unwritten ∉ nodesOf ts := fun hmem => h (List.mem_append_right _ hmem)
    rw [renderAll, render_eq_some t ht, renderAll_eq_some ts hts, texts]
    rfl

end

end Texts

/-! ## Readable types -/

/-- What a node of a readable type is. The values of literals are sequences of UTF-16 units. -/
def ReadableNode (known : Text → Prop) : TsType → Prop
  | unwritten => False
  | keyword name => keyword name ∈ [string, null, undefined, never]
  | literal value => ∀ c ∈ value, c.toNat < 0x10000
  | ref rule => known rule
  | raw _ => False
  | array _ => True
  | union members => 2 ≤ members.length ∧ ∀ m ∈ members, ∀ us, m ≠ union us

/-- Whether a type is made of keywords, literals, references to known rules, arrays, and unions of
two members or more none of which is a union. -/
def Readable (known : Text → Prop) (t : TsType) : Prop := ∀ n ∈ t.nodes, n.ReadableNode known

/-- Whether the identifiers of known rules are different identifiers and no keywords. -/
structure Identifies (nameOf : Text → Text) (known : Text → Prop) : Prop where
  identifier : ∀ {rule}, known rule → (nameOf rule).isIdentifier = true
  injective : ∀ {rule other}, known rule → known other → nameOf rule = nameOf other → rule = other
  not_keyword : ∀ {rule}, known rule → keyword (nameOf rule) ∉ [string, null, undefined, never]

variable {nameOf : Text → Text} {known : Text → Prop} {t u : TsType} {r s : Text}

theorem readable_iff : t.Readable known ↔
    t.ReadableNode known ∧ ∀ c ∈ t.children, c.Readable known :=
  forall_mem_nodes_iff

theorem Readable.of_mem (h : t.Readable known) (hc : u ∈ t.children) : u.Readable known :=
  (readable_iff.mp h).2 u hc

theorem Readable.two_le_length (h : t.Readable known) (members : List TsType)
    (ht : t = union members) : 2 ≤ members.length := by
  subst ht
  exact (readable_iff.mp h).1.1

/-- The parts of a readable type are readable and no unions, and there are some. -/
theorem Readable.parts (h : t.Readable known) :
    (∀ p ∈ t.parts, p.Readable known ∧ ∀ us, p ≠ union us) ∧ t.parts ≠ [] := by
  refine ⟨?_, parts_ne_nil h.two_le_length⟩
  cases t with
  | union members =>
    obtain ⟨⟨-, hplain⟩, hchildren⟩ := readable_iff.mp h
    exact fun m hm => ⟨hchildren m hm, hplain m hm⟩
  | _ =>
    intro p hp
    obtain rfl := List.mem_singleton.mp hp
    exact ⟨h, nofun⟩

/-! ## Cores and brackets -/

/-- A type without its arrays. -/
def core : TsType → TsType
  | array element => core element
  | t => t

/-- How many arrays there are around the core of a type. -/
def depth : TsType → Nat
  | array element => depth element + 1
  | _ => 0

/-- A type is its core with its arrays around it. -/
theorem iterate_array_core (t : TsType) : array^[t.depth] t.core = t := by
  induction t using TsType.induction with
  | step t ih =>
    cases t with
    | array element =>
      have helement := ih element (List.mem_singleton_self element)
      rw [depth, core, Function.iterate_succ_apply', helement]
    | _ => rfl

theorem eq_of_core_eq (hcore : t.core = u.core) (hdepth : t.depth = u.depth) : t = u := by
  rw [← iterate_array_core t, ← iterate_array_core u, hcore, hdepth]

/-- The types that are written as names. -/
inductive IsName (known : Text → Prop) : TsType → Prop where
  | ofKeyword {name : Text} (h : keyword name ∈ [string, null, undefined, never]) :
      IsName known (keyword name)
  | ofRef {rule : Text} (h : known rule) : IsName known (ref rule)

/-- What the core of a readable type is: a name, a literal or a union. -/
inductive IsCore (known : Text → Prop) : TsType → Prop where
  | ofName {t : TsType} (h : IsName known t) : IsCore known t
  | ofLiteral {value : Text} (h : ∀ c ∈ value, c.toNat < 0x10000) : IsCore known (literal value)
  | ofUnion {members : List TsType} (h : (union members).Readable known) :
      IsCore known (union members)

theorem Readable.isCore : ∀ {t : TsType}, t.Readable known → IsCore known t.core
  | unwritten, h => (readable_iff.mp h).1.elim
  | keyword _, h => .ofName (.ofKeyword (readable_iff.mp h).1)
  | literal _, h => .ofLiteral (readable_iff.mp h).1
  | ref _, h => .ofName (.ofRef (readable_iff.mp h).1)
  | raw _, h => (readable_iff.mp h).1.elim
  | array element, h => Readable.isCore (t := element) (h.of_mem (List.mem_singleton_self element))
  | union _, h => .ofUnion h

/-- The text of a core inside of brackets or as an operand: unions stand in parentheses. -/
def coreText (nameOf : Text → Text) : TsType → Text
  | union members => "(" ++ text nameOf (union members) ++ ")"
  | t => text nameOf t

/-- What the text of a core begins with. -/
inductive Opening where
  | word
  | quote
  | paren

/-- What a code point opens. -/
def Opening.of (c : CodePoint) : Opening :=
  if c = '"' then quote else if c = '(' then paren else word

/-- What the text of a core begins with: a union stands in parentheses. -/
def opening : TsType → Opening
  | literal _ => .quote
  | union _ => .paren
  | _ => .word

/-- The brackets of so many arrays. -/
def brackets (n : Nat) : Text := (List.replicate n ("[]" : Text)).flatten

theorem brackets_succ (n : Nat) : brackets (n + 1) = ("[]" : Text) ++ brackets n := rfl

theorem brackets_append (n : Nat) : brackets n ++ ("[]" : Text) = brackets (n + 1) := by
  induction n with
  | zero => rfl
  | succ n ih => rw [brackets_succ, List.append_assoc, ih, ← brackets_succ]

/-- The text of a type that is no union is that of its core and the brackets of its arrays. -/
theorem text_eq : ∀ {t : TsType}, t.Readable known → (∀ us, t ≠ union us) →
    t.text nameOf = coreText nameOf t.core ++ brackets t.depth
  | unwritten, _, _ => rfl
  | keyword name, _, _ => (List.append_nil name).symm
  | literal _, _, _ => (List.append_nil _).symm
  | ref _, _, _ => (List.append_nil _).symm
  | raw _, h, _ => (readable_iff.mp h).1.elim
  | union us, _, hne => absurd rfl (hne us)
  | array element, h, _ => by
    have he : element.Readable known := h.of_mem (List.mem_singleton_self element)
    rw [text]
    by_cases hunion : ∃ us, element = union us
    · obtain ⟨us, rfl⟩ := hunion
      rfl
    · have hplain : ∀ us, element ≠ union us := fun us heq => hunion ⟨us, heq⟩
      have hbare : needsParentheses element (element.text nameOf) = false := by
        cases element with
        | union us => exact absurd rfl (hplain us)
        | raw _ => exact (readable_iff.mp he).1.elim
        | _ => rfl
      rw [hbare, if_neg Bool.false_ne_true, text_eq he hplain, depth, TsType.core,
        ← brackets_append, List.append_assoc]

/-! ## What stands behind -/

/-- What may stand behind an operand: nothing, a blank or a closing parenthesis. -/
inductive EndsOperand : Text → Prop where
  | nil : EndsOperand []
  | blank (r : Text) : EndsOperand (CodePoint.ofChar ' ' :: r)
  | close (r : Text) : EndsOperand (CodePoint.ofChar ')' :: r)

/-- What may stand behind a union: nothing or a closing parenthesis. -/
inductive EndsUnion : Text → Prop where
  | nil : EndsUnion []
  | close (r : Text) : EndsUnion (CodePoint.ofChar ')' :: r)

theorem EndsUnion.endsOperand (h : EndsUnion r) : EndsOperand r := by
  cases h with
  | nil => exact .nil
  | close r => exact .close r

theorem EndsOperand.endsWord_brackets (h : EndsOperand r) (n : Nat) :
    Text.EndsWord (brackets n ++ r) := by
  intro c s hc
  cases n with
  | zero =>
    cases h with
    | nil => cases hc
    | blank r => rw [← (List.cons.inj hc).1]; rfl
    | close r => rw [← (List.cons.inj hc).1]; rfl
  | succ n => rw [← (List.cons.inj hc).1]; rfl

/-- Brackets are counted up to what ends the operand. -/
theorem brackets_append_inj {n k : Nat} (hr : EndsOperand r) (hs : EndsOperand s)
    (h : brackets n ++ r = brackets k ++ s) : n = k ∧ r = s := by
  induction n generalizing k with
  | zero =>
    cases k with
    | zero => exact ⟨rfl, h⟩
    | succ k =>
      have h : r = CodePoint.ofChar '[' :: (CodePoint.ofChar ']' :: (brackets k ++ s)) := h
      rw [h] at hr
      cases hr
  | succ n ih =>
    cases k with
    | zero =>
      have h : CodePoint.ofChar '[' :: (CodePoint.ofChar ']' :: (brackets n ++ r)) = s := h
      rw [← h] at hs
      cases hs
    | succ k =>
      have h : brackets n ++ r = brackets k ++ s := (List.cons.inj (List.cons.inj h).2).2
      obtain ⟨rfl, rfl⟩ := ih h
      exact ⟨rfl, rfl⟩

/-! ## Reading operands and unions -/

/-- Whether the core of a type is read off the beginning of a text. -/
def CoreReads (nameOf : Text → Text) (known : Text → Prop) (t : TsType) : Prop :=
  ∀ (u : TsType) (r s : Text), u.Readable known → Text.EndsWord r → Text.EndsWord s →
    coreText nameOf t.core ++ r = coreText nameOf u.core ++ s → t.core = u.core ∧ r = s

/-- Whether a type that is no union is read off the beginning of a text. -/
def OperandReads (nameOf : Text → Text) (known : Text → Prop) (t : TsType) : Prop :=
  ∀ (u : TsType) (r s : Text), u.Readable known → (∀ us, u ≠ union us) →
    EndsOperand r → EndsOperand s → text nameOf t ++ r = text nameOf u ++ s →
      t = u ∧ r = s

/-- Behind the core the brackets are counted. -/
theorem CoreReads.operand (h : CoreReads nameOf known t) (ht : t.Readable known)
    (hne : ∀ us, t ≠ union us) : OperandReads nameOf known t := by
  intro u r s hu hune hr hs heq
  rw [text_eq ht hne, text_eq hu hune, List.append_assoc, List.append_assoc] at heq
  obtain ⟨hcore, hrest⟩ :=
    h u _ _ hu (hr.endsWord_brackets t.depth) (hs.endsWord_brackets u.depth) heq
  obtain ⟨hdepth, hend⟩ := brackets_append_inj hr hs hrest
  exact ⟨eq_of_core_eq hcore hdepth, hend⟩

theorem text_singleton (m : TsType) : text nameOf (union [m]) = text nameOf m := by
  rw [text, texts, texts, Text.join_singleton]

theorem text_union_parts (t : TsType) : text nameOf (union t.parts) = text nameOf t := by
  cases t with
  | union _ => rfl
  | _ => exact text_singleton _

theorem text_cons_cons_append (m m' : TsType) (ms : List TsType) (r : Text) :
    text nameOf (union (m :: m' :: ms)) ++ r =
      text nameOf m ++ CodePoint.ofChar ' ' ::
        (("| " : Text) ++ (text nameOf (union (m' :: ms)) ++ r)) := by
  rw [text, text, texts, texts, Text.join_cons_cons, List.append_assoc, List.append_assoc]
  rfl

/-- The members of a union are read one after the other, up to what ends the union. -/
theorem members_read {ms us : List TsType} (hms : ∀ m ∈ ms, OperandReads nameOf known m)
    (hus : ∀ u ∈ us, u.Readable known ∧ ∀ vs, u ≠ union vs) (hne : ms ≠ []) (hune : us ≠ [])
    (hr : EndsUnion r) (hs : EndsUnion s)
    (h : text nameOf (union ms) ++ r = text nameOf (union us) ++ s) : ms = us ∧ r = s := by
  induction ms generalizing us with
  | nil => exact absurd rfl hne
  | cons m ms ih =>
    obtain ⟨hm, hmembers⟩ := List.forall_mem_cons.mp hms
    cases us with
    | nil => exact absurd rfl hune
    | cons u us =>
      obtain ⟨⟨hu, hplain⟩, hothers⟩ := List.forall_mem_cons.mp hus
      cases ms with
      | nil =>
        rw [text_singleton] at h
        cases us with
        | nil =>
          rw [text_singleton] at h
          obtain ⟨rfl, rfl⟩ := hm u r s hu hplain hr.endsOperand hs.endsOperand h
          exact ⟨rfl, rfl⟩
        | cons u' us =>
          -- The second union goes on with a blank, which does not end the first.
          rw [text_cons_cons_append] at h
          obtain ⟨-, hend⟩ := hm u r _ hu hplain hr.endsOperand (.blank _) h
          rw [hend] at hr
          cases hr
      | cons m' ms =>
        rw [text_cons_cons_append] at h
        cases us with
        | nil =>
          rw [text_singleton] at h
          obtain ⟨-, hend⟩ := hm u _ s hu hplain (.blank _) hs.endsOperand h
          rw [← hend] at hs
          cases hs
        | cons u' us =>
          rw [text_cons_cons_append] at h
          obtain ⟨rfl, hend⟩ := hm u _ _ hu hplain (.blank _) (.blank _) h
          have hrest := List.append_cancel_left (List.cons.inj hend).2
          obtain ⟨hlists, rfl⟩ := ih hmembers hothers (by simp) (by simp) hrest
          rw [hlists]
          exact ⟨rfl, rfl⟩

/-! ## Every readable type is read -/

section Reading

variable (hnames : Identifies nameOf known)

include hnames

theorem IsName.isIdentifier (h : IsName known t) : (text nameOf t).isIdentifier = true := by
  cases h with
  | @ofKeyword name h =>
    have hkeyword : ∀ t ∈ [string, null, undefined, never], t = keyword name →
        name.isIdentifier = true := by
      simp only [List.forall_mem_cons]
      refine ⟨?_, ?_, ?_, ?_, by simp⟩ <;> (intro heq; rw [← keyword.inj heq]; decide)
    exact hkeyword _ h rfl
  | ofRef h => exact hnames.identifier h

/-- Different names have different texts. -/
theorem IsName.text_injective (ht : IsName known t) (hu : IsName known u)
    (h : text nameOf t = text nameOf u) : t = u := by
  cases ht with
  | ofKeyword ht =>
    cases hu with
    | ofKeyword _ => exact congrArg keyword h
    | ofRef hu => exact absurd (congrArg keyword h ▸ ht) (hnames.not_keyword hu)
  | ofRef ht =>
    cases hu with
    | ofKeyword hu => exact absurd (congrArg keyword h ▸ hu) (hnames.not_keyword ht)
    | ofRef hu => exact congrArg ref (hnames.injective ht hu h)

omit hnames in
theorem IsName.coreText_eq (h : IsName known t) : coreText nameOf t = text nameOf t := by
  cases h <;> rfl

omit hnames in
theorem IsName.opening_eq (h : IsName known t) : t.opening = .word := by
  cases h <;> rfl

/-- The first code point of a core tells of which sort it is. -/
theorem IsCore.opening_eq (h : IsCore known t) :
    ∃ c rest, coreText nameOf t = c :: rest ∧ Opening.of c = t.opening := by
  cases h with
  | ofName h =>
    obtain ⟨c, rest, heq, hc, -⟩ := Text.exists_cons_of_isIdentifier (h.isIdentifier hnames)
    refine ⟨c, rest, h.coreText_eq.trans heq, ?_⟩
    have hquote : c ≠ '"' := by
      rintro rfl
      cases hc
    have hparen : c ≠ '(' := by
      rintro rfl
      cases hc
    rw [h.opening_eq, Opening.of, if_neg hquote, if_neg hparen]
  | ofLiteral _ => exact ⟨_, _, rfl, rfl⟩
  | ofUnion _ => exact ⟨_, _, rfl, rfl⟩

/-- A core is read off the beginning of a text if the members of a union are. -/
theorem IsCore.read (ht : IsCore known t) (hu : IsCore known u)
    (hmembers : ∀ ms us r s, t = union ms → (union us).Readable known → EndsUnion r →
      EndsUnion s → text nameOf (union ms) ++ r = text nameOf (union us) ++ s → ms = us ∧ r = s)
    (hr : Text.EndsWord r) (hs : Text.EndsWord s)
    (h : coreText nameOf t ++ r = coreText nameOf u ++ s) : t = u ∧ r = s := by
  have hopening : t.opening = u.opening := by
    obtain ⟨c, rest, hc, ht⟩ := ht.opening_eq hnames
    obtain ⟨d, rest', hd, hu⟩ := hu.opening_eq hnames
    rw [hc, hd] at h
    rw [← ht, ← hu, (List.cons.inj h).1]
  -- Cores that begin alike are of one sort.
  cases ht with
  | ofName ht =>
    rw [ht.opening_eq] at hopening
    cases hu with
    | ofName hu =>
      rw [ht.coreText_eq, hu.coreText_eq] at h
      obtain ⟨hword, hrest⟩ := Text.word_append_inj
        (Text.isWord_of_isIdentifier (ht.isIdentifier hnames))
        (Text.isWord_of_isIdentifier (hu.isIdentifier hnames)) hr hs h
      exact ⟨ht.text_injective hnames hu hword, hrest⟩
    | ofLiteral _ => cases hopening
    | ofUnion _ => cases hopening
  | @ofLiteral v hv =>
    cases hu with
    | ofName hu => rw [hu.opening_eq] at hopening; cases hopening
    | @ofLiteral w hw =>
      obtain ⟨hunits, hrest⟩ := Text.literal_append_inj h
      rw [Text.units16_eq_self hv, Text.units16_eq_self hw] at hunits
      exact ⟨congrArg literal hunits, hrest⟩
    | ofUnion _ => cases hopening
  | @ofUnion ms _ =>
    cases hu with
    | ofName hu => rw [hu.opening_eq] at hopening; cases hopening
    | ofLiteral _ => cases hopening
    | @ofUnion us hus =>
      have h : text nameOf (union ms) ++ CodePoint.ofChar ')' :: r =
          text nameOf (union us) ++ CodePoint.ofChar ')' :: s := by
        simp only [coreText, List.append_assoc] at h
        exact List.append_cancel_left h
      obtain ⟨rfl, hrest⟩ := hmembers ms us _ _ rfl hus (.close r) (.close s) h
      exact ⟨rfl, (List.cons.inj hrest).2⟩

/-- The core of every readable type is read off the beginning of a text. -/
theorem coreReads (t : TsType) (ht : t.Readable known) : CoreReads nameOf known t := by
  induction t using TsType.induction with
  | step t ih =>
    intro u r s hu hr hs h
    cases t with
    | array element =>
      have hmem : element ∈ (array element).children := List.mem_singleton_self element
      exact ih element hmem (ht.of_mem hmem) u r s hu hr hs h
    | union ms =>
      refine IsCore.read hnames (.ofUnion ht) hu.isCore ?_ hr hs h
      rintro ms' us r s hms hus hr hs heq
      obtain rfl := union.inj hms
      have hoperands : ∀ m ∈ ms, OperandReads nameOf known m := fun m hm =>
        (ih m hm (ht.of_mem hm)).operand (ht.of_mem hm) (ht.parts.1 m hm).2
      exact members_read hoperands hus.parts.1 ht.parts.2 hus.parts.2 hr hs heq
    | _ =>
      exact IsCore.read hnames ht.isCore hu.isCore (fun _ _ _ _ hms => by cases hms) hr hs h

/-- Readable types with the same text are the same. -/
theorem text_injective (ht : t.Readable known) (hu : u.Readable known)
    (h : text nameOf t = text nameOf u) : t = u := by
  have hoperands : ∀ p ∈ t.parts, OperandReads nameOf known p := by
    intro p hp
    obtain ⟨hreadable, hplain⟩ := ht.parts.1 p hp
    exact (coreReads hnames p hreadable).operand hreadable hplain
  have htexts : text nameOf (union t.parts) ++ [] = text nameOf (union u.parts) ++ [] := by
    rw [text_union_parts, text_union_parts, h]
  obtain ⟨hparts, -⟩ :=
    members_read hoperands hu.parts.1 ht.parts.2 hu.parts.2 .nil .nil htexts
  rw [← ofParts_parts ht.two_le_length, ← ofParts_parts hu.two_le_length, hparts]

end Reading

end TsType

end RuleTypes
