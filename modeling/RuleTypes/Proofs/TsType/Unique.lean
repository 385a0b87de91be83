import RuleTypes.Proofs.TsType.AsWritten

/-!
# Types are told apart by their texts

A text without surrogates is known from its UTF-16 units, so its literal is the literal of no other
such text. Types whose literals are of such texts are read back as they are: no two of them have the
same text.

* `Text.units16_injective`: texts without surrogates with the same units are the same.
* `TsType.Spelled`: the types that are told apart, with literals beyond the units among them.
* `TsType.render_injective`: two of them with the same text are the same.
-/

namespace RuleTypes

/-! ## Units of texts without surrogates -/

namespace CodePoint

/-- What stands for a high code point begins with a surrogate. -/
theorem units16_cases (c : CodePoint) :
    (c.toNat < 0x10000 ∧ c.units16 = [c]) ∨
      (0x10000 ≤ c.toNat ∧ ∃ high low : CodePoint, c.units16 = [high, low] ∧
        high.isSurrogate = true ∧
        c.toNat = 0x10000 + 0x400 * (high.toNat - 0xD800) + (low.toNat - 0xDC00)) := by
  unfold units16
  split
  · rename_i h
    exact .inl ⟨h, rfl⟩
  · rename_i h
    refine .inr ⟨by omega, _, _, rfl, ?_, ?_⟩
    · refine (Bool.and_eq_true _ _).mpr ⟨decide_eq_true ?_, decide_eq_true ?_⟩ <;>
        simp only [ofUnit] <;> omega
    · have := c.toNat_lt
      simp only [ofUnit]
      omega

/-- A code point that is no surrogate is read off the beginning of a sequence of units. -/
theorem units16_append_inj {c d : CodePoint} {s t : Text} (hc : c.isSurrogate = false)
    (hd : d.isSurrogate = false) (h : c.units16 ++ s = d.units16 ++ t) : c = d ∧ s = t := by
  rcases c.units16_cases with ⟨-, hcu⟩ | ⟨-, high, low, hcu, hhigh, hcn⟩ <;>
    rcases d.units16_cases with ⟨-, hdu⟩ | ⟨-, high', low', hdu, hhigh', hdn⟩ <;>
    rw [hcu, hdu] at h
  · exact List.cons.inj h
  · obtain ⟨rfl, -⟩ := List.cons.inj h
    rw [hhigh'] at hc
    cases hc
  · obtain ⟨rfl, -⟩ := List.cons.inj h
    rw [hhigh] at hd
    cases hd
  · obtain ⟨rfl, htail⟩ := List.cons.inj h
    obtain ⟨rfl, hrest⟩ := List.cons.inj htail
    exact ⟨toNat_inj.mp (hcn.trans hdn.symm), hrest⟩

end CodePoint

namespace Text

/-- A text without surrogates is known from its units. -/
theorem units16_injective {v w : Text} (hv : ∀ c ∈ v, c.isSurrogate = false)
    (hw : ∀ c ∈ w, c.isSurrogate = false) (h : v.units16 = w.units16) : v = w := by
  have hne (c : CodePoint) (s : Text) : (units16 (c :: s)) ≠ [] := by
    rw [units16_cons]
    rcases c.units16_cases with ⟨-, hu⟩ | ⟨-, high, low, hu, -⟩ <;> rw [hu] <;> nofun
  induction v generalizing w with
  | nil =>
    cases w with
    | nil => rfl
    | cons d w => exact absurd h.symm (hne d w)
  | cons c v ih =>
    cases w with
    | nil => exact absurd h (hne c v)
    | cons d w =>
      obtain ⟨hc, hv⟩ := List.forall_mem_cons.mp hv
      obtain ⟨hd, htail⟩ := List.forall_mem_cons.mp hw
      rw [units16_cons, units16_cons] at h
      obtain ⟨rfl, hrest⟩ := CodePoint.units16_append_inj hc hd h
      rw [ih hv htail hrest]

end Text

namespace TsType

/-! ## Types without surrogates -/

/-- What a node of a type that is told apart is: a readable one, or the literal of a text without
surrogates. -/
def SpelledNode (known : Text → Prop) : TsType → Prop
  | literal value => ∀ c ∈ value, c.isSurrogate = false
  | t => t.ReadableNode known

/-- Whether a type is made of keywords, literals without surrogates, references to known rules,
arrays, and unions of two members or more none of which is a union. -/
def Spelled (known : Text → Prop) (t : TsType) : Prop := ∀ n ∈ t.nodes, n.SpelledNode known

variable {nameOf : Text → Text} {known : Text → Prop} {t u : TsType}

theorem spelled_iff : t.Spelled known ↔
    t.SpelledNode known ∧ ∀ c ∈ t.children, c.Spelled known :=
  forall_mem_nodes_iff

/-- A spelled type can be written. -/
theorem Spelled.render_eq (h : t.Spelled known) (nameOf : Text → Text) :
    t.render nameOf = some (text nameOf t) :=
  render_eq_some nameOf t fun hmem => h unwritten hmem

/-- What the text of a spelled type shows is read back. -/
theorem Spelled.readable (h : t.Spelled known) : t.asWritten.Readable known := by
  refine readable_asWritten fun n hn => ?_
  have hnode := h n hn
  cases n with
  | literal value => exact value.units16_lt
  | raw _ => exact hnode.elim
  | union members =>
    obtain ⟨hlength, hplain⟩ := hnode
    rw [asWritten, allAsWritten_eq_map]
    refine ⟨by rwa [List.length_map], fun m hm => ?_⟩
    obtain ⟨m, hmem, rfl⟩ := List.mem_map.mp hm
    exact asWritten_ne_union (hplain m hmem)
  | _ => exact hnode

theorem Spelled.of_mem (h : t.Spelled known) (hu : u ∈ t.children) : u.Spelled known :=
  (spelled_iff.mp h).2 u hu

theorem not_spelled_raw {text : Text} : ¬ (raw text).Spelled known := fun h =>
  (spelled_iff.mp h).1

mutual

/-- Spelled types that are written alike are the same. -/
theorem Spelled.eq_of_asWritten : ∀ {t u : TsType}, t.Spelled known → u.Spelled known →
    t.asWritten = u.asWritten → t = u
  | unwritten, _, ht, _, _ => (spelled_iff.mp ht).1.elim
  | raw _, _, ht, _, _ => (not_spelled_raw ht).elim
  | keyword _, u, _, hu, h => by
    cases u with
    | keyword _ => exact h
    | raw _ => exact (not_spelled_raw hu).elim
    | _ => cases h
  | ref _, u, _, hu, h => by
    cases u with
    | ref _ => exact h
    | raw _ => exact (not_spelled_raw hu).elim
    | _ => cases h
  | literal _, u, ht, hu, h => by
    cases u with
    | literal _ =>
      have hunits := Text.units16_injective (spelled_iff.mp ht).1 (spelled_iff.mp hu).1
        (literal.inj h)
      rw [hunits]
    | raw _ => exact (not_spelled_raw hu).elim
    | _ => cases h
  | array element, u, ht, hu, h => by
    cases u with
    | array other =>
      have helement := Spelled.eq_of_asWritten (ht.of_mem (List.mem_singleton_self element))
        (hu.of_mem (List.mem_singleton_self other)) (array.inj h)
      rw [helement]
    | raw _ => exact (not_spelled_raw hu).elim
    | _ => cases h
  | union members, u, ht, hu, h => by
    cases u with
    | union others =>
      have hmembers : members = others :=
        eq_of_allAsWritten (fun _ => ht.of_mem) (fun _ => hu.of_mem) (union.inj h)
      rw [hmembers]
    | raw _ => exact (not_spelled_raw hu).elim
    | _ => cases h

theorem eq_of_allAsWritten : ∀ {ts us : List TsType}, (∀ t ∈ ts, t.Spelled known) →
    (∀ u ∈ us, u.Spelled known) → allAsWritten ts = allAsWritten us → ts = us
  | [], [], _, _, _ => rfl
  | [], _ :: _, _, _, h => nomatch h
  | _ :: _, [], _, _, h => nomatch h
  | t :: ts, u :: us, hts, hus, h => by
    obtain ⟨ht, hts⟩ := List.forall_mem_cons.mp hts
    obtain ⟨hu, hus⟩ := List.forall_mem_cons.mp hus
    obtain ⟨hhead, htail⟩ := List.cons.inj h
    rw [Spelled.eq_of_asWritten ht hu hhead, eq_of_allAsWritten hts hus htail]

end

/-- **Types are told apart by their texts.** Where the identifiers of rules are different
identifiers and no keywords, a spelled type is written, and no other spelled type has its text. -/
theorem render_injective (hnames : Identifies nameOf known) (ht : t.Spelled known)
    (hu : u.Spelled known) :
    ∃ written, t.render nameOf = some written ∧ (u.render nameOf = some written → t = u) := by
  refine ⟨_, ht.render_eq nameOf, fun h => ht.eq_of_asWritten hu ?_⟩
  have htexts : text nameOf u = text nameOf t :=
    Option.some.inj ((hu.render_eq nameOf).symm.trans h)
  refine text_injective hnames ht.readable hu.readable ?_
  rw [text_asWritten, text_asWritten, htexts]

/-- An array of a union and a union with an array in it, of the same members: a literal that looks
like the beginning of a union, and a rule. -/
theorem render_injective_nested :
    let nameOf : Text → Text := fun rule => rule ++ "_1"
    let value : Text := "😀 | ("
    let t := array (union [literal value, ref "a"])
    let u := union [literal value, array (ref "a")]
    Identifies nameOf (· = "a") ∧ t.Spelled (· = "a") ∧ u.Spelled (· = "a") ∧
      ∃ written, t.render nameOf = some written ∧ (u.render nameOf = some written → t = u) := by
  intro nameOf value t u
  have hnames : Identifies nameOf (· = "a") := by
    refine ⟨?_, ?_, ?_⟩
    · rintro rule rfl
      decide
    · rintro rule other rfl rfl -
      rfl
    · rintro rule rfl
      decide
  have hvalue : ∀ c ∈ value, c.isSurrogate = false := by decide
  have ht : t.Spelled (· = "a") := by
    simpa [t, Spelled, nodes, nodesOf, SpelledNode, ReadableNode] using hvalue
  have hu : u.Spelled (· = "a") := by
    simpa [u, Spelled, nodes, nodesOf, SpelledNode, ReadableNode] using hvalue
  exact ⟨hnames, ht, hu, render_injective hnames ht hu⟩

end TsType

end RuleTypes
