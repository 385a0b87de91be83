import RuleTypes.Config
import RuleTypes.Proofs.TsType.Readable

/-!
# What texts say of types

Two types can have one text. A literal is written in UTF-16 units, so a code point beyond them and
its two surrogates are written alike; and the fallback text is taken as it is, so nothing tells it
from the type that it names, the array of `string`. Nothing else is lost: `TsType.asWritten` is the
type that a text shows.

* `TsType.text_asWritten`: a type has the text of the type that its text shows.
* `TsType.readable_asWritten`: what is shown is read back.
-/

namespace RuleTypes.TsType

/-- The text of the default fallback type. -/
def defaultFallback : Text := ({} : Config).fallback

mutual

/-- The type that the text of a type shows: the values of literals are sequences of units, and the
default fallback text is the array that it names. -/
def asWritten : TsType → TsType
  | unwritten => unwritten
  | keyword name => keyword name
  | literal value => literal value.units16
  | ref rule => ref rule
  | raw text => if text = defaultFallback then array string else raw text
  | array element => array (asWritten element)
  | union members => union (allAsWritten members)

/-- The types that the texts of several types show. -/
def allAsWritten : List TsType → List TsType
  | [] => []
  | t :: ts => asWritten t :: allAsWritten ts

end

theorem allAsWritten_eq_map (ts : List TsType) : allAsWritten ts = ts.map asWritten := by
  induction ts with
  | nil => rfl
  | cons t ts ih => rw [allAsWritten, ih, List.map_cons]

/-! ## Texts -/

section Texts

variable (nameOf : Text → Text)

mutual

/-- A type has the text of the type that its text shows. -/
theorem text_asWritten : ∀ t : TsType, text nameOf t.asWritten = text nameOf t
  | unwritten => rfl
  | keyword _ => rfl
  | literal value => Text.literal_units16 value
  | ref _ => rfl
  | raw t => by
    unfold asWritten
    split
    · rename_i h
      rw [h]
      rfl
    · rfl
  | array element => by
    have helement := text_asWritten element
    have hparentheses : needsParentheses element.asWritten (text nameOf element) =
        needsParentheses element (text nameOf element) := by
      cases element with
      | raw t =>
        unfold asWritten
        split
        · rename_i h
          rw [h]
          rfl
        · rfl
      | _ => rfl
    rw [asWritten, text, text, helement, hparentheses]
  | union members => by
    rw [asWritten, text, text, texts_allAsWritten members]

theorem texts_allAsWritten : ∀ ts : List TsType, texts nameOf (allAsWritten ts) = texts nameOf ts
  | [] => rfl
  | t :: ts => by
    rw [allAsWritten, texts, texts, text_asWritten t, texts_allAsWritten ts]

end

end Texts

/-! ## What is shown is read back -/

variable {known : Text → Prop}

/-- The parts of what is shown are shown by the parts, or the type is the fallback text. -/
theorem readable_asWritten {t : TsType}
    (h : ∀ n ∈ t.nodes, n.asWritten.ReadableNode known) : t.asWritten.Readable known := by
  induction t using TsType.induction with
  | step t ih =>
    obtain ⟨hnode, hchildren⟩ := forall_mem_nodes_iff.mp h
    refine readable_iff.mpr ⟨hnode, fun c hc => ?_⟩
    cases t with
    | raw text =>
      unfold asWritten at hc
      split at hc
      · obtain rfl := List.mem_singleton.mp hc
        exact readable_iff.mpr ⟨List.mem_cons_self, nofun⟩
      · cases hc
    | array element =>
      obtain rfl := List.mem_singleton.mp hc
      have hmem : element ∈ (array element).children := List.mem_singleton_self element
      exact ih element hmem (hchildren element hmem)
    | union members =>
      have hc : c ∈ members.map asWritten := allAsWritten_eq_map members ▸ hc
      obtain ⟨m, hm, rfl⟩ := List.mem_map.mp hc
      exact ih m hm (hchildren m hm)
    | _ => cases hc

/-- What is shown by a type that is no union is no union. -/
theorem asWritten_ne_union {t : TsType} (h : ∀ us, t ≠ union us) (us : List TsType) :
    t.asWritten ≠ union us := by
  cases t with
  | union ms => exact absurd rfl (h ms)
  | raw text =>
    unfold asWritten
    split <;> nofun
  | _ => nofun

end RuleTypes.TsType
