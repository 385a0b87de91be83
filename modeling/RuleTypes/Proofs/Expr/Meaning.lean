import Mathlib.Data.Set.Insert
import RuleTypes.Expr.Typing

/-!
# Meanings of types and expressions

An interpretation says which values rules, type texts and keywords have. Types and expressions then
have values of their own: those of a union are the values of its members, those of an array the
lists of values of its element; those of a choice are the values of its alternatives, and so on.

* `Interpretation.type`, `Interpretation.expr`: the values of a type and of an expression.
* `type_join`: opening unions, dropping repeats and collapsing a union of one member or none change
  no values.
* `type_valueType`: an expression has the values of its type.
-/

namespace RuleTypes

/-- The values of rules, of type texts and of keywords, the value that a literal stands for, and the
value that a list of values is. -/
structure Interpretation (α : Type*) where
  rule : Text → Set α
  raw : Text → Set α
  keyword : Text → Set α
  literal : Text → α
  list : List α → α
  keyword_never : keyword "never" = ∅

namespace Interpretation

variable {α : Type*} (I : Interpretation α)

/-- The lists whose members are values of a set. -/
def lists (values : Set α) : Set α := {v | ∃ vs, I.list vs = v ∧ ∀ w ∈ vs, w ∈ values}

mutual

/-- The values of a type. The type that cannot be written has none. -/
def type : TsType → Set α
  | .unwritten => ∅
  | .keyword name => I.keyword name
  | .literal value => {I.literal value}
  | .ref rule => I.rule rule
  | .raw text => I.raw text
  | .array element => I.lists (type element)
  | .union members => types members

/-- The values of several types together. -/
def types : List TsType → Set α
  | [] => ∅
  | t :: ts => type t ∪ types ts

end

mutual

/-- The values of an expression, where `fallback` is the type text of those that depend on code and
of sequences without a plucked element or with several. -/
def expr (fallback : Text) : Expr → Set α
  | .unknown => I.raw fallback
  | .literals values ignoreCase =>
    if ignoreCase then I.keyword "string" else {v | ∃ value ∈ values, v = I.literal value}
  | .charClass _ => I.keyword "string"
  | .anyChar => I.keyword "string"
  | .reference rule => I.rule rule
  | .choice alternatives => exprs fallback alternatives
  | .sequence elements =>
    match plucked fallback elements with
    | [values] => values
    | _ => I.raw fallback
  | .repetition operand _ => I.lists (expr fallback operand)
  | .optional operand => expr fallback operand ∪ I.keyword "null"
  | .capture operand _ _ => expr fallback operand
  | .text _ => I.keyword "string"
  | .lookahead _ _ _ => I.keyword "undefined"
  | .semantic _ _ => I.keyword "undefined"
  | .action _ _ => I.raw fallback

/-- The values of several expressions together. -/
def exprs (fallback : Text) : List Expr → Set α
  | [] => ∅
  | e :: es => expr fallback e ∪ exprs fallback es

/-- The values of each plucked element among several. -/
def plucked (fallback : Text) : List Expr → List (Set α)
  | [] => []
  | .capture e _ true :: es => expr fallback e :: plucked fallback es
  | _ :: es => plucked fallback es

end

/-! ## Unions -/

theorem mem_types {v : α} {ts : List TsType} : v ∈ I.types ts ↔ ∃ t ∈ ts, v ∈ I.type t := by
  induction ts with
  | nil => simp [types]
  | cons t ts ih => simp [types, ih]

theorem types_congr {ts us : List TsType} (h : ∀ t, t ∈ ts ↔ t ∈ us) : I.types ts = I.types us := by
  ext v
  simp [mem_types, h]

theorem types_parts (t : TsType) : I.types t.parts = I.type t := by
  cases t with
  | union members => rw [TsType.parts, type]
  | _ => simp [TsType.parts, types]

theorem types_flatMap_parts (ts : List TsType) :
    I.types (ts.flatMap TsType.parts) = I.types ts := by
  ext v
  constructor
  · intro h
    obtain ⟨part, hpart, hv⟩ := I.mem_types.mp h
    obtain ⟨t, ht, hpart⟩ := List.mem_flatMap.mp hpart
    exact I.mem_types.mpr ⟨t, ht, I.types_parts t ▸ I.mem_types.mpr ⟨part, hpart, hv⟩⟩
  · intro h
    obtain ⟨t, ht, hv⟩ := I.mem_types.mp h
    rw [← I.types_parts t] at hv
    obtain ⟨part, hpart, hv⟩ := I.mem_types.mp hv
    exact I.mem_types.mpr ⟨part, List.mem_flatMap.mpr ⟨t, ht, hpart⟩, hv⟩

/-- No part at all is `never`, which has no values, and one part is its own union. -/
theorem type_ofParts (ts : List TsType) : I.type (TsType.ofParts ts) = I.types ts := by
  match ts with
  | [] => exact I.keyword_never
  | [t] => simp [TsType.ofParts, types]
  | t :: u :: ts => rfl

theorem type_join (ts : List TsType) : I.type (TsType.join ts) = I.types ts := by
  rw [TsType.join, type_ofParts, I.types_congr fun _ => mem_distinct, types_flatMap_parts]

/-! ## Types of expressions -/

theorem types_map_literal (values : List Text) :
    I.types (values.map TsType.literal) = {v | ∃ value ∈ values, v = I.literal value} := by
  ext v
  simp [mem_types, type]

mutual

/-- The type of an expression has the values of the expression. -/
theorem type_valueType (fallback : Text) :
    ∀ e : Expr, I.type (e.valueType fallback) = I.expr fallback e
  | .unknown => rfl
  | .literals values ignoreCase => by
    cases ignoreCase with
    | true => rfl
    | false => exact (I.type_join _).trans (I.types_map_literal values)
  | .charClass _ => rfl
  | .anyChar => rfl
  | .reference _ => rfl
  | .choice alternatives => by
    rw [Expr.valueType, type_join, types_valueTypes, expr]
  | .sequence elements => by
    have h := map_pluckedTypes fallback elements
    rw [Expr.valueType, expr, ← h]
    -- As many sets are plucked as types.
    match Expr.pluckedTypes fallback elements with
    | [] => rfl
    | [t] => rfl
    | t :: u :: ts => rfl
  | .repetition operand _ => by
    rw [Expr.valueType, type, type_valueType, expr]
  | .optional operand => by
    rw [Expr.valueType, type_join, types, types, types, type_valueType, Set.union_empty, expr]
    rfl
  | .capture operand _ _ => type_valueType fallback operand
  | .text _ => rfl
  | .lookahead _ _ _ => rfl
  | .semantic _ _ => rfl
  | .action _ _ => rfl

theorem types_valueTypes (fallback : Text) :
    ∀ es : List Expr, I.types (Expr.valueTypes fallback es) = I.exprs fallback es
  | [] => rfl
  | e :: es => by
    rw [Expr.valueTypes, types, exprs, type_valueType, types_valueTypes]

theorem map_pluckedTypes (fallback : Text) :
    ∀ es : List Expr, (Expr.pluckedTypes fallback es).map I.type = I.plucked fallback es
  | [] => rfl
  | e :: es => by
    have he := type_valueType fallback e
    have ih := map_pluckedTypes fallback es
    cases e with
    | capture operand label pluck =>
      cases pluck with
      | false => exact ih
      | true => exact congr (congrArg List.cons he) ih
    | _ => exact ih

end

end Interpretation

end RuleTypes
