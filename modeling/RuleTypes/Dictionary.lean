import RuleTypes.Text.CodePoint

/-!
# Dictionaries in insertion order

A dictionary maps texts to values and remembers the order in which its keys came. A key given again
gets the new value and keeps its place.
-/

namespace RuleTypes

/-- A finite map from texts, with its keys in order of insertion. -/
structure Dictionary (α : Type) where
  entries : List (Text × α)
  nodup : (entries.map Prod.fst).Nodup

namespace Dictionary

variable {α : Type}

def empty : Dictionary α := ⟨[], by simp⟩

/-- The keys, in order of insertion. -/
def keys (d : Dictionary α) : List Text := d.entries.map Prod.fst

def get? (d : Dictionary α) (key : Text) : Option α := d.entries.lookup key

def contains (d : Dictionary α) (key : Text) : Bool := (d.get? key).isSome

/-- `entries` with `value` at `key`: in the place of the old value, or behind all other entries. -/
def put (key : Text) (value : α) : List (Text × α) → List (Text × α)
  | [] => [(key, value)]
  | (k, v) :: rest => if k = key then (key, value) :: rest else (k, v) :: put key value rest

theorem map_fst_put (key : Text) (value : α) (entries : List (Text × α)) :
    (put key value entries).map Prod.fst =
      if key ∈ entries.map Prod.fst then entries.map Prod.fst
      else entries.map Prod.fst ++ [key] := by
  induction entries with
  | nil => simp [put]
  | cons e rest ih =>
    simp only [put]
    split
    · rename_i h; simp [h]
    · rename_i h
      simp only [List.map_cons, ih, List.mem_cons, Ne.symm h, false_or]
      split <;> simp

/-- The dictionary with `value` at `key`. -/
def insert (d : Dictionary α) (key : Text) (value : α) : Dictionary α where
  entries := put key value d.entries
  nodup := by
    rw [map_fst_put]
    split
    · exact d.nodup
    · rename_i h
      rw [List.nodup_append]
      refine ⟨d.nodup, by simp, ?_⟩
      intro a ha b hb
      simp only [List.mem_singleton] at hb
      rintro rfl
      exact h (hb ▸ ha)

/-- The dictionary of a list of pairs, later ones overwriting earlier ones. -/
def ofList (pairs : List (Text × α)) : Dictionary α :=
  pairs.foldl (fun d (key, value) => d.insert key value) empty

private theorem lookup_cons (key k : Text) (v : α) (rest : List (Text × α)) :
    ((k, v) :: rest).lookup key = if key = k then some v else rest.lookup key := by
  rw [List.lookup_cons]
  by_cases h : key = k
  · simp [h]
  · rw [show (key == k) = false by simpa using h, if_neg h]

theorem lookup_put (key key' : Text) (value : α) (entries : List (Text × α)) :
    (put key value entries).lookup key' =
      if key' = key then some value else entries.lookup key' := by
  induction entries with
  | nil => simp only [put, lookup_cons]
  | cons e rest ih =>
    obtain ⟨k, v⟩ := e
    simp only [put]
    split
    · rename_i h; subst h; simp only [lookup_cons]; split <;> rfl
    · simp only [lookup_cons, ih]
      grind

@[simp] theorem get?_insert (d : Dictionary α) (key key' : Text) (value : α) :
    (d.insert key value).get? key' = if key' = key then some value else d.get? key' :=
  lookup_put key key' value d.entries

theorem contains_iff (d : Dictionary α) (key : Text) : d.contains key = true ↔ key ∈ d.keys := by
  obtain ⟨entries, h⟩ := d
  simp only [contains, get?, keys]
  clear h
  induction entries with
  | nil => simp
  | cons e rest ih =>
    obtain ⟨k, v⟩ := e
    rw [lookup_cons]
    split
    · rename_i h; simp [h]
    · rename_i h; simp only [ih, List.map_cons, List.mem_cons, h, false_or]

end Dictionary

end RuleTypes
