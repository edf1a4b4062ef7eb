/-
  ContactDiscovery.Lib.Split — text split at a separator as `String.split` splits it: the empty fields
  at the end are left out, unless the text has no separator at all.

  Proved: `split_eq_iff`, the texts that split into given fields, two or more, are these fields with a
  separator between them and any count of separators after them.
-/

import Mathlib.Data.List.DropRight

namespace ContactDiscovery.Lib.Split

variable {α : Type} [DecidableEq α] {sep : α}

def split (sep : α) (s : List α) : List (List α) :=
  let parts := s.splitOn sep
  if parts.length = 1 then parts else parts.rdropWhile List.isEmpty

theorem not_mem_splitOn (s : List α) : ∀ p ∈ s.splitOn sep, sep ∉ p := by
  induction s with
  | nil =>
    intro p hp
    rw [List.mem_singleton.mp hp]
    exact List.not_mem_nil
  | cons c s ih =>
    rw [List.splitOn_cons_eq_if_modifyHead]
    split
    · intro p hp
      rcases List.mem_cons.mp hp with rfl | hp
      · exact List.not_mem_nil
      · exact ih p hp
    · rename_i hc
      cases hs : s.splitOn sep with
      | nil => simp
      | cons q qs =>
        rw [hs] at ih
        intro p hp
        rcases List.mem_cons.mp hp with rfl | hp
        · intro hmem
          rcases List.mem_cons.mp hmem with rfl | hmem
          · exact hc (beq_self_eq_true _)
          · exact ih q List.mem_cons_self hmem
        · exact ih p (List.mem_cons_of_mem _ hp)

omit [DecidableEq α] in
/-- Without its empty fields at the end a list has none there, and is what it was with some. -/
theorem rdropWhile_isEmpty_iff {l l' : List (List α)} (hne : l' ≠ []) :
    l.rdropWhile List.isEmpty = l' ↔ l'.getLast? ≠ some [] ∧ ∃ k, l = l' ++ List.replicate k [] := by
  constructor
  · rintro rfl
    constructor
    · intro hlast
      have hnot := List.rdropWhile_last_not List.isEmpty l hne
      rw [List.getLast?_eq_some_getLast hne] at hlast
      exact hnot (by rw [Option.some.inj hlast]; rfl)
    · refine ⟨(l.rtakeWhile List.isEmpty).length, ?_⟩
      have hempty : l.rtakeWhile List.isEmpty = List.replicate (l.rtakeWhile List.isEmpty).length [] :=
        List.eq_replicate_of_mem fun p hp => List.isEmpty_iff.mp (List.mem_rtakeWhile_imp hp)
      rw [← hempty, List.rdropWhile_append_rtakeWhile]
  · rintro ⟨hlast, k, rfl⟩
    induction k with
    | zero =>
      rw [List.replicate_zero, List.append_nil, List.rdropWhile_eq_self_iff]
      intro hl hempty
      exact hlast (by rw [List.getLast?_eq_some_getLast hl, List.isEmpty_iff.mp hempty])
    | succ k ih =>
      rw [List.replicate_succ', ← List.append_assoc, List.rdropWhile_concat_pos _ _ _ rfl]
      exact ih

theorem split_eq_iff {s : List α} {parts : List (List α)} (htwo : 2 ≤ parts.length) :
    split sep s = parts ↔ parts.getLast? ≠ some [] ∧ (∀ p ∈ parts, sep ∉ p) ∧
      ∃ k, s = [sep].intercalate (parts ++ List.replicate k []) := by
  have hne : parts ≠ [] := List.ne_nil_of_length_pos (by omega)
  unfold split
  constructor
  · intro h
    by_cases hone : (s.splitOn sep).length = 1
    · simp only [hone, if_true] at h
      rw [h] at hone
      omega
    · simp only [if_neg hone] at h
      obtain ⟨hlast, k, hk⟩ := (rdropWhile_isEmpty_iff hne).mp h
      refine ⟨hlast, fun p hp => not_mem_splitOn s p ?_, k, ?_⟩
      · rw [hk]
        exact List.mem_append_left _ hp
      · rw [← hk, List.intercalate_splitOn]
  · rintro ⟨hlast, hparts, k, rfl⟩
    have hsplit : ([sep].intercalate (parts ++ List.replicate k [])).splitOn sep = parts ++ List.replicate k [] := by
      refine List.splitOn_intercalate sep (fun p hp => ?_) (by simp [hne])
      rcases List.mem_append.mp hp with hp | hp
      · exact hparts p hp
      · rw [(List.mem_replicate.mp hp).2]
        exact List.not_mem_nil
    have hone : (parts ++ List.replicate k ([] : List α)).length ≠ 1 := by
      rw [List.length_append]
      omega
    simp only [hsplit, if_neg hone]
    exact (rdropWhile_isEmpty_iff hne).mpr ⟨hlast, k, rfl⟩

end ContactDiscovery.Lib.Split
