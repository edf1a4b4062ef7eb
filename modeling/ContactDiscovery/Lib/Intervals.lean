/-
  ContactDiscovery.Lib.Intervals — intervals of numbers, each of which starts where the one before ends,
  and maps in the order of their keys, as `java.util.TreeMap` keeps them.

  Proved: of intervals that tile a range, exactly one holds a number of the range, and it is the first
  that does not end before the number (`Tiles.find`). Entries that are put in the order of their keys
  stay in that order (`put_of_forall_lt`), so the ceiling of a number among the ends is its interval.
-/

import Mathlib

namespace ContactDiscovery.Lib.Intervals

/-! ## Maps in the order of their keys -/

section Maps

variable {κ ν : Type} [LinearOrder κ]

def put (k : κ) (v : ν) : List (κ × ν) → List (κ × ν)
  | [] => [(k, v)]
  | e :: m => if k < e.1 then (k, v) :: e :: m else if k = e.1 then (k, v) :: m else e :: put k v m

/-- The first entry whose key is not below. -/
def ceilingEntry (k : κ) (m : List (κ × ν)) : Option (κ × ν) := m.find? fun e => k ≤ e.1

theorem put_ne_nil (k : κ) (v : ν) (m : List (κ × ν)) : put k v m ≠ [] := by
  cases m with
  | nil => simp [put]
  | cons e m =>
    unfold put
    split
    · simp
    · split <;> simp

theorem put_of_forall_lt {k : κ} {v : ν} {m : List (κ × ν)} (h : ∀ e ∈ m, e.1 < k) : put k v m = m ++ [(k, v)] := by
  induction m with
  | nil => rfl
  | cons e m ih =>
    have he : e.1 < k := h e (by simp)
    rw [put, if_neg he.not_gt, if_neg he.ne', ih fun e' he' => h e' (by simp [he']), List.cons_append]

end Maps

/-! ## Intervals side by side -/

section Tiles

variable {α : Type} (first last : α → ℕ)

/-- The intervals cover the numbers from `lo` to `hi`, without `hi`, one after another. -/
def Tiles : ℕ → List α → ℕ → Prop
  | lo, [], hi => lo = hi
  | lo, x :: l, hi => first x = lo ∧ lo ≤ last x ∧ Tiles (last x + 1) l hi

variable {first last} {lo hi : ℕ} {l : List α}

theorem Tiles.first_ge (h : Tiles first last lo l hi) : ∀ x ∈ l, lo ≤ first x ∧ lo ≤ last x := by
  induction l generalizing lo with
  | nil => simp
  | cons y l ih =>
    obtain ⟨rfl, hle, h⟩ := h
    intro x hx
    rcases List.mem_cons.mp hx with rfl | hx
    · exact ⟨le_rfl, hle⟩
    · have := ih h x hx
      omega

theorem Tiles.increasing (h : Tiles first last lo l hi) : l.Pairwise fun x y => last x < last y := by
  induction l generalizing lo with
  | nil => exact .nil
  | cons x l ih =>
    obtain ⟨-, -, h⟩ := h
    exact .cons (fun y hy => Nat.lt_of_succ_le (h.first_ge y hy).2) (ih h)

/-- One interval holds a number, and it is the first that does not end before the number. -/
theorem Tiles.find (h : Tiles first last lo l hi) {n : ℕ} (hlo : lo ≤ n) (hhi : n < hi) :
    ∃ x, l.filter (fun x => first x ≤ n ∧ n ≤ last x) = [x] ∧ l.find? (fun x => n ≤ last x) = some x := by
  induction l generalizing lo with
  | nil =>
    have : lo = hi := h
    omega
  | cons x l ih =>
    obtain ⟨rfl, hle, h⟩ := h
    by_cases hn : n ≤ last x
    · have hrest : l.filter (fun x => first x ≤ n ∧ n ≤ last x) = [] := by
        rw [List.filter_eq_nil_iff]
        intro y hy
        have := (h.first_ge y hy).1
        simp
        omega
      exact ⟨x, by rw [List.filter_cons_of_pos (by simp [hlo, hn]), hrest], by simp [hn]⟩
    · obtain ⟨y, hfilter, hfind⟩ := ih h (by omega)
      exact ⟨y, by rw [List.filter_cons_of_neg (by simp [hn]), hfilter], by rw [List.find?_cons_of_neg (by simpa using hn), hfind]⟩

end Tiles

end ContactDiscovery.Lib.Intervals
