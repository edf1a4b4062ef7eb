/-
  ContactDiscovery.Lib.Assoc — a list of key/value pairs read as a log of writes: a key's
  value is the value of the last pair that has the key (`last?`). Appending a log reads the
  later part first (`last?_append`), and a log whose keys are distinct reads the one pair a
  key has (`last?_of_nodup`).
-/

import Mathlib

namespace ContactDiscovery.Lib.Assoc

variable {κ ν : Type} [DecidableEq κ]

/-- The value of the last pair with key `k`. -/
def last? (k : κ) : List (κ × ν) → Option ν
  | [] => none
  | e :: l => (last? k l).or (if e.1 = k then some e.2 else none)

@[simp] theorem last?_nil (k : κ) : last? k ([] : List (κ × ν)) = none := rfl

theorem last?_cons (k : κ) (e : κ × ν) (l : List (κ × ν)) :
    last? k (e :: l) = (last? k l).or (if e.1 = k then some e.2 else none) := rfl

theorem last?_append (k : κ) (l m : List (κ × ν)) : last? k (l ++ m) = (last? k m).or (last? k l) := by
  induction l with
  | nil => simp
  | cons e l ih => rw [List.cons_append, last?_cons, ih, last?_cons, Option.or_assoc]

theorem last?_concat (k : κ) (l : List (κ × ν)) (e : κ × ν) :
    last? k (l ++ [e]) = if e.1 = k then some e.2 else last? k l := by
  rw [last?_append, last?_cons, last?_nil, Option.none_or]
  split <;> rfl

theorem last?_eq_none {k : κ} {l : List (κ × ν)} : last? k l = none ↔ ∀ e ∈ l, e.1 ≠ k := by
  induction l with
  | nil => simp
  | cons e l ih =>
    rw [last?_cons, Option.or_eq_none_iff, ih, List.forall_mem_cons, and_comm]
    apply and_congr_left'
    split
    · rename_i h; simp [h]
    · rename_i h; simp [h]

theorem mem_of_last? {k : κ} {v : ν} {l : List (κ × ν)} (h : last? k l = some v) : (k, v) ∈ l := by
  induction l with
  | nil => cases h
  | cons e l ih =>
    rw [last?_cons, Option.or_eq_some_iff] at h
    rcases h with h | ⟨-, h⟩
    · exact List.mem_cons_of_mem _ (ih h)
    · split at h
      · rename_i hk
        obtain ⟨a, b⟩ := e
        cases hk; cases h
        exact List.mem_cons_self
      · cases h

theorem last?_of_nodup {k : κ} {v : ν} {l : List (κ × ν)} (hn : (l.map (·.1)).Nodup) (h : (k, v) ∈ l) :
    last? k l = some v := by
  induction l with
  | nil => cases h
  | cons e l ih =>
    rw [List.map_cons, List.nodup_cons] at hn
    rw [last?_cons]
    rcases List.mem_cons.mp h with rfl | h
    · have : last? k l = none := last?_eq_none.mpr fun e he hk => hn.1 (List.mem_map.mpr ⟨e, he, hk⟩)
      simp [this]
    · rw [ih hn.2 h]; rfl

end ContactDiscovery.Lib.Assoc
