/-
  ContactDiscovery.Lib.Absorb — data taken in blocks of `n`: a function `f` folds the whole blocks into a
  value (`absorb`), and what does not fill a block is left over (`leftover`).

  Data that comes in pieces gives the same as all of it at once, as long as what is left over is put
  before the next piece (`absorb_append`, `leftover_append`).
-/

import Mathlib

namespace ContactDiscovery.Lib

section Absorb

variable {α V : Type} (n : Nat) (f : V → List α → V)

/-- The whole blocks of `data`, folded from the front. -/
def absorb (v : V) (data : List α) : V :=
  if _h : n = 0 ∨ data.length < n then v else absorb (f v (data.take n)) (data.drop n)
termination_by data.length
decreasing_by
  simp only [List.length_drop]
  omega

/-- What does not fill a block. -/
def leftover (data : List α) : List α := data.drop (n * (data.length / n))

variable {n f}

theorem absorb_of_lt {data : List α} (h : data.length < n) (v : V) : absorb n f v data = v := by
  rw [absorb, dif_pos (Or.inr h)]

theorem leftover_of_lt {data : List α} (h : data.length < n) : leftover n data = data := by
  rw [leftover, Nat.div_eq_of_lt h, Nat.mul_zero, List.drop_zero]

theorem absorb_block (hn : 0 < n) {block : List α} (h : block.length = n) (v : V) (data : List α) :
    absorb n f v (block ++ data) = absorb n f (f v block) data := by
  have hlen : ¬(n = 0 ∨ (block ++ data).length < n) := by
    rw [List.length_append]; omega
  rw [absorb, dif_neg hlen, List.take_left' h, List.drop_left' h]

theorem leftover_block (hn : 0 < n) {block : List α} (h : block.length = n) (data : List α) :
    leftover n (block ++ data) = leftover n data := by
  have hdiv : (block ++ data).length / n = data.length / n + 1 := by
    rw [List.length_append, h, Nat.add_comm, Nat.add_div_right _ hn]
  rw [leftover, leftover, hdiv, Nat.mul_succ, Nat.add_comm, ← List.drop_drop, List.drop_left' h]

theorem absorb_eq (hn : 0 < n) {block : List α} (h : block.length = n) (v : V) : absorb n f v block = f v block := by
  rw [← List.append_nil block, absorb_block hn h, absorb_of_lt hn, List.append_nil]

theorem leftover_eq_nil (hn : 0 < n) {block : List α} (h : block.length = n) : leftover n block = [] := by
  rw [← List.append_nil block, leftover_block hn h, leftover_of_lt hn]

theorem length_leftover (n : Nat) (data : List α) : (leftover n data).length = data.length % n := by
  have hsplit := Nat.div_add_mod data.length n
  rw [leftover, List.length_drop]
  omega

theorem block_induction (hn : 0 < n) {P : List α → Prop} (hlt : ∀ data : List α, data.length < n → P data)
    (hblock : ∀ block data : List α, block.length = n → P data → P (block ++ data)) (data : List α) : P data := by
  by_cases h : data.length < n
  · exact hlt data h
  · have hstep := block_induction hn hlt hblock (data.drop n)
    rw [← List.take_append_drop n data]
    exact hblock _ _ (by rw [List.length_take]; omega) hstep
termination_by data.length
decreasing_by
  simp only [List.length_drop]
  omega

theorem absorb_append (hn : 0 < n) (a b : List α) (v : V) :
    absorb n f v (a ++ b) = absorb n f (absorb n f v a) (leftover n a ++ b) := by
  induction a using block_induction hn generalizing v with
  | hlt a h => rw [absorb_of_lt h, leftover_of_lt h]
  | hblock block a h ih => rw [List.append_assoc, absorb_block hn h, absorb_block hn h, leftover_block hn h, ih]

theorem leftover_append (hn : 0 < n) (a b : List α) : leftover n (a ++ b) = leftover n (leftover n a ++ b) := by
  induction a using block_induction hn with
  | hlt a h => rw [leftover_of_lt h]
  | hblock block a h ih => rw [List.append_assoc, leftover_block hn h, leftover_block hn h, ih]

end Absorb

end ContactDiscovery.Lib
