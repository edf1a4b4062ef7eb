/-
  ContactDiscovery.Lib.Windows — amounts that are taken at times, and their sums over windows of time.

  A level is drained by what is taken and rises with time, at most at a rate and up to a size. Then no
  window of time sees more taken than the size and what the rate gives in it (`Metered.windows`): what
  was taken since any time before, together with the level, is at most that. `Metered.rise` and
  `Metered.take` say what keeps this.
-/

import Mathlib.Algebra.Order.BigOperators.Group.List
import Mathlib.Data.Rat.Floor
import Mathlib.Tactic.Linarith

namespace ContactDiscovery.Lib.Windows

/-- What was taken in `[s, t]`. -/
def sumIn (l : List (ℤ × ℚ)) (s t : ℤ) : ℚ := ((l.filter fun x => s ≤ x.1 ∧ x.1 ≤ t).map (·.2)).sum

/-- What was taken from `s` on. -/
def sumFrom (l : List (ℤ × ℚ)) (s : ℤ) : ℚ := ((l.filter fun x => s ≤ x.1).map (·.2)).sum

theorem sum_filter_nonneg {l : List (ℤ × ℚ)} (h : ∀ x ∈ l, 0 ≤ x.2) (p : ℤ × ℚ → Bool) : 0 ≤ ((l.filter p).map (·.2)).sum := by
  refine List.sum_nonneg fun q hq => ?_
  obtain ⟨x, hx, rfl⟩ := List.mem_map.mp hq
  exact h x (List.mem_of_mem_filter hx)

theorem sumFrom_of_lt {l : List (ℤ × ℚ)} {s last : ℤ} (hl : ∀ x ∈ l, x.1 ≤ last) (hs : last < s) : sumFrom l s = 0 := by
  have hnil : (l.filter fun x => s ≤ x.1) = [] := by
    rw [List.filter_eq_nil_iff]
    intro x hx
    have := hl x hx
    simp only [decide_eq_true_eq]
    omega
  rw [sumFrom, hnil]
  rfl

theorem sumIn_of_le {l : List (ℤ × ℚ)} {s t last : ℤ} (hl : ∀ x ∈ l, x.1 ≤ last) (ht : last ≤ t) : sumIn l s t = sumFrom l s := by
  rw [sumIn, sumFrom]
  congr 2
  refine List.filter_congr fun x hx => ?_
  have := hl x hx
  simp only [decide_eq_decide, and_iff_left_iff_imp]
  omega

theorem sumFrom_concat (l : List (ℤ × ℚ)) (x : ℤ × ℚ) (s : ℤ) :
    sumFrom (l ++ [x]) s = sumFrom l s + if s ≤ x.1 then x.2 else 0 := by
  unfold sumFrom
  by_cases hs : s ≤ x.1 <;> simp [hs]

theorem sumIn_concat_of_lt (l : List (ℤ × ℚ)) {x : ℤ × ℚ} {s t : ℤ} (ht : t < x.1) : sumIn (l ++ [x]) s t = sumIn l s t := by
  unfold sumIn
  simp [ht]

/-- The level at the time `last`, with what was taken until then. -/
structure Metered (size rate : ℚ) (l : List (ℤ × ℚ)) (last : ℤ) (level : ℚ) : Prop where
  times : ∀ x ∈ l, x.1 ≤ last
  drained : ∀ s ≤ last, sumFrom l s + level ≤ size + rate * (last - s)
  windows : ∀ s t, s ≤ t → sumIn l s t ≤ size + rate * (t - s)

variable {size rate level : ℚ} {l : List (ℤ × ℚ)} {last : ℤ}

theorem gain_nonneg (hrate : 0 ≤ rate) {s t : ℤ} (hst : s ≤ t) : 0 ≤ rate * ((t : ℚ) - s) :=
  mul_nonneg hrate (sub_nonneg.mpr (by exact_mod_cast hst))

theorem Metered.nil (hsize : 0 ≤ size) (hrate : 0 ≤ rate) (last : ℤ) : Metered size rate [] last size := by
  refine ⟨fun x hx => absurd hx List.not_mem_nil, fun s hs => ?_, fun s t hst => ?_⟩
  · have := gain_nonneg hrate hs
    simp only [sumFrom, List.filter_nil, List.map_nil, List.sum_nil]
    linarith
  · have := gain_nonneg hrate hst
    simp only [sumIn, List.filter_nil, List.map_nil, List.sum_nil]
    linarith

/-- Time passes, and the level rises as the rate and the size allow, or less. -/
theorem Metered.rise (h : Metered size rate l last level) (hrate : 0 ≤ rate) {now : ℤ} (hnow : last ≤ now) {level' : ℚ}
    (hsize : level' ≤ size) (hlevel : level' ≤ level + rate * (now - last)) : Metered size rate l now level' := by
  refine ⟨fun x hx => (h.times x hx).trans hnow, fun s hs => ?_, h.windows⟩
  by_cases hlast : s ≤ last
  · have := h.drained s hlast
    linarith
  · rw [sumFrom_of_lt h.times (not_le.mp hlast)]
    have := gain_nonneg hrate hs
    linarith

theorem Metered.of_full (h : Metered size rate l last size) (hrate : 0 ≤ rate) {now : ℤ} (hnow : last ≤ now) {level' : ℚ}
    (hsize : level' ≤ size) : Metered size rate l now level' := by
  have := gain_nonneg hrate hnow
  exact h.rise hrate hnow hsize (by linarith)

theorem Metered.take (h : Metered size rate l last level) (hrate : 0 ≤ rate) {amount : ℚ} (hlevel : amount ≤ level) :
    Metered size rate (l ++ [(last, amount)]) last (level - amount) := by
  have htimes : ∀ x ∈ l ++ [(last, amount)], x.1 ≤ last := by
    intro x hx
    rcases List.mem_append.mp hx with hx | hx
    · exact h.times x hx
    · rw [List.mem_singleton.mp hx]
  have hdrained : ∀ s ≤ last, sumFrom (l ++ [(last, amount)]) s + (level - amount) ≤ size + rate * (last - s) := by
    intro s hs
    have := h.drained s hs
    rw [sumFrom_concat, if_pos hs]
    linarith
  refine ⟨htimes, hdrained, fun s t hst => ?_⟩
  by_cases ht : t < last
  · rw [sumIn_concat_of_lt l ht]
    exact h.windows s t hst
  · have ht' := not_lt.mp ht
    rw [sumIn_of_le htimes ht']
    by_cases hs : s ≤ last
    · have := hdrained s hs
      have : rate * ((last : ℚ) - s) ≤ rate * (t - s) :=
        mul_le_mul_of_nonneg_left (by linarith [show (last : ℚ) ≤ t by exact_mod_cast ht']) hrate
      linarith
    · have hzero := sumFrom_of_lt h.times (not_le.mp hs)
      have := h.windows s t hst
      rw [sumIn_of_le h.times ht', hzero] at this
      rw [sumFrom_concat, if_neg hs, hzero]
      linarith

end ContactDiscovery.Lib.Windows
