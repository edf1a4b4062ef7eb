/-
  ContactDiscovery.Service.BucketRefill — what a leaky bucket loses to rounding (`LeakyBucket.java`).

  Every add rounds the space down to a whole number and starts the clock again from there, whether
  it accepts or not: the fraction that leaked until then is lost. A call is compliant if, from the
  creation of the bucket and from the time of each earlier call on, what was accepted and the new
  amount stay one unit below what the size and the rate allow. It fits if the amount, with what was
  accepted at the same time, is within the size: after a long wait the rate allows amounts that the
  bucket never holds.

  Proved: `compliant_served_iff`, the compliant calls of every run that are accepted are those that fit,
  if and only if the rate is a whole number, so that nothing is rounded, or the size is at most one more
  than the whole part of the rate, so that a millisecond fills the bucket up to one unit. Otherwise a
  client that takes the whole part of the rate each millisecond is refused one unit more, however long
  it has done so; after three such adds on a bucket of three at a rate of 3/2 the refused call is
  compliant and fits (`small_adds_starve`).
-/

import ContactDiscovery.Service.RateLimiter
import Mathlib.Algebra.Order.Archimedean.Basic

namespace ContactDiscovery.Service.RateLimits

open Lib Lib.Windows

/-! ## A bucket in use -/

structure Use where
  created : ℤ
  bucket : LeakyBucket
  calls : List ℤ
  /-- When a call was accepted, and the amount. -/
  accepted : List (ℤ × ℚ)
  deriving DecidableEq

namespace Use

structure Add where
  amount : ℕ
  time : ℤ

def start (bucketSize : ℤ) (leakRatePerMillis : ℚ) (created : ℤ) : Use :=
  ⟨created, .new bucketSize leakRatePerMillis created, [], []⟩

/-- One `add`, at a clock that does not go back. -/
def step (s : Use) (e : Add) : Option Use :=
  if s.bucket.lastUpdateTimeMillis ≤ e.time then
    let r := s.bucket.add e.amount e.time
    some { s with
      bucket := r.2
      calls := s.calls ++ [e.time]
      accepted := if r.1 then s.accepted ++ [(e.time, (e.amount : ℚ))] else s.accepted }
  else none

/-- From the creation and from every earlier call's time on, what was accepted and the amount are one
    unit below what the bucket allows. -/
def Compliant (s : Use) (e : Add) : Prop :=
  ∀ x ∈ s.created :: s.calls,
    sumIn s.accepted x e.time + e.amount ≤ s.bucket.bucketSize + s.bucket.leakRatePerMillis * (e.time - x) - 1

/-- With what was accepted at the same time, the amount is within the size. -/
def Fits (s : Use) (e : Add) : Prop := sumIn s.accepted e.time e.time + e.amount ≤ s.bucket.bucketSize

instance (s : Use) (e : Add) : Decidable (s.Compliant e) := inferInstanceAs (Decidable (∀ x ∈ _, _))
instance (s : Use) (e : Add) : Decidable (s.Fits e) := inferInstanceAs (Decidable (_ ≤ _))

/-- A compliant call is accepted exactly if it fits. -/
def Served (s : Use) (e : Add) : Prop := s.Compliant e → ((s.bucket.add e.amount e.time).1 = true ↔ s.Fits e)

theorem add_accepts_iff (b : LeakyBucket) (amount : ℕ) (t : ℤ) :
    (b.add amount t).1 = true ↔ (amount : ℤ) ≤ b.getUpdatedSpaceRemaining t := by
  unfold LeakyBucket.add
  simp only
  split <;> simp_all

/-! ## Space that is backed -/

/-- What every call keeps: amounts are not negative. -/
structure Kept (bucketSize : ℤ) (rate : ℚ) (s : Use) : Prop where
  size : s.bucket.bucketSize = bucketSize
  leaks : s.bucket.leakRatePerMillis = rate
  amounts : ∀ x ∈ s.accepted, 0 ≤ x.2

/-- The bucket has no more than what was accepted leaves, and what it would have, or one unit less, had
    it been full at its creation or at one of the calls. -/
structure Backed (bucketSize : ℤ) (rate : ℚ) (s : Use) : Prop extends Kept bucketSize rate s where
  space : 0 ≤ s.bucket.spaceRemaining
  metered : Metered bucketSize rate s.accepted s.bucket.lastUpdateTimeMillis s.bucket.spaceRemaining
  level : ∃ x ∈ s.created :: s.calls, x ≤ s.bucket.lastUpdateTimeMillis ∧
    bucketSize + rate * (s.bucket.lastUpdateTimeMillis - x) - 1 - sumFrom s.accepted x ≤ s.bucket.spaceRemaining

section Backed

variable {bucketSize : ℤ} {rate : ℚ} {s : Use} {t : ℤ}

theorem start_kept (created : ℤ) : Kept bucketSize rate (start bucketSize rate created) :=
  ⟨rfl, rfl, fun _ hx => absurd hx List.not_mem_nil⟩

theorem Kept.step {e : Add} {s' : Use} (h : Kept bucketSize rate s) (hs : s.step e = some s') : Kept bucketSize rate s' := by
  unfold Use.step at hs
  split at hs
  swap
  · cases hs
  cases hs
  unfold LeakyBucket.add
  simp only
  split
  · refine ⟨h.size, h.leaks, fun x hx => ?_⟩
    simp only [if_true] at hx
    rcases List.mem_append.mp hx with hx | hx
    · exact h.amounts x hx
    · rw [List.mem_singleton.mp hx]
      exact Nat.cast_nonneg _
  · exact ⟨h.size, h.leaks, h.amounts⟩

theorem leak_nonneg {b : LeakyBucket} (hrate : 0 ≤ b.leakRatePerMillis) (ht : b.lastUpdateTimeMillis ≤ t) :
    0 ≤ ⌊((t - b.lastUpdateTimeMillis : ℤ) : ℚ) * b.leakRatePerMillis⌋ :=
  Int.floor_nonneg.mpr (mul_nonneg (by exact_mod_cast Int.sub_nonneg.mpr ht) hrate)

/-- The space after the leak, of a bucket that is no larger than an `int`. -/
theorem updated_eq {b : LeakyBucket} (hsize : b.bucketSize < 2 ^ 31) (hspace : 0 ≤ b.spaceRemaining)
    (hrate : 0 ≤ b.leakRatePerMillis) (ht : b.lastUpdateTimeMillis ≤ t) :
    b.getUpdatedSpaceRemaining t =
      min b.bucketSize (b.spaceRemaining + ⌊((t - b.lastUpdateTimeMillis : ℤ) : ℚ) * b.leakRatePerMillis⌋) := by
  have hleak := leak_nonneg hrate ht
  simp only [LeakyBucket.getUpdatedSpaceRemaining, toInt32, Int.floor_intCast_add]
  omega

/-- Where rounding takes at most the one unit, the space after the leak is backed at the time of the
    call, by an earlier call, the creation or this call. -/
theorem Backed.updated (h : Backed bucketSize rate s) (hsize : bucketSize < 2 ^ 31) (hrate : 0 < rate)
    (hloss : (∃ k : ℤ, rate = k) ∨ bucketSize ≤ ⌊rate⌋ + 1) (ht : s.bucket.lastUpdateTimeMillis ≤ t) :
    ∃ x ∈ s.created :: (s.calls ++ [t]), x ≤ t ∧
      bucketSize + rate * (t - x) - 1 - sumFrom s.accepted x ≤ (s.bucket.getUpdatedSpaceRemaining t : ℚ) := by
  have hupdated := updated_eq (t := t) (h.size ▸ hsize) h.space (h.leaks ▸ hrate.le) ht
  rw [h.size, h.leaks] at hupdated
  have hfull : (bucketSize : ℚ) - 1 ≤ s.bucket.getUpdatedSpaceRemaining t →
      ∃ x ∈ s.created :: (s.calls ++ [t]), x ≤ t ∧
        bucketSize + rate * (t - x) - 1 - sumFrom s.accepted x ≤ (s.bucket.getUpdatedSpaceRemaining t : ℚ) := by
    intro hle
    refine ⟨t, List.mem_cons_of_mem _ (List.mem_append_right _ List.mem_cons_self), le_rfl, ?_⟩
    have hsum : 0 ≤ sumFrom s.accepted t := sum_filter_nonneg h.amounts _
    rw [sub_self, mul_zero]
    linarith
  obtain ⟨x, hx, hxt, hlevel⟩ := h.level
  have hmem : x ∈ s.created :: (s.calls ++ [t]) := by
    rcases List.mem_cons.mp hx with hx | hx
    · rw [hx]; exact List.mem_cons_self
    · exact List.mem_cons_of_mem _ (List.mem_append_left _ hx)
  -- without a loss the time that backed the space still does, unless the bucket is full
  have hexact : ((⌊((t - s.bucket.lastUpdateTimeMillis : ℤ) : ℚ) * rate⌋ : ℤ) : ℚ) =
      ((t - s.bucket.lastUpdateTimeMillis : ℤ) : ℚ) * rate →
      ∃ x ∈ s.created :: (s.calls ++ [t]), x ≤ t ∧
        bucketSize + rate * (t - x) - 1 - sumFrom s.accepted x ≤ (s.bucket.getUpdatedSpaceRemaining t : ℚ) := by
    intro hfloor
    rcases min_cases bucketSize (s.bucket.spaceRemaining + ⌊((t - s.bucket.lastUpdateTimeMillis : ℤ) : ℚ) * rate⌋) with
      ⟨hmin, -⟩ | ⟨hmin, -⟩
    · refine hfull ?_
      rw [hupdated, hmin]
      linarith
    · refine ⟨x, hmem, hxt.trans ht, ?_⟩
      rw [hupdated, hmin, Int.cast_add, hfloor, Int.cast_sub]
      linarith
  rcases hloss with ⟨k, rfl⟩ | hsmall
  · refine hexact ?_
    rw [← Int.cast_mul, Int.floor_intCast]
  · rcases ht.eq_or_lt with hsame | hlater
    · refine hexact ?_
      rw [← hsame, sub_self, Int.cast_zero, zero_mul, Int.floor_zero, Int.cast_zero]
    · -- a millisecond fills the bucket up to one unit
      refine hfull ?_
      have hone : ⌊rate⌋ ≤ ⌊((t - s.bucket.lastUpdateTimeMillis : ℤ) : ℚ) * rate⌋ := by
        refine Int.floor_le_floor ?_
        have : (1 : ℚ) ≤ ((t - s.bucket.lastUpdateTimeMillis : ℤ) : ℚ) := by exact_mod_cast (by omega)
        nlinarith
      have hspace := h.space
      have : bucketSize - 1 ≤ s.bucket.getUpdatedSpaceRemaining t := by
        rw [hupdated]
        omega
      have hcast : ((bucketSize - 1 : ℤ) : ℚ) ≤ s.bucket.getUpdatedSpaceRemaining t := by exact_mod_cast this
      rwa [Int.cast_sub, Int.cast_one] at hcast

theorem Backed.updated_nonneg (h : Backed bucketSize rate s) (hpos : 0 ≤ bucketSize) (hsize : bucketSize < 2 ^ 31)
    (hrate : 0 < rate) (ht : s.bucket.lastUpdateTimeMillis ≤ t) : 0 ≤ s.bucket.getUpdatedSpaceRemaining t := by
  have hleak := leak_nonneg (h.leaks ▸ hrate.le) ht
  have := h.space
  rw [updated_eq (h.size ▸ hsize) h.space (h.leaks ▸ hrate.le) ht, h.size]
  omega

theorem Backed.metered_updated (h : Backed bucketSize rate s) (hrate : 0 < rate) (ht : s.bucket.lastUpdateTimeMillis ≤ t) :
    Metered bucketSize rate s.accepted t (s.bucket.getUpdatedSpaceRemaining t) := by
  have hle : (s.bucket.getUpdatedSpaceRemaining t : ℚ) ≤ bucketSize := by
    have := updated_le_size s.bucket t
    rw [h.size] at this
    exact_mod_cast this
  have hgain := updated_le h.space (h.leaks ▸ hrate.le) ht
  rw [h.leaks] at hgain
  exact h.metered.rise hrate.le ht hle hgain

/-- Whatever rounding took before, the space after the leak is the size, or less than one unit below
    what a compliant call may ask for. -/
theorem Backed.full_or_level (h : Backed bucketSize rate s) (hsize : bucketSize < 2 ^ 31) (hrate : 0 < rate)
    (ht : s.bucket.lastUpdateTimeMillis ≤ t) :
    s.bucket.getUpdatedSpaceRemaining t = bucketSize ∨
      ∃ x ∈ s.created :: s.calls,
        bucketSize + rate * (t - x) - 1 - sumFrom s.accepted x < (s.bucket.getUpdatedSpaceRemaining t : ℚ) + 1 := by
  have hupdated := updated_eq (t := t) (h.size ▸ hsize) h.space (h.leaks ▸ hrate.le) ht
  rw [h.size, h.leaks] at hupdated
  rcases min_cases bucketSize (s.bucket.spaceRemaining + ⌊((t - s.bucket.lastUpdateTimeMillis : ℤ) : ℚ) * rate⌋) with
    ⟨hmin, -⟩ | ⟨hmin, -⟩
  · exact .inl (hupdated.trans hmin)
  · obtain ⟨x, hx, -, hlevel⟩ := h.level
    refine .inr ⟨x, hx, ?_⟩
    have hfloor := Int.lt_floor_add_one (((t - s.bucket.lastUpdateTimeMillis : ℤ) : ℚ) * rate)
    rw [Int.cast_sub] at hfloor
    rw [hupdated, hmin, Int.cast_add, Int.cast_sub]
    linarith

theorem Backed.served {e : Add} (h : Backed bucketSize rate s) (hsize : bucketSize < 2 ^ 31) (hrate : 0 < rate)
    (ht : s.bucket.lastUpdateTimeMillis ≤ e.time) : s.Served e := by
  have hm := h.metered_updated hrate ht
  intro hcompliant
  rw [add_accepts_iff, Fits, h.size]
  constructor
  · intro hle
    have hle' : (e.amount : ℚ) ≤ s.bucket.getUpdatedSpaceRemaining e.time := by exact_mod_cast hle
    have hdrained := hm.drained e.time le_rfl
    rw [sub_self, mul_zero] at hdrained
    rw [sumIn_of_le hm.times le_rfl]
    linarith
  · intro hfits
    rcases h.full_or_level hsize hrate ht with hfull | ⟨x, hx, hlevel⟩
    · have hsum : 0 ≤ sumIn s.accepted e.time e.time := sum_filter_nonneg h.amounts _
      have hle : (e.amount : ℚ) ≤ bucketSize := by linarith
      rw [hfull]
      exact_mod_cast hle
    · have hc := hcompliant x hx
      rw [sumIn_of_le hm.times le_rfl, h.size, h.leaks] at hc
      have hlt : (e.amount : ℚ) < s.bucket.getUpdatedSpaceRemaining e.time + 1 := by linarith
      have hlt' : (e.amount : ℤ) < s.bucket.getUpdatedSpaceRemaining e.time + 1 := by exact_mod_cast hlt
      omega

theorem Backed.step {e : Add} {s' : Use} (h : Backed bucketSize rate s) (hpos : 0 ≤ bucketSize) (hsize : bucketSize < 2 ^ 31)
    (hrate : 0 < rate) (hloss : (∃ k : ℤ, rate = k) ∨ bucketSize ≤ ⌊rate⌋ + 1) (hs : s.step e = some s') :
    s.Served e ∧ Backed bucketSize rate s' := by
  have hkept := h.toKept.step hs
  unfold Use.step at hs
  split at hs
  swap
  · cases hs
  rename_i ht
  refine ⟨h.served hsize hrate ht, ?_⟩
  obtain ⟨x, hx, hxt, hlevel⟩ := h.updated hsize hrate hloss ht
  have hm := h.metered_updated hrate ht
  have hspace := h.updated_nonneg hpos hsize hrate ht
  suffices hnew : 0 ≤ s'.bucket.spaceRemaining ∧
      Metered bucketSize rate s'.accepted s'.bucket.lastUpdateTimeMillis s'.bucket.spaceRemaining ∧
      ∃ x ∈ s'.created :: s'.calls, x ≤ s'.bucket.lastUpdateTimeMillis ∧
        bucketSize + rate * (s'.bucket.lastUpdateTimeMillis - x) - 1 - sumFrom s'.accepted x ≤ s'.bucket.spaceRemaining from
    ⟨hkept, hnew.1, hnew.2.1, hnew.2.2⟩
  cases hs
  unfold LeakyBucket.add
  simp only
  split
  · rename_i hle
    have htaken := hm.take hrate.le (show ((e.amount : ℕ) : ℚ) ≤ _ by exact_mod_cast hle)
    refine ⟨sub_nonneg.mpr hle, by exact_mod_cast htaken, x, hx, hxt, ?_⟩
    simp only [if_true, sumFrom_concat, if_pos hxt, Int.cast_sub, Int.cast_natCast]
    linarith
  · refine ⟨hspace, hm, x, hx, hxt, ?_⟩
    simp only [Bool.false_eq_true, if_false]
    exact hlevel

theorem start_backed (hpos : 0 ≤ bucketSize) (hrate : 0 ≤ rate) (created : ℤ) :
    Backed bucketSize rate (start bucketSize rate created) := by
  refine ⟨start_kept created, hpos, .nil (by exact_mod_cast hpos) hrate created, created, List.mem_cons_self, le_rfl, ?_⟩
  simp [start, LeakyBucket.new, sumFrom]

end Backed

/-! ## A client that is starved -/

section Starved

variable (bucketSize : ℤ) (rate : ℚ)

/-- The bucket is emptied at its creation; then the whole part of the rate is taken each
    millisecond. -/
def smallAdds : ℕ → List Add
  | 0 => [⟨bucketSize.toNat, 0⟩]
  | j + 1 => smallAdds j ++ [⟨⌊rate⌋.toNat, j + 1⟩]

def taken : ℕ → List (ℤ × ℚ)
  | 0 => [(0, (bucketSize.toNat : ℚ))]
  | j + 1 => taken j ++ [((j + 1 : ℤ), (⌊rate⌋.toNat : ℚ))]

def times : ℕ → List ℤ
  | 0 => [0]
  | j + 1 => times j ++ [(j + 1 : ℤ)]

variable {bucketSize rate} (hpos : 0 ≤ bucketSize) (hsize : bucketSize < 2 ^ 31) (hrate : 0 < rate)

theorem mem_times {j : ℕ} {x : ℤ} (h : x ∈ times j) : 0 ≤ x ∧ x ≤ j := by
  induction j with
  | zero =>
    rw [List.mem_singleton.mp h]
    exact ⟨le_rfl, le_rfl⟩
  | succ j ih =>
    rcases List.mem_append.mp h with h | h
    · obtain ⟨h₀, h₁⟩ := ih h
      exact ⟨h₀, by push_cast; omega⟩
    · rw [List.mem_singleton.mp h]
      exact ⟨by omega, by push_cast; exact le_rfl⟩

theorem taken_times (j : ℕ) : ∀ x ∈ taken bucketSize rate j, x.1 ≤ j := by
  induction j with
  | zero =>
    intro x hx
    rw [List.mem_singleton.mp hx]
    exact le_rfl
  | succ j ih =>
    intro x hx
    rcases List.mem_append.mp hx with hx | hx
    · exact (ih x hx).trans (by push_cast; omega)
    · rw [List.mem_singleton.mp hx]
      push_cast
      exact le_rfl

include hrate in
theorem floor_toNat : ((⌊rate⌋.toNat : ℕ) : ℤ) = ⌊rate⌋ := Int.toNat_of_nonneg (Int.floor_nonneg.mpr hrate.le)

include hrate in
theorem floor_cast : ((⌊rate⌋.toNat : ℕ) : ℚ) = ⌊rate⌋ := by exact_mod_cast floor_toNat hrate

include hpos hrate in
theorem sumFrom_taken_zero (j : ℕ) : sumFrom (taken bucketSize rate j) 0 = bucketSize + j * ⌊rate⌋ := by
  have hbucket : ((bucketSize.toNat : ℕ) : ℚ) = bucketSize := by exact_mod_cast Int.toNat_of_nonneg hpos
  induction j with
  | zero => simp [taken, sumFrom, hbucket]
  | succ j ih =>
    rw [taken, sumFrom_concat, ih, if_pos (by omega), floor_cast hrate]
    push_cast
    ring

include hrate in
theorem sumFrom_taken_succ (m : ℕ) : ∀ d : ℕ, sumFrom (taken bucketSize rate (m + d)) (m + 1) = d * ⌊rate⌋ := by
  intro d
  induction d with
  | zero =>
    rw [Nat.add_zero, sumFrom_of_lt (taken_times m) (by omega), Nat.cast_zero, zero_mul]
  | succ d ih =>
    rw [← Nat.add_assoc, taken, sumFrom_concat, ih, if_pos (by push_cast; omega), floor_cast hrate]
    push_cast
    ring

include hsize hrate in
theorem empty_updated (hle : ⌊rate⌋ ≤ bucketSize) (j : ℕ) :
    (⟨bucketSize, rate, 0, j⟩ : LeakyBucket).getUpdatedSpaceRemaining (j + 1) = ⌊rate⌋ := by
  rw [updated_eq (b := ⟨bucketSize, rate, 0, j⟩) hsize le_rfl hrate.le (by simp)]
  simp [hle]

include hpos hsize hrate in
theorem run_smallAdds (hle : ⌊rate⌋ ≤ bucketSize) (j : ℕ) :
    Runs.run step (start bucketSize rate 0) (smallAdds bucketSize rate j) =
      some ⟨0, ⟨bucketSize, rate, 0, j⟩, times j, taken bucketSize rate j⟩ := by
  induction j with
  | zero =>
    have hupdated : (LeakyBucket.new bucketSize rate 0).getUpdatedSpaceRemaining 0 = bucketSize := by
      rw [updated_eq (b := .new bucketSize rate 0) (t := 0) hsize hpos hrate.le le_rfl]
      simp [LeakyBucket.new]
    have hbucket : ((bucketSize.toNat : ℕ) : ℤ) = bucketSize := Int.toNat_of_nonneg hpos
    have hadd : (LeakyBucket.new bucketSize rate 0).add bucketSize.toNat 0 = (true, ⟨bucketSize, rate, 0, 0⟩) := by
      unfold LeakyBucket.add
      simp only [hupdated, hbucket, sub_self]
      rw [if_pos le_rfl]
      rfl
    simp only [smallAdds, Runs.run, step, start, hadd]
    rfl
  | succ j ih =>
    have hadd : (⟨bucketSize, rate, 0, j⟩ : LeakyBucket).add ⌊rate⌋.toNat (j + 1) = (true, ⟨bucketSize, rate, 0, j + 1⟩) := by
      unfold LeakyBucket.add
      simp only [empty_updated hsize hrate hle, floor_toNat hrate, sub_self]
      rw [if_pos le_rfl]
    rw [smallAdds, Runs.run_append, ih]
    simp only [Option.bind_some, Runs.run, step, hadd]
    rw [if_pos (by omega)]
    simp only [Option.bind_some, if_true, times, taken, Nat.cast_add, Nat.cast_one]

include hpos hrate in
/-- Once the fractions of the milliseconds make two units, one more than the whole part is compliant. -/
theorem smallAdds_compliant (hlarge : ⌊rate⌋ + 1 < bucketSize) {j : ℕ} (hj : 2 < j * (rate - ⌊rate⌋)) :
    Compliant ⟨0, ⟨bucketSize, rate, 0, j⟩, times j, taken bucketSize rate j⟩ ⟨⌊rate⌋.toNat + 1, j + 1⟩ := by
  intro x hx
  have hbounds : 0 ≤ x ∧ x ≤ j := by
    rcases List.mem_cons.mp hx with hx | hx
    · have hzero : x = 0 := hx
      omega
    · exact mem_times hx
  have hcases : x = 0 ∨ ∃ m d : ℕ, m + d = j ∧ x = m + 1 := by
    by_cases h0 : x = 0
    · exact .inl h0
    · exact .inr ⟨(x - 1).toNat, (j + 1 - x).toNat, by omega, by omega⟩
  show sumIn (taken bucketSize rate j) x (j + 1) + ((⌊rate⌋.toNat + 1 : ℕ) : ℚ) ≤
    bucketSize + rate * (((j + 1 : ℤ) : ℚ) - x) - 1
  rw [sumIn_of_le (taken_times j) (by omega), Nat.cast_add, Nat.cast_one, floor_cast hrate]
  have hfloor : (⌊rate⌋ : ℚ) ≤ rate := Int.floor_le rate
  rcases hcases with rfl | ⟨m, d, rfl, rfl⟩
  · rw [sumFrom_taken_zero hpos hrate]
    push_cast
    linarith
  · rw [sumFrom_taken_succ hrate]
    have hlarge' : (⌊rate⌋ : ℚ) + 2 ≤ bucketSize := by exact_mod_cast (by omega)
    have hd : (d : ℚ) * ⌊rate⌋ ≤ d * rate := mul_le_mul_of_nonneg_left hfloor (Nat.cast_nonneg d)
    push_cast
    linarith

include hrate in
theorem smallAdds_fits (hlarge : ⌊rate⌋ + 1 < bucketSize) (j : ℕ) :
    Fits ⟨0, ⟨bucketSize, rate, 0, j⟩, times j, taken bucketSize rate j⟩ ⟨⌊rate⌋.toNat + 1, j + 1⟩ := by
  show sumIn (taken bucketSize rate j) (j + 1) (j + 1) + ((⌊rate⌋.toNat + 1 : ℕ) : ℚ) ≤ (bucketSize : ℚ)
  have hlarge' : (⌊rate⌋ : ℚ) + 1 ≤ bucketSize := by exact_mod_cast hlarge.le
  rw [sumIn_of_le (taken_times j) (by omega), sumFrom_of_lt (taken_times j) (by omega), Nat.cast_add, Nat.cast_one,
    floor_cast hrate]
  linarith

include hsize hrate in
theorem smallAdds_refused (hle : ⌊rate⌋ ≤ bucketSize) (j : ℕ) :
    ((⟨bucketSize, rate, 0, j⟩ : LeakyBucket).add (⌊rate⌋.toNat + 1) (j + 1)).1 = false := by
  have hfloor := floor_toNat hrate
  unfold LeakyBucket.add
  simp only [empty_updated hsize hrate hle]
  rw [if_neg (by push_cast; omega)]

end Starved

/-- On a bucket of negative size nothing fits, and nothing is accepted. -/
theorem Kept.served_of_neg {bucketSize : ℤ} {rate : ℚ} {s : Use} (h : Kept bucketSize rate s) (hneg : bucketSize < 0) (e : Add) :
    s.Served e := by
  intro _
  refine iff_of_false (fun haccepts => ?_) fun hfits => ?_
  · have hle := (add_accepts_iff _ _ _).mp haccepts
    have hsize := updated_le_size s.bucket e.time
    rw [h.size] at hsize
    omega
  · have hsum : 0 ≤ sumIn s.accepted e.time e.time := sum_filter_nonneg h.amounts _
    have hamount : (0 : ℚ) ≤ e.amount := Nat.cast_nonneg _
    have hneg' : (bucketSize : ℚ) < 0 := by exact_mod_cast hneg
    rw [Fits, h.size] at hfits
    linarith

/-- The compliant calls of every run on a bucket are accepted exactly if they fit, if and only if its leak
    rate is a whole number of units each millisecond, or its size is at most that number, rounded down,
    and one. -/
theorem compliant_served_iff (bucketSize : ℤ) (hsize : bucketSize < 2 ^ 31) (rate : ℚ) (hrate : 0 < rate) :
    (∀ created adds, Runs.Meets step Served (start bucketSize rate created) adds) ↔
      (∃ k : ℤ, rate = k) ∨ bucketSize ≤ ⌊rate⌋ + 1 := by
  constructor
  · intro hserved
    by_contra hno
    rw [not_or, not_exists, not_le] at hno
    obtain ⟨hfrac, hlarge⟩ := hno
    have hfloor : 0 ≤ ⌊rate⌋ := Int.floor_nonneg.mpr hrate.le
    have hlt : (⌊rate⌋ : ℚ) < rate := lt_of_le_of_ne (Int.floor_le rate) fun h => hfrac _ h.symm
    -- the fractions of so many milliseconds make two units
    obtain ⟨j, hj⟩ := exists_nat_gt (2 / (rate - ⌊rate⌋))
    rw [div_lt_iff₀ (by linarith)] at hj
    have hmeets := (hserved 0 (smallAdds bucketSize rate j ++ [⟨⌊rate⌋.toNat + 1, j + 1⟩])).after
      (run_smallAdds (by omega) hsize hrate (by omega) j)
    obtain ⟨hone, -⟩ := hmeets _ (if_pos (by show (j : ℤ) ≤ j + 1; omega))
    have haccepted := (hone (smallAdds_compliant (by omega) hrate hlarge hj)).mpr (smallAdds_fits hrate hlarge j)
    exact absurd ((smallAdds_refused hsize hrate (by omega) j).symm.trans haccepted) Bool.false_ne_true
  · intro hloss created adds
    by_cases hpos : 0 ≤ bucketSize
    · exact Runs.meets_of_inv (fun s e s' hs h => hs.step hpos hsize hrate hloss h) adds _ (start_backed hpos hrate.le created)
    · exact Runs.meets_of_inv (P := Kept bucketSize rate)
        (fun s e s' hs h => ⟨hs.served_of_neg (not_le.mp hpos) e, hs.step h⟩) adds _ (start_kept created)

/-- A bucket of two units at the same rate as below, of which one is taken each millisecond: the last of
    these calls is compliant, fits and is accepted. -/
theorem compliant_served_one :
    (2 : ℤ) ≤ ⌊(3 / 2 : ℚ)⌋ + 1 ∧ Runs.Meets step Served (start 2 (3 / 2) 0) [⟨1, 0⟩, ⟨1, 2⟩] ∧
      ∃ s, Runs.run step (start 2 (3 / 2) 0) [⟨1, 0⟩] = some s ∧ s.Compliant ⟨1, 2⟩ ∧ s.Fits ⟨1, 2⟩ ∧
        (s.bucket.add 1 2).1 = true := by
  have hsmall : (2 : ℤ) ≤ ⌊(3 / 2 : ℚ)⌋ + 1 := by norm_num
  have hmeets := (compliant_served_iff 2 (by decide) (3 / 2) (by norm_num)).mpr (.inr hsmall) 0 ([⟨1, 0⟩] ++ [⟨1, 2⟩])
  have hrun : Runs.run step (start 2 (3 / 2) 0) [⟨1, 0⟩] = some ⟨0, ⟨2, 3 / 2, 1, 0⟩, [0], [(0, 1)]⟩ := by decide +kernel
  have hcompliant : Compliant ⟨0, ⟨2, 3 / 2, 1, 0⟩, [0], [(0, 1)]⟩ ⟨1, 2⟩ := by decide +kernel
  have hfits : Fits ⟨0, ⟨2, 3 / 2, 1, 0⟩, [0], [(0, 1)]⟩ ⟨1, 2⟩ := by decide +kernel
  have hlast := hmeets.after hrun
  obtain ⟨hserved, -⟩ := hlast _ (if_pos (by decide))
  exact ⟨hsmall, hmeets, _, hrun, hcompliant, hfits, (hserved hcompliant).mpr hfits⟩

/-- A bucket of three units at a rate of 3/2 is emptied, and one unit is taken each millisecond; two
    units after the fourth are refused, though the fractions that leaked add up to two. At a rate of one
    unit, four are refused after ten milliseconds without a call, though the rate allows them. -/
theorem small_adds_starve :
    (∃ s, Runs.run step (start 3 (3 / 2) 0) [⟨3, 0⟩, ⟨1, 1⟩, ⟨1, 2⟩, ⟨1, 3⟩] = some s ∧
      s.accepted = [(0, 3), (1, 1), (2, 1), (3, 1)] ∧ s.Compliant ⟨2, 4⟩ ∧ s.Fits ⟨2, 4⟩ ∧
      (s.bucket.add 2 4).1 = false) ∧
    (start 3 1 0).Compliant ⟨4, 10⟩ ∧ ¬(start 3 1 0).Fits ⟨4, 10⟩ ∧ ((start 3 1 0).bucket.add 4 10).1 = false :=
  ⟨⟨⟨0, ⟨3, 3 / 2, 0, 3⟩, [0, 1, 2, 3], [(0, 3), (1, 1), (2, 1), (3, 1)]⟩, by decide +kernel, rfl, by decide +kernel,
    by decide +kernel, by decide +kernel⟩, by decide +kernel, by decide +kernel, by decide +kernel⟩

end Use

end ContactDiscovery.Service.RateLimits
