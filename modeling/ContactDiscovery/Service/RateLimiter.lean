/-
  ContactDiscovery.Service.RateLimiter — the limit on what a user may ask for (`RateLimiter.java`,
  `LeakyBucket.java`).

  A user has a bucket in Redis, with the space that was left at its last update. A call gets it, or a
  new and full one if there is none, lets it leak for the time since, and if the amount fits takes it
  and sets the bucket again, with an expiry. A call that is refused does not set the bucket. Redis may
  drop a bucket once its expiry has passed.

  Proved:
  - `rate_limit_kept`: of calls one after another, no window of time sees more accepted than the size
    of the bucket and what leaks in the window. A bucket that vanishes has had the time to leak empty
    (`Metered` in Lib.Windows). The expiry is cast to an `int`, and where this cuts it, at rates of
    less than a bucket in 68 years, the bound breaks (`cut_expiry_exceeds`).
  - `concurrent_calls_iff`: of calls at the same time, a bucket has the space it had minus what was
    accepted, all along, exactly if no call sets the bucket after another took something since its get.
    Two calls that both get the bucket first are both accepted from it (`lost_update_exceeds`).

  Rates are exact rationals, and so is the floor; times are in milliseconds and do not overflow.
  Metrics are left out. A bucket reads back from its JSON as it was.
-/

import ContactDiscovery.Lib.Runs
import ContactDiscovery.Lib.Windows

namespace ContactDiscovery.Service.RateLimits

open Lib Lib.Windows

/-- `(int)` of a whole `double`. -/
def toInt32 (x : ℤ) : ℤ := max (-2 ^ 31) (min (2 ^ 31 - 1) x)

/-! ## Buckets -/

structure LeakyBucket where
  bucketSize : ℤ
  leakRatePerMillis : ℚ
  spaceRemaining : ℤ
  lastUpdateTimeMillis : ℤ
  deriving DecidableEq

namespace LeakyBucket

def new (bucketSize : ℤ) (leakRatePerMillis : ℚ) (now : ℤ) : LeakyBucket := ⟨bucketSize, leakRatePerMillis, bucketSize, now⟩

variable (b : LeakyBucket)

def getUpdatedSpaceRemaining (currentTimeMillis : ℤ) : ℤ :=
  let elapsedTime := currentTimeMillis - b.lastUpdateTimeMillis
  min b.bucketSize (toInt32 ⌊(b.spaceRemaining : ℚ) + elapsedTime * b.leakRatePerMillis⌋)

def add (amount : ℕ) (currentTimeMillis : ℤ) : Bool × LeakyBucket :=
  let spaceRemaining := b.getUpdatedSpaceRemaining currentTimeMillis
  if spaceRemaining ≥ amount then
    (true, { b with spaceRemaining := spaceRemaining - amount, lastUpdateTimeMillis := currentTimeMillis })
  else (false, { b with spaceRemaining, lastUpdateTimeMillis := currentTimeMillis })

end LeakyBucket

/-! ## The limiter -/

structure RateLimiter where
  bucketSize : ℕ
  isInt : bucketSize < 2 ^ 31
  leakRatePerMillis : ℚ
  leaks : 0 < leakRatePerMillis

/-- What Redis has for a user, with the time it was set. -/
structure Stored where
  bucket : LeakyBucket
  writtenAt : ℤ

inductive Outcome where
  | accepted
  | exceeded
  /-- Redis refuses an expiry of 0. -/
  | failed

namespace RateLimiter

variable (l : RateLimiter)

def seconds : ℤ := ⌈(l.bucketSize : ℚ) / l.leakRatePerMillis / 1000⌉

/-- The expiry in seconds, as `setBucket` sets it. -/
def expiry : ℤ := toInt32 l.seconds

def getBucket (stored : Option LeakyBucket) (now : ℤ) : LeakyBucket :=
  stored.getD (.new l.bucketSize l.leakRatePerMillis now)

/-- The clock is read for a new bucket, and for the add; then the bucket is set. -/
def validate (stored : Option Stored) (amount : ℕ) (made added written : ℤ) : Outcome × Option Stored :=
  match (l.getBucket (stored.map (·.bucket)) made).add amount added with
  | (true, b) => if l.expiry ≤ 0 then (.failed, stored) else (.accepted, some ⟨b, written⟩)
  | (false, _) => (.exceeded, stored)

end RateLimiter

/-! ## Calls one after another -/

structure St where
  now : ℤ
  stored : Option Stored
  /-- When a call was accepted, and the amount. -/
  accepted : List (ℤ × ℚ)

inductive Event where
  | validate (amount : ℕ) (made added written : ℤ)
  | vanish (t : ℤ)

variable (l : RateLimiter)

def step (s : St) : Event → Option St
  | .validate amount made added written =>
    if s.now ≤ made ∧ made ≤ added ∧ added ≤ written then
      match l.validate s.stored amount made added written with
      | (.accepted, stored) => some ⟨written, stored, s.accepted ++ [(added, (amount : ℚ))]⟩
      | (_, stored) => some ⟨written, stored, s.accepted⟩
    else none
  | .vanish t =>
    match s.stored with
    | none => none
    | some b => if s.now ≤ t ∧ b.writtenAt + 1000 * l.expiry ≤ t then some ⟨t, none, s.accepted⟩ else none

/-- A bucket vanishes when it has had the time to leak empty, or later. -/
def Leaked (s : St) : Event → Prop
  | .validate .. => True
  | .vanish t => ∀ b, s.stored = some b → b.writtenAt + 1000 * l.seconds ≤ t

/-- An expiry that is an `int` is that time. -/
theorem leaked_of_int (h : l.seconds < 2 ^ 31) {s s' : St} {e : Event} (hs : step l s e = some s') : Leaked l s e := by
  have hnonneg : 0 ≤ l.seconds := Int.ceil_nonneg (by have := l.leaks; positivity)
  have hexpiry : l.expiry = l.seconds := by
    rw [RateLimiter.expiry, toInt32]
    omega
  cases e with
  | validate => trivial
  | vanish t =>
    intro b hb
    simp only [step, hb] at hs
    split at hs
    · rename_i ht
      rw [← hexpiry]
      exact ht.2
    · cases hs

section Space

variable {b : LeakyBucket} {t : ℤ}

theorem updated_le_size (b : LeakyBucket) (t : ℤ) : b.getUpdatedSpaceRemaining t ≤ b.bucketSize := min_le_left _ _

theorem updated_le (hspace : 0 ≤ b.spaceRemaining) (hrate : 0 ≤ b.leakRatePerMillis) (ht : b.lastUpdateTimeMillis ≤ t) :
    (b.getUpdatedSpaceRemaining t : ℚ) ≤ b.spaceRemaining + b.leakRatePerMillis * (t - b.lastUpdateTimeMillis) := by
  have hleak : (0 : ℚ) ≤ ((t - b.lastUpdateTimeMillis : ℤ) : ℚ) * b.leakRatePerMillis :=
    mul_nonneg (by exact_mod_cast Int.sub_nonneg.mpr ht) hrate
  have hfloor : 0 ≤ ⌊(b.spaceRemaining : ℚ) + ((t - b.lastUpdateTimeMillis : ℤ) : ℚ) * b.leakRatePerMillis⌋ :=
    Int.floor_nonneg.mpr (add_nonneg (by exact_mod_cast hspace) hleak)
  have hle : b.getUpdatedSpaceRemaining t ≤ ⌊(b.spaceRemaining : ℚ) + ((t - b.lastUpdateTimeMillis : ℤ) : ℚ) * b.leakRatePerMillis⌋ := by
    simp only [LeakyBucket.getUpdatedSpaceRemaining, toInt32]
    omega
  calc (b.getUpdatedSpaceRemaining t : ℚ)
      ≤ (⌊(b.spaceRemaining : ℚ) + ((t - b.lastUpdateTimeMillis : ℤ) : ℚ) * b.leakRatePerMillis⌋ : ℤ) := by exact_mod_cast hle
    _ ≤ (b.spaceRemaining : ℚ) + ((t - b.lastUpdateTimeMillis : ℤ) : ℚ) * b.leakRatePerMillis := Int.floor_le _
    _ = b.spaceRemaining + b.leakRatePerMillis * (t - b.lastUpdateTimeMillis) := by push_cast; ring

theorem add_cases {amount : ℕ} {accepts : Bool} {b' : LeakyBucket} (h : b.add amount t = (accepts, b')) :
    accepts = true ∧ (amount : ℤ) ≤ b.getUpdatedSpaceRemaining t ∧
        b' = { b with spaceRemaining := b.getUpdatedSpaceRemaining t - amount, lastUpdateTimeMillis := t } ∨
      accepts = false ∧ b.getUpdatedSpaceRemaining t < amount := by
  unfold LeakyBucket.add at h
  simp only at h
  split at h
  · rename_i hle
    cases h
    exact .inl ⟨rfl, hle, rfl⟩
  · rename_i hlt
    cases h
    exact .inr ⟨rfl, not_le.mp hlt⟩

end Space

structure Ours (b : LeakyBucket) : Prop where
  bucketSize : b.bucketSize = l.bucketSize
  rate : b.leakRatePerMillis = l.leakRatePerMillis
  space : 0 ≤ b.spaceRemaining

/-- What was accepted, against the space that is left. -/
inductive Inv (s : St) : Prop where
  | absent (stored : s.stored = none) (metered : Metered l.bucketSize l.leakRatePerMillis s.accepted s.now l.bucketSize)
  | present (b : Stored) (stored : s.stored = some b) (ours : Ours l b.bucket)
      (metered : Metered l.bucketSize l.leakRatePerMillis s.accepted b.bucket.lastUpdateTimeMillis b.bucket.spaceRemaining)
      (written : b.bucket.lastUpdateTimeMillis ≤ b.writtenAt) (past : b.writtenAt ≤ s.now)

variable {l}

theorem Inv.later {s : St} (h : Inv l s) {now : ℤ} (hnow : s.now ≤ now) : Inv l { s with now } := by
  cases h with
  | absent hstored hm => exact .absent hstored (hm.of_full l.leaks.le hnow le_rfl)
  | present b hstored hours hm hwritten hpast => exact .present b hstored hours hm hwritten (hpast.trans hnow)

theorem Inv.getBucket {s : St} (h : Inv l s) {made added : ℤ} (hmade : s.now ≤ made) (hadded : made ≤ added) :
    Ours l (l.getBucket (s.stored.map (·.bucket)) made) ∧
      (l.getBucket (s.stored.map (·.bucket)) made).lastUpdateTimeMillis ≤ added ∧
      Metered l.bucketSize l.leakRatePerMillis s.accepted added
        ((l.getBucket (s.stored.map (·.bucket)) made).getUpdatedSpaceRemaining added) := by
  cases h with
  | absent hstored hm =>
    have hb : l.getBucket (s.stored.map (·.bucket)) made = .new l.bucketSize l.leakRatePerMillis made := by
      rw [hstored]
      rfl
    rw [hb]
    have hours : Ours l (.new l.bucketSize l.leakRatePerMillis made) := ⟨rfl, rfl, Int.natCast_nonneg _⟩
    have hsize := updated_le_size (.new l.bucketSize l.leakRatePerMillis made) added
    exact ⟨hours, hadded, hm.of_full l.leaks.le (hmade.trans hadded) (by exact_mod_cast hsize)⟩
  | present b hstored hours hm hwritten hpast =>
    have hb : l.getBucket (s.stored.map (·.bucket)) made = b.bucket := by
      rw [hstored]
      rfl
    rw [hb]
    have hlast : b.bucket.lastUpdateTimeMillis ≤ added := by omega
    have hsize := updated_le_size b.bucket added
    rw [hours.bucketSize] at hsize
    have hgain := updated_le hours.space (hours.rate ▸ l.leaks.le) hlast
    rw [hours.rate] at hgain
    exact ⟨hours, hlast, hm.rise l.leaks.le hlast (by exact_mod_cast hsize) hgain⟩

theorem validate_cases {stored stored' : Option Stored} {amount : ℕ} {made added written : ℤ} {o : Outcome}
    (h : l.validate stored amount made added written = (o, stored')) :
    (o = .accepted ∧ (amount : ℤ) ≤ (l.getBucket (stored.map (·.bucket)) made).getUpdatedSpaceRemaining added ∧
      stored' = some ⟨{ l.getBucket (stored.map (·.bucket)) made with
        spaceRemaining := (l.getBucket (stored.map (·.bucket)) made).getUpdatedSpaceRemaining added - amount
        lastUpdateTimeMillis := added }, written⟩) ∨
    o ≠ .accepted ∧ stored' = stored := by
  unfold RateLimiter.validate at h
  split at h
  · rename_i b hadd
    rcases add_cases hadd with ⟨-, hle, rfl⟩ | ⟨hfalse, -⟩
    · split at h
      · cases h
        exact .inr ⟨by simp, rfl⟩
      · cases h
        exact .inl ⟨rfl, hle, rfl⟩
    · cases hfalse
  · cases h
    exact .inr ⟨by simp, rfl⟩

theorem size_le_seconds (l : RateLimiter) : (l.bucketSize : ℚ) ≤ l.leakRatePerMillis * (1000 * l.seconds) := by
  have hceil : (l.bucketSize : ℚ) / l.leakRatePerMillis / 1000 ≤ l.seconds := Int.le_ceil _
  rw [div_div, div_le_iff₀ (mul_pos l.leaks (by norm_num))] at hceil
  linarith

/-- A bucket that has had these seconds is full, whatever was in it. -/
theorem refilled {accepted : List (ℤ × ℚ)} {last t : ℤ} {level : ℚ} (hlevel : 0 ≤ level)
    (hm : Metered l.bucketSize l.leakRatePerMillis accepted last level) (ht : last + 1000 * l.seconds ≤ t) :
    Metered l.bucketSize l.leakRatePerMillis accepted t l.bucketSize := by
  have hseconds : 0 ≤ l.seconds := Int.ceil_nonneg (by have := l.leaks; positivity)
  have htime : (1000 * l.seconds : ℚ) ≤ t - last := by
    have : (last : ℚ) + 1000 * l.seconds ≤ t := by exact_mod_cast ht
    linarith
  have hgain := mul_le_mul_of_nonneg_left htime l.leaks.le
  have hsize := size_le_seconds l
  exact hm.rise l.leaks.le (by omega) le_rfl (by linarith)

theorem step_inv {s s' : St} {e : Event} (h : Inv l s) (hleaked : Leaked l s e) (hs : step l s e = some s') : Inv l s' := by
  cases e with
  | validate amount made added written =>
    simp only [step] at hs
    split at hs
    swap
    · cases hs
    rename_i ht
    obtain ⟨hmade, hadded, hwritten⟩ := ht
    cases hv : l.validate s.stored amount made added written with
    | mk o stored =>
      rw [hv] at hs
      rcases validate_cases hv with ⟨rfl, hle, rfl⟩ | ⟨hne, rfl⟩
      · cases hs
        obtain ⟨hours, -, hm⟩ := h.getBucket hmade hadded
        have htaken := hm.take l.leaks.le (show ((amount : ℕ) : ℚ) ≤ _ by exact_mod_cast hle)
        refine .present _ rfl ⟨hours.bucketSize, hours.rate, Int.sub_nonneg.mpr hle⟩ ?_ hwritten le_rfl
        exact_mod_cast htaken
      · have hlater := h.later (show s.now ≤ written by omega)
        cases o with
        | accepted => exact absurd rfl hne
        | exceeded => cases hs; exact hlater
        | failed => cases hs; exact hlater
  | vanish t =>
    cases h with
    | absent hstored hm =>
      simp only [step, hstored] at hs
      cases hs
    | present b hstored hours hm hwritten hpast =>
      simp only [step, hstored] at hs
      split at hs
      swap
      · cases hs
      cases hs
      have ht := hleaked b hstored
      exact .absent rfl (refilled (by exact_mod_cast hours.space) hm
        (show b.bucket.lastUpdateTimeMillis + 1000 * l.seconds ≤ t by omega))

/-- No window of time sees more accepted than the bucket and what leaks in the window. -/
def WithinLimit (l : RateLimiter) (s : St) : Prop :=
  ∀ t₁ t₂, t₁ ≤ t₂ → sumIn s.accepted t₁ t₂ ≤ l.bucketSize + l.leakRatePerMillis * (t₂ - t₁)

theorem Inv.within {s : St} (h : Inv l s) : WithinLimit l s := by
  cases h with
  | absent _ hm => exact hm.windows
  | present _ _ _ hm _ _ => exact hm.windows

/-- Calls one after another keep within the limit. -/
theorem rate_limit_kept (l : RateLimiter) (start : ℤ) (es : List Event)
    (hleaked : Runs.Meets (step l) (Leaked l) ⟨start, none, []⟩ es) :
    Runs.Always (step l) (WithinLimit l) ⟨start, none, []⟩ es := by
  have hinv : Inv l ⟨start, none, []⟩ := .absent rfl (Metered.nil (Nat.cast_nonneg _) l.leaks.le start)
  exact Runs.Always.mono (fun _ h => h.within) es _
    (Runs.always_of_inv (P := Inv l) (fun _ _ _ h hl hs => step_inv h hl hs) es _ hinv hleaked)

def plainLimiter : RateLimiter := ⟨2, by decide, 1 / 1000, by norm_num⟩

def plainCalls : List Event := [.validate 2 0 0 1, .validate 1 500 500 500, .vanish 2001, .validate 2 2001 2001 2001]

theorem rate_limit_kept_plain :
    Runs.Meets (step plainLimiter) (Leaked plainLimiter) ⟨0, none, []⟩ plainCalls ∧
      Runs.Always (step plainLimiter) (WithinLimit plainLimiter) ⟨0, none, []⟩ plainCalls ∧
      (Runs.run (step plainLimiter) ⟨0, none, []⟩ plainCalls).map (·.accepted) = some [(0, 2), (2001, 2)] := by
  have hleaked : Runs.Meets (step plainLimiter) (Leaked plainLimiter) ⟨0, none, []⟩ plainCalls :=
    Runs.meets_of_step (fun _ _ _ hs => leaked_of_int plainLimiter (by decide +kernel) hs) _ plainCalls
  exact ⟨hleaked, rate_limit_kept plainLimiter 0 plainCalls hleaked, by decide +kernel⟩

def slowLimiter : RateLimiter := ⟨1, by decide, 1 / (4 * 10 ^ 12), by norm_num⟩

/-- Its buckets expire after 68 years, and the second is full. -/
theorem cut_expiry_exceeds :
    (Runs.run (step slowLimiter) ⟨0, none, []⟩
        [.validate 1 0 0 0, .vanish 2147483647000, .validate 1 2147483647000 2147483647000 2147483647000]).map
      (fun s => decide (sumIn s.accepted 0 2147483647000 ≤
        slowLimiter.bucketSize + slowLimiter.leakRatePerMillis * (2147483647000 - 0))) = some false := by
  decide +kernel

/-! ## Calls at the same time -/

/-- A call that took its amount off the bucket it got and has yet to set it, with what was accepted in
    all when it got it. -/
structure Pending where
  amount : ℕ
  bucket : LeakyBucket
  seen : ℤ

/-- What calls on one key share, where each of them is, and what was accepted. -/
structure Shared where
  stored : Option LeakyBucket
  pending : ℕ → Option Pending
  total : ℤ

inductive Access where
  | get (call amount : ℕ)
  | setex (call : ℕ)

section Concurrent

variable (l : RateLimiter) (now : ℤ)

def access (s : Shared) : Access → Option Shared
  | .get call amount =>
    match s.pending call with
    | some _ => none
    | none =>
      match (l.getBucket s.stored now).add amount now with
      | (true, bucket) => some { s with pending := Function.update s.pending call (some ⟨amount, bucket, s.total⟩) }
      | (false, _) => some s
  | .setex call =>
    match s.pending call with
    | none => none
    | some p =>
      -- The call throws if Redis refuses the expiry, and nothing is accepted.
      if l.expiry ≤ 0 then some { s with pending := Function.update s.pending call none }
      else some ⟨some p.bucket, Function.update s.pending call none, s.total + p.amount⟩

def space (stored : Option LeakyBucket) : ℤ := (l.getBucket stored now).getUpdatedSpaceRemaining now

/-- No update is lost: the bucket has the space it had minus what was accepted, and that was no more
    than it had. -/
structure Kept (before : Option LeakyBucket) (s : Shared) : Prop where
  left : space l now s.stored = space l now before - s.total
  total : s.total ≤ space l now before

/-- A call sets the bucket only if nothing was accepted since it got it. -/
def Untouched (s : Shared) : Access → Prop
  | .get .. => True
  | .setex call => ∀ p, s.pending call = some p → l.expiry ≤ 0 ∨ p.seen = s.total

instance (s : Shared) : ∀ a, Decidable (Untouched l s a)
  | .get _ _ => .isTrue trivial
  | .setex call => inferInstanceAs (Decidable (∀ p ∈ s.pending call, _))

structure Took (before : Option LeakyBucket) (p : Pending) : Prop where
  left : p.bucket.getUpdatedSpaceRemaining now = space l now before - p.seen - p.amount
  nonneg : 0 ≤ p.bucket.getUpdatedSpaceRemaining now

variable {l now}

theorem updated_now {b b' : LeakyBucket} {amount : ℕ} (h : b.add amount now = (true, b')) :
    b'.getUpdatedSpaceRemaining now = b.getUpdatedSpaceRemaining now - amount ∧ 0 ≤ b'.getUpdatedSpaceRemaining now := by
  rcases add_cases h with ⟨-, hle, rfl⟩ | ⟨hfalse, -⟩
  · have hsize := updated_le_size b now
    have hint : b.getUpdatedSpaceRemaining now ≤ 2 ^ 31 - 1 := by
      simp only [LeakyBucket.getUpdatedSpaceRemaining, toInt32]
      omega
    have hfloor : ⌊((b.getUpdatedSpaceRemaining now - amount : ℤ) : ℚ) + ((now - now : ℤ) : ℚ) * b.leakRatePerMillis⌋ =
        b.getUpdatedSpaceRemaining now - amount := by simp
    have hupdated : ({ b with spaceRemaining := b.getUpdatedSpaceRemaining now - amount, lastUpdateTimeMillis := now } :
        LeakyBucket).getUpdatedSpaceRemaining now = b.getUpdatedSpaceRemaining now - amount := by
      rw [LeakyBucket.getUpdatedSpaceRemaining]
      simp only [hfloor, toInt32]
      omega
    rw [hupdated]
    exact ⟨rfl, Int.sub_nonneg.mpr hle⟩
  · cases hfalse

theorem access_took {before : Option LeakyBucket} {s s' : Shared} {a : Access} (hk : Kept l now before s)
    (h : ∀ call p, s.pending call = some p → Took l now before p) (hs : access l now s a = some s') :
    ∀ call p, s'.pending call = some p → Took l now before p := by
  have hfreed : ∀ call call' p, Function.update s.pending call none call' = some p → Took l now before p := by
    intro call call' p hp
    by_cases hc : call' = call
    · simp [hc] at hp
    · exact h call' p (by simpa [hc] using hp)
  cases a with
  | get call amount =>
    simp only [access] at hs
    split at hs
    · cases hs
    split at hs <;> cases hs
    · rename_i bucket hadd
      intro call' p hp
      by_cases hc : call' = call
      · obtain rfl : ⟨amount, bucket, s.total⟩ = p := by simpa [hc] using hp
        obtain ⟨hspace, hnonneg⟩ := updated_now hadd
        have hleft : (l.getBucket s.stored now).getUpdatedSpaceRemaining now = space l now before - s.total := hk.left
        exact ⟨by rw [hspace, hleft], hnonneg⟩
      · exact h call' p (by simpa [hc] using hp)
    · exact h
  | setex call =>
    simp only [access] at hs
    split at hs
    · cases hs
    split at hs <;> cases hs
    · exact hfreed call
    · exact hfreed call

/-- A set loses no update exactly if nothing was accepted since the get. -/
theorem access_kept_iff {before : Option LeakyBucket} {s s' : Shared} {a : Access} (hk : Kept l now before s)
    (h : ∀ call p, s.pending call = some p → Took l now before p) (hs : access l now s a = some s') :
    Kept l now before s' ↔ Untouched l s a := by
  cases a with
  | get call amount =>
    refine iff_of_true ?_ trivial
    simp only [access] at hs
    split at hs
    · cases hs
    split at hs <;> cases hs <;> exact ⟨hk.left, hk.total⟩
  | setex call =>
    simp only [access] at hs
    split at hs
    · cases hs
    rename_i p hp
    have hall : Untouched l s (.setex call) ↔ l.expiry ≤ 0 ∨ p.seen = s.total := by simp [Untouched, hp]
    rw [hall]
    split at hs <;> cases hs
    · rename_i hexpiry
      exact iff_of_true ⟨hk.left, hk.total⟩ (.inl hexpiry)
    · rename_i hexpiry
      obtain ⟨hspace, hnonneg⟩ := h call p hp
      have hstored : space l now (some p.bucket) = p.bucket.getUpdatedSpaceRemaining now := rfl
      constructor
      · intro hk'
        have hleft : space l now (some p.bucket) = space l now before - (s.total + p.amount) := hk'.left
        exact .inr (by omega)
      · intro hseen
        have hseen := hseen.resolve_left hexpiry
        exact ⟨show space l now (some p.bucket) = space l now before - (s.total + p.amount) by omega,
          show s.total + p.amount ≤ space l now before by omega⟩

/-- Calls at one time lose no update, all along, exactly if each sets the bucket before anything else
    is accepted. -/
theorem concurrent_calls_iff (l : RateLimiter) (now : ℤ) (before : Option LeakyBucket) (hspace : 0 ≤ space l now before)
    (es : List Access) :
    Runs.Always (access l now) (Kept l now before) ⟨before, fun _ => none, 0⟩ es ↔
      Runs.Meets (access l now) (Untouched l) ⟨before, fun _ => none, 0⟩ es := by
  have hkept : Kept l now before ⟨before, fun _ => none, 0⟩ := ⟨(sub_zero _).symm, hspace⟩
  have hnone : ∀ call p, (⟨before, fun _ => none, 0⟩ : Shared).pending call = some p → Took l now before p :=
    fun _ _ hp => (by cases hp)
  exact Runs.always_iff_meets (fun s a s' hk ht hs => ⟨access_kept_iff hk ht hs, access_took hk ht hs⟩) es _ hkept hnone

def lastUnit : LeakyBucket := ⟨2, 1 / 1000, 1, 0⟩

/-- Of two calls for the last unit, the second gets the bucket once the first has set it; or before, and
    then both set it. -/
theorem concurrent_calls_iff_in_turn :
    0 ≤ space plainLimiter 0 (some lastUnit) ∧
      (Runs.Meets (access plainLimiter 0) (Untouched plainLimiter) ⟨some lastUnit, fun _ => none, 0⟩
          [.get 0 1, .setex 0, .get 1 1] ∧
        Runs.Always (access plainLimiter 0) (Kept plainLimiter 0 (some lastUnit)) ⟨some lastUnit, fun _ => none, 0⟩
          [.get 0 1, .setex 0, .get 1 1]) ∧
      ¬Runs.Meets (access plainLimiter 0) (Untouched plainLimiter) ⟨some lastUnit, fun _ => none, 0⟩
          [.get 0 1, .get 1 1, .setex 0, .setex 1] ∧
        ¬Runs.Always (access plainLimiter 0) (Kept plainLimiter 0 (some lastUnit)) ⟨some lastUnit, fun _ => none, 0⟩
          [.get 0 1, .get 1 1, .setex 0, .setex 1] := by
  have hspace : 0 ≤ space plainLimiter 0 (some lastUnit) := by decide +kernel
  have hiff := concurrent_calls_iff plainLimiter 0 (some lastUnit) hspace
  have hturn : Runs.Meets (access plainLimiter 0) (Untouched plainLimiter) ⟨some lastUnit, fun _ => none, 0⟩
      [.get 0 1, .setex 0, .get 1 1] := by decide +kernel
  have hcross : ¬Runs.Meets (access plainLimiter 0) (Untouched plainLimiter) ⟨some lastUnit, fun _ => none, 0⟩
      [.get 0 1, .get 1 1, .setex 0, .setex 1] := by decide +kernel
  exact ⟨hspace, ⟨hturn, (hiff _).mpr hturn⟩, hcross, mt (hiff _).mp hcross⟩

/-- Two calls that get the bucket before either sets it are both accepted, for twice the space it had. -/
theorem lost_update_exceeds :
    (Runs.run (access plainLimiter 0) ⟨some lastUnit, fun _ => none, 0⟩ [.get 0 1, .get 1 1, .setex 0, .setex 1]).map
      (fun s => (s.stored.map (·.spaceRemaining), s.total)) = some (some 0, 2) ∧
    space plainLimiter 0 (some lastUnit) = 1 := by
  decide +kernel

end Concurrent

end ContactDiscovery.Service.RateLimits
