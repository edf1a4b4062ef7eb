/-
  ContactDiscovery.Lib.Lucas — certificates of primality by Lucas' test: some `a` has order `n - 1`
  modulo `n`, checked on the prime factors of `n - 1`. The factors of one certificate are small primes
  or have certificates of their own earlier in a list, and checking the list is a computation
  (`checkAll`), in which powers are taken by squaring (`powMod`). What passes is prime
  (`prime_of_checkAll`).
-/

import Mathlib

namespace ContactDiscovery.Lib

/-- `base ^ exponent % n`, of the lowest `bits` bits of the exponent. -/
def powMod (n : Nat) : (bits base exponent : Nat) → Nat
  | 0, _, _ => 1 % n
  | bits + 1, base, exponent =>
    let rest := powMod n bits (base * base % n) (exponent / 2)
    if exponent % 2 = 1 then base * rest % n else rest

theorem powMod_eq (n : Nat) : ∀ (bits base exponent : Nat), exponent < 2 ^ bits →
    powMod n bits base exponent = base ^ exponent % n := by
  intro bits
  induction bits with
  | zero =>
    intro base exponent h
    obtain rfl : exponent = 0 := by omega
    rfl
  | succ bits ih =>
    intro base exponent h
    have hrest : powMod n bits (base * base % n) (exponent / 2) = (base * base) ^ (exponent / 2) % n := by
      rw [ih _ _ (by omega), ← Nat.pow_mod]
    have hsplit := Nat.div_add_mod exponent 2
    rw [powMod, hrest]
    by_cases hodd : exponent % 2 = 1
    · rw [if_pos hodd, Nat.mul_mod_mod, ← pow_two, ← pow_mul, ← pow_succ', ← hodd, hsplit]
    · have heven : exponent % 2 = 0 := by omega
      rw [if_neg hodd, ← pow_two, ← pow_mul]
      rw [heven, Nat.add_zero] at hsplit
      rw [hsplit]

/-- `a` has order `n - 1` modulo `n`, and `factors` are the prime factors of `n - 1`. -/
structure LucasCertificate where
  n : Nat
  a : Nat
  factors : List Nat

def LucasCertificate.check (bits : Nat) (proven : List Nat) (c : LucasCertificate) : Bool :=
  decide (1 < c.n) && decide (c.n < 2 ^ bits) && c.factors.all proven.contains && c.factors.prod == c.n - 1 &&
    powMod c.n bits c.a (c.n - 1) == 1 && c.factors.all fun q => powMod c.n bits c.a ((c.n - 1) / q) != 1

/-- A certificate may use the numbers of those before it. -/
def checkAll (bits : Nat) : (proven : List Nat) → List LucasCertificate → Bool
  | _, [] => true
  | proven, c :: cs => c.check bits proven && checkAll bits (c.n :: proven) cs

theorem LucasCertificate.prime_of_check {bits : Nat} {proven : List Nat} (hproven : ∀ q ∈ proven, q.Prime)
    {c : LucasCertificate} (h : c.check bits proven = true) : c.n.Prime := by
  simp only [check, Bool.and_eq_true, decide_eq_true_eq, List.all_eq_true, List.contains_iff_mem, beq_iff_eq,
    bne_iff_ne] at h
  obtain ⟨⟨⟨⟨⟨hn, hbits⟩, hfactors⟩, hprod⟩, hone⟩, hne⟩ := h
  have hpow : ∀ e, e ≤ c.n - 1 → (powMod c.n bits c.a e = 1 ↔ (c.a : ZMod c.n) ^ e = 1) := by
    intro e he
    have hcast := ZMod.natCast_eq_natCast_iff' (c.a ^ e) 1 c.n
    rw [Nat.mod_eq_of_lt hn, Nat.cast_pow, Nat.cast_one] at hcast
    rw [powMod_eq _ _ _ _ (by omega), hcast]
  apply lucas_primality c.n (c.a : ZMod c.n)
  · exact (hpow _ (Nat.le_refl _)).mp hone
  · intro q hq hdvd h
    rw [← hprod] at hdvd
    -- a prime that divides the product is one of the factors
    obtain ⟨r, hr, hqr⟩ := (Prime.dvd_prod_iff hq.prime).mp hdvd
    obtain rfl := (Nat.prime_dvd_prime_iff_eq hq (hproven r (hfactors r hr))).mp hqr
    exact hne q hr ((hpow _ (Nat.div_le_self _ _)).mpr h)

theorem prime_of_checkAll {bits : Nat} : ∀ {cs : List LucasCertificate} {proven : List Nat}, (∀ q ∈ proven, q.Prime) →
    checkAll bits proven cs = true → ∀ c ∈ cs, c.n.Prime := by
  intro cs
  induction cs with
  | nil => intro proven _ _ c hc; cases hc
  | cons c cs ih =>
    intro proven hproven h d hd
    rw [checkAll, Bool.and_eq_true] at h
    have hc := LucasCertificate.prime_of_check hproven h.1
    cases hd with
    | head => exact hc
    | tail _ hd => exact ih (List.forall_mem_cons.mpr ⟨hc, hproven⟩) h.2 d hd

end ContactDiscovery.Lib
