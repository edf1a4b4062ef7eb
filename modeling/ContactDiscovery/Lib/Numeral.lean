/-
  ContactDiscovery.Lib.Numeral — numbers as text: written with a fixed count of digits (`numeral`), as
  `Long.toString` writes them (`decimal`), and read as `Long.parseLong` reads them (`parseLong`), with
  any function that says which characters are digits.

  Proved: `parseLong_eq_some_iff`, what can be read as a `long` is a text of digits, after a sign or
  none, with the value that the digits have (`LongText`); `longText_decimal`, the decimal text is read
  as the `long`. A numeral reads back as the number modulo its size (`parseLong_numeral`), and holds
  nothing but digits (`mem_numeral`). A text of digits is a numeral (`eq_numeral`), and numerals of one
  length are in the order of their numbers (`numeral_lt_numeral`).
-/

import ContactDiscovery.Lib.Lex
import Mathlib

namespace ContactDiscovery.Lib.Numeral

/-- `Character.digit` on ASCII. -/
def digitOf (radix : Nat) (c : Char) : Option Nat :=
  let v :=
    if '0' ≤ c ∧ c ≤ '9' then c.toNat - 48
    else if 'a' ≤ c ∧ c ≤ 'z' then c.toNat - 87
    else if 'A' ≤ c ∧ c ≤ 'Z' then c.toNat - 55
    else radix
  if v < radix then some v else none

theorem lt_of_digitOf {radix d : Nat} {c : Char} (h : digitOf radix c = some d) : d < radix := by
  rw [digitOf, Option.ite_none_right_eq_some] at h
  exact Option.some.inj h.2 ▸ h.1

theorem toNat_lt_of_digitOf {radix d : Nat} {c : Char} (h : digitOf radix c = some d) : c.toNat < 128 := by
  by_contra hlarge
  have h₁ : ¬('0' ≤ c ∧ c ≤ '9') := fun hc => hlarge (lt_of_le_of_lt (show c.toNat ≤ 57 from hc.2) (by decide))
  have h₂ : ¬('a' ≤ c ∧ c ≤ 'z') := fun hc => hlarge (lt_of_le_of_lt (show c.toNat ≤ 122 from hc.2) (by decide))
  have h₃ : ¬('A' ≤ c ∧ c ≤ 'Z') := fun hc => hlarge (lt_of_le_of_lt (show c.toNat ≤ 90 from hc.2) (by decide))
  simp only [digitOf, if_neg h₁, if_neg h₂, if_neg h₃, lt_irrefl, if_false, reduceCtorEq] at h

section Read

variable (digit : Char → Option Nat) (radix : Nat)

/-- The value of the digits after a prefix of value `n`. -/
def readDigits : Nat → List Char → Option Nat
  | n, [] => some n
  | n, c :: s =>
    match digit c with
    | none => none
    | some d => readDigits (n * radix + d) s

/-- The digits of a `long`, after its sign. -/
def parseMagnitude (negative : Bool) (digits : List Char) : Option (BitVec 64) :=
  if digits = [] then none
  else
    match readDigits digit radix 0 digits with
    | none => none
    | some n =>
      if negative then if n ≤ 2 ^ 63 then some (-BitVec.ofNat 64 n) else none
      else if n < 2 ^ 63 then some (BitVec.ofNat 64 n) else none

/-- `Long.parseLong`; `none` is a `NumberFormatException`. -/
def parseLong : List Char → Option (BitVec 64)
  | [] => none
  | c :: s =>
    if c < '0' then
      if c = '-' then parseMagnitude digit radix true s
      else if c = '+' then parseMagnitude digit radix false s
      else none
    else parseMagnitude digit radix false (c :: s)

/-! ## What is read -/

/-- A text of digits, the highest first, and its value. -/
def NumberText (s : List Char) (n : Nat) : Prop :=
  s ≠ [] ∧ ∃ ds : List Nat, s.map digit = ds.map some ∧ n = Nat.ofDigits radix ds.reverse

/-- A number after a sign or none, and the `long` that it is. -/
inductive LongText : List Char → BitVec 64 → Prop
  | unsigned {s : List Char} {n : Nat} {t : BitVec 64} (digits : NumberText digit radix s n) (value : t.toInt = n) : LongText s t
  | plus {s : List Char} {n : Nat} {t : BitVec 64} (digits : NumberText digit radix s n) (value : t.toInt = n) :
      LongText ('+' :: s) t
  | minus {s : List Char} {n : Nat} {t : BitVec 64} (digits : NumberText digit radix s n) (value : t.toInt = -n) :
      LongText ('-' :: s) t

variable {digit radix}

theorem readDigits_eq_some_iff {s : List Char} {m n : Nat} :
    readDigits digit radix m s = some n ↔
      ∃ ds : List Nat, s.map digit = ds.map some ∧ n = m * radix ^ s.length + Nat.ofDigits radix ds.reverse := by
  induction s generalizing m with
  | nil =>
    rw [readDigits, Option.some.injEq]
    constructor
    · rintro rfl
      exact ⟨[], rfl, by simp⟩
    · rintro ⟨ds, hds, rfl⟩
      rw [List.map_nil, eq_comm, List.map_eq_nil_iff] at hds
      simp [hds]
  | cons c s ih =>
    rw [readDigits]
    cases hc : digit c with
    | none =>
      refine iff_of_false (by simp) ?_
      rintro ⟨_ | ⟨d, ds⟩, hds, -⟩
      · cases hds
      · rw [List.map_cons, List.map_cons, hc] at hds
        cases hds
    | some d =>
      simp only [ih]
      have hvalue : ∀ ds : List Nat, ds.length = s.length →
          (m * radix + d) * radix ^ s.length + Nat.ofDigits radix ds.reverse =
            m * radix ^ (c :: s).length + Nat.ofDigits radix (d :: ds).reverse := by
        intro ds hlen
        rw [List.reverse_cons, Nat.ofDigits_append, Nat.ofDigits_singleton, List.length_reverse, hlen, List.length_cons]
        ring
      have hlength : ∀ {ds : List Nat}, s.map digit = ds.map some → ds.length = s.length := by
        intro ds hds
        simpa using congrArg List.length hds.symm
      constructor
      · rintro ⟨ds, hds, rfl⟩
        exact ⟨d :: ds, by rw [List.map_cons, List.map_cons, hc, hds], hvalue ds (hlength hds)⟩
      · rintro ⟨_ | ⟨d', ds⟩, hds, rfl⟩
        · cases hds
        · rw [List.map_cons, List.map_cons, hc, List.cons.injEq, Option.some.injEq] at hds
          obtain ⟨rfl, hds⟩ := hds
          exact ⟨ds, hds, (hvalue ds (hlength hds)).symm⟩

theorem numberText_iff {s : List Char} {n : Nat} : NumberText digit radix s n ↔ s ≠ [] ∧ readDigits digit radix 0 s = some n := by
  simp only [readDigits_eq_some_iff, Nat.zero_mul, Nat.zero_add, NumberText]

theorem toInt_eq_natCast_iff {t : BitVec 64} {n : Nat} : t.toInt = n ↔ n < 2 ^ 63 ∧ t = BitVec.ofNat 64 n := by
  have hlt := t.toInt_lt
  constructor
  · intro h
    refine ⟨by omega, BitVec.eq_of_toInt_eq ?_⟩
    rw [h, BitVec.toInt_eq_toNat_bmod, BitVec.toNat_ofNat, Int.bmod_def]
    omega
  · rintro ⟨hn, rfl⟩
    rw [BitVec.toInt_eq_toNat_bmod, BitVec.toNat_ofNat, Int.bmod_def]
    omega

theorem toInt_eq_neg_iff {t : BitVec 64} {n : Nat} : t.toInt = -n ↔ n ≤ 2 ^ 63 ∧ t = -BitVec.ofNat 64 n := by
  have hle := t.le_toInt
  constructor
  · intro h
    refine ⟨by omega, BitVec.eq_of_toInt_eq ?_⟩
    rw [h, BitVec.toInt_neg, BitVec.toInt_eq_toNat_bmod, BitVec.toNat_ofNat, Int.bmod_def, Int.bmod_def]
    omega
  · rintro ⟨hn, rfl⟩
    rw [BitVec.toInt_neg, BitVec.toInt_eq_toNat_bmod, BitVec.toNat_ofNat, Int.bmod_def, Int.bmod_def]
    omega

theorem parseMagnitude_eq_some_iff {negative : Bool} {s : List Char} {t : BitVec 64} :
    parseMagnitude digit radix negative s = some t ↔
      ∃ n, NumberText digit radix s n ∧ t.toInt = if negative then -(n : Int) else n := by
  unfold parseMagnitude
  split
  · rename_i hnil
    exact iff_of_false (by simp) (by rintro ⟨n, hn, -⟩; exact hn.1 hnil)
  · rename_i hne
    simp only [numberText_iff, and_iff_right hne]
    cases readDigits digit radix 0 s with
    | none => simp
    | some n =>
      simp only [Option.some.injEq, exists_eq_left']
      cases negative with
      | true =>
        simp only [if_true, Option.ite_none_right_eq_some, Option.some.injEq, toInt_eq_neg_iff]
        rw [eq_comm]
      | false =>
        simp only [Bool.false_eq_true, if_false, Option.ite_none_right_eq_some, Option.some.injEq, toInt_eq_natCast_iff]
        rw [eq_comm]

/-- What can be read, where no character before the digits of ASCII is one. -/
theorem parseLong_eq_some_iff (hsign : ∀ c < '0', digit c = none) {s : List Char} {t : BitVec 64} :
    parseLong digit radix s = some t ↔ LongText digit radix s t := by
  have hfirst : ∀ {c : Char} {s : List Char} {n : Nat}, NumberText digit radix (c :: s) n → ¬c < '0' := by
    rintro c s n ⟨-, _ | ⟨d, ds⟩, hds, -⟩ hc
    · cases hds
    · rw [List.map_cons, List.map_cons, hsign c hc] at hds
      cases hds
  cases s with
  | nil =>
    refine iff_of_false (by simp [parseLong]) ?_
    rintro ⟨⟨hne, -⟩, -⟩
    exact hne rfl
  | cons c s =>
    rw [parseLong]
    constructor
    · intro h
      split at h
      · split at h
        · rename_i hc
          obtain ⟨n, hn, ht⟩ := parseMagnitude_eq_some_iff.mp h
          exact hc ▸ .minus hn ht
        · split at h
          · rename_i hc
            obtain ⟨n, hn, ht⟩ := parseMagnitude_eq_some_iff.mp h
            exact hc ▸ .plus hn ht
          · cases h
      · obtain ⟨n, hn, ht⟩ := parseMagnitude_eq_some_iff.mp h
        exact .unsigned hn ht
    · intro h
      cases h with
      | unsigned hn ht =>
        rw [if_neg (hfirst hn)]
        exact parseMagnitude_eq_some_iff.mpr ⟨_, hn, ht⟩
      | plus hn ht =>
        rw [if_pos (by decide), if_neg (by decide), if_pos rfl]
        exact parseMagnitude_eq_some_iff.mpr ⟨_, hn, ht⟩
      | minus hn ht =>
        rw [if_pos (by decide), if_pos rfl]
        exact parseMagnitude_eq_some_iff.mpr ⟨_, hn, ht⟩

theorem readDigits_append (s t : List Char) :
    ∀ n, readDigits digit radix n (s ++ t) = (readDigits digit radix n s).bind fun m => readDigits digit radix m t := by
  induction s with
  | nil => intro n; rfl
  | cons c s ih =>
    intro n
    rw [List.cons_append, readDigits, readDigits]
    cases digit c with
    | none => rfl
    | some d => exact ih _

/-- Text without a minus sign reads as a number below `2 ^ 63`. -/
theorem parseLong_lt {s : List Char} {t : BitVec 64} (hs : '-' ∉ s) (h : parseLong digit radix s = some t) : t.toNat < 2 ^ 63 := by
  have hmagnitude : ∀ {s}, parseMagnitude digit radix false s = some t → t.toNat < 2 ^ 63 := by
    intro s h
    obtain ⟨n, -, ht⟩ := parseMagnitude_eq_some_iff.mp h
    obtain ⟨hn, rfl⟩ := toInt_eq_natCast_iff.mp ht
    rw [BitVec.toNat_ofNat, Nat.mod_eq_of_lt (by omega)]
    exact hn
  cases s with
  | nil => cases h
  | cons c s =>
    rw [parseLong] at h
    rw [List.mem_cons, not_or] at hs
    split at h
    · rw [if_neg (Ne.symm hs.1)] at h
      split at h
      · exact hmagnitude h
      · cases h
    · exact hmagnitude h

end Read

/-! ## Decimal text -/

/-- `Long.toString`. -/
def decimal (t : BitVec 64) : List Char :=
  if t.toInt < 0 then '-' :: Nat.toDigits 10 t.toInt.natAbs else Nat.toDigits 10 t.toInt.natAbs

section Decimal

variable {digit : Char → Option Nat} (hdigit : ∀ d < 10, digit (Nat.digitChar d) = some d)

include hdigit

theorem readDigits_toDigits (n : Nat) : readDigits digit 10 0 (Nat.toDigits 10 n) = some n := by
  induction n using Nat.strongRecOn with
  | ind n ih =>
    by_cases hn : n < 10
    · rw [Nat.toDigits_of_lt_base hn]
      simp only [readDigits, hdigit n hn, Nat.zero_mul, Nat.zero_add]
    · have hmod : n % 10 < 10 := Nat.mod_lt _ (by decide)
      have hsplit := @Nat.toDigits_append_toDigits 10 (n / 10) (n % 10) (by decide) (by omega) hmod
      rw [Nat.div_add_mod, Nat.toDigits_of_lt_base hmod] at hsplit
      rw [← hsplit, readDigits_append, ih (n / 10) (by omega)]
      simp only [Option.bind_some, readDigits, hdigit _ hmod]
      congr 1
      omega

theorem longText_decimal (t : BitVec 64) : LongText digit 10 (decimal t) t := by
  have htext : ∀ n, NumberText digit 10 (Nat.toDigits 10 n) n := fun n =>
    numberText_iff.mpr ⟨Nat.toDigits_ne_nil, readDigits_toDigits hdigit n⟩
  unfold decimal
  split
  · exact .minus (htext _) (by omega)
  · exact .unsigned (htext _) (by omega)

end Decimal

/-- The lowest `k` digits of `n`, highest first, in lower case. -/
def numeral (radix : Nat) : Nat → Nat → List Char
  | 0, _ => []
  | k + 1, n => numeral radix k (n / radix) ++ [Nat.digitChar (n % radix)]

@[simp] theorem length_numeral (radix k n : Nat) : (numeral radix k n).length = k := by
  induction k generalizing n with
  | zero => rfl
  | succ k ih => simp [numeral, ih]

theorem mem_numeral {radix k n : Nat} (hr : 0 < radix) {c : Char} (h : c ∈ numeral radix k n) :
    ∃ d < radix, c = Nat.digitChar d := by
  induction k generalizing n with
  | zero => cases h
  | succ k ih =>
    rcases List.mem_append.mp h with h | h
    · exact ih h
    · exact ⟨n % radix, Nat.mod_lt _ hr, List.mem_singleton.mp h⟩

theorem digitOf_digitChar : ∀ r ≤ 16, ∀ d < r, digitOf r (Nat.digitChar d) = some d := by decide

theorem readDigits_numeral {radix : Nat} (h0 : 0 < radix) (h16 : radix ≤ 16) (k n m : Nat) :
    readDigits (digitOf radix) radix m (numeral radix k n) = some (m * radix ^ k + n % radix ^ k) := by
  induction k generalizing n with
  | zero => simp [numeral, readDigits, Nat.mod_one]
  | succ k ih =>
    have hd := digitOf_digitChar radix h16 (n % radix) (Nat.mod_lt _ h0)
    rw [numeral, readDigits_append, ih]
    simp only [Option.bind_some, readDigits, hd]
    have hmod : n % radix ^ (k + 1) = n % radix + radix * (n / radix % radix ^ k) := by
      rw [Nat.pow_succ', Nat.mod_mul]
    rw [hmod, Nat.pow_succ]
    congr 1; ring

theorem parseLong_numeral {radix k : Nat} (h0 : 0 < radix) (h16 : radix ≤ 16) (hk : 0 < k) (hsize : radix ^ k ≤ 2 ^ 63)
    (n : Nat) : parseLong (digitOf radix) radix (numeral radix k n) = some (BitVec.ofNat 64 (n % radix ^ k)) := by
  have hdigit : ∀ d < 16, ¬Nat.digitChar d < '0' := by decide
  have hlt : n % radix ^ k < 2 ^ 63 := lt_of_lt_of_le (Nat.mod_lt _ (Nat.pow_pos h0)) hsize
  have hread := readDigits_numeral h0 h16 k n 0
  have hall : ∀ c ∈ numeral radix k n, ¬c < '0' := by
    intro c hc
    obtain ⟨d, hd, rfl⟩ := mem_numeral h0 hc
    exact hdigit d (by omega)
  cases hnumeral : numeral radix k n with
  | nil =>
    have := length_numeral radix k n
    rw [hnumeral, List.length_nil] at this
    omega
  | cons c s =>
    rw [hnumeral] at hread hall
    rw [parseLong, if_neg (hall c List.mem_cons_self)]
    simp only [parseMagnitude, reduceCtorEq, if_false, hread, Nat.zero_mul, Nat.zero_add, Bool.false_eq_true, if_pos hlt]

/-! ## The order of numerals -/

theorem digit_of_readDigits {digit : Char → Option Nat} {radix m n : Nat} {s : List Char}
    (h : readDigits digit radix m s = some n) : ∀ c ∈ s, ∃ d, digit c = some d := by
  induction s generalizing m with
  | nil => simp
  | cons c s ih =>
    rw [readDigits] at h
    split at h
    · cases h
    · rename_i d hd
      intro c' hc'
      rcases List.mem_cons.mp hc' with rfl | hc'
      · exact ⟨d, hd⟩
      · exact ih h c' hc'

theorem eq_numeral {radix : Nat} {s : List Char} (h : ∀ c ∈ s, ∃ d < radix, c = Nat.digitChar d) :
    ∃ n < radix ^ s.length, s = numeral radix s.length n := by
  induction s using List.reverseRecOn with
  | nil => exact ⟨0, by simp, rfl⟩
  | append_singleton s c ih =>
    obtain ⟨n, hn, hs⟩ := ih fun c' hc' => h c' (by simp [hc'])
    obtain ⟨d, hd, rfl⟩ := h c (by simp)
    have hdiv : (n * radix + d) / radix = n := by
      rw [Nat.mul_comm, Nat.mul_add_div (by omega), Nat.div_eq_of_lt hd, Nat.add_zero]
    have hmod : (n * radix + d) % radix = d := by
      rw [Nat.mul_comm, Nat.mul_add_mod, Nat.mod_eq_of_lt hd]
    refine ⟨n * radix + d, ?_, ?_⟩
    · rw [List.length_append, List.length_singleton, Nat.pow_succ]
      nlinarith
    · rw [List.length_append, List.length_singleton, numeral, hdiv, hmod, ← hs]

theorem digitChar_lt_digitChar : ∀ a < 16, ∀ b < 16, Nat.digitChar a < Nat.digitChar b ↔ a < b := by decide

section Order

variable {radix : Nat} (h0 : 0 < radix) (h16 : radix ≤ 16)

include h0 h16

theorem numeral_inj {k m n : Nat} (hm : m < radix ^ k) (hn : n < radix ^ k) : numeral radix k m = numeral radix k n ↔ m = n := by
  refine ⟨fun h => ?_, fun h => by rw [h]⟩
  have hread := readDigits_numeral h0 h16 k m 0
  rw [h, readDigits_numeral h0 h16 k n 0, Nat.mod_eq_of_lt hm, Nat.mod_eq_of_lt hn] at hread
  simpa using hread.symm

theorem numeral_lt_numeral {k m n : Nat} (hm : m < radix ^ k) (hn : n < radix ^ k) :
    numeral radix k m < numeral radix k n ↔ m < n := by
  induction k generalizing m n with
  | zero =>
    simp only [Nat.pow_zero] at hm hn
    simp only [numeral, List.lt_irrefl, false_iff]
    omega
  | succ k ih =>
    rw [Nat.pow_succ'] at hm hn
    have hm' : m / radix < radix ^ k := Nat.div_lt_of_lt_mul hm
    have hn' : n / radix < radix ^ k := Nat.div_lt_of_lt_mul hn
    have hdigit := digitChar_lt_digitChar (m % radix) ((Nat.mod_lt _ h0).trans_le h16) (n % radix) ((Nat.mod_lt _ h0).trans_le h16)
    rw [numeral, numeral, Lex.append_lt_append_iff (by simp), ih hm' hn', numeral_inj h0 h16 hm' hn']
    simp only [List.cons_lt_cons_iff, hdigit, List.lt_irrefl, and_false, or_false]
    have hmdiv := Nat.div_add_mod m radix
    have hndiv := Nat.div_add_mod n radix
    constructor
    · rintro (hlt | ⟨heq, hlt⟩)
      · exact Nat.lt_of_div_lt_div hlt
      · rw [heq] at hmdiv
        omega
    · intro hlt
      rcases (Nat.div_le_div_right hlt.le : m / radix ≤ n / radix).lt_or_eq with h | h
      · exact .inl h
      · rw [h] at hmdiv
        exact .inr ⟨h, by omega⟩

end Order

end ContactDiscovery.Lib.Numeral
