/-
  ContactDiscovery.Service.AuthorizationToken — the tokens with which the main service vouches for a
  user (`AuthorizationTokenVerifier.java`).

  A token is the user's number, a time in seconds and a signature, with colons between them. The
  signature is the first ten bytes of an HMAC over what is before it, in hexadecimal; the time is the
  decimal text of a `long` and has to be within a day of the verifier's clock (`Format`).

  Proved: `isValid_iff`, which tokens are accepted, for every text and every time that is not negative.
  They are those of the format, and four kinds more (`Odd`). `split` leaves out the empty fields at the
  end, so colons may follow the signature. `Math.abs` of the least `long` is itself, so a time that is
  `2 ^ 63` seconds back counts as one of this day; no other difference of times that wraps around is
  small, as the clock is in milliseconds. `Long.parseLong` reads a plus sign, zeros in front, a minus
  before zero and digits that are not of ASCII, so a time has many texts. And the signature may have
  such digits too. `other_tokens_accepted` has one of each. With an empty key, which Java refuses,
  nothing is accepted.

  The HMAC, the charset of `getBytes` and `Character.digit` are parameters; `Character.digit` is known
  on ASCII, and knows more digits than those. Texts are lists of characters; what is beyond the basic
  plane is neither a digit nor a colon.
-/

import ContactDiscovery.Lib.Bytes
import ContactDiscovery.Lib.Numeral
import ContactDiscovery.Lib.Split

namespace ContactDiscovery.Service.AuthorizationToken

open Lib Lib.Split
open Lib.Numeral (LongText decimal)

abbrev Text := List Char

structure Platform where
  /-- `Character.digit`. -/
  digit : (radix : Nat) → Char → Option Nat
  getBytes : Text → List Byte
  hmacSHA256 : (key text : List Byte) → Bytes 32
  ascii : ∀ radix c, c.toNat < 128 → digit radix c = Numeral.digitOf radix c
  small : ∀ radix c d, digit radix c = some d → d < radix
  basic : ∀ radix c d, digit radix c = some d → c.toNat < 2 ^ 16

section Verifier

variable (P : Platform)

/-! ## The library functions -/

def parseLong (s : Text) : Option (BitVec 64) := Numeral.parseLong (P.digit 10) 10 s

def mathAbs (a : BitVec 64) : BitVec 64 := if a.slt 0 then -a else a

def toSeconds (millis : BitVec 64) : BitVec 64 := millis.sdiv 1000

def toHours (seconds : BitVec 64) : BitVec 64 := seconds.sdiv 3600

/-- `Hex.decodeHex`; `none` is a `DecoderException`. -/
def decodeHex : Text → Option (List Byte)
  | [] => some []
  | [_] => none
  | a :: b :: s =>
    match P.digit 16 a, P.digit 16 b, decodeHex s with
    | some hi, some lo, some bytes => some (BitVec.ofNat 8 (hi <<< 4 ||| lo) :: bytes)
    | _, _, _ => none

/-- `ByteUtils.truncate`, of an array that is long enough. -/
def truncate (element : List Byte) (length : Nat) : List Byte := element.take length

/-! ## The verifier -/

def isValidTime (timeString : Text) (currentTimeMillis : BitVec 64) : Bool :=
  match parseLong P timeString with
  | none => false
  | some tokenTime =>
    let ourTime := toSeconds currentTimeMillis
    (toHours (mathAbs (ourTime - tokenTime))).slt 24

/-- The signature of a text. -/
def ourSuffix (key : List Byte) (text : Text) : List Byte := truncate (P.hmacSHA256 key (P.getBytes text)).1 10

/-- `none` is the exception of `SecretKeySpec` for an empty key. -/
def isValidSignature (key : List Byte) (text suffix : Text) : Option Bool :=
  if key = [] then none
  else
    match decodeHex P suffix with
    | none => some false
    | some theirSuffix => some (ourSuffix P key text = theirSuffix)

def isValid (key : List Byte) (token number : Text) (currentTimeMillis : BitVec 64) : Option Bool :=
  match split ':' token with
  | [number', timeString, suffix] =>
    if number ≠ number' then some false
    else if !isValidTime P timeString currentTimeMillis then some false
    else isValidSignature P key (number' ++ ':' :: timeString) suffix
  | _ => some false

/-! ## The format -/

/-- The clock in whole seconds, less the token's time. -/
def age (currentTimeMillis tokenTime : BitVec 64) : Int := currentTimeMillis.toInt / 1000 - tokenTime.toInt

/-- Within a day of the clock. -/
def Recent (currentTimeMillis tokenTime : BitVec 64) : Prop := |age currentTimeMillis tokenTime| < 86400

/-- The one time whose distance from the clock has no absolute value. -/
def Wrapped (currentTimeMillis tokenTime : BitVec 64) : Prop := age currentTimeMillis tokenTime = 2 ^ 63

instance (currentTimeMillis tokenTime : BitVec 64) : Decidable (Recent currentTimeMillis tokenTime) :=
  inferInstanceAs (Decidable (_ < _))

instance (currentTimeMillis tokenTime : BitVec 64) : Decidable (Wrapped currentTimeMillis tokenTime) :=
  inferInstanceAs (Decidable (_ = _))

/-- A text of pairs of hexadecimal digits, and the bytes they are. -/
inductive HexText (digit : Char → Option Nat) : Text → List Byte → Prop
  | nil : HexText digit [] []
  | pair {a b : Char} {hi lo : Nat} {s : Text} {bytes : List Byte} (high : digit a = some hi) (low : digit b = some lo)
      (rest : HexText digit s bytes) : HexText digit (a :: b :: s) (BitVec.ofNat 8 (16 * hi + lo) :: bytes)

/-- The number, the decimal text of a time within a day of the clock, and the signature of both, in
    hexadecimal. -/
def Format (key : List Byte) (token number : Text) (currentTimeMillis : BitVec 64) : Prop :=
  ∃ tokenTime suffix, token = number ++ ':' :: (decimal tokenTime ++ ':' :: suffix) ∧
    ':' ∉ number ∧ ':' ∉ decimal tokenTime ∧ ':' ∉ suffix ∧ Recent currentTimeMillis tokenTime ∧
    HexText (Numeral.digitOf 16) suffix (ourSuffix P key (number ++ ':' :: decimal tokenTime))

/-- What is accepted: colons may follow, the time may be the one that wraps around and may have any text
    that is read as a `long`, and the digits of the signature may be any that `Character.digit` knows. -/
structure Accepted (key : List Byte) (token number : Text) (currentTimeMillis : BitVec 64)
    (timeString suffix : Text) (tokenTime : BitVec 64) (colons : Nat) : Prop where
  fields : token = number ++ ':' :: (timeString ++ ':' :: (suffix ++ List.replicate colons ':'))
  noNumberColon : ':' ∉ number
  noTimeColon : ':' ∉ timeString
  noSuffixColon : ':' ∉ suffix
  reads : LongText (P.digit 10) 10 timeString tokenTime
  near : Recent currentTimeMillis tokenTime ∨ Wrapped currentTimeMillis tokenTime
  signed : HexText (P.digit 16) suffix (ourSuffix P key (number ++ ':' :: timeString))

/-- What the format does not have of it. -/
def Odd (currentTimeMillis : BitVec 64) (timeString suffix : Text) (tokenTime : BitVec 64) (colons : Nat) : Prop :=
  0 < colons ∨ Wrapped currentTimeMillis tokenTime ∨ timeString ≠ decimal tokenTime ∨ ∃ c ∈ suffix, 128 ≤ c.toNat

end Verifier

/-! ## Times -/

theorem toInt_mathAbs (a : BitVec 64) : (mathAbs a).toInt = if a.toInt = -2 ^ 63 then -2 ^ 63 else |a.toInt| := by
  have hlow := a.le_toInt
  have hhigh := a.toInt_lt
  unfold mathAbs
  rw [BitVec.slt, BitVec.ofNat_eq_ofNat, BitVec.toInt_zero]
  split
  · rename_i hneg
    rw [decide_eq_true_iff] at hneg
    rw [BitVec.toInt_neg, abs_of_neg hneg, Int.bmod_def]
    omega
  · rename_i hpos
    rw [decide_eq_true_iff, not_lt] at hpos
    rw [abs_of_nonneg hpos]
    omega

theorem toInt_toSeconds {now : BitVec 64} (hnow : 0 ≤ now.toInt) : (toSeconds now).toInt = now.toInt / 1000 := by
  rw [toSeconds, BitVec.toInt_sdiv_of_ne_or_ne _ _ (.inr (by decide))]
  exact Int.tdiv_eq_ediv_of_nonneg hnow

theorem toHours_slt_iff (seconds : BitVec 64) : (toHours seconds).slt 24 = true ↔ seconds.toInt < 86400 := by
  rw [toHours, BitVec.slt, decide_eq_true_iff, BitVec.toInt_sdiv_of_ne_or_ne _ _ (.inr (by decide))]
  show seconds.toInt.tdiv 3600 < 24 ↔ _
  rcases le_or_gt 0 seconds.toInt with hpos | hneg
  · rw [Int.tdiv_eq_ediv_of_nonneg hpos]
    omega
  · have htdiv := Int.tdiv_nonneg (Int.neg_nonneg.mpr hneg.le) (by decide : (0 : ℤ) ≤ 3600)
    rw [Int.neg_tdiv] at htdiv
    omega

theorem isRecent_iff {now : BitVec 64} (hnow : 0 ≤ now.toInt) (t : BitVec 64) :
    (toHours (mathAbs (toSeconds now - t))).slt 24 = true ↔ Recent now t ∨ Wrapped now t := by
  rw [toHours_slt_iff, toInt_mathAbs, BitVec.toInt_sub, toInt_toSeconds hnow, Recent, Wrapped, age]
  have hhigh := now.toInt_lt
  have htlow := t.le_toInt
  have hthigh := t.toInt_lt
  generalize hd : now.toInt / 1000 - t.toInt = d
  have hwrap : d.bmod (2 ^ 64) = if d < 2 ^ 63 then d else d - 2 ^ 64 := by
    rw [Int.bmod_def]
    omega
  rw [hwrap]
  by_cases hfits : d < 2 ^ 63
  · rw [if_pos hfits, if_neg (by omega)]
    omega
  · rw [if_neg hfits, abs_of_nonneg (by omega : 0 ≤ d)]
    by_cases hmin : d = 2 ^ 63
    · rw [if_pos (by omega)]
      omega
    · -- the seconds are at most a thousandth of the milliseconds, so what wraps around is far from zero
      rw [if_neg (by omega), abs_of_neg (by omega)]
      omega

/-! ## Digits -/

section Digits

variable {P : Platform}

theorem digit_digitChar {radix : Nat} (hradix : radix ≤ 16) {d : Nat} (hd : d < radix) : P.digit radix (Nat.digitChar d) = some d := by
  have hascii : ∀ d < 16, (Nat.digitChar d).toNat < 128 := by decide
  rw [P.ascii radix _ (hascii d (by omega)), Numeral.digitOf_digitChar radix hradix d hd]

theorem parseLong_iff {s : Text} {t : BitVec 64} : parseLong P s = some t ↔ LongText (P.digit 10) 10 s t := by
  refine Numeral.parseLong_eq_some_iff fun c hc => ?_
  have hlt : c.toNat < 48 := hc
  rw [P.ascii 10 c (by omega), Numeral.digitOf]
  have h₁ : ¬('0' ≤ c ∧ c ≤ '9') := fun h => not_lt.mpr h.1 hc
  have h₂ : ¬('a' ≤ c ∧ c ≤ 'z') := fun h => not_lt.mpr (le_trans (by decide) h.1) hc
  have h₃ : ¬('A' ≤ c ∧ c ≤ 'Z') := fun h => not_lt.mpr (le_trans (by decide) h.1) hc
  simp only [if_neg h₁, if_neg h₂, if_neg h₃, lt_irrefl, if_false]

theorem longText_unique {s : Text} {t t' : BitVec 64} (h : LongText (P.digit 10) 10 s t) (h' : LongText (P.digit 10) 10 s t') :
    t = t' :=
  Option.some.inj ((parseLong_iff.mpr h).symm.trans (parseLong_iff.mpr h'))

theorem decodeHex_eq_some_iff {s : Text} : ∀ {bytes : List Byte}, decodeHex P s = some bytes ↔ HexText (P.digit 16) s bytes := by
  induction s using List.twoStepInduction with
  | nil =>
    intro bytes
    rw [decodeHex, Option.some.injEq]
    constructor
    · rintro rfl
      exact .nil
    · rintro ⟨⟩
      rfl
  | singleton a =>
    intro bytes
    refine iff_of_false (by simp [decodeHex]) ?_
    rintro ⟨⟩
  | cons_cons a b s ih _ =>
    intro bytes
    rw [decodeHex]
    constructor
    · intro h
      split at h
      · rename_i hi lo rest hhi hlo hrest
        cases h
        have hlt := P.small 16 b lo hlo
        rw [← Nat.shiftLeft_add_eq_or_of_lt hlt, Nat.shiftLeft_eq, Nat.mul_comm]
        exact .pair hhi hlo (ih.mp hrest)
      · cases h
    · rintro (_ | ⟨hhi, hlo, hrest⟩)
      rename_i hi lo rest
      have hlt := P.small 16 b lo hlo
      simp only [hhi, hlo, ih.mpr hrest]
      rw [← Nat.shiftLeft_add_eq_or_of_lt hlt, Nat.shiftLeft_eq, Nat.mul_comm]

/-- Digits of ASCII are digits, and the only ones below 128. -/
theorem hexText_ascii_iff {s : Text} {bytes : List Byte} :
    HexText (Numeral.digitOf 16) s bytes ↔ HexText (P.digit 16) s bytes ∧ ∀ c ∈ s, c.toNat < 128 := by
  constructor
  · intro h
    induction h with
    | nil => exact ⟨.nil, by simp⟩
    | @pair a b hi lo s bytes hhi hlo hrest ih =>
      have ha := Numeral.toNat_lt_of_digitOf hhi
      have hb := Numeral.toNat_lt_of_digitOf hlo
      refine ⟨.pair ((P.ascii 16 a ha).trans hhi) ((P.ascii 16 b hb).trans hlo) ih.1, ?_⟩
      simp only [List.forall_mem_cons]
      exact ⟨ha, hb, ih.2⟩
  · rintro ⟨h, hascii⟩
    induction h with
    | nil => exact .nil
    | @pair a b hi lo s bytes hhi hlo hrest ih =>
      simp only [List.forall_mem_cons] at hascii
      obtain ⟨ha, hb, hs⟩ := hascii
      exact .pair ((P.ascii 16 a ha).symm.trans hhi) ((P.ascii 16 b hb).symm.trans hlo) (ih hs)

end Digits

/-! ## Accepted tokens -/

theorem split_token_iff {token number timeString suffix : Text} :
    split ':' token = [number, timeString, suffix] ↔ suffix ≠ [] ∧ ':' ∉ number ∧ ':' ∉ timeString ∧ ':' ∉ suffix ∧
      ∃ colons, token = number ++ ':' :: (timeString ++ ':' :: (suffix ++ List.replicate colons ':')) := by
  have hjoin : ∀ colons, [':'].intercalate ([number, timeString, suffix] ++ List.replicate colons []) =
      number ++ ':' :: (timeString ++ ':' :: (suffix ++ List.replicate colons ':')) := by
    intro colons
    have hrest : ∀ field : Text, [':'].intercalate (field :: List.replicate colons []) = field ++ List.replicate colons ':' := by
      induction colons with
      | zero => simp
      | succ colons ih =>
        intro field
        rw [List.replicate_succ, List.intercalate_cons_cons, ih]
        simp [List.replicate_succ]
    simp only [List.cons_append, List.nil_append, List.intercalate_cons_cons, hrest]
    simp
  rw [split_eq_iff (by simp)]
  simp only [hjoin]
  simp [and_assoc]

theorem HexText.ne_nil {P : Platform} {digit : Char → Option Nat} {key : List Byte} {text suffix : Text}
    (h : HexText digit suffix (ourSuffix P key text)) : suffix ≠ [] := by
  rintro rfl
  have hlen : (ourSuffix P key text).length = 10 := by
    rw [ourSuffix, truncate, List.length_take, (P.hmacSHA256 key (P.getBytes text)).2]
    rfl
  generalize ourSuffix P key text = bytes at h hlen
  cases h
  cases hlen

theorem isValidTime_iff {P : Platform} {timeString : Text} {now : BitVec 64} (hnow : 0 ≤ now.toInt) :
    isValidTime P timeString now = true ↔
      ∃ tokenTime, LongText (P.digit 10) 10 timeString tokenTime ∧ (Recent now tokenTime ∨ Wrapped now tokenTime) := by
  simp only [← parseLong_iff]
  unfold isValidTime
  cases parseLong P timeString with
  | none => simp
  | some t =>
    simp only [isRecent_iff hnow, Option.some.injEq, exists_eq_left']

theorem isValidSignature_iff {P : Platform} {key : List Byte} {text suffix : Text} :
    isValidSignature P key text suffix = some true ↔ key ≠ [] ∧ HexText (P.digit 16) suffix (ourSuffix P key text) := by
  rw [← decodeHex_eq_some_iff]
  unfold isValidSignature
  split
  · rename_i hempty
    simp [hempty]
  · rename_i hkey
    rw [and_iff_right hkey]
    cases decodeHex P suffix with
    | none => simp
    | some theirs => simp [eq_comm]

theorem isValid_iff_fields {P : Platform} {key : List Byte} {token number : Text} {now : BitVec 64} :
    isValid P key token number now = some true ↔ ∃ timeString suffix, split ':' token = [number, timeString, suffix] ∧
      isValidTime P timeString now = true ∧ isValidSignature P key (number ++ ':' :: timeString) suffix = some true := by
  unfold isValid
  constructor
  · intro h
    split at h
    swap
    · cases h
    rename_i number' timeString suffix hsplit
    split at h
    · cases h
    rename_i hnumber
    rw [not_not] at hnumber
    subst hnumber
    split at h
    · cases h
    rename_i htime
    exact ⟨timeString, suffix, hsplit, by simpa using htime, h⟩
  · intro h
    obtain ⟨timeString, suffix, hsplit, htime, hsignature⟩ := h
    simp [hsplit, htime, hsignature]

section Accepted

variable {P : Platform} {key : List Byte} {token number : Text} {now : BitVec 64}

theorem isValid_iff_accepted (hnow : 0 ≤ now.toInt) :
    isValid P key token number now = some true ↔
      key ≠ [] ∧ ∃ timeString suffix tokenTime colons, Accepted P key token number now timeString suffix tokenTime colons := by
  rw [isValid_iff_fields]
  constructor
  · intro h
    obtain ⟨timeString, suffix, hsplit, htime, hsignature⟩ := h
    obtain ⟨-, hnumber, htimeString, hsuffix, colons, htoken⟩ := split_token_iff.mp hsplit
    obtain ⟨tokenTime, hreads, hnear⟩ := (isValidTime_iff hnow).mp htime
    obtain ⟨hkey, hsigned⟩ := isValidSignature_iff.mp hsignature
    exact ⟨hkey, timeString, suffix, tokenTime, colons, htoken, hnumber, htimeString, hsuffix, hreads, hnear, hsigned⟩
  · intro h
    obtain ⟨hkey, timeString, suffix, tokenTime, colons, h⟩ := h
    refine ⟨timeString, suffix, split_token_iff.mpr ?_, (isValidTime_iff hnow).mpr ⟨tokenTime, h.reads, h.near⟩,
      isValidSignature_iff.mpr ⟨hkey, h.signed⟩⟩
    exact ⟨h.signed.ne_nil, h.noNumberColon, h.noTimeColon, h.noSuffixColon, colons, h.fields⟩

variable {timeString timeString' suffix suffix' : Text} {t t' : BitVec 64} {colons colons' : Nat}

theorem Accepted.unique (h : Accepted P key token number now timeString suffix t colons)
    (h' : Accepted P key token number now timeString' suffix' t' colons') :
    timeString = timeString' ∧ suffix = suffix' ∧ t = t' ∧ colons = colons' := by
  have hsplit := split_token_iff.mpr ⟨h.signed.ne_nil, h.noNumberColon, h.noTimeColon, h.noSuffixColon, colons, h.fields⟩
  have hsplit' := split_token_iff.mpr ⟨h'.signed.ne_nil, h'.noNumberColon, h'.noTimeColon, h'.noSuffixColon, colons', h'.fields⟩
  rw [hsplit] at hsplit'
  cases hsplit'
  refine ⟨rfl, rfl, longText_unique h.reads h'.reads, ?_⟩
  have hlen := congrArg List.length (h.fields.symm.trans h'.fields)
  simpa using hlen

theorem Wrapped.not_recent (h : Wrapped now t) : ¬Recent now t := by
  rw [Wrapped] at h
  rw [Recent, h]
  decide

theorem format_iff_accepted :
    Format P key token number now ↔
      ∃ timeString suffix tokenTime colons, Accepted P key token number now timeString suffix tokenTime colons ∧
        ¬Odd now timeString suffix tokenTime colons := by
  constructor
  · rintro ⟨t, suffix, htoken, hnumber, htime, hsuffix, hrecent, hsigned⟩
    obtain ⟨hhex, hascii⟩ := (hexText_ascii_iff (P := P)).mp hsigned
    refine ⟨decimal t, suffix, t, 0, ⟨?_, hnumber, htime, hsuffix, ?_, .inl hrecent, hhex⟩, ?_⟩
    · rw [htoken, List.replicate_zero, List.append_nil]
    · exact Numeral.longText_decimal (fun d hd => digit_digitChar (by decide) hd) t
    · rintro (hcolons | hwrapped | hdecimal | ⟨c, hc, hlarge⟩)
      · cases hcolons
      · exact hwrapped.not_recent hrecent
      · exact hdecimal rfl
      · exact absurd (hascii c hc) (not_lt.mpr hlarge)
  · rintro ⟨timeString, suffix, t, colons, h, hodd⟩
    simp only [Odd, not_or, not_exists, not_and, not_lt, not_le, Nat.le_zero, ne_eq, not_not] at hodd
    obtain ⟨rfl, hwrapped, rfl, hascii⟩ := hodd
    refine ⟨t, suffix, ?_, h.noNumberColon, h.noTimeColon, h.noSuffixColon, h.near.resolve_right hwrapped, hexText_ascii_iff.mpr ⟨h.signed, hascii⟩⟩
    rw [h.fields, List.replicate_zero, List.append_nil]

theorem Accepted.not_format (h : Accepted P key token number now timeString suffix t colons) (hodd : Odd now timeString suffix t colons) :
    ¬Format P key token number now := by
  intro hformat
  obtain ⟨timeString', suffix', t', colons', h', hplain⟩ := format_iff_accepted.mp hformat
  obtain ⟨rfl, rfl, rfl, rfl⟩ := h.unique h'
  exact hplain hodd

end Accepted

/-- A token is accepted exactly if the key is not empty and it is signed for the number, up to colons that
    follow, other texts of its time and other digits of its signature, with a time that is within a day of
    the clock or `2 ^ 63` seconds before it. So, with such a key, the verifier accepts what has the format,
    and nothing else unless the token is odd in one of these ways. -/
theorem isValid_iff (P : Platform) (key : List Byte) (token number : Text) (currentTimeMillis : BitVec 64)
    (hnow : 0 ≤ currentTimeMillis.toInt) :
    (isValid P key token number currentTimeMillis = some true ↔
      key ≠ [] ∧ ∃ timeString suffix tokenTime colons,
        Accepted P key token number currentTimeMillis timeString suffix tokenTime colons) ∧
    ((isValid P key token number currentTimeMillis = some true ↔ Format P key token number currentTimeMillis) ↔
      if key = [] then ¬Format P key token number currentTimeMillis
      else ¬∃ timeString suffix tokenTime colons,
        Accepted P key token number currentTimeMillis timeString suffix tokenTime colons ∧
        Odd currentTimeMillis timeString suffix tokenTime colons) := by
  have hvalid := @isValid_iff_accepted P key token number currentTimeMillis hnow
  refine ⟨hvalid, ?_⟩
  rw [hvalid]
  split
  · rename_i hempty
    simp [hempty]
  · rename_i hkey
    rw [and_iff_right hkey]
    constructor
    · rintro hiff ⟨timeString, suffix, t, colons, h, hodd⟩
      exact h.not_format hodd (hiff.mp ⟨timeString, suffix, t, colons, h⟩)
    · intro hnone
      rw [format_iff_accepted]
      constructor
      · rintro ⟨timeString, suffix, t, colons, h⟩
        exact ⟨timeString, suffix, t, colons, h, fun hodd => hnone ⟨timeString, suffix, t, colons, h, hodd⟩⟩
      · rintro ⟨timeString, suffix, t, colons, h, -⟩
        exact ⟨timeString, suffix, t, colons, h⟩

/-- ASCII with the Arabic-Indic digits, and an HMAC of zeros. -/
def plainPlatform : Platform where
  digit radix c :=
    if 0x660 ≤ c.toNat ∧ c.toNat < 0x66A then if c.toNat - 0x660 < radix then some (c.toNat - 0x660) else none
    else Numeral.digitOf radix c
  getBytes text := text.map fun c => BitVec.ofNat 8 c.toNat
  hmacSHA256 _ _ := zeros 32
  ascii radix c hc := if_neg (by omega)
  small radix c d h := by
    split at h
    · rw [Option.ite_none_right_eq_some] at h
      exact Option.some.inj h.2 ▸ h.1
    · exact Numeral.lt_of_digitOf h
  basic radix c d h := by
    split at h
    · omega
    · exact (Numeral.toNat_lt_of_digitOf h).trans (by decide)

def plainToken (timeString : Text) (zero : Char) (colons : Nat) : Text :=
  '1' :: ':' :: (timeString ++ ':' :: (List.replicate 20 zero ++ List.replicate colons ':'))

theorem isValid_iff_plain :
    isValid plainPlatform [1] (plainToken ['5'] '0' 0) ['1'] 6000 = some true ∧
      Format plainPlatform [1] (plainToken ['5'] '0' 0) ['1'] 6000 := by
  have hformat : Format plainPlatform [1] (plainToken ['5'] '0' 0) ['1'] 6000 := by
    have hhex : HexText (plainPlatform.digit 16) (List.replicate 20 '0') (List.replicate 10 0) :=
      decodeHex_eq_some_iff.mp (by decide)
    exact ⟨5, List.replicate 20 '0', by decide +kernel, by decide, by decide, by decide, by decide,
      (hexText_ascii_iff (P := plainPlatform)).mpr ⟨hhex, fun c hc => by rw [List.eq_of_mem_replicate hc]; decide⟩⟩
  obtain ⟨hvalid, hexact⟩ := isValid_iff plainPlatform [1] (plainToken ['5'] '0' 0) ['1'] 6000 (by decide)
  refine ⟨(hexact.mpr ?_).mpr hformat, hformat⟩
  rw [if_neg (by decide)]
  rintro ⟨timeString, suffix, t, colons, h, hodd⟩
  exact h.not_format hodd hformat

/-- A token with a time, a signature of zeros and colons after it, where the time is read as `t`. -/
theorem plain_accepted {timeString : Text} {zero : Char} {colons : Nat} {now t : BitVec 64}
    (hparse : parseLong plainPlatform timeString = some t) (htime : ':' ∉ timeString) (hnear : Recent now t ∨ Wrapped now t)
    (hzero : plainPlatform.digit 16 zero = some 0) (hcolon : zero ≠ ':') :
    Accepted plainPlatform [1] (plainToken timeString zero colons) ['1'] now timeString (List.replicate 20 zero) t colons := by
  refine ⟨rfl, by decide, htime, fun h => hcolon (List.eq_of_mem_replicate h).symm, parseLong_iff.mp hparse, hnear,
    decodeHex_eq_some_iff.mp ?_⟩
  have hbytes : ourSuffix plainPlatform [1] (['1'] ++ ':' :: timeString) = List.replicate 10 0 := by
    show (zeros 32).1.take 10 = _
    decide
  rw [hbytes]
  simp only [List.replicate, decodeHex, hzero]
  decide

/-- A token with a colon after it; one with a time that is `2 ^ 63` seconds back; one with a plus sign
    before its time, one with a zero, one with minus zero and one with an Arabic-Indic digit; and one with
    such digits in its signature: they are accepted, and do not have the format. -/
theorem other_tokens_accepted :
    List.Forall
      (fun token =>
        isValid plainPlatform [1] token.1 ['1'] token.2 = some true ∧ ¬Format plainPlatform [1] token.1 ['1'] token.2)
      [(plainToken ['5'] '0' 1, (6000 : BitVec 64)), (plainToken "-9223372035254775808".toList '0' 0, 1600000000000),
        (plainToken ['+', '5'] '0' 0, 6000), (plainToken ['0', '5'] '0' 0, 6000), (plainToken ['-', '0'] '0' 0, 6000),
        (plainToken [Char.ofNat 0x665] '0' 0, 6000), (plainToken ['5'] (Char.ofNat 0x660) 0, 6000)] := by
  have haccepted : ∀ {timeString : Text} {zero : Char} {colons : Nat} {now t : BitVec 64},
      0 ≤ now.toInt → parseLong plainPlatform timeString = some t → ':' ∉ timeString → (Recent now t ∨ Wrapped now t) →
      plainPlatform.digit 16 zero = some 0 → zero ≠ ':' → Odd now timeString (List.replicate 20 zero) t colons →
      isValid plainPlatform [1] (plainToken timeString zero colons) ['1'] now = some true ∧
        ¬Format plainPlatform [1] (plainToken timeString zero colons) ['1'] now := by
    intro timeString zero colons now t hnow hparse htime hnear hzero hcolon hodd
    have h := @plain_accepted timeString zero colons now t hparse htime hnear hzero hcolon
    exact ⟨(isValid_iff_accepted hnow).mpr ⟨by decide, _, _, _, _, h⟩, h.not_format hodd⟩
  refine ⟨?_, ?_, ?_, ?_, ?_, ?_, ?_⟩
  · exact haccepted (t := 5) (by decide) (by decide) (by decide) (.inl (by decide)) (by decide) (by decide) (.inl (by decide))
  · exact haccepted (t := -9223372035254775808) (by decide +kernel) (by decide +kernel) (by decide +kernel)
      (.inr (by decide +kernel)) (by decide) (by decide) (.inr (.inl (by decide +kernel)))
  · exact haccepted (t := 5) (by decide) (by decide) (by decide) (.inl (by decide)) (by decide) (by decide)
      (.inr (.inr (.inl (by decide))))
  · exact haccepted (t := 5) (by decide) (by decide) (by decide) (.inl (by decide)) (by decide) (by decide)
      (.inr (.inr (.inl (by decide))))
  · exact haccepted (t := 0) (by decide) (by decide) (by decide) (.inl (by decide)) (by decide) (by decide)
      (.inr (.inr (.inl (by decide))))
  · exact haccepted (t := 5) (by decide) (by decide) (by decide) (.inl (by decide)) (by decide) (by decide)
      (.inr (.inr (.inl (by decide))))
  · exact haccepted (t := 5) (by decide) (by decide) (by decide) (.inl (by decide)) (by decide) (by decide)
      (.inr (.inr (.inr ⟨Char.ofNat 0x660, by decide, by decide⟩)))

end ContactDiscovery.Service.AuthorizationToken
