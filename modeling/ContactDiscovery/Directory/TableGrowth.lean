/-
  ContactDiscovery.Directory.TableGrowth — when the native table has room
  (`InternalBuffers::insert` and `rehash` of `directory_map_native/internal_buffers.rs`), with the
  load factors exact rationals.

  A rehash makes the table as large as its elements ask for at the minimum load factor, rounded
  down, and never smaller than it was. A table whose slots are all live therefore grows exactly
  if that quotient is past its capacity; if not, the next insert of a new key walks round the
  whole table and panics.

  Proved: `insert_some` and `insert_stuck`, an insert returns if the table is not full of live slots
  or grows and what it allocates fits, and panics if it is full and does not grow; `returns_iff`, all
  runs of valid keys on a sound table, with a bound on the count of inserts and tables that fit in
  memory, return what a map answers, if and only if the capacity is not zero and has room for the
  elements and the bound, or the table grows when it is full at that capacity; `survives_iff`, on a new
  table they also leave room after each insert, if and only if the bound is below the capacity or the
  table grows.
-/

import ContactDiscovery.Directory.TableMap

namespace ContactDiscovery.Directory

open Lib Lib.Probe Lib.Assoc
open Enclave (Phone Uuid)

/-! ## Walks that end -/

theorem exists_vacant {e164s : List Phone} (h : liveSlots e164s < e164s.length) :
    ∃ i < e164s.length, ∀ k, cell e164s i ≠ .live k := by
  by_contra hno
  push Not at hno
  have hall : liveSlots e164s = e164s.length := by
    rw [liveSlots, List.countP_eq_length]
    intro x hx
    obtain ⟨i, hi, rfl⟩ := List.getElem_of_mem hx
    obtain ⟨k, hk⟩ := hno i hi
    obtain ⟨hv, he⟩ := cell_live_iff.mp ⟨hi, hk⟩
    rw [List.getElem?_eq_getElem hi] at he
    rw [Option.some.inj he]
    exact decide_eq_true (validE164_bswap.mpr hv)
  omega

theorem exists_distance {n s i : Nat} (hs : s < n) (hi : i < n) : ∃ d < n, (s + d) % n = i := by
  by_cases h : s ≤ i
  · exact ⟨i - s, by omega, by rw [show s + (i - s) = i by omega]; exact Nat.mod_eq_of_lt hi⟩
  · refine ⟨i + n - s, by omega, ?_⟩
    rw [show s + (i + n - s) = i + n by omega, Nat.add_mod_right, Nat.mod_eq_of_lt hi]

/-- The first loop of `add_to_buffer` gives up only on a table full of live slots. -/
theorem addToBuffer_some {e164s : List Phone} {uuids : List Uuid} (k : Phone) (uuid : Uuid) (convertUuid : Bool)
    (h : BufWF e164s uuids) (hroom : liveSlots e164s < e164s.length) :
    ∃ r, addToBuffer e164s uuids k uuid convertUuid = some r := by
  have hs := hashElement_lt (Nat.zero_lt_of_lt hroom) k
  obtain ⟨i, hi, hvacant⟩ := exists_vacant hroom
  obtain ⟨d, hd, rfl⟩ := exists_distance hs hi
  simp only [addToBuffer]
  rw [if_neg (by have := h.length; omega)]
  cases hp : probe e164s.length (vacantTest e164s (bswap k)) (hashElement e164s.length k) e164s.length
      (hashElement e164s.length k) with
  | none =>
    -- the walk would have stopped at the vacant slot
    have hnone := probe_none hs hp d hd
    simp only [vacantTest] at hnone
    split at hnone
    · cases hnone
    rename_i hx
    refine absurd (cellOf_live.mpr ⟨validE164_bswap.mpr (not_not.mp (mt not_validE164.mp fun hor => hx hor.symm)), ?_⟩)
      (hvacant (bswap (e164s.getD ((hashElement e164s.length k + d) % e164s.length) FREE_E164)))
    rw [bswap_bswap]
  | some slot =>
    cases slot with
    | key i => exact ⟨_, rfl⟩
    | vacant i =>
      simp only
      split
      · exact ⟨_, rfl⟩
      · exact ⟨_, rfl⟩

theorem liveSlots_le_usedSlots (e164s : List Phone) : liveSlots e164s ≤ usedSlots e164s := by
  refine List.countP_mono_left fun x _ hx => ?_
  exact decide_eq_true (of_decide_eq_true hx).1

theorem free_mem_iff {e164s : List Phone} : FREE_E164 ∈ e164s ↔ usedSlots e164s < e164s.length := by
  have hle : usedSlots e164s ≤ e164s.length := List.countP_le_length
  have hall : usedSlots e164s = e164s.length ↔ FREE_E164 ∉ e164s := by
    rw [usedSlots, List.countP_eq_length]
    constructor
    · intro h hm
      exact of_decide_eq_true (h _ hm) rfl
    · intro h x hx
      exact decide_eq_true fun he => h (he ▸ hx)
  by_cases hm : FREE_E164 ∈ e164s
  · exact ⟨fun _ => lt_of_le_of_ne hle fun he => hall.mp he hm, fun _ => hm⟩
  · exact ⟨fun h => absurd h hm, fun h => absurd (hall.mpr hm) h.ne⟩

/-- `remove` divides by the slot count, and that is all that can stop it. -/
theorem removeFromBuffer_some {e164s : List Phone} {uuids : List Uuid} (h : e164s.length = uuids.length)
    (hn : 0 < e164s.length) (k : Phone) : ∃ r, removeFromBuffer e164s uuids k = some r := by
  simp only [removeFromBuffer]
  rw [if_neg (by omega)]
  split
  · exact ⟨_, rfl⟩
  · exact ⟨_, rfl⟩

namespace InternalBuffers

/-- The loop of `rehash` ends if the new buffers have a slot for every entry left, and a table
    without tombstones stays one. -/
theorem rehashLoop_some {slots : List (Phone × Uuid)} :
    ∀ {e164s : List Phone} {uuids : List Uuid} {used : Nat}, BufWF e164s uuids → usedSlots e164s = liveSlots e164s →
      liveSlots e164s + (liveEntries slots).length ≤ e164s.length →
      ∃ r, rehashLoop slots (e164s, uuids, used) = some r ∧ usedSlots r.1 = liveSlots r.1 := by
  induction slots with
  | nil => exact fun _ hclean _ => ⟨_, rfl, hclean⟩
  | cons slot slots ih =>
    obtain ⟨stored, uuid⟩ := slot
    intro e164s uuids used h hclean hroom
    rw [liveEntries_cons] at hroom
    simp only [rehashLoop]
    by_cases hv : ValidE164 stored
    · rw [if_pos hv, List.length_cons] at hroom
      have hk := validE164_bswap.mpr hv
      rw [if_pos ⟨hk.1, hk.2⟩]
      obtain ⟨⟨old, e164s', uuids'⟩, hadd⟩ := addToBuffer_some (bswap stored) uuid false h (by omega)
      rw [hadd]
      have hadded := addToBuffer_spec h hk hadd
      have hlen : e164s'.length = e164s.length := hadded.length
      have hlive : liveSlots e164s' = if old = bswap stored then liveSlots e164s else liveSlots e164s + 1 := hadded.live
      have hused : usedSlots e164s' = if old = FREE_E164 then usedSlots e164s + 1 else usedSlots e164s := hadded.used
      have hle := liveSlots_le_usedSlots e164s'
      refine ih hadded.wf ?_ ?_
      · by_cases ho : old = bswap stored
        · rw [if_pos ho] at hlive
          rw [if_neg (ho ▸ hk.1)] at hused
          omega
        · rw [if_neg ho] at hlive
          split at hused <;> omega
      · split at hlive <;> omega
    · rw [if_neg hv] at hroom
      have hnone : ¬(bswap stored ≠ FREE_E164 ∧ bswap stored ≠ DELETED_E164) := fun h => hv (validE164_bswap.mp h)
      rw [if_neg hnone]
      exact ih h hclean hroom

/-! ## A rehash -/

section Rehash

variable {φ : Type} [LoadFactor φ] {t t' : InternalBuffers φ} {m : Phone → Option Uuid}

omit [LoadFactor φ] in
/-- No table at least as large as the old one is too small for its entries. -/
theorem rehashLoop_refines {size : Nat} (h : Refines t m) (hsize : t.capacity ≤ size) :
    ∃ r, rehashLoop (t.e164sBuffer.zip t.uuidsBuffer)
        (List.replicate size FREE_E164, List.replicate size FREE_UUID, 0) = some r ∧
      usedSlots r.1 = liveSlots r.1 := by
  refine rehashLoop_some (bufWF_replicate size FREE_UUID) (by rw [usedSlots_replicate, liveSlots_replicate]) ?_
  have hlen : (liveEntries (t.e164sBuffer.zip t.uuidsBuffer)).length = liveSlots t.e164sBuffer :=
    length_contents h.wf.length
  have hle : liveSlots t.e164sBuffer ≤ t.capacity := List.countP_le_length
  rw [liveSlots_replicate, List.length_replicate, hlen]
  omega

theorem rehash_some (h : Refines t m)
    (hmem : allocatable (LoadFactor.quotient t.elementCount t.minLoadFactor) = true) : ∃ t', t.rehash = some t' := by
  have hsmall : allocatable (max (LoadFactor.quotient t.elementCount t.minLoadFactor) t.capacity) = true := by
    have hcap := h.small
    rw [allocatable, decide_eq_true_eq] at hmem hcap ⊢
    omega
  obtain ⟨r, hr, -⟩ := rehashLoop_refines h (le_max_right (LoadFactor.quotient t.elementCount t.minLoadFactor) _)
  simp only [rehash, if_pos hsmall, hr]
  exact ⟨_, rfl⟩

/-- The size a rehash asks for; no tombstone is left. -/
structure Resized (t t' : InternalBuffers φ) : Prop where
  capacity : t'.capacity = max (LoadFactor.quotient t.elementCount t.minLoadFactor) t.capacity
  minFactor : t'.minLoadFactor = t.minLoadFactor
  maxFactor : t'.maxLoadFactor = t.maxLoadFactor
  clean : usedSlots t'.e164sBuffer = liveSlots t'.e164sBuffer

theorem rehash_resized (h : Refines t m) (hr : t.rehash = some t') : Resized t t' := by
  simp only [rehash] at hr
  split at hr
  · split at hr
    · cases hr
    · rename_i e164s uuids used hloop
      obtain ⟨r, hr', hclean⟩ := rehashLoop_refines h (le_max_right (LoadFactor.quotient t.elementCount t.minLoadFactor) _)
      obtain rfl := Option.some.inj (hloop.symm.trans hr')
      obtain ⟨-, hlen, -, -⟩ := rehashLoop_spec (bufWF_replicate _ _) hloop
      cases hr
      exact ⟨by rw [InternalBuffers.capacity, hlen, List.length_replicate], rfl, rfl, hclean⟩
  · cases hr

/-! ## An insert -/

theorem rehashIfLoaded_some (h : Refines t m)
    (hmem : allocatable (LoadFactor.quotient t.elementCount t.minLoadFactor) = true) :
    ∃ t', t.rehashIfLoaded = some t' := by
  rw [rehashIfLoaded]
  split
  · exact rehash_some h hmem
  · exact ⟨t, rfl⟩

/-- What `insert` writes to: the table itself, or its rehash if it was full. -/
theorem exists_roomy (h : Refines t m)
    (hmem : allocatable (LoadFactor.quotient t.elementCount t.minLoadFactor) = true)
    (hroom : t.elementCount < t.capacity ∨ t.capacity < LoadFactor.quotient t.elementCount t.minLoadFactor) :
    ∃ t₁, (if t.elementCount = t.capacity then t.rehash else some t) = some t₁ ∧ Refines t₁ m ∧
      t₁.elementCount = t.elementCount ∧ t₁.minLoadFactor = t.minLoadFactor ∧ t₁.elementCount < t₁.capacity := by
  split
  · rename_i hfull
    obtain ⟨t₁, hr⟩ := rehash_some h hmem
    have hsize := rehash_resized h hr
    have hcount := (rehash_spec hr).elements
    refine ⟨t₁, hr, h.rehash hr, hcount, hsize.minFactor, ?_⟩
    rw [hcount, hsize.capacity]
    omega
  · have hle := h.elementCount_le
    exact ⟨t, rfl, h, rfl, rfl, by omega⟩

/-- An insert returns `Ok` if the table is not full, or grows when it is, and its elements and one
    more fit in memory at the minimum load factor. -/
theorem insert_some {k : Phone} (h : Refines t m) (hk : ValidE164 k) (u : Uuid)
    (hmem : allocatable (LoadFactor.quotient t.elementCount t.minLoadFactor) = true)
    (hmem' : allocatable (LoadFactor.quotient (t.elementCount + 1) t.minLoadFactor) = true)
    (hroom : t.elementCount < t.capacity ∨ t.capacity < LoadFactor.quotient t.elementCount t.minLoadFactor) :
    ∃ b t', t.insert k u = some (.ok b, t') := by
  obtain ⟨t₁, ht₁, h₁, hcount, hmin, hlt⟩ := exists_roomy h hmem hroom
  obtain ⟨⟨old, e164s, uuids⟩, hadd⟩ := addToBuffer_some k u true h₁.wf
    (by rw [← h₁.elements]; exact hlt)
  obtain ⟨-, hwritten⟩ := written_refines h₁ hk hadd
  obtain ⟨t', hload⟩ := rehashIfLoaded_some hwritten (by
    show allocatable (LoadFactor.quotient (if decide (old ≠ k) = true then t₁.elementCount + 1 else t₁.elementCount)
      t₁.minLoadFactor) = true
    rw [hcount, hmin]
    split
    · exact hmem'
    · exact hmem)
  refine ⟨decide (old ≠ k), t', ?_⟩
  have hle := h.elementCount_le
  simp only [insert, if_neg (fun hbad => not_validE164.mpr hbad hk), ht₁, hcount]
  rw [if_neg (by omega)]
  rw [insertSlot_eq hadd, hload]
  rfl

omit [LoadFactor φ] in
theorem remove_some {k : Phone} (h : Refines t m) (hk : ValidE164 k) (hcap : 0 < t.capacity) :
    ∃ removed e164s uuids, removeFromBuffer t.e164sBuffer t.uuidsBuffer k = some (removed, e164s, uuids) ∧
      t.remove k = some (.ok removed, { t with
        e164sBuffer := e164s
        uuidsBuffer := uuids
        elementCount := if removed then usizePred t.elementCount else t.elementCount }) := by
  obtain ⟨⟨removed, e164s, uuids⟩, hbuf⟩ := removeFromBuffer_some h.wf.length hcap k
  refine ⟨removed, e164s, uuids, hbuf, ?_⟩
  simp only [remove, if_neg (fun hbad => not_validE164.mpr hbad hk), hbuf]

structure Grown (t t' : InternalBuffers φ) : Prop where
  minFactor : t'.minLoadFactor = t.minLoadFactor
  maxFactor : t'.maxLoadFactor = t.maxLoadFactor
  grows : t.capacity ≤ t'.capacity
  size : t'.capacity = t.capacity ∨ t'.capacity = LoadFactor.quotient t.elementCount t.minLoadFactor ∨
    t'.capacity = LoadFactor.quotient t'.elementCount t.minLoadFactor
  load : t'.usedSlotCount < LoadFactor.product t'.capacity t'.maxLoadFactor ∨
    usedSlots t'.e164sBuffer = liveSlots t'.e164sBuffer

theorem rehashIfLoaded_elements (hr : t.rehashIfLoaded = some t') : t'.elementCount = t.elementCount := by
  rw [rehashIfLoaded] at hr
  split at hr
  · exact (rehash_spec hr).elements
  · cases hr; rfl

theorem rehashIfLoaded_grown (h : Refines t m) (hr : t.rehashIfLoaded = some t') : Grown t t' := by
  rw [rehashIfLoaded] at hr
  split at hr
  · have hsize := rehash_resized h hr
    have hspec := rehash_spec hr
    refine ⟨hsize.minFactor, hsize.maxFactor, hspec.grows, ?_, .inr hsize.clean⟩
    rw [hspec.elements, or_self, hsize.capacity]
    omega
  · cases hr
    exact ⟨rfl, rfl, le_rfl, .inl rfl, .inl (by omega)⟩

theorem insert_grown {k : Phone} {u : Uuid} {r : Except (InternalBuffersError φ) Bool} (h : Refines t m)
    (hk : ValidE164 k) (hi : t.insert k u = some (r, t')) :
    Grown t t' ∧ t'.elementCount = if m k = none then t.elementCount + 1 else t.elementCount := by
  obtain ⟨t₁, hroom, h₁, hcount, hslot⟩ := insert_cases h hk hi
  obtain ⟨old, e164s, uuids, hadd, rfl, hload⟩ := insertSlot_some hslot
  obtain ⟨hold, hwritten⟩ := written_refines h₁ hk hadd
  have hg := rehashIfLoaded_grown hwritten hload
  have hlen : (t₁.written k old e164s uuids).capacity = t₁.capacity := (addToBuffer_spec h₁.wf hk hadd).length
  obtain ⟨hmin, hmax, hsize⟩ : t₁.minLoadFactor = t.minLoadFactor ∧ t₁.maxLoadFactor = t.maxLoadFactor ∧
      (t₁.capacity = t.capacity ∨
        t.capacity ≤ t₁.capacity ∧ t₁.capacity = LoadFactor.quotient t.elementCount t.minLoadFactor) := by
    split at hroom
    · have hs := rehash_resized h hroom
      refine ⟨hs.minFactor, hs.maxFactor, ?_⟩
      rw [hs.capacity]
      omega
    · cases hroom; exact ⟨rfl, rfl, .inl rfl⟩
  have hgrows := hg.grows
  have hfinal := hg.size
  have hfactor : (t₁.written k old e164s uuids).minLoadFactor = t.minLoadFactor := hmin
  rw [hlen] at hgrows
  rw [hlen, ← rehashIfLoaded_elements hload, or_self, hfactor] at hfinal
  refine ⟨⟨hg.minFactor.trans hmin, hg.maxFactor.trans hmax, by omega, ?_, hg.load⟩, ?_⟩
  · rcases hfinal with hf | hf
    · rcases hsize with he | ⟨-, he⟩
      · exact .inl (hf.trans he)
      · exact .inr (.inl (hf.trans he))
    · exact .inr (.inr hf)
  · rw [rehashIfLoaded_elements hload]
    show (if decide (old ≠ k) = true then t₁.elementCount + 1 else t₁.elementCount) = _
    rw [hcount]
    by_cases hm : m k = none
    · have hnew : old ≠ k := fun he => hold.mp he hm
      rw [if_pos hm, if_pos (decide_eq_true hnew)]
    · rw [if_neg hm, hold.mpr hm, if_neg (by simp)]

end Rehash

/-! ## Rational load factors -/

section Rational

variable {a b c e : Nat} {x : ℚ}

theorem quotient_of_pos (hx : 0 < x) (n : Nat) : LoadFactor.quotient n x = min ⌊n / x⌋₊ (2 ^ 64 - 1) :=
  if_neg hx.ne'

theorem quotient_zero (n : Nat) : LoadFactor.quotient n (0 : ℚ) = if n = 0 then 0 else 2 ^ 64 - 1 := if_pos rfl

theorem quotient_mono (hx : 0 ≤ x) (hab : a ≤ b) : LoadFactor.quotient a x ≤ LoadFactor.quotient b x := by
  rcases hx.eq_or_lt with rfl | hpos
  · rw [quotient_zero, quotient_zero]
    split
    · exact Nat.zero_le _
    · rw [if_neg (by omega)]
  · rw [quotient_of_pos hpos, quotient_of_pos hpos]
    exact min_le_min_right _ (Nat.floor_le_floor (by gcongr))

theorem allocatable_mono (hx : 0 ≤ x) (hab : a ≤ b) (hmem : allocatable (LoadFactor.quotient b x) = true) :
    allocatable (LoadFactor.quotient a x) = true := by
  have hle := quotient_mono hx hab
  rw [allocatable, decide_eq_true_eq] at hmem ⊢
  omega

/-- A full table of at least `c` slots grows. -/
theorem lt_quotient (hx : 0 ≤ x) (hgrows : x * (c + 1) ≤ c) (hc : 0 < c) (hce : c ≤ e) (hsmall : e < 2 ^ 64 - 1) :
    e < LoadFactor.quotient e x := by
  rcases hx.eq_or_lt with rfl | hpos
  · rw [quotient_zero, if_neg (by omega)]
    exact hsmall
  · have hc' : (0 : ℚ) < c := by exact_mod_cast hc
    have hce' : (c : ℚ) ≤ e := by exact_mod_cast hce
    have hone : x ≤ 1 := by nlinarith
    rw [quotient_of_pos hpos, lt_min_iff]
    refine ⟨Nat.lt_of_succ_le (Nat.le_floor ?_), hsmall⟩
    rw [le_div_iff₀ hpos, Nat.cast_succ]
    nlinarith

theorem pos_of_stuck (hstuck : c < x * (c + 1)) : 0 < x := by
  by_contra hneg
  have : x * (c + 1) ≤ 0 := mul_nonpos_of_nonpos_of_nonneg (not_lt.mp hneg) (by positivity)
  have : (0 : ℚ) ≤ c := by positivity
  linarith

/-- If a full table of `c` slots does not grow, no table of at most `c` elements needs more. -/
theorem quotient_le (hstuck : c < x * (c + 1)) (hec : e ≤ c) : LoadFactor.quotient e x ≤ e := by
  have hpos := pos_of_stuck hstuck
  have hec' : (e : ℚ) ≤ c := by exact_mod_cast hec
  rw [quotient_of_pos hpos]
  refine (min_le_left _ _).trans (Nat.le_of_lt_succ ((Nat.floor_lt' (by omega)).mpr ?_))
  rw [div_lt_iff₀ hpos, Nat.cast_succ]
  have hscaled : (c + 1 : ℚ) * e < (c + 1) * ((e + 1) * x) := by
    calc (c + 1 : ℚ) * e ≤ (e + 1) * c := by linarith
      _ < (e + 1) * (x * (c + 1)) := by gcongr
      _ = (c + 1) * ((e + 1) * x) := by ring
  exact lt_of_mul_lt_mul_left hscaled (by positivity)

theorem product_le (hx : x ≤ 1) (n : Nat) : LoadFactor.product n x ≤ n := by
  refine (min_le_left _ _).trans (Nat.floor_le_of_le ?_)
  exact mul_le_of_le_one_right (by positivity) hx

end Rational

/-! ## Runs -/

/-- A free slot is left; or the next insert starts with a rehash, as it does exactly on a table
    with as many elements as slots, and that rehash grows the table. -/
def HasRoom {φ : Type} [LoadFactor φ] (t : InternalBuffers φ) : Prop :=
  FREE_E164 ∈ t.e164sBuffer ∨
    (t.elementCount = t.capacity ∧ ∃ t', t.rehash = some t' ∧ t.capacity < t'.capacity)

end InternalBuffers

def Op.isInsert : Op → Bool
  | .insert _ _ => true
  | .remove _ => false

def insertCount (ops : List Op) : Nat := ops.countP Op.isInsert

namespace InternalBuffers

/-- Every call of the run returns `Ok`, and every insert leaves room. -/
def Survives {φ : Type} [LoadFactor φ] : List Op → InternalBuffers φ → Prop
  | [], _ => True
  | op :: ops, t => ∃ b t', t.apply op = some (.ok b, t') ∧ (op.isInsert = true → t'.HasRoom) ∧ Survives ops t'

/-- A table with the minimum load factor `lo` on which at most `n` elements will ever be: it has a slot
    for each, or it grows when it is full. -/
structure Lasting (lo : ℚ) (n : Nat) (t : InternalBuffers ℚ) : Prop where
  minFactor : t.minLoadFactor = lo
  nonempty : 0 < t.capacity
  grows : n ≤ t.capacity ∨ lo * (t.capacity + 1) ≤ t.capacity

/-- And it has a slot more than that. -/
structure Roomy (lo hi : ℚ) (n : Nat) (t : InternalBuffers ℚ) : Prop extends Lasting lo (n + 1) t where
  maxFactor : t.maxLoadFactor = hi

section Run

variable {t t' : InternalBuffers ℚ} {m : Phone → Option Uuid} {lo hi : ℚ} {n : Nat} {k : Phone}

theorem remove_lasting (h : Refines t m) (hk : ValidE164 k) (hr : Lasting lo n t) :
    ∃ b t', t.remove k = some (.ok b, t') ∧ Lasting lo n t' ∧ t'.maxLoadFactor = t.maxLoadFactor ∧
      t'.elementCount ≤ t.elementCount := by
  obtain ⟨removed, e164s, uuids, hbuf, hrem⟩ := remove_some h hk hr.nonempty
  have hcount := (remove_refines h hk hrem).2.elements
  obtain ⟨hlen, hlive⟩ : e164s.length = t.capacity ∧ liveSlots e164s ≤ liveSlots t.e164sBuffer := by
    rcases removeFromBuffer_spec h.wf hk hbuf with ⟨-, -, hremoved⟩ | ⟨-, -, rfl, -⟩
    · exact ⟨hremoved.length, by have := hremoved.live; omega⟩
    · exact ⟨rfl, le_rfl⟩
  refine ⟨removed, _, hrem, ⟨hr.minFactor, ?_, ?_⟩, rfl, ?_⟩
  · rw [capacity, hlen]; exact hr.nonempty
  · rw [capacity, hlen]; exact hr.grows
  · rw [hcount, h.elements]; exact hlive

theorem Lasting.full_grows (hr : Lasting lo n t) (h : Refines t m) (hlo : 0 ≤ lo) (hfull : t.elementCount = t.capacity)
    (hn : t.elementCount < n) : t.capacity < LoadFactor.quotient t.elementCount t.minLoadFactor := by
  rcases hr.grows with hle | hgrows
  · omega
  · have hsmall := h.small
    rw [allocatable, decide_eq_true_eq] at hsmall
    rw [hfull, hr.minFactor]
    exact lt_quotient hlo hgrows hr.nonempty le_rfl (by omega)

theorem insert_lasting (h : Refines t m) (hk : ValidE164 k) (u : Uuid) (hr : Lasting lo n t) (hlo : 0 ≤ lo)
    (hn : t.elementCount < n) (hmem : allocatable (LoadFactor.quotient (t.elementCount + 1) lo) = true) :
    ∃ b t', t.insert k u = some (.ok b, t') ∧ Lasting lo n t' ∧ t'.elementCount ≤ t.elementCount + 1 := by
  have hmem' : allocatable (LoadFactor.quotient t.elementCount lo) = true := allocatable_mono hlo (Nat.le_succ _) hmem
  obtain ⟨b, t', hi'⟩ := insert_some h hk u (by rw [hr.minFactor]; exact hmem') (by rw [hr.minFactor]; exact hmem)
    (by
      rcases lt_or_eq_of_le h.elementCount_le with hlt | hfull
      · exact .inl hlt
      · exact .inr (hr.full_grows h hlo hfull hn))
  obtain ⟨hg, hcount⟩ := insert_grown h hk hi'
  refine ⟨b, t', hi', ⟨hg.minFactor.trans hr.minFactor, lt_of_lt_of_le hr.nonempty hg.grows, ?_⟩, ?_⟩
  · have hcap : (t.capacity : ℚ) ≤ t'.capacity := by exact_mod_cast hg.grows
    have hpos : (0 : ℚ) < t.capacity := by exact_mod_cast hr.nonempty
    rcases hr.grows with hle | hgrows
    · exact .inl (hle.trans hg.grows)
    · have hone : lo ≤ 1 := by nlinarith
      exact .inr (by nlinarith)
  · rw [hcount]
    split <;> omega

/-- A table that an insert has left has a free slot unless its slots are all live, and then it grows. -/
theorem Roomy.hasRoom (hr : Roomy lo hi n t) (h : Refines t m) (hlo : 0 ≤ lo) (hhi : hi ≤ 1) (hn : t.elementCount ≤ n)
    (hmem : allocatable (LoadFactor.quotient t.elementCount t.minLoadFactor) = true)
    (hload : t.usedSlotCount < LoadFactor.product t.capacity t.maxLoadFactor ∨
      usedSlots t.e164sBuffer = liveSlots t.e164sBuffer) : t.HasRoom := by
  rcases hload with hload | hclean
  · have hle := product_le (hr.maxFactor.symm ▸ hhi) t.capacity
    refine .inl (free_mem_iff.mpr ?_)
    rw [← h.used]
    exact lt_of_lt_of_le hload hle
  · by_cases hfull : t.elementCount = t.capacity
    · obtain ⟨t', hre⟩ := rehash_some h hmem
      refine .inr ⟨hfull, t', hre, ?_⟩
      rw [(rehash_resized h hre).capacity]
      exact lt_max_of_lt_left (hr.full_grows h hlo hfull (Nat.lt_succ_of_le hn))
    · have hle := h.elementCount_le
      refine .inl (free_mem_iff.mpr ?_)
      rw [hclean, ← h.elements]
      exact lt_of_le_of_ne hle hfull

theorem insert_roomy (h : Refines t m) (hk : ValidE164 k) (u : Uuid) (hr : Roomy lo hi n t) (hlo : 0 ≤ lo)
    (hhi : hi ≤ 1) (hn : t.elementCount < n) (hmem : allocatable (LoadFactor.quotient n lo) = true) :
    ∃ b t', t.insert k u = some (.ok b, t') ∧ t'.HasRoom ∧ Roomy lo hi n t' ∧
      t'.elementCount ≤ t.elementCount + 1 := by
  have hfits : ∀ e ≤ n, allocatable (LoadFactor.quotient e lo) = true := fun _ he => allocatable_mono hlo he hmem
  obtain ⟨b, t', hi', hr', hle⟩ := insert_lasting h hk u hr.toLasting hlo (by omega) (hfits _ hn)
  obtain ⟨hg, -⟩ := insert_grown h hk hi'
  have hroomy : Roomy lo hi n t' := ⟨hr', hg.maxFactor.trans hr.maxFactor⟩
  have h' := (insert_refines h hk hi').2
  refine ⟨b, t', hi', hroomy.hasRoom h' hlo hhi (by omega) ?_ hg.load, hroomy, hle⟩
  rw [hr'.minFactor]
  exact hfits _ (by omega)

theorem survives_of_roomy {ops : List Op} :
    ∀ {t : InternalBuffers ℚ} {m : Phone → Option Uuid}, Refines t m → Roomy lo hi n t → 0 ≤ lo → hi ≤ 1 →
      (∀ op ∈ ops, ValidE164 op.e164) → t.elementCount + insertCount ops ≤ n →
      allocatable (LoadFactor.quotient n lo) = true → Survives ops t := by
  induction ops with
  | nil => intros; trivial
  | cons op ops ih =>
    intro t m h hr hlo hhi hvalid hn hmem
    have hk := hvalid op List.mem_cons_self
    have hvalid' := fun op' hop => hvalid op' (List.mem_cons_of_mem _ hop)
    cases op with
    | insert e164 uuid =>
      rw [insertCount, List.countP_cons_of_pos rfl] at hn
      obtain ⟨b, t', hi', hroom, hr', hle⟩ := insert_roomy h hk uuid hr hlo hhi (by omega) hmem
      refine ⟨b, t', hi', fun _ => hroom, ih (insert_refines h hk hi').2 hr' hlo hhi hvalid' ?_ hmem⟩
      rw [insertCount]
      omega
    | remove e164 =>
      rw [insertCount, List.countP_cons_of_neg (by simp [Op.isInsert])] at hn
      obtain ⟨b, t', hrem, hr', hmax, hle⟩ := remove_lasting h hk hr.toLasting
      refine ⟨b, t', hrem, fun hins => (by cases hins),
        ih (remove_refines h hk hrem).2 ⟨hr', hmax.trans hr.maxFactor⟩ hlo hhi hvalid' ?_ hmem⟩
      rw [insertCount]
      omega

/-! ### Tables that stay full -/

/-- A table whose full size `c` does not grow keeps it, as long as keys are new and there is room. -/
theorem stuck_insert {c : Nat} {u : Uuid} {r : Except (InternalBuffersError ℚ) Bool} (hstuck : c < lo * (c + 1))
    (h : Refines t m) (hmin : t.minLoadFactor = lo) (hcap : t.capacity = c) (hlt : t.elementCount < c) (hk : ValidE164 k)
    (habsent : m k = none) (hi' : t.insert k u = some (r, t')) :
    Refines t' (Function.update m k (some u)) ∧ t'.minLoadFactor = lo ∧ t'.capacity = c ∧
      t'.elementCount = t.elementCount + 1 := by
  obtain ⟨hg, hcount⟩ := insert_grown h hk hi'
  rw [if_pos habsent] at hcount
  -- what the elements ask for never passes the capacity
  have hask : ∀ e ≤ c, LoadFactor.quotient e lo ≤ c := fun e he => (quotient_le hstuck he).trans he
  refine ⟨(insert_refines h hk hi').2, hg.minFactor.trans hmin, ?_, hcount⟩
  have hge := hg.grows
  have h₁ := hask t.elementCount (by omega)
  have h₂ := hask t'.elementCount (by omega)
  have hsize := hg.size
  rw [hmin] at hsize
  omega

/-- No table of `c` slots survives `c` new keys if a full one does not grow. -/
theorem not_survives_fill {c : Nat} (u : Uuid) (ks : List Phone) (hstuck : c < lo * (c + 1)) :
    ∀ {t : InternalBuffers ℚ} {m : Phone → Option Uuid}, Refines t m → t.minLoadFactor = lo → t.capacity = c →
      ks ≠ [] → ks.Nodup → (∀ k ∈ ks, ValidE164 k ∧ m k = none) → t.elementCount + ks.length = c →
      ¬ Survives (ks.map (.insert · u)) t := by
  induction ks with
  | nil => intro t m _ _ _ hne; exact absurd rfl hne
  | cons k ks ih =>
    intro t m h hmin hcap _ hnodup hks hcount ⟨b, t', hi', hroom, hrest⟩
    obtain ⟨hk, habsent⟩ := hks k List.mem_cons_self
    rw [List.length_cons] at hcount
    obtain ⟨h', hmin', hcap', hcount'⟩ := stuck_insert hstuck h hmin hcap (by omega) hk habsent hi'
    by_cases hks' : ks = []
    · -- the table is full of live slots
      subst hks'
      rw [List.length_nil] at hcount
      rcases hroom rfl with hfree | ⟨-, t'', hre, hlt⟩
      · have hused := free_mem_iff.mp hfree
        have hle := liveSlots_le_usedSlots t'.e164sBuffer
        rw [← h'.elements] at hle
        rw [capacity] at hcap'
        omega
      · rw [(rehash_resized h' hre).capacity, hmin'] at hlt
        have := quotient_le hstuck (show t'.elementCount ≤ c by omega)
        omega
    · refine ih h' hmin' hcap' hks' (List.nodup_cons.mp hnodup).2 (fun k' hk' => ?_) (by omega) hrest
      obtain ⟨hv, hnone⟩ := hks k' (List.mem_cons_of_mem _ hk')
      have hne : k' ≠ k := fun he => (List.nodup_cons.mp hnodup).1 (he ▸ hk')
      exact ⟨hv, by rw [Function.update_of_ne hne]; exact hnone⟩

end Run

def firstKeys (c : Nat) : List Phone := (List.range' 1 c).map (BitVec.ofNat 64)

theorem length_firstKeys (c : Nat) : (firstKeys c).length = c := by
  rw [firstKeys, List.length_map, List.length_range']

theorem nodup_firstKeys {c : Nat} (hc : c < 2 ^ 64 - 1) : (firstKeys c).Nodup := by
  refine List.Nodup.map_on (fun a ha b hb hab => ?_) (List.nodup_range' ..)
  rw [List.mem_range'_1] at ha hb
  have := congrArg BitVec.toNat hab
  rw [BitVec.toNat_ofNat, BitVec.toNat_ofNat, Nat.mod_eq_of_lt (by omega), Nat.mod_eq_of_lt (by omega)] at this
  exact this

theorem valid_firstKeys {c : Nat} (hc : c < 2 ^ 64 - 1) {k : Phone} (hk : k ∈ firstKeys c) : ValidE164 k := by
  obtain ⟨a, ha, rfl⟩ := List.mem_map.mp hk
  rw [List.mem_range'_1] at ha
  constructor <;> intro he <;> have := congrArg BitVec.toNat he <;>
    rw [BitVec.toNat_ofNat, Nat.mod_eq_of_lt (by omega)] at this
  · have hz : FREE_E164.toNat = 0 := by decide
    omega
  · have hones : DELETED_E164.toNat = 2 ^ 64 - 1 := by decide
    omega

theorem new_sizes {capacity : Nat} {lo hi : ℚ} {t : InternalBuffers ℚ} (h : new capacity lo hi = some (.ok t)) :
    t.capacity = capacity ∧ t.elementCount = 0 ∧ t.minLoadFactor = lo ∧ t.maxLoadFactor = hi ∧ 0 ≤ lo ∧ hi ≤ 1 := by
  simp only [new] at h
  split at h
  · cases h
  rename_i hlo
  split at h
  · cases h
  rename_i hhi
  split at h
  · cases h
  split at h
  · cases h
    simp only [LoadFactor.gtOne, LoadFactor.ltZero, Bool.or_eq_true, decide_eq_true_eq, not_or, not_lt] at hlo hhi
    exact ⟨List.length_replicate, rfl, rfl, rfl, hlo.2, hhi.1⟩
  · cases h

theorem insertCount_inserts (ks : List Phone) (u : Uuid) : insertCount (ks.map (.insert · u)) = ks.length := by
  rw [insertCount, List.countP_map, List.countP_eq_length]
  exact fun _ _ => rfl

theorem remove_no_slots {t : InternalBuffers ℚ} (hzero : t.capacity = 0) {k : Phone} {r : Except (InternalBuffersError ℚ) Bool}
    {t' : InternalBuffers ℚ} (hk : ValidE164 k) : t.remove k ≠ some (r, t') := by
  intro hrem
  have hlen : t.e164sBuffer.length = 0 := hzero
  simp only [remove, removeFromBuffer, hlen, or_true, if_true, if_neg (fun hbad => not_validE164.mpr hbad hk)] at hrem
  cases hrem

/-- A new table survives all runs of at most `n` inserts, of keys the table takes and with tables
    that can be allocated, exactly if it has a slot and either has more than `n` of them or grows
    when it is full. -/
theorem survives_iff {capacity n : Nat} {lo hi : ℚ} {t : InternalBuffers ℚ} (hnew : new capacity lo hi = some (.ok t)) :
    (∀ ops, (∀ op ∈ ops, ValidE164 op.e164) → insertCount ops ≤ n →
      allocatable (LoadFactor.quotient (insertCount ops) lo) = true → Survives ops t) ↔
    0 < capacity ∧ (n < capacity ∨ lo * (capacity + 1) ≤ capacity) := by
  obtain ⟨hcap, hcount, hmin, hmax, hlo, hhi⟩ := new_sizes hnew
  have h := new_refines hnew
  constructor
  · intro hall
    have hpos : 0 < capacity := by
      by_contra hzero
      obtain ⟨b, t', hrem, -⟩ := hall [.remove 1] (by decide) (Nat.zero_le _) (by
        rw [show insertCount [.remove 1] = 0 from rfl]
        simp [LoadFactor.quotient, allocatable])
      exact remove_no_slots (by omega) (by decide) hrem
    refine ⟨hpos, ?_⟩
    by_contra hstuck
    rw [not_or, not_lt, not_le] at hstuck
    have hsmall := h.small
    rw [hcap, allocatable, decide_eq_true_eq] at hsmall
    have hask := quotient_le hstuck.2 le_rfl
    refine not_survives_fill Uuid.zero (firstKeys capacity) hstuck.2 h hmin hcap ?_
      (nodup_firstKeys (by omega)) (fun k hk => ⟨valid_firstKeys (by omega) hk, rfl⟩)
      (by rw [hcount, length_firstKeys, Nat.zero_add]) (hall _ ?_ ?_ ?_)
    · intro hnil
      have := length_firstKeys capacity
      rw [hnil, List.length_nil] at this
      omega
    · intro op hop
      obtain ⟨k, hk, rfl⟩ := List.mem_map.mp hop
      exact valid_firstKeys (by omega) hk
    · rw [insertCount_inserts, length_firstKeys]; exact hstuck.1
    · rw [insertCount_inserts, length_firstKeys, allocatable, decide_eq_true_eq]
      omega
  · rintro ⟨hpos, hgrows⟩ ops hvalid hn hmem
    refine survives_of_roomy h ⟨⟨hmin, hcap ▸ hpos, ?_⟩, hmax⟩ hlo hhi hvalid (by rw [hcount, Nat.zero_add]) hmem
    rw [hcap]
    rcases hgrows with hlt | hgrows
    · exact .inl (by omega)
    · exact .inr hgrows

theorem survives_thousand_slots :
    ∃ t, new 1000 (3 / 4 : ℚ) (17 / 20) = some (.ok t) ∧
      ∀ ops, (∀ op ∈ ops, ValidE164 op.e164) → insertCount ops ≤ 1000000 →
        allocatable (LoadFactor.quotient (insertCount ops) (3 / 4 : ℚ)) = true → Survives ops t := by
  have hnew := @new_ok ℚ _ 1000 (3 / 4) (17 / 20) (by decide +kernel) (by decide +kernel) (by decide +kernel) (by decide)
  exact ⟨_, hnew, (survives_iff hnew).mpr ⟨by decide, .inr (by norm_num)⟩⟩

/-- The second key of a table of one slot panics, and so does every call on a table of none. -/
theorem full_table_panics :
    (∃ t, new 1 (3 / 4 : ℚ) (17 / 20) = some (.ok t) ∧
      (t.runOps [.insert 1 Uuid.zero]).map (·.1) = some [.ok true] ∧
      (t.runOps [.insert 1 Uuid.zero, .insert 2 Uuid.zero]).isNone) ∧
    (∃ t, new 0 (3 / 4 : ℚ) (17 / 20) = some (.ok t) ∧ (t.remove 1).isNone ∧ (t.insert 1 Uuid.zero).isNone) := by
  have hmin : (LoadFactor.gtOne (3 / 4 : ℚ) || LoadFactor.ltZero (3 / 4 : ℚ)) = false := by decide +kernel
  have hmax : (LoadFactor.gtOne (17 / 20 : ℚ) || LoadFactor.ltZero (17 / 20 : ℚ)) = false := by decide +kernel
  have hlt : LoadFactor.ge (3 / 4 : ℚ) (17 / 20) = false := by decide +kernel
  refine ⟨⟨_, new_ok hmin hmax hlt (by decide), ?_, ?_⟩, ⟨_, new_ok hmin hmax hlt (by decide), ?_, ?_⟩⟩
  · decide +kernel
  · decide +kernel
  · decide +kernel
  · decide +kernel

end InternalBuffers

end ContactDiscovery.Directory
