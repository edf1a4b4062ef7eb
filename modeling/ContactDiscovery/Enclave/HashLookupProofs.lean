/-
  ContactDiscovery.Enclave.HashLookupProofs — what the oblivious lookup answers (see
  `ContactDiscovery.Enclave.HashLookup`; the chains are `ContactDiscovery.Enclave.HashChain`).

  After the directory pass a result lane holds the uuid of the last directory entry of the
  phone its slot lane holds, if that phone hashes to the slot, and else what it held before
  (`construct_lane`). The lanes of a query phone therefore agree, and their or is the phone's
  answer when the phone has a lane in its slot, and zero when it has none.

  Proved: `abPhoneResult_eq`, that answer; `ffiHashLookup_eq_plainLookup`, the lookup with its
  retries equals the plain lookup when every slot's phones fit its twelve lanes;
  `neverSilent_iff`, when the overflow test is right, and `thirteen_phones_silent`, a run
  where it is not.
-/

import ContactDiscovery.Enclave.HashChain
import ContactDiscovery.Lib.Assoc
import ContactDiscovery.Lib.Bytes

namespace ContactDiscovery.Enclave.HashLookup

open Lib Lib.Simd Lib.Assoc

theorem dummyMask_lane : ∀ i : Fin 4, i ≠ 0 → chainBlockDummyMask i = 0 := by decide

theorem nonDummyMask_lane : ∀ i : Fin 4, i ≠ 0 → chainBlockNonDummyMask i = BitVec.allOnes 64 := by decide

theorem nonDummyMask_dummy : chainBlockNonDummyMask 0 = 0 := by decide

section Hash

variable {K : Type} {aes : K → Phone → BitVec 32} {hashKey : K} {order : Nat}

theorem hash_lt (ho : order < 32) (p : Phone) : (hash aes hashKey p order).toNat < 2 ^ order := by
  have hpow : 2 ^ order < 2 ^ 32 := Nat.pow_lt_pow_right (by omega) ho
  have hpos := Nat.two_pow_pos order
  have hmask : ((1#32 <<< order) - 1).toNat = 2 ^ order - 1 := by
    have h1 : (1#32 <<< order).toNat = 2 ^ order := by
      rw [BitVec.toNat_shiftLeft, Nat.shiftLeft_eq, BitVec.toNat_ofNat]
      rw [Nat.mod_eq_of_lt (by omega : 1 < 2 ^ 32), Nat.one_mul, Nat.mod_eq_of_lt hpow]
    have h2 : (1 : BitVec 32).toNat = 1 := rfl
    rw [BitVec.toNat_sub, h1, h2]; omega
  have hle : (hash aes hashKey p order).toNat ≤ 2 ^ order - 1 := by
    rw [hash, BitVec.toNat_and, hmask]; exact Nat.and_le_right
  omega

/-! ## The directory pass -/

theorem hashPhoneChainBlock_all (r : HashSlotResult) (uuid : Fin 2 → M256i) (eq : Fin 4 → M256i) (b : Fin 4) (w : Fin 2) :
    hashPhoneChainBlock (hashPhoneChainBlock (hashPhoneChainBlock (hashPhoneChainBlock r uuid eq 0) uuid eq 1)
      uuid eq 2) uuid eq 3 b w = blendvEpi8 (xorSi256 (r b w) chainBlockDummyMask) (uuid w) (eq b) := by
  fin_cases b <;> rfl

theorem hashPhone_lane (slots : List HashSlot) (rs : List HashSlotResult) (e : Phone × Uuid) {s : Nat}
    {r : HashSlotResult} (hr : rs[s]? = some r) :
    ∃ r', (hashPhone aes hashKey order slots rs e)[s]? = some r' ∧ ∀ b w i, i ≠ 0 →
      r' b w i = if (hash aes hashKey e.1 order).toNat = s ∧ slots.getD s (fun _ => setzeroSi256) b i = e.1
        then e.2.data64 w else r b w i := by
  unfold hashPhone
  simp only [List.getElem?_modify, hr, Option.map_eq_map, Option.map_some]
  refine ⟨_, rfl, fun b w i hi => ?_⟩
  by_cases hs : (hash aes hashKey e.1 order).toNat = s
  · -- outside lane 0 the dummy mask changes neither the phone nor the lane
    have hor : e.1 ||| chainBlockDummyMask i = e.1 := by rw [dummyMask_lane i hi]; exact BitVec.or_zero
    have hxor : r b w i ^^^ chainBlockDummyMask i = r b w i := by rw [dummyMask_lane i hi]; exact BitVec.xor_zero
    rw [if_pos hs, hashPhoneChainBlock_all, blendvEpi8_cmpeq]
    simp only [orSi256_apply, xorSi256_apply, set1Epi64x_apply, hor, hxor, hs, true_and, eq_comm]
  · rw [if_neg hs, if_neg fun h => hs h.1]

/-- The loop by cache lines is a loop over the entries. -/
theorem cdsContructHash_eq (slots : List HashSlot) (dir : List (Phone × Uuid)) (rs : List HashSlotResult) :
    cdsContructHash aes hashKey order slots dir rs = dir.foldl (hashPhone aes hashKey order slots) rs := by
  fun_induction cdsContructHash aes hashKey order slots dir rs with
  | case1 dir rs h ih => rw [ih, ← List.foldl_append, List.take_append_drop]
  | case2 dir rs h => rfl

/-- After the directory pass a lane holds the last uuid of its phone, if it is of its slot. -/
theorem construct_lane (slots : List HashSlot) (dir : List (Phone × Uuid)) (rs : List HashSlotResult) {s : Nat}
    {r : HashSlotResult} (hr : rs[s]? = some r) :
    ∃ r', (cdsContructHash aes hashKey order slots dir rs)[s]? = some r' ∧ ∀ b w i, i ≠ 0 →
      r' b w i =
        if (hash aes hashKey (slots.getD s (fun _ => setzeroSi256) b i) order).toNat = s
        then ((last? (slots.getD s (fun _ => setzeroSi256) b i) dir).map (·.data64 w)).getD (r b w i) else r b w i := by
  rw [cdsContructHash_eq]
  induction dir using List.reverseRecOn with
  | nil => exact ⟨r, hr, fun b w i _ => by simp⟩
  | append_singleton dir e ih =>
    obtain ⟨r1, h1, hlane⟩ := ih
    rw [List.foldl_append]
    obtain ⟨r2, h2, hstep⟩ := @hashPhone_lane K aes hashKey order slots _ e s r1 h1
    refine ⟨r2, h2, fun b w i hi => ?_⟩
    rw [hstep b w i hi, hlane b w i hi, last?_concat]
    generalize slots.getD s (fun _ => setzeroSi256) b i = v
    by_cases hv : v = e.1
    · subst hv; by_cases hs : (hash aes hashKey e.1 order).toNat = s <;> simp [hs]
    · simp [hv, Ne.symm hv]

/-! ## Collecting -/

theorem abChainEq_lane {p : Phone} (hp : p ≠ 0) (slot : HashSlot) (b i : Fin 4) :
    p = andSi256 (slot b) chainBlockNonDummyMask i ↔ i ≠ 0 ∧ slot b i = p := by
  rw [andSi256_apply]
  by_cases hi : i = 0
  · subst hi
    have h0 : slot b 0 &&& chainBlockNonDummyMask 0 = 0 := by rw [nonDummyMask_dummy]; exact BitVec.and_zero
    rw [h0]
    exact ⟨fun h => absurd h hp, fun h => absurd rfl h.1⟩
  · rw [nonDummyMask_lane i hi, BitVec.and_allOnes]
    exact ⟨fun h => ⟨hi, h.symm⟩, fun h => h.2.symm⟩

theorem foldl_or {α : Type} (l : List α) (f : α → BitVec 64) (u : BitVec 64) (h : ∀ a ∈ l, f a = 0 ∨ f a = u) :
    l.foldl (fun x a => x ||| f a) 0 = if ∃ a ∈ l, f a = u then u else 0 := by
  induction l using List.reverseRecOn with
  | nil => simp
  | append_singleton l a ih =>
    rw [List.foldl_append, ih fun a ha => h a (List.mem_append_left _ ha)]
    simp only [List.foldl_cons, List.foldl_nil]
    by_cases hl : ∃ a ∈ l, f a = u
    · have hla : ∃ b ∈ l ++ [a], f b = u := by
        obtain ⟨b, hb, he⟩ := hl; exact ⟨b, List.mem_append_left _ hb, he⟩
      rw [if_pos hl, if_pos hla]
      rcases h a (by simp) with e | e
      · rw [e]; exact BitVec.or_zero
      · rw [e, BitVec.or_self]
    · rw [if_neg hl, show 0 ||| f a = f a from BitVec.zero_or]
      by_cases ha : f a = u
      · rw [if_pos ⟨a, by simp, ha⟩, ha]
      · have hla : ¬∃ b ∈ l ++ [a], f b = u := by
          rintro ⟨b, hb, he⟩
          rcases List.mem_append.mp hb with hb | hb
          · exact hl ⟨b, hb, he⟩
          · rw [List.mem_singleton] at hb; subst hb; exact ha he
        rw [if_neg hla]
        exact (h a (by simp)).resolve_right ha

theorem hashSlotCollectResult_eq {p : Phone} (hp : p ≠ 0) (slot : HashSlot) (r : HashSlotResult) (w : Fin 2)
    (u : BitVec 64) (h : ∀ b i, i ≠ 0 → slot b i = p → r b w i = u) :
    hashSlotCollectResult r (abChainEq p slot) w = if ∃ b i, i ≠ 0 ∧ slot b i = p then u else 0 := by
  -- lane `i` of the blended result
  have hlane : ∀ i, blendvEpi8 (blendvEpi8 (blendvEpi8 (blendvEpi8 setzeroSi256 (r 0 w) (abChainEq p slot 0))
      (r 1 w) (abChainEq p slot 1)) (r 2 w) (abChainEq p slot 2)) (r 3 w) (abChainEq p slot 3) i =
      if ∃ b, i ≠ 0 ∧ slot b i = p then u else 0 := by
    intro i
    simp only [abChainEq, blendvEpi8_cmpeq, set1Epi64x_apply, abChainEq_lane hp]
    have hr : ∀ b, i ≠ 0 ∧ slot b i = p → r b w i = u := fun b hb => h b i hb.1 hb.2
    by_cases h3 : i ≠ 0 ∧ slot 3 i = p
    · rw [if_pos h3, if_pos ⟨3, h3⟩, hr 3 h3]
    rw [if_neg h3]
    by_cases h2 : i ≠ 0 ∧ slot 2 i = p
    · rw [if_pos h2, if_pos ⟨2, h2⟩, hr 2 h2]
    rw [if_neg h2]
    by_cases h1 : i ≠ 0 ∧ slot 1 i = p
    · rw [if_pos h1, if_pos ⟨1, h1⟩, hr 1 h1]
    rw [if_neg h1]
    by_cases h0 : i ≠ 0 ∧ slot 0 i = p
    · rw [if_pos h0, if_pos ⟨0, h0⟩, hr 0 h0]
    have hno : ¬∃ b, i ≠ 0 ∧ slot b i = p := by
      rintro ⟨b, hb⟩
      fin_cases b
      · exact h0 hb
      · exact h1 hb
      · exact h2 hb
      · exact h3 hb
    rw [if_neg h0, if_neg hno, setzeroSi256_apply]
  have hfold := foldl_or [0, 1, 2, 3] (fun i : Fin 4 => if ∃ b, i ≠ 0 ∧ slot b i = p then u else 0) u
    (fun i _ => by split <;> simp)
  have hz : ∀ x : BitVec 64, 0 ||| x = x := fun _ => BitVec.zero_or
  simp only [List.foldl_cons, List.foldl_nil, hz] at hfold
  simp only [hashSlotCollectResult, extractEpi64, hlane]
  rw [hfold]
  by_cases hu : u = 0
  · subst hu; simp
  · by_cases hb : ∃ b i, i ≠ 0 ∧ slot b i = p
    · obtain ⟨b, i, hbi⟩ := hb
      rw [if_pos ⟨i, by fin_cases i <;> simp, if_pos ⟨b, hbi⟩⟩, if_pos ⟨b, i, hbi⟩]
    · rw [if_neg hb, if_neg]
      rintro ⟨i, -, he⟩
      rw [if_neg fun h => hb (by obtain ⟨b, h⟩ := h; exact ⟨b, i, h⟩)] at he
      exact hu he.symm

theorem abPhoneResult_data64 (slots : List HashSlot) (rs : List HashSlotResult) (p : Phone) (w : Fin 2) :
    (abPhoneResult slots rs p).data64 w =
      (slots.zip rs).foldl (fun x s => x ||| hashSlotCollectResult s.2 (abChainEq p s.1) w) 0 := by
  unfold abPhoneResult
  generalize slots.zip rs = l
  induction l using List.reverseRecOn with
  | nil => rfl
  | append_singleton l s ih => rw [List.foldl_append, List.foldl_append]; simp only [List.foldl_cons, List.foldl_nil, ih]

/-! ## One attempt -/

/-- A query phone is in a lane, other than a dummy, of the slot it hashes to. -/
def Stored (aes : K → Phone → BitVec 32) (hashKey : K) (order : Nat) (query : List Phone) (p : Phone) : Prop :=
  ∃ b i, i ≠ 0 ∧ (chainOf aes hashKey order query (hash aes hashKey p order).toNat).hashSlot b i = p

instance (aes : K → Phone → BitVec 32) (hashKey : K) (order : Nat) (query : List Phone) (p : Phone) :
    Decidable (Stored aes hashKey order query p) :=
  inferInstanceAs (Decidable (∃ b i, i ≠ 0 ∧
    (chainOf aes hashKey order query (hash aes hashKey p order).toNat).hashSlot b i = p))

/-- The uuid a plain lookup gives: the last entry's, or zero. -/
def plainLookup (dir : List (Phone × Uuid)) (p : Phone) : Uuid := (last? p dir).getD Uuid.zero

theorem inserts_slotPhones_lt {slot : Nat} {query : List Phone} (hlen : query.length < 2 ^ 62) :
    inserts (slotPhones aes hashKey order slot query) < 2 ^ 62 :=
  Nat.lt_of_le_of_lt (Nat.le_trans (inserts_le_length _) (List.length_filter_le _ _)) hlen

/-- A query phone is stored exactly when it is among its slot's first twelve. A phone of ones
    is no exception: it can only be left out when no lane is left open. -/
theorem stored_iff {query : List Phone} {p : Phone} (hlen : query.length < 2 ^ 62) (hq : p ∈ query) (hp : p ≠ 0) :
    Stored aes hashKey order query p ↔
      p ∈ lanesOf (slotPhones aes hashKey order (hash aes hashKey p order).toNat query) := by
  have hs : (hash aes hashKey p order).toNat < 2 ^ 32 := (hash aes hashKey p order).isLt
  have hinv := @chainOf_inv K aes hashKey order _ hs query hlen
  have hcount := @inserts_slotPhones_lt K aes hashKey order (hash aes hashKey p order).toNat query hlen
  have hmem : p ∈ slotPhones aes hashKey order (hash aes hashKey p order).toNat query :=
    mem_slotPhones.mpr ⟨hq, hp, rfl⟩
  constructor
  · rintro ⟨b, i, hi, he⟩
    by_cases hr : inserts (slotPhones aes hashKey order (hash aes hashKey p order).toNat query) < rank b i
    · have hb := (rank_bounds b i hi).2
      have hl := lanesOf_length (slotPhones aes hashKey order (hash aes hashKey p order).toNat query)
      exact mem_lanesOf_of_room _ (by omega) p hmem
    · rw [hashSlot_apply hinv hcount b i hi, if_neg hr] at he
      exact List.mem_of_getElem? (he ▸ hinv.closed b i hi (by omega))
  · intro h
    exact exists_lane hinv hcount h

def chainTable (aes : K → Phone → BitVec 32) (hashKey : K) (order n : Nat) (query : List Phone) : List HashSlot :=
  (List.range n).map fun s => (chainOf aes hashKey order query s).hashSlot

theorem chainTable_get {n s : Nat} (query : List Phone) (h : s < n) :
    (chainTable aes hashKey order n query)[s]? = some (chainOf aes hashKey order query s).hashSlot := by
  rw [chainTable, List.getElem?_map, List.getElem?_range h]; rfl

def resultTable (aes : K → Phone → BitVec 32) (hashKey : K) (order n : Nat) (query : List Phone)
    (dir : List (Phone × Uuid)) : List HashSlotResult :=
  cdsContructHash aes hashKey order (chainTable aes hashKey order n query) dir
    (List.replicate n fun _ _ => setzeroSi256)

/-- A result lane of a phone holds its plain lookup in its own slot, and zero elsewhere: the
    ones that fill the open lanes of other slots are the case to watch. -/
theorem resultTable_lane {n s : Nat} (query : List Phone) (dir : List (Phone × Uuid)) (p : Phone) (h : s < n) :
    ∃ r, (resultTable aes hashKey order n query dir)[s]? = some r ∧ ∀ b w i, i ≠ 0 →
      (chainOf aes hashKey order query s).hashSlot b i = p →
      r b w i = if (hash aes hashKey p order).toNat = s then (plainLookup dir p).data64 w else 0 := by
  obtain ⟨r, hr, hlane⟩ := @construct_lane K aes hashKey order (chainTable aes hashKey order n query) dir
    (List.replicate n fun _ _ => setzeroSi256) s (fun _ _ => setzeroSi256) (by rw [List.getElem?_replicate, if_pos h])
  refine ⟨r, hr, fun b w i hi he => ?_⟩
  have hv : (chainTable aes hashKey order n query).getD s (fun _ => setzeroSi256) b i = p := by
    rw [List.getD_eq_getElem?_getD, chainTable_get query h]; exact he
  rw [hlane b w i hi, hv, setzeroSi256_apply, plainLookup]
  cases last? p dir <;> rfl

theorem collect_slot {n s : Nat} {query : List Phone} {p : Phone} (dir : List (Phone × Uuid)) (hp : p ≠ 0) (h : s < n)
    (w : Fin 2) :
    ∃ e, ((chainTable aes hashKey order n query).zip (resultTable aes hashKey order n query dir))[s]? = some e ∧
      hashSlotCollectResult e.2 (abChainEq p e.1) w =
        if (hash aes hashKey p order).toNat = s ∧ Stored aes hashKey order query p
        then (plainLookup dir p).data64 w else 0 := by
  obtain ⟨r, hr, hlane⟩ := @resultTable_lane K aes hashKey order n s query dir p h
  refine ⟨((chainOf aes hashKey order query s).hashSlot, r), ?_, ?_⟩
  · rw [List.getElem?_zip_eq_some]; exact ⟨chainTable_get query h, hr⟩
  · rw [hashSlotCollectResult_eq hp _ r w _ fun b i hi he => hlane b w i hi he]
    by_cases hh : (hash aes hashKey p order).toNat = s
    · subst hh; simp only [if_true, true_and]; rfl
    · simp [hh]

/-- A query phone's answer: the plain lookup if the phone is stored, zero if it is not. -/
theorem abPhoneResult_eq {n : Nat} {query : List Phone} {p : Phone} (dir : List (Phone × Uuid)) (hp : p ≠ 0)
    (hn : (hash aes hashKey p order).toNat < n) :
    abPhoneResult (chainTable aes hashKey order n query) (resultTable aes hashKey order n query dir) p =
      if Stored aes hashKey order query p then plainLookup dir p else Uuid.zero := by
  apply Uuid.ext
  funext w
  rw [abPhoneResult_data64,
    foldl_or _ _ (if Stored aes hashKey order query p then (plainLookup dir p).data64 w else 0)]
  · by_cases hst : Stored aes hashKey order query p
    · obtain ⟨e, he, hc⟩ := @collect_slot K aes hashKey order n _ query p dir hp hn w
      rw [if_pos ⟨rfl, hst⟩] at hc
      rw [if_pos hst, if_pos hst, if_pos ⟨e, List.mem_of_getElem? he, hc⟩]
    · rw [if_neg hst, if_neg hst, ite_self]; rfl
  · intro e he
    obtain ⟨s, hs, hse⟩ := List.getElem_of_mem he
    have hsn : s < n := by
      rw [List.length_zip, chainTable, List.length_map, List.length_range] at hs; omega
    obtain ⟨e', he', hc⟩ := @collect_slot K aes hashKey order n s query p dir hp hsn w
    rw [List.getElem?_eq_getElem hs, hse, Option.some.injEq] at he'
    subst he'
    rw [hc]
    by_cases hst : Stored aes hashKey order query p
    · by_cases hh : (hash aes hashKey p order).toNat = s <;> simp [hh, hst]
    · simp [hst]

/-! ## The attempt as a whole -/

def overflows (aes : K → Phone → BitVec 32) (hashKey : K) (order n : Nat) (query : List Phone) : Bool :=
  (List.range n).any fun s => (chainOf aes hashKey order query s).overflowed

theorem overflows_iff {n : Nat} {query : List Phone} (hn : n ≤ 2 ^ 32) (hlen : query.length < 2 ^ 62) :
    overflows aes hashKey order n query = true ↔
      ∃ s < n, 16 < inserts (slotPhones aes hashKey order s query) % 2 ^ 32 := by
  simp only [overflows, List.any_eq_true, List.mem_range]
  refine exists_congr fun s => and_congr_right fun hs => ?_
  rw [overflowed_eq (chainOf_inv (by omega) query hlen), decide_eq_true_eq]

theorem trailingZeros_two_pow : ∀ k < 64, trailingZeros (2 ^ k) = k := by decide

/-- A table size the lookup takes: a power of two below `2 ^ 32`. -/
def ValidSize (n : Nat) : Prop := isPowerOfTwo n = true ∧ trailingZeros n < 32

theorem validSize_iff {n : Nat} : ValidSize n ↔ ∃ k < 32, n = 2 ^ k := by
  simp only [ValidSize, isPowerOfTwo, List.any_eq_true, List.mem_range, beq_iff_eq]
  constructor
  · rintro ⟨⟨k, hk, rfl⟩, h⟩
    rw [trailingZeros_two_pow k hk] at h
    exact ⟨k, h, rfl⟩
  · rintro ⟨k, hk, rfl⟩
    exact ⟨⟨k, by omega, rfl⟩, by rw [trailingZeros_two_pow k (by omega)]; exact hk⟩

theorem mapIdx_eq_chainTable (query : List Phone) (slots : List HashSlot) :
    (slots.mapIdx fun s _ => (chainOf aes hashKey order query s).hashSlot) =
      chainTable aes hashKey order slots.length query := by
  apply List.ext_getElem?
  intro s
  rw [List.getElem?_mapIdx, chainTable, List.getElem?_map]
  by_cases h : s < slots.length
  · rw [List.getElem?_eq_getElem h, List.getElem?_range h]; rfl
  · rw [List.getElem?_eq_none (by omega), List.getElem?_eq_none (by rw [List.length_range]; omega)]; rfl

theorem storeResults_eq (f : Phone → Uuid) : ∀ (query : List Phone) (buf : List Byte),
    buf.length = query.length * BYTES_PER_UUID → storeResults f query buf = query.flatMap fun p => (f p).bytes := by
  intro query
  induction query with
  | nil =>
    intro buf h
    rw [List.length_nil, Nat.zero_mul] at h
    rw [List.eq_nil_of_length_eq_zero h]; rfl
  | cons p query ih =>
    intro buf h
    simp only [List.length_cons, BYTES_PER_UUID] at h
    cases buf with
    | nil => simp at h
    | cons x buf =>
      rw [storeResults, ih _ (by simp only [List.length_drop, BYTES_PER_UUID]; omega)]; rfl

/-- The attempt on zeroed results: an overflow leaves all but the slots as they were. -/
theorem cdsHashLookup_eq (ho : order < 32) (dir : List (Phone × Uuid)) (query : List Phone) {s : Buffers}
    (hl : s.hashSlots.length = 2 ^ order) :
    cdsHashLookup aes (some hashKey) dir query s =
      if overflows aes hashKey order (2 ^ order) query then
        (CDS_HASH_LOOKUP_ERROR_HASH_TABLE_OVERFLOW,
          { s with hashSlots := chainTable aes hashKey order (2 ^ order) query })
      else
        let rs := cdsContructHash aes hashKey order (chainTable aes hashKey order (2 ^ order) query) dir s.hashSlotResults
        (CDS_HASH_LOOKUP_SUCCESS,
          { abPhoneResults :=
              storeResults (abPhoneResult (chainTable aes hashKey order (2 ^ order) query) rs) query s.abPhoneResults
            hashSlots := (chainTable aes hashKey order (2 ^ order) query).map fun _ _ => setzeroSi256
            hashSlotResults := rs.map eraseResult }) := by
  have htz : trailingZeros (2 ^ order) = order := trailingZeros_two_pow order (by omega)
  have hvalid : isPowerOfTwo (2 ^ order) = true := (validSize_iff.mpr ⟨order, ho, rfl⟩).1
  have hcond : ¬(order ≥ 32 ∨ ¬isPowerOfTwo (2 ^ order) = true) := by
    rw [hvalid]; rintro (h | h)
    · omega
    · exact h rfl
  unfold cdsHashLookup hashLookup
  simp only [hl, htz, mapIdx_eq_chainTable]
  rw [if_neg hcond]
  by_cases hov : overflows aes hashKey order (2 ^ order) query = true
  · have hany := hov
    unfold overflows at hany
    rw [if_pos hany, if_pos hov]; rfl
  · have hany := hov
    unfold overflows at hany
    rw [if_neg hany, if_neg hov]

theorem cdsHashLookup_invalid {n : Nat} (h : ¬ValidSize n) (dir : List (Phone × Uuid)) (query : List Phone) {s : Buffers}
    (hl : s.hashSlots.length = n) :
    (cdsHashLookup aes (some hashKey) dir query s).1 = CDS_HASH_LOOKUP_ERROR_INVALID_PARAMETER := by
  have hcond : trailingZeros n ≥ 32 ∨ ¬isPowerOfTwo n = true := by
    by_contra hc
    rw [not_or, not_not] at hc
    exact h ⟨hc.2, by omega⟩
  unfold cdsHashLookup hashLookup
  simp only [hl]
  rw [if_pos hcond]; rfl

theorem success_block (ho : order < 32) (dir : List (Phone × Uuid)) (query : List Phone) {s : Buffers}
    (hl : s.hashSlots.length = 2 ^ order) (hz : s.hashSlotResults = List.replicate (2 ^ order) fun _ _ => setzeroSi256)
    (hb : s.abPhoneResults.length = query.length * BYTES_PER_UUID)
    (hok : overflows aes hashKey order (2 ^ order) query = false) (i : Nat) (hi : i < query.length) (hp : query[i] ≠ 0) :
    block BYTES_PER_UUID i (cdsHashLookup aes (some hashKey) dir query s).2.abPhoneResults =
      (if Stored aes hashKey order query query[i] then plainLookup dir query[i] else Uuid.zero).bytes := by
  rw [cdsHashLookup_eq ho dir query hl, if_neg (by rw [hok]; exact Bool.false_ne_true)]
  show block BYTES_PER_UUID i (storeResults _ query s.abPhoneResults) = _
  rw [storeResults_eq _ _ _ hb, @block_flatMap _ BYTES_PER_UUID _ (fun p => Uuid.length_bytes _) query i hi, hz]
  exact congrArg Uuid.bytes (abPhoneResult_eq dir hp (hash_lt ho _))

/-! ## The retries -/

/-- The buffers at the start of every attempt of a lookup. -/
structure Ready (order : Nat) (query : List Phone) (s : Buffers) : Prop where
  slots : s.hashSlots.length = 2 ^ order
  zeroed : s.hashSlotResults = List.replicate (2 ^ order) fun _ _ => setzeroSi256
  room : s.abPhoneResults.length = query.length * BYTES_PER_UUID

theorem freshBuffers_ready (order : Nat) (query : List Phone) :
    Ready order query (freshBuffers (2 ^ order) (query.length * BYTES_PER_UUID)) :=
  ⟨List.length_replicate, rfl, List.length_replicate⟩

/-- The status of an attempt is the overflow test's, whatever the buffers hold. -/
theorem cdsHashLookup_status (ho : order < 32) (dir : List (Phone × Uuid)) {query : List Phone} {s : Buffers}
    (hs : Ready order query s) :
    (cdsHashLookup aes (some hashKey) dir query s).1 =
      if overflows aes hashKey order (2 ^ order) query then CDS_HASH_LOOKUP_ERROR_HASH_TABLE_OVERFLOW
      else CDS_HASH_LOOKUP_SUCCESS := by
  rw [cdsHashLookup_eq ho dir query hs.slots]
  split <;> rfl

theorem overflow_ready (ho : order < 32) (dir : List (Phone × Uuid)) {query : List Phone} {s : Buffers}
    (hs : Ready order query s) (h : overflows aes hashKey order (2 ^ order) query = true) :
    Ready order query (cdsHashLookup aes (some hashKey) dir query s).2 := by
  rw [cdsHashLookup_eq ho dir query hs.slots, if_pos h]
  exact ⟨by simp [chainTable], hs.zeroed, hs.room⟩

/-- A run of the loop that returns: overflows, then an attempt that succeeds. -/
theorem retry_ok (ho : order < 32) {keys : Nat → Option K} {dir : List (Phone × Uuid)} {query : List Phone} :
    ∀ (n i : Nat) (s s' : Buffers), Ready order query s → retry aes keys dir query n i s = (.ok (), s') →
      ∃ m, i ≤ m ∧ m < i + n ∧
        (∀ j, i ≤ j → j < m → ∃ k, keys j = some k ∧ overflows aes k order (2 ^ order) query = true) ∧
        ∃ k t, keys m = some k ∧ overflows aes k order (2 ^ order) query = false ∧ Ready order query t ∧
          s' = (cdsHashLookup aes (some k) dir query t).2 := by
  intro n
  induction n with
  | zero => intro i s s' _ h; cases h
  | succ n ih =>
    intro i s s' hs h
    rw [retry] at h
    cases hk : keys i with
    | none =>
      -- no key: the attempt reports RDRAND and the loop gives up
      have hst : (cdsHashLookup aes (none : Option K) dir query s).1 = CDS_HASH_LOOKUP_ERROR_RDRAND := by
        have hv := validSize_iff.mpr ⟨order, ho, rfl⟩
        have hc : ¬(trailingZeros (2 ^ order) ≥ 32 ∨ ¬isPowerOfTwo (2 ^ order) = true) := by
          rintro (h | h)
          · have := hv.2; omega
          · exact h hv.1
        unfold cdsHashLookup hashLookup
        simp only [hs.slots]
        rw [if_neg hc]; rfl
      rw [hk] at h
      simp only [hst] at h
      cases h
    | some k =>
      rw [hk] at h
      have hst := @cdsHashLookup_status K aes k order ho dir query s hs
      cases hov : overflows aes k order (2 ^ order) query with
      | false =>
        rw [hov, if_neg Bool.false_ne_true] at hst
        simp only [hst, if_true] at h
        refine ⟨i, Nat.le_refl i, by omega, fun j h1 h2 => by omega, k, s, hk, hov, hs, ?_⟩
        exact (congrArg Prod.snd h).symm
      | true =>
        rw [hov, if_pos rfl] at hst
        have h0 : CDS_HASH_LOOKUP_ERROR_HASH_TABLE_OVERFLOW ≠ CDS_HASH_LOOKUP_SUCCESS := by decide
        have h1 : CDS_HASH_LOOKUP_ERROR_HASH_TABLE_OVERFLOW ≠ CDS_HASH_LOOKUP_ERROR_INVALID_PARAMETER := by decide
        have h2 : CDS_HASH_LOOKUP_ERROR_HASH_TABLE_OVERFLOW ≠ CDS_HASH_LOOKUP_ERROR_RDRAND := by decide
        simp only [hst, if_neg h0, if_neg h1, if_neg h2, if_true] at h
        obtain ⟨m, him, hmn, hbefore, hlast⟩ := ih (i + 1) _ s' (overflow_ready ho dir hs hov) h
        refine ⟨m, by omega, by omega, fun j hij hjm => ?_, hlast⟩
        by_cases hji : j = i
        · subst hji; exact ⟨k, hk, hov⟩
        · exact hbefore j (by omega) hjm

theorem checkedNextPowerOfTwo_some {n m : Nat} (h : checkedNextPowerOfTwo n = some m) : ∃ k < 64, m = 2 ^ k := by
  have hm := List.mem_of_find?_eq_some h
  obtain ⟨k, hk, rfl⟩ := List.mem_map.mp hm
  exact ⟨k, List.mem_range.mp hk, rfl⟩

/-- A lookup that returns `Ok` did so on an attempt that followed overflows only. If that
    attempt's key sends at most twelve distinct phones to each slot, every block is the plain
    lookup's. -/
theorem ffiHashLookup_eq_plainLookup (aes : K → Phone → BitVec 32) (keys : Nat → Option K) (dir : List (Phone × Uuid))
    (query : List Phone) (results out : List Byte) (hq : 1 ≤ query.length ∧ query.length ≤ MAX_HASH_TABLE_SIZE)
    (h : ffiHashLookup aes keys dir query results = (.ok (), out)) :
    ∃ order m hashKey, checkedNextPowerOfTwo query.length = some (2 ^ order) ∧ m < 128 ∧ keys m = some hashKey ∧
      (∀ j < m, (cdsHashLookup aes (keys j) dir query (freshBuffers (2 ^ order) (query.length * BYTES_PER_UUID))).1 =
        CDS_HASH_LOOKUP_ERROR_HASH_TABLE_OVERFLOW) ∧
      (cdsHashLookup aes (keys m) dir query (freshBuffers (2 ^ order) (query.length * BYTES_PER_UUID))).1 =
        CDS_HASH_LOOKUP_SUCCESS ∧
      ((∀ slot, (slotPhones aes hashKey order slot query).dedup.length ≤ CHAIN_LANE_COUNT) →
        ∀ i (hi : i < query.length), query[i] ≠ 0 →
          block BYTES_PER_UUID i out = ((last? query[i] dir).getD Uuid.zero).bytes) := by
  have hmax : MAX_HASH_TABLE_SIZE = 2 ^ 13 := by decide
  unfold ffiHashLookup at h
  cases hc : checkedNextPowerOfTwo query.length with
  | none => rw [hc] at h; cases h
  | some n =>
    obtain ⟨order, -, rfl⟩ := checkedNextPowerOfTwo_some hc
    rw [hc] at h
    simp only at h
    by_cases hbig : 2 ^ order > MAX_HASH_TABLE_SIZE
    · rw [if_pos hbig] at h; cases h
    have ho : order < 32 := by
      have : order ≤ 13 := (Nat.pow_le_pow_iff_right (by omega : 1 < 2)).mp (by omega)
      omega
    have hne : ¬query.isEmpty = true := by
      rw [List.isEmpty_iff]; rintro rfl; simp at hq
    rw [if_neg hbig, if_neg hne] at h
    by_cases hroom : results.length ≠ query.length * BYTES_PER_UUID
    · rw [if_pos hroom] at h; cases h
    rw [if_neg hroom, not_not.mp hroom] at h
    have hfresh := freshBuffers_ready order query
    have hret : (retry aes keys dir query 128 0 (freshBuffers (2 ^ order) (query.length * BYTES_PER_UUID))).1 = .ok () :=
      congrArg Prod.fst h
    obtain ⟨m, -, hm, hbefore, k, t, hk, hok, ht, hout⟩ :=
      @retry_ok K aes order ho keys dir query 128 0 _ _ hfresh (Prod.ext hret rfl)
    refine ⟨order, m, k, rfl, by omega, hk, fun j hj => ?_, ?_, fun hfit i hi hp => ?_⟩
    · obtain ⟨k', hk', hov⟩ := hbefore j (Nat.zero_le j) hj
      rw [hk', cdsHashLookup_status ho dir hfresh, if_pos hov]
    · rw [hk, cdsHashLookup_status ho dir hfresh, hok, if_neg Bool.false_ne_true]
    · have hlen : query.length < 2 ^ 62 := by omega
      have hst : Stored aes k order query query[i] :=
        (stored_iff hlen (List.getElem_mem hi) hp).mpr
          (mem_lanesOf_of_distinct _ (hfit _) _ (mem_slotPhones.mpr ⟨List.getElem_mem hi, hp, rfl⟩))
      have hblock := success_block ho dir query ht.slots ht.zeroed ht.room hok i hi hp
      rw [if_pos hst] at hblock
      have ho' : out = (cdsHashLookup aes (some k) dir query t).2.abPhoneResults := by
        rw [← hout]; exact (congrArg Prod.snd h).symm
      rw [ho', hblock]; rfl

theorem length_dedup_slotPhones_le (slot : Nat) (query : List Phone) :
    (slotPhones aes hashKey order slot query).dedup.length ≤ query.length :=
  Nat.le_trans (List.dedup_sublist _).length_le (List.length_filter_le _ _)

/-- Phone 5 asked for twice and registered twice: both blocks are the later uuid. -/
theorem ffiHashLookup_duplicates :
    let dir : List (Phone × Uuid) := [(5, ⟨fun _ => 1⟩), (5, ⟨fun _ => 2⟩)]
    ∃ out, ffiHashLookup (fun (_ : Unit) _ => 0) (fun _ => some ()) dir [5, 0, 5] (List.replicate 48 0) = (.ok (), out) ∧
      block BYTES_PER_UUID 0 out = (⟨fun _ => 2⟩ : Uuid).bytes ∧
      block BYTES_PER_UUID 2 out = (⟨fun _ => 2⟩ : Uuid).bytes := by
  intro dir
  have hok : (ffiHashLookup (fun (_ : Unit) _ => 0) (fun _ => some ()) dir [5, 0, 5] (List.replicate 48 0)).1 = .ok () :=
    rfl
  obtain ⟨order, m, k, -, -, -, -, -, hres⟩ := ffiHashLookup_eq_plainLookup _ _ dir [5, 0, 5] (List.replicate 48 0) _
    (by decide) (Prod.ext hok rfl)
  have hfit := hres fun slot => Nat.le_trans (length_dedup_slotPhones_le slot _) (by decide)
  exact ⟨_, Prod.ext hok rfl, hfit 0 (by decide) (by decide), hfit 2 (by decide) (by decide)⟩

/-! ## Overflow -/

/-- A successful attempt stores every query phone in its slot and answers it as the plain
    lookup does, and an attempt with more phones in a slot than lanes reports the overflow. -/
def NeverSilent (aes : K → Phone → BitVec 32) (hashKey : K) (dir : List (Phone × Uuid)) (query : List Phone) (n : Nat) :
    Prop :=
  let r := cdsHashLookup aes (some hashKey) dir query (freshBuffers n (query.length * BYTES_PER_UUID))
  (r.1 = CDS_HASH_LOOKUP_SUCCESS → ∀ i (hi : i < query.length), query[i] ≠ 0 →
    Stored aes hashKey (trailingZeros n) query query[i] ∧
      block BYTES_PER_UUID i r.2.abPhoneResults = (plainLookup dir query[i]).bytes) ∧
  (ValidSize n → (∃ slot, CHAIN_LANE_COUNT < (slotPhones aes hashKey (trailingZeros n) slot query).dedup.length) →
    r.1 = CDS_HASH_LOOKUP_ERROR_HASH_TABLE_OVERFLOW)

/-- The overflow test is right exactly when no slot has more phones than lanes, or some
    slot counts more than sixteen insertions. -/
theorem neverSilent_iff (aes : K → Phone → BitVec 32) (hashKey : K) (dir : List (Phone × Uuid)) (query : List Phone)
    (n : Nat) (hlen : query.length * BYTES_PER_PHONE < 2 ^ 63) :
    NeverSilent aes hashKey dir query n ↔
      ¬ValidSize n ∨
      (∀ slot, (slotPhones aes hashKey (trailingZeros n) slot query).dedup.length ≤ CHAIN_LANE_COUNT) ∨
      ∃ slot < n, 16 < inserts (slotPhones aes hashKey (trailingZeros n) slot query) % 2 ^ 32 := by
  have hq : query.length < 2 ^ 62 := by simp only [BYTES_PER_PHONE] at hlen; omega
  have h03 : CDS_HASH_LOOKUP_ERROR_HASH_TABLE_OVERFLOW ≠ CDS_HASH_LOOKUP_SUCCESS := by decide
  by_cases hv : ValidSize n
  swap
  · -- the attempt reports the parameter, whatever the query
    have hst := @cdsHashLookup_invalid K aes hashKey n hv dir query
      (freshBuffers n (query.length * BYTES_PER_UUID)) List.length_replicate
    refine iff_of_true ⟨fun h => ?_, fun h => absurd h hv⟩ (Or.inl hv)
    rw [hst] at h; exact absurd h (by decide)
  obtain ⟨order, ho, rfl⟩ := validSize_iff.mp hv
  have htz : trailingZeros (2 ^ order) = order := trailingZeros_two_pow order (by omega)
  have hn : 2 ^ order ≤ 2 ^ 32 := Nat.pow_le_pow_right (by omega) (by omega)
  have hfresh := freshBuffers_ready order query
  have hst := @cdsHashLookup_status K aes hashKey order ho dir query _ hfresh
  have hov := @overflows_iff K aes hashKey order (2 ^ order) query hn hq
  rw [NeverSilent, htz, ← hov]
  cases hc : overflows aes hashKey order (2 ^ order) query with
  | true =>
    rw [hc, if_pos rfl] at hst
    refine iff_of_true ⟨fun h => ?_, fun _ _ => hst⟩ (Or.inr (Or.inr rfl))
    rw [hst] at h; exact absurd h h03
  | false =>
    rw [hc, if_neg Bool.false_ne_true] at hst
    constructor
    · intro h
      refine Or.inr (Or.inl fun slot => ?_)
      by_contra hmany
      have := h.2 hv ⟨slot, by omega⟩
      rw [hst] at this; exact h03 this.symm
    · rintro (h | h | h)
      · exact absurd hv h
      · refine ⟨fun _ i hi hp => ?_, fun _ hmany => ?_⟩
        · have hs : Stored aes hashKey order query query[i] :=
            (stored_iff hq (List.getElem_mem hi) hp).mpr
              (mem_lanesOf_of_distinct _ (h _) _ (mem_slotPhones.mpr ⟨List.getElem_mem hi, hp, rfl⟩))
          have hb := success_block ho dir query hfresh.slots hfresh.zeroed hfresh.room hc i hi hp
          rw [if_pos hs] at hb
          exact ⟨hs, hb⟩
        · obtain ⟨slot, hslot⟩ := hmany
          have := h slot; omega
      · cases h

/-- Thirteen phones in the one slot of a table of one: the attempt succeeds, phone 13 is
    registered, has no lane, and is answered with zeroes. -/
theorem thirteen_phones_silent :
    let aes : Unit → Phone → BitVec 32 := fun _ _ => 0
    let query : List Phone := [1, 2, 3, 4, 5, 6, 7, 8, 9, 10, 11, 12, 13]
    let dir : List (Phone × Uuid) := [(13, ⟨fun _ => 1⟩)]
    let r := cdsHashLookup aes (some ()) dir query (freshBuffers 1 208)
    r.1 = CDS_HASH_LOOKUP_SUCCESS ∧ ¬Stored aes () 0 query 13 ∧
      block BYTES_PER_UUID 12 r.2.abPhoneResults = List.replicate 16 0 ∧
      plainLookup dir 13 = ⟨fun _ => 1⟩ ∧ ¬NeverSilent aes () dir query 1 := by
  intro aes query dir r
  have hq : query.length < 2 ^ 62 := by decide
  have hlanes : (13 : Phone) ∉ lanesOf (slotPhones aes () 0 (hash aes () 13 0).toNat query) := by decide
  have hns : ¬Stored aes () 0 query 13 := fun h =>
    hlanes ((stored_iff hq (by decide) (by decide)).mp h)
  have hfresh := freshBuffers_ready 0 query
  have hov : overflows aes () 0 (2 ^ 0) query = false := by
    rw [← Bool.not_eq_true, overflows_iff (by decide) hq]
    decide
  have hst : r.1 = CDS_HASH_LOOKUP_SUCCESS := by
    have h := @cdsHashLookup_status Unit aes () 0 (by decide) dir query _ hfresh
    rw [hov, if_neg Bool.false_ne_true] at h
    exact h
  have hblock : block BYTES_PER_UUID 12 r.2.abPhoneResults = List.replicate 16 0 := by
    have hb := @success_block Unit aes () 0 (by decide) dir query _ hfresh.slots hfresh.zeroed hfresh.room hov 12
      (by decide) (by decide)
    rw [if_neg (show ¬Stored aes () 0 query query[12] from hns), Uuid.bytes_zero] at hb
    exact hb
  refine ⟨hst, hns, hblock, by decide, fun h => ?_⟩
  exact hns (h.1 hst 12 (by decide) (by decide)).1

/-- Twelve phones in one slot fit. -/
theorem neverSilent_twelve :
    NeverSilent (fun (_ : Unit) _ => 0) () [(12, ⟨fun _ => 1⟩)] [1, 2, 3, 4, 5, 6, 7, 8, 9, 10, 11, 12] 1 :=
  (neverSilent_iff _ _ _ _ _ (by decide)).mpr
    (Or.inr (Or.inl fun slot => Nat.le_trans (length_dedup_slotPhones_le slot _) (by decide)))

end Hash

end ContactDiscovery.Enclave.HashLookup
