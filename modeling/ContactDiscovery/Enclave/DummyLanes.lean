/-
  ContactDiscovery.Enclave.DummyLanes — lane 0 of the blocks of the oblivious lookup (see
  `ContactDiscovery.Enclave.HashLookup`).

  Lane 0 of a slot holds no phone and is zero, and no other lane of a slot is zero. An entry of
  the directory compares lane 0 with ones, so it never writes its uuid there; but it inverts lane 0
  of the results of its slot, in each of its blocks, so that its writes do not depend on what they
  find. After the directory pass lane 0 of a slot's results is therefore ones if the entries of the
  slot are odd in number, and zero if they are even (`construct_dummy`), whatever the query.

  Proved:
  - `tables_keep_no_query`: the tables a lookup leaves are the same for any two queries.
  - `sentinelsZero_iff`: a query phone of ones is answered with zeroes, and so is a query phone of
    zero exactly if every slot has an even number of entries: it compares equal with the zero that
    lane 0 reads as, and takes the inverted lanes for a uuid (`zero_phone_registered`).
-/

import ContactDiscovery.Enclave.HashLookupProofs

namespace ContactDiscovery.Enclave.HashLookup

open Lib Lib.Simd Lib.Assoc

section Hash

variable {K : Type} (aes : K → Phone → BitVec 32) (hashKey : K) (order : Nat)

def slotEntries (slot : Nat) (inPhones : List Phone) : Nat :=
  inPhones.countP fun p => (hash aes hashKey p order).toNat = slot

def dummyLane (n : Nat) : BitVec 64 := if n % 2 = 1 then UINT64_MAX else 0

variable {aes hashKey order}

theorem dummyLane_succ (n : Nat) : dummyLane (n + 1) = dummyLane n ^^^ UINT64_MAX := by
  unfold dummyLane
  rcases Nat.mod_two_eq_zero_or_one n with h | h
  · rw [if_pos (by omega), if_neg (by omega)]; decide
  · rw [if_neg (by omega), if_pos h]; decide

theorem dummyLane_eq_zero {n : Nat} : dummyLane n = 0 ↔ Even n := by
  rw [Nat.even_iff, dummyLane]
  rcases Nat.mod_two_eq_zero_or_one n with h | h
  · rw [if_neg (by omega)]; exact iff_of_true rfl h
  · rw [if_pos h]; exact iff_of_false (by decide) (by omega)

theorem slotEntries_concat (slot : Nat) (l : List Phone) (p : Phone) :
    slotEntries aes hashKey order slot (l ++ [p]) =
      slotEntries aes hashKey order slot l + if (hash aes hashKey p order).toNat = slot then 1 else 0 := by
  simp only [slotEntries, List.countP_append, List.countP_singleton, decide_eq_true_eq]

/-! ## Lane 0 of the slots -/

/-- The dummies of a chain are its zero lanes. -/
theorem hashSlot_eq_zero {slot : Nat} {query : List Phone} (hs : slot < 2 ^ 32) (hlen : query.length < 2 ^ 62) (b i : Fin 4) :
    (chainOf aes hashKey order query slot).hashSlot b i = 0 ↔ i = 0 := by
  have hinv := @chainOf_inv K aes hashKey order slot hs query hlen
  have hcount := @inserts_slotPhones_lt K aes hashKey order slot query hlen
  by_cases hi : i = 0
  · subst hi
    refine iff_of_true ?_ rfl
    have hm := msb_sub (c := inserts (slotPhones aes hashKey order slot query)) (r := 0) (by omega) (by omega)
    rw [BitVec.sub_zero] at hm
    show blendvPd _ _ _ _ = _
    rw [blendvPd_apply, hinv.dummyMask b, hm, hinv.dummy b]; simp
  · refine iff_of_false ?_ hi
    rw [hashSlot_apply hinv hcount b i hi]
    split
    · decide
    · rename_i hr
      have hmem := List.mem_of_getElem? (hinv.closed b i hi (by omega))
      exact (mem_slotPhones.mp (lanesOf_subset _ _ hmem)).2.1

/-! ## Lane 0 of the results -/

/-- An entry inverts lane 0 of its slot, and of no other. -/
theorem hashPhone_dummy {slots : List HashSlot} {s : Nat} (hslot : ∀ b, slots.getD s (fun _ => setzeroSi256) b 0 = 0)
    (rs : List HashSlotResult) (e : Phone × Uuid) {r : HashSlotResult} (hr : rs[s]? = some r) :
    ∃ r', (hashPhone aes hashKey order slots rs e)[s]? = some r' ∧ ∀ b w,
      r' b w 0 = if (hash aes hashKey e.1 order).toNat = s then r b w 0 ^^^ UINT64_MAX else r b w 0 := by
  unfold hashPhone
  simp only [List.getElem?_modify, hr, Option.map_eq_map, Option.map_some]
  refine ⟨_, rfl, fun b w => ?_⟩
  by_cases hs : (hash aes hashKey e.1 order).toNat = s
  · have hor : e.1 ||| chainBlockDummyMask 0 = UINT64_MAX := BitVec.or_allOnes
    have hne : ¬ UINT64_MAX = (0 : BitVec 64) := by decide
    rw [if_pos hs, if_pos hs, hashPhoneChainBlock_all, blendvEpi8_cmpeq]
    simp only [orSi256_apply, xorSi256_apply, set1Epi64x_apply, hor, hs, hslot, if_neg hne]
    rfl
  · rw [if_neg hs, if_neg hs]

theorem construct_dummy {slots : List HashSlot} {s : Nat} (hslot : ∀ b, slots.getD s (fun _ => setzeroSi256) b 0 = 0)
    (dir : List (Phone × Uuid)) (rs : List HashSlotResult) (hr : rs[s]? = some fun _ _ => setzeroSi256) :
    ∃ r, (cdsContructHash aes hashKey order slots dir rs)[s]? = some r ∧ ∀ b w,
      r b w 0 = dummyLane (slotEntries aes hashKey order s (dir.map (·.1))) := by
  rw [cdsContructHash_eq]
  induction dir using List.reverseRecOn with
  | nil => exact ⟨_, hr, fun _ _ => rfl⟩
  | append_singleton dir e ih =>
    obtain ⟨r₁, h₁, hlane⟩ := ih
    rw [List.foldl_append]
    obtain ⟨r₂, h₂, hstep⟩ := @hashPhone_dummy K aes hashKey order slots s hslot _ e r₁ h₁
    refine ⟨r₂, h₂, fun b w => ?_⟩
    rw [hstep b w, hlane b w, List.map_append, List.map_singleton, slotEntries_concat]
    split
    · rw [dummyLane_succ]
    · rw [Nat.add_zero]

theorem length_cdsContructHash (slots : List HashSlot) (dir : List (Phone × Uuid)) (rs : List HashSlotResult) :
    (cdsContructHash aes hashKey order slots dir rs).length = rs.length := by
  rw [cdsContructHash_eq]
  induction dir generalizing rs with
  | nil => rfl
  | cons e dir ih =>
    rw [List.foldl_cons, ih]
    simp only [hashPhone, List.length_modify]

theorem chainTable_dummy {n s : Nat} {query : List Phone} (hn : n ≤ 2 ^ 32) (hlen : query.length < 2 ^ 62) (h : s < n) (b : Fin 4) :
    (chainTable aes hashKey order n query).getD s (fun _ => setzeroSi256) b 0 = 0 := by
  rw [List.getD_eq_getElem?_getD, chainTable_get query h]
  exact (hashSlot_eq_zero (by omega) hlen b 0).mpr rfl

theorem resultTable_dummy {n s : Nat} {query : List Phone} (hn : n ≤ 2 ^ 32) (hlen : query.length < 2 ^ 62)
    (dir : List (Phone × Uuid)) (h : s < n) :
    ∃ r, (resultTable aes hashKey order n query dir)[s]? = some r ∧ ∀ b w,
      r b w 0 = dummyLane (slotEntries aes hashKey order s (dir.map (·.1))) :=
  construct_dummy (fun b => chainTable_dummy hn hlen h b) dir _ (by rw [List.getElem?_replicate, if_pos h])

/-! ## What a lookup leaves in its tables -/

/-- The attempt is a success if the table has a size it takes and no chain reports an overflow. -/
theorem success_iff {n : Nat} (dir : List (Phone × Uuid)) (query : List Phone) {s : Buffers} (hl : s.hashSlots.length = n) :
    (cdsHashLookup aes (some hashKey) dir query s).1 = CDS_HASH_LOOKUP_SUCCESS ↔
      ∃ order < 32, n = 2 ^ order ∧ overflows aes hashKey order n query = false := by
  constructor
  · intro h
    by_cases hv : ValidSize n
    swap
    · rw [cdsHashLookup_invalid hv dir query hl] at h
      exact absurd h (by decide)
    obtain ⟨order, ho, rfl⟩ := validSize_iff.mp hv
    refine ⟨order, ho, rfl, ?_⟩
    rw [cdsHashLookup_eq ho dir query hl] at h
    split at h
    · exact absurd (show CDS_HASH_LOOKUP_ERROR_HASH_TABLE_OVERFLOW = CDS_HASH_LOOKUP_SUCCESS from h) (by decide)
    · rename_i hov
      exact Bool.eq_false_iff.mpr hov
  · rintro ⟨order, ho, rfl, hov⟩
    rw [cdsHashLookup_eq ho dir query hl, if_neg (by rw [hov]; exact Bool.false_ne_true)]

structure Zeroed (n : Nat) (s : Buffers) : Prop where
  hashSlots : s.hashSlots = List.replicate n fun _ => setzeroSi256
  hashSlotResults : s.hashSlotResults = List.replicate n fun _ _ => setzeroSi256

/-- The results that are left: zeroes, but for lane 0, which is ones in a slot with an even number
    of entries. -/
def erasedResults (aes : K → Phone → BitVec 32) (hashKey : K) (n : Nat) (inPhones : List Phone) : List HashSlotResult :=
  (List.range n).map fun s _ _ i => if i = 0 then dummyLane (slotEntries aes hashKey (trailingZeros n) s inPhones + 1) else 0

theorem eraseResult_apply (r : HashSlotResult) (b : Fin 4) (w : Fin 2) (i : Fin 4) :
    eraseResult r b w i = if i = 0 then r b w 0 ^^^ UINT64_MAX else 0 := by
  simp only [eraseResult, xorSi256_apply, andSi256_apply]
  by_cases hi : i = 0
  · subst hi
    have hmask : chainBlockDummyMask 0 = BitVec.allOnes 64 := by decide
    rw [if_pos rfl, hmask, BitVec.and_allOnes]
    rfl
  · rw [if_neg hi, dummyMask_lane i hi]; simp

/-- A successful attempt on zeroed tables, whatever it is asked for. -/
theorem success_tables {n : Nat} {dir : List (Phone × Uuid)} {query : List Phone} {s : Buffers} (hz : Zeroed n s)
    (hlen : query.length < 2 ^ 62) (h : (cdsHashLookup aes (some hashKey) dir query s).1 = CDS_HASH_LOOKUP_SUCCESS) :
    (cdsHashLookup aes (some hashKey) dir query s).2.hashSlots = List.replicate n (fun _ => setzeroSi256) ∧
      (cdsHashLookup aes (some hashKey) dir query s).2.hashSlotResults = erasedResults aes hashKey n (dir.map (·.1)) := by
  have hl : s.hashSlots.length = n := by rw [hz.hashSlots, List.length_replicate]
  obtain ⟨order, ho, rfl, hov⟩ := (success_iff dir query hl).mp h
  have hn : 2 ^ order ≤ 2 ^ 32 := Nat.pow_le_pow_right (by omega) (by omega)
  have htz : trailingZeros (2 ^ order) = order := trailingZeros_two_pow order (by omega)
  rw [cdsHashLookup_eq ho dir query hl, if_neg (by rw [hov]; exact Bool.false_ne_true), hz.hashSlotResults]
  refine ⟨by rw [List.map_const', chainTable, List.length_map, List.length_range], ?_⟩
  show (resultTable aes hashKey order (2 ^ order) query dir).map eraseResult = _
  apply List.ext_getElem?
  intro i
  rw [List.getElem?_map, erasedResults, List.getElem?_map, htz]
  by_cases hi : i < 2 ^ order
  · obtain ⟨r, hr, hlane⟩ := @resultTable_dummy K aes hashKey order _ _ query hn hlen dir hi
    rw [hr, List.getElem?_range hi, Option.map_some, Option.map_some, Option.some.injEq]
    funext b w l
    rw [eraseResult_apply, hlane, dummyLane_succ]
  · have hlength : (resultTable aes hashKey order (2 ^ order) query dir).length = 2 ^ order := by
      rw [resultTable, length_cdsContructHash, List.length_replicate]
    rw [List.getElem?_eq_none (by omega), List.getElem?_eq_none (by rw [List.length_range]; omega)]
    rfl

/-- Two lookups over one directory with one key leave the same tables, whatever they were asked for:
    zeroed slots, and results of which the phones of the directory and the key alone say whether
    lane 0 is zeroes or ones. -/
theorem tables_keep_no_query (aes : K → Phone → BitVec 32) (hashKey : K) (dir : List (Phone × Uuid)) (n : Nat)
    {query₁ query₂ : List Phone} {s₁ s₂ : Buffers} (hz₁ : Zeroed n s₁) (hz₂ : Zeroed n s₂)
    (hlen₁ : query₁.length * BYTES_PER_PHONE < 2 ^ 63) (hlen₂ : query₂.length * BYTES_PER_PHONE < 2 ^ 63)
    (h₁ : (cdsHashLookup aes (some hashKey) dir query₁ s₁).1 = CDS_HASH_LOOKUP_SUCCESS)
    (h₂ : (cdsHashLookup aes (some hashKey) dir query₂ s₂).1 = CDS_HASH_LOOKUP_SUCCESS) :
    let r₁ := (cdsHashLookup aes (some hashKey) dir query₁ s₁).2
    let r₂ := (cdsHashLookup aes (some hashKey) dir query₂ s₂).2
    (r₁.hashSlots = r₂.hashSlots ∧ r₁.hashSlotResults = r₂.hashSlotResults) ∧
      r₁.hashSlots = List.replicate n (fun _ => setzeroSi256) ∧
      r₁.hashSlotResults = erasedResults aes hashKey n (dir.map (·.1)) := by
  intro r₁ r₂
  simp only [BYTES_PER_PHONE] at hlen₁ hlen₂
  obtain ⟨hslots₁, hresults₁⟩ := success_tables hz₁ (by omega) h₁
  obtain ⟨hslots₂, hresults₂⟩ := success_tables hz₂ (by omega) h₂
  exact ⟨⟨hslots₁.trans hslots₂.symm, hresults₁.trans hresults₂.symm⟩, hslots₁, hresults₁⟩

theorem freshBuffers_zeroed (n resultBytes : Nat) : Zeroed n (freshBuffers n resultBytes) := ⟨rfl, rfl⟩

/-- A query for a registered phone and one for two others: the slot that was used by three entries
    is left with zeroes in lane 0 both times. -/
theorem tables_keep_no_query_three_entries :
    let dir : List (Phone × Uuid) := [(5, ⟨fun _ => 1⟩), (6, ⟨fun _ => 2⟩), (0, Uuid.zero)]
    let r₁ := cdsHashLookup (fun (_ : Unit) _ => 0) (some ()) dir [5] (freshBuffers 1 16)
    let r₂ := cdsHashLookup (fun (_ : Unit) _ => 0) (some ()) dir [7, 8] (freshBuffers 1 32)
    r₁.1 = CDS_HASH_LOOKUP_SUCCESS ∧ r₂.1 = CDS_HASH_LOOKUP_SUCCESS ∧ r₁.2.hashSlots = r₂.2.hashSlots ∧
      r₁.2.hashSlotResults = r₂.2.hashSlotResults ∧ r₁.2.hashSlotResults = [fun _ _ _ => 0] := by
  intro dir r₁ r₂
  have h₁ : r₁.1 = CDS_HASH_LOOKUP_SUCCESS := rfl
  have h₂ : r₂.1 = CDS_HASH_LOOKUP_SUCCESS := rfl
  have h := tables_keep_no_query (fun (_ : Unit) _ => 0) () dir 1 (freshBuffers_zeroed 1 16) (freshBuffers_zeroed 1 32)
    (by decide) (by decide) h₁ h₂
  refine ⟨h₁, h₂, h.1.1, h.1.2, h.2.2.trans ?_⟩
  decide +kernel

/-! ## Query phones that are no phones -/

theorem hashSlotCollectResult_zero {slot : HashSlot} (hslot : ∀ b i, slot b i = 0 ↔ i = 0) (r : HashSlotResult) (w : Fin 2) :
    hashSlotCollectResult r (abChainEq 0 slot) w = r 3 w 0 := by
  have heq : ∀ b i, (0 : BitVec 64) = andSi256 (slot b) chainBlockNonDummyMask i ↔ i = 0 := by
    intro b i
    rw [andSi256_apply]
    by_cases hi : i = 0
    · subst hi
      exact iff_of_true (by rw [nonDummyMask_dummy]; exact BitVec.and_zero.symm) rfl
    · rw [nonDummyMask_lane i hi, BitVec.and_allOnes, eq_comm]
      exact hslot b i
  have hlane : ∀ i, blendvEpi8 (blendvEpi8 (blendvEpi8 (blendvEpi8 setzeroSi256 (r 0 w) (abChainEq 0 slot 0))
      (r 1 w) (abChainEq 0 slot 1)) (r 2 w) (abChainEq 0 slot 2)) (r 3 w) (abChainEq 0 slot 3) i =
      if i = 0 then r 3 w 0 else 0 := by
    intro i
    simp only [abChainEq, blendvEpi8_cmpeq, set1Epi64x_apply, heq, setzeroSi256_apply]
    by_cases hi : i = 0
    · subst hi; simp only [if_true]
    · simp only [if_neg hi]
  have h1 : ¬(1 : Fin 4) = 0 := by decide
  have h2 : ¬(2 : Fin 4) = 0 := by decide
  have h3 : ¬(3 : Fin 4) = 0 := by decide
  simp only [hashSlotCollectResult, extractEpi64, hlane, if_true, if_neg h1, if_neg h2, if_neg h3]
  exact (BitVec.or_zero.trans BitVec.or_zero).trans BitVec.or_zero

theorem abPhoneResult_zero {n : Nat} {query : List Phone} (hn : n ≤ 2 ^ 32) (hlen : query.length < 2 ^ 62)
    (dir : List (Phone × Uuid)) :
    abPhoneResult (chainTable aes hashKey order n query) (resultTable aes hashKey order n query dir) 0 =
      if ∀ s < n, Even (slotEntries aes hashKey order s (dir.map (·.1))) then Uuid.zero else ⟨fun _ => UINT64_MAX⟩ := by
  have hslots : (chainTable aes hashKey order n query).length = n := by rw [chainTable, List.length_map, List.length_range]
  -- what slot `s` contributes
  have hcollect : ∀ s < n, ∃ e,
      ((chainTable aes hashKey order n query).zip (resultTable aes hashKey order n query dir))[s]? = some e ∧
        ∀ w, hashSlotCollectResult e.2 (abChainEq 0 e.1) w = dummyLane (slotEntries aes hashKey order s (dir.map (·.1))) := by
    intro s hs
    obtain ⟨r, hr, hlane⟩ := @resultTable_dummy K aes hashKey order n s query hn hlen dir hs
    refine ⟨((chainOf aes hashKey order query s).hashSlot, r), ?_, fun w => ?_⟩
    · rw [List.getElem?_zip_eq_some]; exact ⟨chainTable_get query hs, hr⟩
    · rw [hashSlotCollectResult_zero (fun b i => hashSlot_eq_zero (by omega) hlen b i)]
      exact hlane 3 w
  -- so every member of the two tables contributes the lane of its slot
  have hmember : ∀ e ∈ (chainTable aes hashKey order n query).zip (resultTable aes hashKey order n query dir), ∃ s < n,
      ∀ w, hashSlotCollectResult e.2 (abChainEq 0 e.1) w = dummyLane (slotEntries aes hashKey order s (dir.map (·.1))) := by
    intro e he
    obtain ⟨s, hs, rfl⟩ := List.getElem_of_mem he
    have hsn : s < n := by rw [List.length_zip, hslots] at hs; omega
    obtain ⟨e', he', hc⟩ := hcollect s hsn
    rw [List.getElem?_eq_getElem hs, Option.some.injEq] at he'
    exact ⟨s, hsn, he' ▸ hc⟩
  apply Uuid.ext
  funext w
  rw [abPhoneResult_data64, foldl_or _ _ UINT64_MAX]
  · by_cases heven : ∀ s < n, Even (slotEntries aes hashKey order s (dir.map (·.1)))
    · rw [if_pos heven, if_neg]
      · rfl
      rintro ⟨e, he, hones⟩
      obtain ⟨s, hsn, hc⟩ := hmember e he
      rw [hc, dummyLane_eq_zero.mpr (heven s hsn)] at hones
      exact absurd hones (by decide)
    · rw [if_neg heven]
      push Not at heven
      obtain ⟨s, hs, hodd⟩ := heven
      obtain ⟨e, he, hc⟩ := hcollect s hs
      refine if_pos ⟨e, List.mem_of_getElem? he, ?_⟩
      rw [hc, dummyLane, if_pos (Nat.odd_iff.mp (Nat.not_even_iff_odd.mp hodd))]
  · intro e he
    obtain ⟨s, -, hc⟩ := hmember e he
    rw [hc, dummyLane]
    split
    · exact .inr rfl
    · exact .inl rfl

/-- A successful attempt answers the query phones of zero and of ones with zeroes. -/
def SentinelsZero (aes : K → Phone → BitVec 32) (hashKey : K) (dir : List (Phone × Uuid)) (query : List Phone) (s : Buffers) :
    Prop :=
  let r := cdsHashLookup aes (some hashKey) dir query s
  r.1 = CDS_HASH_LOOKUP_SUCCESS → ∀ i (hi : i < query.length), query[i] = 0 ∨ query[i] = UINT64_MAX →
    block BYTES_PER_UUID i r.2.abPhoneResults = List.replicate 16 0

theorem sentinel_block (ho : order < 32) {dir : List (Phone × Uuid)}
    (hdir : ∀ e ∈ dir, e.1 = 0 ∨ e.1 = UINT64_MAX → e.2 = Uuid.zero) {query : List Phone} (hlen : query.length < 2 ^ 62)
    {s : Buffers} (hs : Ready order query s) (hok : overflows aes hashKey order (2 ^ order) query = false) {i : Nat}
    (hi : i < query.length) (hsentinel : query[i] = 0 ∨ query[i] = UINT64_MAX) :
    block BYTES_PER_UUID i (cdsHashLookup aes (some hashKey) dir query s).2.abPhoneResults =
      (if query[i] = 0 ∧ ¬∀ slot < 2 ^ order, Even (slotEntries aes hashKey order slot (dir.map (·.1)))
        then (⟨fun _ => UINT64_MAX⟩ : Uuid) else Uuid.zero).bytes := by
  by_cases h0 : query[i] = 0
  · have hn : 2 ^ order ≤ 2 ^ 32 := Nat.pow_le_pow_right (by omega) (by omega)
    rw [cdsHashLookup_eq ho dir query hs.slots, if_neg (by rw [hok]; exact Bool.false_ne_true)]
    show block BYTES_PER_UUID i (storeResults _ query s.abPhoneResults) = _
    rw [storeResults_eq _ _ _ hs.room, @block_flatMap _ BYTES_PER_UUID _ (fun p => Uuid.length_bytes _) query i hi, hs.zeroed]
    have hzero := @abPhoneResult_zero K aes hashKey order _ query hn hlen dir
    rw [resultTable] at hzero
    rw [h0, hzero]
    by_cases heven : ∀ slot < 2 ^ order, Even (slotEntries aes hashKey order slot (dir.map (·.1)))
    · rw [if_pos heven, if_neg fun h => h.2 heven]
    · rw [if_neg heven, if_pos ⟨rfl, heven⟩]
  · -- ones are looked up as any phone is, and the directory has nothing for them
    have hplain : plainLookup dir query[i] = Uuid.zero := by
      unfold plainLookup
      cases hlast : last? query[i] dir with
      | none => rfl
      | some u => exact hdir _ (mem_of_last? hlast) hsentinel
    rw [success_block ho dir query hs.slots hs.zeroed hs.room hok i hi h0, hplain, ite_self]
    exact congrArg Uuid.bytes (if_neg fun h => h0 h.1).symm

/-- Over a directory that has zero uuids for phones of zero and of ones, these are answered with
    zeroes exactly if the attempt fails, no phone of the query is zero, or every slot has an even
    number of entries. -/
theorem sentinelsZero_iff (aes : K → Phone → BitVec 32) (hashKey : K) (dir : List (Phone × Uuid)) (query : List Phone)
    (s : Buffers) (hdir : ∀ e ∈ dir, e.1 = 0 ∨ e.1 = UINT64_MAX → e.2 = Uuid.zero)
    (hlen : query.length * BYTES_PER_PHONE < 2 ^ 63)
    (hzeroed : s.hashSlotResults = List.replicate s.hashSlots.length fun _ _ => setzeroSi256)
    (hroom : s.abPhoneResults.length = query.length * BYTES_PER_UUID) :
    SentinelsZero aes hashKey dir query s ↔
      (cdsHashLookup aes (some hashKey) dir query s).1 ≠ CDS_HASH_LOOKUP_SUCCESS ∨ 0 ∉ query ∨
        ∀ slot < s.hashSlots.length,
          Even (slotEntries aes hashKey (trailingZeros s.hashSlots.length) slot (dir.map (·.1))) := by
  have hq : query.length < 2 ^ 62 := by simp only [BYTES_PER_PHONE] at hlen; omega
  by_cases hok : (cdsHashLookup aes (some hashKey) dir query s).1 = CDS_HASH_LOOKUP_SUCCESS
  swap
  · exact iff_of_true (fun h => absurd h hok) (.inl hok)
  obtain ⟨order, ho, hl, hov⟩ := (success_iff dir query rfl).mp hok
  rw [hl] at hov hzeroed ⊢
  rw [trailingZeros_two_pow order (by omega)]
  have hblock := @sentinel_block K aes hashKey order ho dir hdir query hq s ⟨hl, hzeroed, hroom⟩ hov
  constructor
  · intro h
    refine .inr (or_iff_not_imp_left.mpr fun hmem => ?_)
    obtain ⟨i, hi, h0⟩ := List.getElem_of_mem (not_not.mp hmem)
    by_contra hodd
    have hzero := h hok i hi (.inl h0)
    rw [hblock hi (.inl h0), if_pos ⟨h0, hodd⟩] at hzero
    exact absurd hzero (by decide)
  · rintro (h | h)
    · exact absurd hok h
    intro _ i hi hsentinel
    rw [hblock hi hsentinel, if_neg, Uuid.bytes_zero]
    rintro ⟨h0, hodd⟩
    rcases h with h | h
    · exact h (h0 ▸ List.getElem_mem hi)
    · exact hodd h

/-- One registered phone in the one slot of a table of one: the query phone of zero is answered with
    ones, the query phone of ones with zeroes. -/
theorem zero_phone_registered :
    let dir : List (Phone × Uuid) := [(5, ⟨fun _ => 1⟩)]
    let r := cdsHashLookup (fun (_ : Unit) _ => 0) (some ()) dir [0, UINT64_MAX] (freshBuffers 1 32)
    r.1 = CDS_HASH_LOOKUP_SUCCESS ∧ block BYTES_PER_UUID 0 r.2.abPhoneResults = List.replicate 16 0xff ∧
      block BYTES_PER_UUID 1 r.2.abPhoneResults = List.replicate 16 0 ∧
      ¬SentinelsZero (fun (_ : Unit) _ => 0) () dir [0, UINT64_MAX] (freshBuffers 1 32) := by
  intro dir r
  have hok : r.1 = CDS_HASH_LOOKUP_SUCCESS := rfl
  have hov : overflows (fun (_ : Unit) _ => (0 : BitVec 32)) () 0 (2 ^ 0) [0, UINT64_MAX] = false := rfl
  have hblock := fun i hi => @sentinel_block Unit (fun _ _ => 0) () 0 (by decide) dir (by decide) [0, UINT64_MAX] (by decide)
    (freshBuffers 1 32) (freshBuffers_ready 0 _) hov i hi
  have hodd : ¬∀ slot < 2 ^ 0, Even (slotEntries (fun (_ : Unit) _ => (0 : BitVec 32)) () 0 slot (dir.map (·.1))) := by decide
  have h0 := hblock 0 (by decide) (.inl rfl)
  have h1 := hblock 1 (by decide) (.inr rfl)
  rw [if_pos ⟨rfl, hodd⟩] at h0
  rw [if_neg fun h => absurd h.1 (by decide), Uuid.bytes_zero] at h1
  have hones : block BYTES_PER_UUID 0 r.2.abPhoneResults = List.replicate 16 0xff := h0.trans (by decide)
  refine ⟨hok, hones, h1, fun h => ?_⟩
  have hzero := h hok 0 (by decide) (.inl rfl)
  exact absurd (hones.symm.trans hzero) (by decide)

/-- A registered phone and a free entry in the one slot. -/
theorem sentinelsZero_two_entries :
    SentinelsZero (fun (_ : Unit) _ => 0) () [(5, ⟨fun _ => 1⟩), (0, Uuid.zero)] [0, 5, UINT64_MAX] (freshBuffers 1 48) :=
  (sentinelsZero_iff _ _ _ _ _ (by decide) (by decide) rfl rfl).mpr (.inr (.inr (by decide)))

end Hash

end ContactDiscovery.Enclave.HashLookup
