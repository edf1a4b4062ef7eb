/-
  ContactDiscovery.Enclave.HashChain — what a slot's chain holds after the query phones were
  run over it (see `ContactDiscovery.Enclave.HashLookup`).

  Lane `l` of block `b` has a rank from 1 to 12 (`rank`; the dummies have none). The lane is
  open until as many phones were inserted as its rank, and holds the last phone processed,
  of whatever slot; it is then closed on the phone inserted at its rank. So the chain's
  closed lanes hold the slot's first twelve distinct phones (`lanesOf`), and a phone past
  these counts as an insertion each time it comes up (`inserts`).

  Proved: `chainOf_inv`, the loop's invariant; `hashSlot_apply`, the lanes written out;
  `exists_lane`, a phone that has a lane is in it; `overflowed_eq`, the overflow test counts
  insertions, not lanes.
-/

import ContactDiscovery.Enclave.HashLookup

namespace ContactDiscovery.Enclave.HashLookup

open Lib Lib.Simd

/-! ## The slot's phones -/

/-- The lanes of a chain that can take a phone: three of each block. -/
def CHAIN_LANE_COUNT : Nat := 12

/-- A slot's first phones, each once, as many as there are lanes. -/
def lanesOf (l : List Phone) : List Phone :=
  l.foldl (fun lanes p => if p ∈ lanes ∨ CHAIN_LANE_COUNT ≤ lanes.length then lanes else lanes ++ [p]) []

/-- The insertions a slot's phones count as: one for each phone in a lane, and one for each
    time a phone comes up that found no lane. -/
def inserts (l : List Phone) : Nat := (lanesOf l).length + (l.filter (· ∉ lanesOf l)).length

theorem lanesOf_concat (l : List Phone) (p : Phone) :
    lanesOf (l ++ [p]) =
      if p ∈ lanesOf l ∨ CHAIN_LANE_COUNT ≤ (lanesOf l).length then lanesOf l else lanesOf l ++ [p] := by
  rw [lanesOf, List.foldl_append]; rfl

theorem lanesOf_length_le (l : List Phone) : (lanesOf l).length ≤ CHAIN_LANE_COUNT := by
  induction l using List.reverseRecOn with
  | nil => exact Nat.zero_le _
  | append_singleton l p ih =>
    rw [lanesOf_concat]
    split
    · exact ih
    · rename_i h
      rw [not_or] at h
      rw [List.length_append, List.length_singleton]; omega

theorem lanesOf_subset (l : List Phone) : ∀ p ∈ lanesOf l, p ∈ l := by
  induction l using List.reverseRecOn with
  | nil => intro p h; cases h
  | append_singleton l q ih =>
    intro p h
    rw [lanesOf_concat] at h
    split at h
    · exact List.mem_append_left _ (ih p h)
    · rcases List.mem_append.mp h with h | h
      · exact List.mem_append_left _ (ih p h)
      · exact List.mem_append_right _ h

theorem lanesOf_nodup (l : List Phone) : (lanesOf l).Nodup := by
  induction l using List.reverseRecOn with
  | nil => exact List.nodup_nil
  | append_singleton l q ih =>
    rw [lanesOf_concat]
    split
    · exact ih
    · rename_i h
      rw [not_or] at h
      rw [List.nodup_append]
      refine ⟨ih, List.nodup_singleton q, fun a ha b hb => ?_⟩
      rw [List.mem_singleton] at hb; subst hb
      intro e; subst e; exact h.1 ha

/-- While a lane is free, every phone of the slot has one. -/
theorem mem_lanesOf_of_room (l : List Phone) (h : (lanesOf l).length < CHAIN_LANE_COUNT) : ∀ p ∈ l, p ∈ lanesOf l := by
  induction l using List.reverseRecOn with
  | nil => intro p hp; cases hp
  | append_singleton l q ih =>
    rw [lanesOf_concat] at h ⊢
    split at h
    · rename_i hc
      rw [if_pos hc]
      intro p hp
      rcases List.mem_append.mp hp with hp | hp
      · exact ih h p hp
      · rw [List.mem_singleton] at hp; subst hp
        rcases hc with hc | hc
        · exact hc
        · omega
    · rename_i hc
      rw [if_neg hc]
      rw [List.length_append, List.length_singleton] at h
      intro p hp
      rcases List.mem_append.mp hp with hp | hp
      · exact List.mem_append_left _ (ih (by omega) p hp)
      · exact List.mem_append_right _ hp

theorem inserts_concat (l : List Phone) (p : Phone) :
    inserts (l ++ [p]) = if p ∈ lanesOf l then inserts l else inserts l + 1 := by
  unfold inserts
  rw [lanesOf_concat]
  by_cases hp : p ∈ lanesOf l
  · rw [if_pos (Or.inl hp), if_pos hp, List.filter_append]; simp [hp]
  · rw [if_neg hp]
    by_cases hf : CHAIN_LANE_COUNT ≤ (lanesOf l).length
    · rw [if_pos (Or.inr hf), List.filter_append]; simp [hp]; omega
    · have hall := mem_lanesOf_of_room l (by omega)
      rw [if_neg (by simp [hp, hf])]
      have h1 : l.filter (· ∉ lanesOf l) = [] := by
        rw [List.filter_eq_nil_iff]; intro q hq; simp [hall q hq]
      have h2 : (l ++ [p]).filter (· ∉ lanesOf l ++ [p]) = [] := by
        rw [List.filter_eq_nil_iff]
        intro q hq
        rcases List.mem_append.mp hq with hq | hq
        · simp [hall q hq]
        · simp only [List.mem_singleton] at hq; simp [hq]
      rw [h1, h2]; simp

theorem lanesOf_length (l : List Phone) : (lanesOf l).length = min (inserts l) CHAIN_LANE_COUNT := by
  by_cases h : (lanesOf l).length < CHAIN_LANE_COUNT
  · have hn : l.filter (· ∉ lanesOf l) = [] := by
      rw [List.filter_eq_nil_iff]; intro q hq; simp [mem_lanesOf_of_room l h q hq]
    simp only [inserts, hn, List.length_nil]; omega
  · have := lanesOf_length_le l
    simp only [inserts]; omega

theorem inserts_le_length (l : List Phone) : inserts l ≤ l.length := by
  induction l using List.reverseRecOn with
  | nil => exact Nat.zero_le _
  | append_singleton l q ih =>
    rw [inserts_concat, List.length_append, List.length_singleton]
    split <;> omega

theorem mem_lanesOf_of_distinct (l : List Phone) (h : l.dedup.length ≤ CHAIN_LANE_COUNT) : ∀ p ∈ l, p ∈ lanesOf l := by
  by_cases hr : (lanesOf l).length < CHAIN_LANE_COUNT
  · exact mem_lanesOf_of_room l hr
  · have hsub : (lanesOf l) ⊆ l.dedup := fun p hp => List.mem_dedup.mpr (lanesOf_subset l p hp)
    have hperm := ((lanesOf_nodup l).subperm hsub).perm_of_length_le (by omega)
    intro p hp
    exact hperm.mem_iff.mpr (List.mem_dedup.mpr hp)

/-! ## Ranks -/

/-- Which insertion closes the lane. -/
def rank (b l : Fin 4) : Nat := 3 * b + (4 - l)

theorem rank_bounds : ∀ b l : Fin 4, l ≠ 0 → 1 ≤ rank b l ∧ rank b l ≤ CHAIN_LANE_COUNT := by decide

theorem exists_rank : ∀ i < CHAIN_LANE_COUNT, ∃ b l : Fin 4, l ≠ 0 ∧ rank b l = i + 1 := by decide

theorem start_masks : ∀ b l : Fin 4, l ≠ 0 →
    Chain.start.masks b l = BitVec.ofNat 64 0 - BitVec.ofNat 64 (rank b l) := by decide

theorem start_masks_dummy : ∀ b : Fin 4, Chain.start.masks b 0 = BitVec.ofNat 64 0 := by decide

/-! ## One phone -/

theorem hashSlotMatches_eq (h : BitVec 32) {s : Nat} (hs : s < 2 ^ 32) :
    hashSlotMatches h s = if h.toNat = s then 1 else 0 := by
  unfold hashSlotMatches
  by_cases e : h.toNat = s
  · have hx : h.setWidth 64 = BitVec.ofNat 64 s := by
      apply BitVec.eq_of_toNat_eq
      rw [BitVec.toNat_setWidth, BitVec.toNat_ofNat, e]
    rw [hx, BitVec.xor_self, if_pos e]; decide
  · rw [if_neg e]
    have hlt : (h.setWidth 64 ^^^ BitVec.ofNat 64 s).toNat < 2 ^ 32 := by
      rw [BitVec.toNat_xor]
      apply Nat.xor_lt_two_pow
      · have := h.isLt; rw [BitVec.toNat_setWidth]; omega
      · rw [BitVec.toNat_ofNat]; omega
    have hne : (h.setWidth 64 ^^^ BitVec.ofNat 64 s).toNat ≠ 0 := by
      intro h0
      have hx : h.setWidth 64 ^^^ BitVec.ofNat 64 s = 0#64 := BitVec.eq_of_toNat_eq h0
      have hv := congrArg BitVec.toNat (BitVec.xor_eq_zero_iff.mp hx)
      have := h.isLt
      rw [BitVec.toNat_setWidth, BitVec.toNat_ofNat] at hv
      omega
    generalize h.setWidth 64 ^^^ BitVec.ofNat 64 s = x at hlt hne
    have hsh : (x - 1) >>> 32 = 0#64 := by
      apply BitVec.eq_of_toNat_eq
      have h1 : (1 : BitVec 64).toNat = 1 := rfl
      rw [BitVec.toNat_ushiftRight, BitVec.toNat_sub, h1, Nat.shiftRight_eq_div_pow, BitVec.toNat_ofNat]
      omega
    rw [hsh]; rfl

theorem phoneNotInChain_iff (blocks : Fin 4 → M256i) (p : Phone) :
    (let e := orSi256 (orSi256 (orSi256 (cmpeqEpi64 (set1Epi64x p) (blocks 0)) (cmpeqEpi64 (set1Epi64x p) (blocks 1)))
      (cmpeqEpi64 (set1Epi64x p) (blocks 2))) (cmpeqEpi64 (set1Epi64x p) (blocks 3))
     testzPd e e = true) ↔ ∀ b l, blocks b l ≠ p := by
  simp only [testzPd_self, orSi256_apply, BitVec.msb_or, msb_cmpeqEpi64, set1Epi64x_apply, Bool.or_eq_false_iff]
  constructor
  · intro h b l he
    obtain ⟨⟨⟨h0, h1⟩, h2⟩, h3⟩ := h l
    fin_cases b
    · exact of_decide_eq_false h0 he.symm
    · exact of_decide_eq_false h1 he.symm
    · exact of_decide_eq_false h2 he.symm
    · exact of_decide_eq_false h3 he.symm
  · intro h l
    have hb : ∀ b, decide (p = blocks b l) = false := fun b => decide_eq_false fun e => h b l e.symm
    exact ⟨⟨⟨hb 0, hb 1⟩, hb 2⟩, hb 3⟩

/-! ## The chain's invariant -/

/-- A chain after its slot's phones `l`, the last phone processed (of any slot) being `last`. -/
structure Chain.Inv (l : List Phone) (last : Phone) (c : Chain) : Prop where
  dummy : ∀ b, c.blocks b 0 = 0
  dummyMask : ∀ b, c.masks b 0 = BitVec.ofNat 64 (inserts l)
  mask : ∀ b i, i ≠ 0 → c.masks b i = BitVec.ofNat 64 (inserts l) - BitVec.ofNat 64 (rank b i)
  closed : ∀ b i, i ≠ 0 → rank b i ≤ inserts l → (lanesOf l)[rank b i - 1]? = some (c.blocks b i)
  opened : ∀ b i, i ≠ 0 → inserts l < rank b i → c.blocks b i = last
  idx : c.idx = BitVec.ofNat 32 (inserts l)

theorem start_inv : Chain.Inv [] 0 Chain.start where
  dummy := fun _ => rfl
  dummyMask := start_masks_dummy
  mask := start_masks
  closed := by
    intro b i hi h
    have := (rank_bounds b i hi).1
    have h0 : inserts [] = 0 := rfl
    omega
  opened := fun _ _ _ _ => rfl
  idx := rfl

/-- A non-zero phone is in no lane of the chain exactly when it is not one of the phones that
    have a lane. An open lane holds it only if it was processed last, and a phone of this slot
    that was processed has a lane while lanes are open (`hlast`). -/
theorem notInChain_iff {l : List Phone} {last p : Phone} {c : Chain} (h : Chain.Inv l last c) (hp : p ≠ 0)
    (hlast : last = p → p ∈ l) : (∀ b i, c.blocks b i ≠ p) ↔ p ∉ lanesOf l := by
  have hlen := lanesOf_length l
  constructor
  · intro hno hmem
    obtain ⟨n, hn, he⟩ := List.getElem_of_mem hmem
    obtain ⟨b, i, hi, hr⟩ := exists_rank n (by omega)
    have hc := h.closed b i hi (by omega)
    rw [hr, Nat.add_sub_cancel, List.getElem?_eq_getElem hn, he, Option.some.injEq] at hc
    exact hno b i hc.symm
  · intro hno b i he
    by_cases hi : i = 0
    · subst hi; rw [h.dummy b] at he; exact hp he.symm
    by_cases hr : rank b i ≤ inserts l
    · have hc := h.closed b i hi hr
      rw [he] at hc
      exact hno (List.mem_of_getElem? hc)
    · have ho := h.opened b i hi (by omega)
      have hb := (rank_bounds b i hi).2
      exact hno (mem_lanesOf_of_room _ (by omega) p (hlast (ho ▸ he)))

/-- A chain that takes the phone `p` and counts `n` insertions (one or none). -/
def Chain.take (c : Chain) (p : Phone) (n : Nat) : Chain where
  blocks := fun b => blendvPd (c.blocks b) (set1Epi64x p) (c.masks b)
  masks := fun b => addEpi64 (c.masks b) (set1Epi64x (BitVec.ofNat 64 n))
  idx := c.idx + BitVec.ofNat 32 n

/-- A lane takes a phone while the count is below its rank. -/
theorem Chain.Inv.blend_apply {l : List Phone} {last : Phone} {c : Chain} (h : Chain.Inv l last c) (hlen : inserts l < 2 ^ 62)
    (p : Phone) (b i : Fin 4) (hi : i ≠ 0) :
    blendvPd (c.blocks b) (set1Epi64x p) (c.masks b) i = if inserts l < rank b i then p else c.blocks b i := by
  have hrank := (rank_bounds b i hi).2
  simp only [CHAIN_LANE_COUNT] at hrank
  rw [blendvPd_apply, h.mask b i hi, msb_sub (by omega) (by omega)]
  simp only [decide_eq_true_eq, set1Epi64x_apply]

theorem take_inv {l l' : List Phone} {last p : Phone} {n : Nat} {c : Chain} (h : Chain.Inv l last c)
    (hlen : inserts l < 2 ^ 62) (hn : n ≤ 1) (hins : inserts l' = inserts l + n)
    (hkeep : ∀ i < (lanesOf l).length, (lanesOf l')[i]? = (lanesOf l)[i]?)
    (hnew : n = 1 → inserts l < CHAIN_LANE_COUNT → (lanesOf l')[inserts l]? = some p) :
    Chain.Inv l' p (c.take p n) := by
  have hlane := lanesOf_length l
  have hblend : ∀ b i, i ≠ 0 → (c.take p n).blocks b i = if inserts l < rank b i then p else c.blocks b i :=
    h.blend_apply hlen p
  refine ⟨?_, ?_, ?_, ?_, ?_, ?_⟩
  · intro b
    have hm := msb_sub (c := inserts l) (r := 0) (by omega) (by omega)
    rw [BitVec.sub_zero] at hm
    show blendvPd _ _ _ _ = _
    rw [blendvPd_apply, h.dummyMask b, hm, h.dummy b]; simp
  · intro b
    show c.masks b 0 + BitVec.ofNat 64 n = _
    rw [h.dummyMask b, hins, BitVec.ofNat_add]
  · intro b i hi
    show c.masks b i + BitVec.ofNat 64 n = _
    rw [h.mask b i hi, hins, BitVec.ofNat_add]; ring
  · intro b i hi hr
    have hb := rank_bounds b i hi
    rw [hblend b i hi]
    by_cases hopen : inserts l < rank b i
    · -- this insertion closes the lane
      have hrk : rank b i - 1 = inserts l := by omega
      rw [if_pos hopen, hrk]
      exact hnew (by omega) (by omega)
    · rw [if_neg hopen, ← h.closed b i hi (by omega)]
      exact hkeep _ (by omega)
  · intro b i hi hr
    rw [hblend b i hi, if_pos (by omega)]
  · show c.idx + BitVec.ofNat 32 n = _
    rw [h.idx, hins, BitVec.ofNat_add]

/-! ## The lanes written out -/

theorem hashSlot_apply {l : List Phone} {last : Phone} {c : Chain} (h : Chain.Inv l last c) (hlen : inserts l < 2 ^ 62)
    (b i : Fin 4) (hi : i ≠ 0) : c.hashSlot b i = if inserts l < rank b i then UINT64_MAX else c.blocks b i :=
  h.blend_apply hlen UINT64_MAX b i hi

theorem exists_lane {l : List Phone} {last p : Phone} {c : Chain} (h : Chain.Inv l last c) (hlen : inserts l < 2 ^ 62)
    (hp : p ∈ lanesOf l) : ∃ b i, i ≠ 0 ∧ c.hashSlot b i = p := by
  have hlane := lanesOf_length l
  obtain ⟨n, hn, he⟩ := List.getElem_of_mem hp
  obtain ⟨b, i, hi, hr⟩ := exists_rank n (by omega)
  refine ⟨b, i, hi, ?_⟩
  have hc := h.closed b i hi (by omega)
  rw [hr, Nat.add_sub_cancel, List.getElem?_eq_getElem hn, he, Option.some.injEq] at hc
  rw [hashSlot_apply h hlen b i hi, if_neg (by omega), hc]

/-- The overflow test compares the count of insertions, not of lanes, with sixteen. -/
theorem overflowed_eq {l : List Phone} {last : Phone} {c : Chain} (h : Chain.Inv l last c) :
    c.overflowed = decide (16 < inserts l % 2 ^ 32) := by
  have h16 : CHAIN_PHONE_COUNT.toNat = 16 := by decide
  rw [Chain.overflowed, h.idx]
  simp only [BitVec.lt_def, h16, BitVec.toNat_ofNat]

section Hash

variable {K : Type} (aes : K → Phone → BitVec 32) (hashKey : K) (order : Nat)

/-- The non-zero phones of the query that hash to a slot. -/
def slotPhones (slot : Nat) (query : List Phone) : List Phone :=
  query.filter fun p => p ≠ 0 ∧ (hash aes hashKey p order).toNat = slot

variable {aes hashKey order}

theorem mem_slotPhones {slot : Nat} {query : List Phone} {p : Phone} :
    p ∈ slotPhones aes hashKey order slot query ↔ p ∈ query ∧ p ≠ 0 ∧ (hash aes hashKey p order).toNat = slot := by
  simp [slotPhones]

theorem slotPhones_concat (slot : Nat) (pre : List Phone) (p : Phone) :
    slotPhones aes hashKey order slot (pre ++ [p]) =
      if p ≠ 0 ∧ (hash aes hashKey p order).toNat = slot then slotPhones aes hashKey order slot pre ++ [p]
      else slotPhones aes hashKey order slot pre := by
  rw [slotPhones, List.filter_append, ← slotPhones]
  by_cases h : p ≠ 0 ∧ (hash aes hashKey p order).toNat = slot
  · rw [if_pos h, List.filter_cons, if_pos (decide_eq_true h)]; rfl
  · rw [if_neg h, List.filter_cons, if_neg (by simpa using h)]; exact List.append_nil _

/-- A push takes the phone, and counts it when it is of this slot and in no lane. -/
theorem push_eq_take {slot : Nat} (hs : slot < 2 ^ 32) (c : Chain) (p : Phone) :
    c.push aes hashKey order slot p =
      c.take p (if (hash aes hashKey p order).toNat = slot ∧ ∀ b i, c.blocks b i ≠ p then 1 else 0) := by
  have hno := phoneNotInChain_iff c.blocks p
  simp only at hno
  simp only [Chain.push, hashSlotMatches_eq _ hs, hno, Chain.take]
  by_cases hm : (hash aes hashKey p order).toNat = slot
  · by_cases hc : ∀ b i, c.blocks b i ≠ p
    · rw [if_pos hm, if_pos hc, if_pos ⟨hm, hc⟩]; rfl
    · have hboth : ¬((hash aes hashKey p order).toNat = slot ∧ ∀ b i, c.blocks b i ≠ p) := fun h => hc h.2
      rw [if_pos hm, if_neg hc, if_neg hboth]; rfl
  · have hboth : ¬((hash aes hashKey p order).toNat = slot ∧ ∀ b i, c.blocks b i ≠ p) := fun h => hm h.1
    rw [if_neg hm, if_neg hboth]
    split <;> rfl

theorem push_inv {slot : Nat} {pre : List Phone} {c : Chain} (hs : slot < 2 ^ 32) (hlen : pre.length < 2 ^ 62)
    (h : Chain.Inv (slotPhones aes hashKey order slot pre) (pre.getLast?.getD 0) c) (p : Phone) :
    Chain.Inv (slotPhones aes hashKey order slot (pre ++ [p])) p (c.push aes hashKey order slot p) := by
  have hcount : inserts (slotPhones aes hashKey order slot pre) < 2 ^ 62 :=
    Nat.lt_of_le_of_lt (Nat.le_trans (inserts_le_length _) (List.length_filter_le _ _)) hlen
  rw [push_eq_take hs, slotPhones_concat]
  by_cases hp : p ≠ 0 ∧ (hash aes hashKey p order).toNat = slot
  · have hlast : pre.getLast?.getD 0 = p → p ∈ slotPhones aes hashKey order slot pre := by
      intro he
      refine mem_slotPhones.mpr ⟨?_, hp⟩
      cases hg : pre.getLast? with
      | none => rw [hg] at he; exact absurd he.symm hp.1
      | some x => rw [hg] at he; exact he ▸ List.mem_of_getLast? hg
    have hno := notInChain_iff h hp.1 hlast
    rw [if_pos hp]
    generalize slotPhones aes hashKey order slot pre = l at *
    have hlane := lanesOf_length l
    by_cases hm : p ∈ lanesOf l
    · rw [if_neg (fun hc => hno.mp hc.2 hm)]
      refine take_inv h hcount (Nat.zero_le _) ?_ ?_ (by intro h0; cases h0)
      · rw [inserts_concat, if_pos hm, Nat.add_zero]
      · intro i _; rw [lanesOf_concat, if_pos (Or.inl hm)]
    · rw [if_pos ⟨hp.2, hno.mpr hm⟩]
      refine take_inv h hcount (Nat.le_refl _) ?_ ?_ ?_
      · rw [inserts_concat, if_neg hm]
      · intro i hi
        rw [lanesOf_concat]
        split
        · rfl
        · exact List.getElem?_append_left hi
      · intro _ hroom
        rw [lanesOf_concat, if_neg (by rw [not_or]; exact ⟨hm, by omega⟩), List.getElem?_append_right (by omega)]
        rw [show inserts l - (lanesOf l).length = 0 by omega]; rfl
  · -- a phone of another slot, or a zero, which the dummies hold
    have hno : ¬((hash aes hashKey p order).toNat = slot ∧ ∀ b i, c.blocks b i ≠ p) := by
      intro ⟨h1, h2⟩
      by_cases h0 : p = 0
      · exact h2 0 0 (h0 ▸ h.dummy 0)
      · exact hp ⟨h0, h1⟩
    rw [if_neg hno, if_neg hp]
    exact take_inv h hcount (Nat.zero_le _) rfl (fun _ _ => rfl) (by intro h0; cases h0)

theorem chainOf_inv {slot : Nat} (hs : slot < 2 ^ 32) (query : List Phone) (hlen : query.length < 2 ^ 62) :
    Chain.Inv (slotPhones aes hashKey order slot query) (query.getLast?.getD 0)
      (chainOf aes hashKey order query slot) := by
  induction query using List.reverseRecOn with
  | nil => exact start_inv
  | append_singleton query p ih =>
    rw [List.length_append, List.length_singleton] at hlen
    have hstep : chainOf aes hashKey order (query ++ [p]) slot =
        (chainOf aes hashKey order query slot).push aes hashKey order slot p := by
      rw [chainOf, List.foldl_append]; rfl
    rw [hstep, List.getLast?_append]
    exact push_inv hs (by omega) (ih (by omega)) p

end Hash

end ContactDiscovery.Enclave.HashLookup
