/-
  ContactDiscovery.Directory.InternalBuffersProofs — the buffers of the native table as a map
  (see `ContactDiscovery.Directory.InternalBuffers`).

  The live slots read in order are a log of pairs (`contents`); the map of the buffers is what the
  log reads (`lookup`). The buffers are a probing table whose cells are the keys (`cell`), well
  formed as `ContactDiscovery.Lib.Probe` has it (`BufWF`).

  Proved: `addToBuffer_spec` and `removeFromBuffer_spec`, what the two loops do to the map and to
  the counts of slots; `rehash_spec`, a rehash of any buffers, well formed or not, ends with a
  well-formed table of the same map; `insert_unadded` and `remove_unremoved`, what a call that
  reports no change leaves, again for any buffers.
-/

import ContactDiscovery.Directory.InternalBuffers

namespace ContactDiscovery.Directory

open Lib Lib.Probe Lib.Assoc
open Enclave (Phone Uuid)

/-! ## Keys -/

/-- A key the table takes. -/
def ValidE164 (p : Phone) : Prop := p ≠ FREE_E164 ∧ p ≠ DELETED_E164

instance (p : Phone) : Decidable (ValidE164 p) := inferInstanceAs (Decidable (_ ∧ _))

theorem not_validE164 {p : Phone} : ¬ ValidE164 p ↔ p = DELETED_E164 ∨ p = FREE_E164 := by
  rw [ValidE164, not_and_or, not_ne_iff, not_ne_iff, or_comm]

theorem bswap_free : bswap FREE_E164 = FREE_E164 := by
  apply BitVec.eq_of_getLsbD_eq
  intro i hi
  rw [getLsbD_bswap _ hi, FREE_E164]; simp

theorem bswap_deleted : bswap DELETED_E164 = DELETED_E164 := by
  have hones : DELETED_E164 = BitVec.allOnes 64 := by decide
  apply BitVec.eq_of_getLsbD_eq
  intro i hi
  rw [getLsbD_bswap _ hi, hones, BitVec.getLsbD_allOnes, BitVec.getLsbD_allOnes, decide_eq_decide]
  omega

theorem bswap_eq_free {x : Phone} : bswap x = FREE_E164 ↔ x = FREE_E164 := by
  rw [← bswap_free, bswap_inj, bswap_free]

theorem bswap_eq_deleted {x : Phone} : bswap x = DELETED_E164 ↔ x = DELETED_E164 := by
  rw [← bswap_deleted, bswap_inj, bswap_deleted]

/-- Key and tombstones are told apart in stored form as they are in native form. -/
theorem validE164_bswap {x : Phone} : ValidE164 (bswap x) ↔ ValidE164 x := by
  unfold ValidE164
  rw [ne_eq, ne_eq, bswap_eq_free, bswap_eq_deleted]

def cellOf (stored : Phone) : Cell Phone :=
  if stored = FREE_E164 then .free else if stored = DELETED_E164 then .deleted else .live (bswap stored)

theorem cellOf_free {x : Phone} : cellOf x = .free ↔ x = FREE_E164 := by
  unfold cellOf
  split
  · rename_i h; exact ⟨fun _ => h, fun _ => rfl⟩
  · rename_i h
    split <;> exact ⟨fun hc => (by cases hc), fun hc => absurd hc h⟩

theorem cellOf_live {x k : Phone} : cellOf x = .live k ↔ ValidE164 k ∧ x = bswap k := by
  unfold cellOf
  by_cases hf : x = FREE_E164
  · rw [if_pos hf]
    refine ⟨fun h => (by cases h), fun ⟨hv, he⟩ => ?_⟩
    rw [hf] at he
    exact absurd (bswap_eq_free.mp he.symm) hv.1
  · rw [if_neg hf]
    by_cases hd : x = DELETED_E164
    · rw [if_pos hd]
      refine ⟨fun h => (by cases h), fun ⟨hv, he⟩ => ?_⟩
      rw [hd] at he
      exact absurd (bswap_eq_deleted.mp he.symm) hv.2
    · rw [if_neg hd]
      constructor
      · intro h
        cases h
        exact ⟨validE164_bswap.mpr ⟨hf, hd⟩, (bswap_bswap x).symm⟩
      · intro ⟨_, he⟩
        rw [he, bswap_bswap]

/-! ## Buffers as a probing table -/

def cell (e164s : List Phone) (i : Nat) : Cell Phone := cellOf (e164s.getD i FREE_E164)

/-- Buffers of one length that are a well-formed probing table. -/
structure BufWF (e164s : List Phone) (uuids : List Uuid) : Prop where
  length : e164s.length = uuids.length
  table : WF e164s.length (hashElement e164s.length) (cell e164s)

theorem presentTest_eq {e164s : List Phone} {k : Phone} (hk : ValidE164 k) :
    presentTest e164s (bswap k) = keyTest (cell e164s) k := by
  funext i
  simp only [presentTest, keyTest, cell]
  generalize e164s.getD i FREE_E164 = x
  by_cases hf : x = FREE_E164
  · rw [if_pos hf, cellOf_free.mpr hf]
  · rw [if_neg hf]
    by_cases hx : x = bswap k
    · rw [if_pos hx, cellOf_live.mpr ⟨hk, hx⟩]; simp
    · rw [if_neg hx]
      cases hc : cellOf x with
      | free => exact absurd (cellOf_free.mp hc) hf
      | deleted => rfl
      | live k' =>
        obtain ⟨-, he⟩ := cellOf_live.mp hc
        simp only
        rw [if_neg (fun e : k' = k => hx (e ▸ he))]

theorem cellOf_vacant {x : Phone} (h : x = FREE_E164 ∨ x = DELETED_E164) (k : Phone) : cellOf x ≠ .live k := by
  intro hc
  obtain ⟨hk, he⟩ := cellOf_live.mp hc
  cases h with
  | inl h => rw [h] at he; exact hk.1 (bswap_eq_free.mp he.symm)
  | inr h => rw [h] at he; exact hk.2 (bswap_eq_deleted.mp he.symm)

section VacantTest

variable {e164s : List Phone} {k : Phone} {i j : Nat}

theorem vacantTest_vacant (h : vacantTest e164s (bswap k) i = some (.vacant j)) :
    i = j ∧ ∀ k', cell e164s i ≠ .live k' := by
  simp only [vacantTest] at h
  split at h
  · rename_i hv
    cases h
    exact ⟨rfl, cellOf_vacant hv⟩
  · split at h <;> cases h

theorem vacantTest_key (hk : ValidE164 k) (h : vacantTest e164s (bswap k) i = some (.key j)) :
    i = j ∧ cell e164s i = .live k := by
  simp only [vacantTest] at h
  split at h
  · cases h
  · split at h
    · rename_i hx
      cases h
      exact ⟨rfl, cellOf_live.mpr ⟨hk, hx⟩⟩
    · cases h

theorem vacantTest_none (h : vacantTest e164s (bswap k) i = none) :
    cell e164s i ≠ .free ∧ cell e164s i ≠ .live k := by
  simp only [vacantTest] at h
  split at h
  · cases h
  · rename_i hv
    split at h
    · cases h
    · rename_i hx
      exact ⟨fun hc => hv (Or.inl (cellOf_free.mp hc)), fun hc => hx (cellOf_live.mp hc).2⟩

end VacantTest

theorem cell_set {e164s : List Phone} {i : Nat} (hi : i < e164s.length) (x : Phone) :
    cell (e164s.set i x) = Function.update (cell e164s) i (cellOf x) := by
  funext j
  by_cases e : j = i
  · subst e
    rw [Function.update_self, cell, List.getD_eq_getElem?_getD, List.getElem?_set_self hi]; rfl
  · rw [Function.update_of_ne e, cell, cell, List.getD_eq_getElem?_getD, List.getElem?_set_ne (Ne.symm e),
      List.getD_eq_getElem?_getD]

/-! ## The map of the buffers -/

/-- The live slots of a list of slots, in native form. -/
def liveEntries (slots : List (Phone × Uuid)) : List (Phone × Uuid) :=
  slots.filterMap fun s => if ValidE164 s.1 then some (bswap s.1, swapUuid s.2) else none

theorem liveEntries_cons (x : Phone) (y : Uuid) (slots : List (Phone × Uuid)) :
    liveEntries ((x, y) :: slots) =
      if ValidE164 x then (bswap x, swapUuid y) :: liveEntries slots else liveEntries slots := by
  rw [liveEntries, List.filterMap_cons]
  by_cases hv : ValidE164 x
  · simp only [if_pos hv]; rfl
  · simp only [if_neg hv]; rfl

/-- The live slots of the buffers, in order. -/
def contents (e164s : List Phone) (uuids : List Uuid) : List (Phone × Uuid) := liveEntries (e164s.zip uuids)

/-- The uuid a phone has: that of its last live slot. -/
def lookup (e164s : List Phone) (uuids : List Uuid) (p : Phone) : Option Uuid := last? p (contents e164s uuids)

theorem mem_contents {e164s : List Phone} {uuids : List Uuid} {p : Phone} {u : Uuid} :
    (p, u) ∈ contents e164s uuids ↔
      ValidE164 p ∧ ∃ i : Nat, e164s[i]? = some (bswap p) ∧ uuids[i]? = some (swapUuid u) := by
  rw [contents, liveEntries, List.mem_filterMap]
  constructor
  · intro ⟨⟨x, y⟩, hm, hs⟩
    obtain ⟨i, hi⟩ := List.mem_iff_getElem?.mp hm
    obtain ⟨hx, hy⟩ := List.getElem?_zip_eq_some.mp hi
    by_cases hv : ValidE164 x
    · rw [if_pos hv] at hs
      cases hs
      exact ⟨validE164_bswap.mpr hv, i, by rw [bswap_bswap]; exact hx, by rw [swapUuid_swapUuid]; exact hy⟩
    · rw [if_neg hv] at hs; cases hs
  · intro ⟨hv, i, hx, hy⟩
    refine ⟨(bswap p, swapUuid u), ?_, ?_⟩
    · exact List.mem_iff_getElem?.mpr ⟨i, List.getElem?_zip_eq_some.mpr ⟨hx, hy⟩⟩
    · simp only [if_pos (validE164_bswap.mpr hv), bswap_bswap, swapUuid_swapUuid]

theorem cell_live_iff {e164s : List Phone} {i : Nat} {p : Phone} :
    (i < e164s.length ∧ cell e164s i = .live p) ↔ ValidE164 p ∧ e164s[i]? = some (bswap p) := by
  constructor
  · intro ⟨hi, hc⟩
    obtain ⟨hv, he⟩ := cellOf_live.mp hc
    rw [List.getD_eq_getElem?_getD, List.getElem?_eq_getElem hi, Option.getD_some] at he
    exact ⟨hv, by rw [List.getElem?_eq_getElem hi, he]⟩
  · intro ⟨hv, he⟩
    obtain ⟨hi, -⟩ := List.getElem?_eq_some_iff.mp he
    refine ⟨hi, cellOf_live.mpr ⟨hv, ?_⟩⟩
    rw [List.getD_eq_getElem?_getD, he, Option.getD_some]

/-- In a well-formed table the map is read at the key's one slot. -/
theorem lookup_eq_some {e164s : List Phone} {uuids : List Uuid} (h : BufWF e164s uuids) {p : Phone} {u : Uuid} :
    lookup e164s uuids p = some u ↔
      ∃ i, i < e164s.length ∧ cell e164s i = .live p ∧ uuids[i]? = some (swapUuid u) := by
  constructor
  · intro hl
    obtain ⟨hv, i, hx, hy⟩ := mem_contents.mp (mem_of_last? hl)
    obtain ⟨hi, hc⟩ := cell_live_iff.mpr ⟨hv, hx⟩
    exact ⟨i, hi, hc, hy⟩
  · intro ⟨i, hi, hc, hy⟩
    obtain ⟨hv, hx⟩ := cell_live_iff.mp ⟨hi, hc⟩
    have hm : (p, u) ∈ contents e164s uuids := mem_contents.mpr ⟨hv, i, hx, hy⟩
    cases hl : lookup e164s uuids p with
    | none => exact absurd rfl (last?_eq_none.mp hl _ hm)
    | some u' =>
      obtain ⟨hv', j, hx', hy'⟩ := mem_contents.mp (mem_of_last? hl)
      obtain ⟨hj, hc'⟩ := cell_live_iff.mpr ⟨hv', hx'⟩
      have hij := h.table.unique i j p hi hj hc hc'
      subst hij
      rw [hy] at hy'
      rw [← swapUuid_swapUuid u', ← Option.some.inj hy', swapUuid_swapUuid]

theorem lookup_eq_none {e164s : List Phone} {uuids : List Uuid} (h : BufWF e164s uuids) {p : Phone} :
    lookup e164s uuids p = none ↔ ∀ i < e164s.length, cell e164s i ≠ .live p := by
  constructor
  · intro hl i hi hc
    have hu : i < uuids.length := h.length ▸ hi
    have := (lookup_eq_some h (u := swapUuid uuids[i])).mpr
      ⟨i, hi, hc, by rw [swapUuid_swapUuid, List.getElem?_eq_getElem hu]⟩
    rw [hl] at this; cases this
  · intro hno
    cases hl : lookup e164s uuids p with
    | none => rfl
    | some u =>
      obtain ⟨i, hi, hc, -⟩ := (lookup_eq_some h).mp hl
      exact absurd hc (hno i hi)

/-! ## Counts -/

def usedSlots (e164s : List Phone) : Nat := e164s.countP (· ≠ FREE_E164)

def liveSlots (e164s : List Phone) : Nat := e164s.countP fun x => decide (ValidE164 x)

theorem length_contents {e164s : List Phone} {uuids : List Uuid} (h : e164s.length = uuids.length) :
    (contents e164s uuids).length = liveSlots e164s := by
  induction e164s generalizing uuids with
  | nil => rfl
  | cons x e164s ih =>
    cases uuids with
    | nil => cases h
    | cons y uuids =>
      have ih' := ih (Nat.succ.inj h)
      unfold contents liveSlots at ih' ⊢
      rw [List.zip_cons_cons, liveEntries_cons, List.countP_cons]
      by_cases hv : ValidE164 x
      · rw [if_pos hv, if_pos (decide_eq_true hv), List.length_cons, ih']
      · rw [if_neg hv, if_neg (by simpa using hv), ih', Nat.add_zero]

theorem nodup_contents {e164s : List Phone} {uuids : List Uuid} (h : BufWF e164s uuids) :
    ((contents e164s uuids).map (·.1)).Nodup := by
  rw [contents, liveEntries, List.Nodup, List.pairwise_map, List.pairwise_filterMap, List.pairwise_iff_getElem]
  intro i j hi hj hij a ha b hb hab
  rw [List.length_zip] at hi hj
  have hkey : ∀ (x : Nat) (hx : x < (e164s.zip uuids).length) (c : Phone × Uuid),
      (if ValidE164 (e164s.zip uuids)[x].1 then some (bswap (e164s.zip uuids)[x].1, swapUuid (e164s.zip uuids)[x].2)
        else none) = some c → cell e164s x = .live c.1 := by
    intro x hx c hc
    rw [List.getElem_zip] at hc
    split at hc
    · rename_i hv
      cases hc
      rw [List.length_zip] at hx
      refine cellOf_live.mpr ⟨validE164_bswap.mpr hv, ?_⟩
      rw [bswap_bswap, List.getD_eq_getElem _ _ (by omega)]
    · cases hc
  have hci := hkey i _ a ha
  have hcj := hkey j _ b hb
  rw [← hab] at hcj
  have := h.table.unique i j a.1 (by omega) (by omega) hci hcj
  omega

theorem mem_contents_iff {e164s : List Phone} {uuids : List Uuid} (h : BufWF e164s uuids) {p : Phone} {u : Uuid} :
    (p, u) ∈ contents e164s uuids ↔ lookup e164s uuids p = some u :=
  ⟨last?_of_nodup (nodup_contents h), mem_of_last?⟩

/-- Tables with the same map have as many live slots. -/
theorem liveSlots_eq {e164s e164s' : List Phone} {uuids uuids' : List Uuid} (h : BufWF e164s uuids)
    (h' : BufWF e164s' uuids') (hm : lookup e164s uuids = lookup e164s' uuids') :
    liveSlots e164s = liveSlots e164s' := by
  have hkeys : ∀ l : List (Phone × Uuid), l.length = (l.map (·.1)).length := fun l => (List.length_map _).symm
  rw [← length_contents h.length, ← length_contents h'.length, hkeys, hkeys (contents e164s' uuids')]
  apply List.Perm.length_eq
  rw [List.perm_ext_iff_of_nodup (nodup_contents h) (nodup_contents h')]
  intro p
  simp only [List.mem_map, Prod.exists, exists_and_right, exists_eq_right, mem_contents_iff h, mem_contents_iff h', hm]

/-! ## One write -/

/-- Writing a slot that holds `k` or no key, when no other slot holds `k`: only `k` changes. -/
theorem lookup_set {e164s : List Phone} {uuids : List Uuid} {i : Nat} {k x : Phone} {y : Uuid}
    (h : BufWF e164s uuids) (h' : BufWF (e164s.set i x) (uuids.set i y)) (hi : i < e164s.length)
    (hold : ∀ k', cell e164s i = .live k' → k' = k) (hnew : ∀ k', cellOf x = .live k' → k' = k)
    (hother : ∀ j < e164s.length, j ≠ i → cell e164s j ≠ .live k) :
    lookup (e164s.set i x) (uuids.set i y) =
      Function.update (lookup e164s uuids) k (if cellOf x = .live k then some (swapUuid y) else none) := by
  have hu : i < uuids.length := h.length ▸ hi
  funext p
  apply Option.ext
  intro v
  rw [lookup_eq_some h', List.length_set, cell_set hi]
  by_cases hp : p = k
  · subst hp
    rw [Function.update_self]
    constructor
    · intro ⟨j, hj, hc, hv⟩
      have hji : j = i := by
        by_contra hne
        rw [Function.update_of_ne hne] at hc
        exact hother j hj hne hc
      subst hji
      rw [Function.update_self] at hc
      rw [List.getElem?_set_self hu] at hv
      rw [if_pos hc, Option.some.inj hv, swapUuid_swapUuid]
    · intro hv
      by_cases hx : cellOf x = .live p
      · rw [if_pos hx] at hv
        refine ⟨i, hi, by rw [Function.update_self]; exact hx, ?_⟩
        rw [List.getElem?_set_self hu, ← Option.some.inj hv, swapUuid_swapUuid]
      · rw [if_neg hx] at hv; cases hv
  · rw [Function.update_of_ne hp, lookup_eq_some h]
    apply exists_congr
    intro j
    by_cases hj : j = i
    · -- the slot written held no other key than `k`, and holds none
      subst hj
      rw [Function.update_self]
      exact ⟨fun ⟨_, hc, _⟩ => absurd (hnew p hc) hp, fun ⟨_, hc, _⟩ => absurd (hold p hc) hp⟩
    · rw [Function.update_of_ne hj, List.getElem?_set_ne (Ne.symm hj)]

/-- What adding a key to a well-formed table does: the old key of the slot and the new buffers. -/
structure Added (e164s : List Phone) (uuids : List Uuid) (k : Phone) (v : Uuid)
    (r : Phone × List Phone × List Uuid) : Prop where
  wf : BufWF r.2.1 r.2.2
  length : r.2.1.length = e164s.length
  map : lookup r.2.1 r.2.2 = Function.update (lookup e164s uuids) k (some v)
  old_key : r.1 = k ↔ lookup e164s uuids k ≠ none
  live : liveSlots r.2.1 = if r.1 = k then liveSlots e164s else liveSlots e164s + 1
  used : usedSlots r.2.1 = if r.1 = FREE_E164 then usedSlots e164s + 1 else usedSlots e164s

theorem set_getD_self {e164s : List Phone} {i : Nat} (hi : i < e164s.length) :
    e164s.set i (e164s.getD i FREE_E164) = e164s := by
  rw [List.getD_eq_getElem _ _ hi, List.set_getElem_self]

theorem added_overwrite {e164s : List Phone} {uuids : List Uuid} {k : Phone} {i : Nat} (h : BufWF e164s uuids)
    (hi : i < e164s.length) (hc : cell e164s i = .live k) (y : Uuid) :
    Added e164s uuids k (swapUuid y) (k, e164s, uuids.set i y) := by
  have hwf : BufWF e164s (uuids.set i y) := ⟨by rw [List.length_set]; exact h.length, h.table⟩
  have hk : ValidE164 k := (cellOf_live.mp hc).1
  refine ⟨hwf, rfl, ?_, ?_, by rw [if_pos rfl], by rw [if_neg hk.1]⟩
  · have hset := set_getD_self hi
    have hkey : cellOf (e164s.getD i FREE_E164) = .live k := hc
    have hsame : ∀ k', cellOf (e164s.getD i FREE_E164) = .live k' → k' = k := by
      intro k' hk'
      rw [hkey] at hk'; cases hk'; rfl
    have := lookup_set h (hset.symm ▸ hwf) hi hsame hsame
      (fun j hj hne hcj => hne (h.table.unique j i k hj hi hcj hc))
    rw [hset, if_pos hkey] at this
    exact this
  · refine ⟨fun _ hn => ?_, fun _ => rfl⟩
    exact (lookup_eq_none h).mp hn i hi hc

theorem added_fill {e164s : List Phone} {uuids : List Uuid} {k : Phone} {d : Nat} (h : BufWF e164s uuids)
    (hk : ValidE164 k) (hd : d < e164s.length) (habsent : ∀ i < e164s.length, cell e164s i ≠ .live k)
    (hpath : ∀ x < d, cell e164s ((hashElement e164s.length k + x) % e164s.length) ≠ .free)
    (hvacant : ∀ k', cell e164s ((hashElement e164s.length k + d) % e164s.length) ≠ .live k') (y : Uuid) :
    Added e164s uuids k (swapUuid y)
      (bswap (e164s.getD ((hashElement e164s.length k + d) % e164s.length) FREE_E164),
        e164s.set ((hashElement e164s.length k + d) % e164s.length) (bswap k),
        uuids.set ((hashElement e164s.length k + d) % e164s.length) y) := by
  have hfill := h.table.fill hd habsent hpath
  generalize hi : (hashElement e164s.length k + d) % e164s.length = i at *
  have hlt : i < e164s.length := hi ▸ Nat.mod_lt _ (by omega)
  have hcell : cellOf (bswap k) = .live k := cellOf_live.mpr ⟨hk, rfl⟩
  have hwf : BufWF (e164s.set i (bswap k)) (uuids.set i y) := by
    refine ⟨by rw [List.length_set, List.length_set]; exact h.length, ?_⟩
    rw [List.length_set, cell_set hlt, hcell]
    exact hfill
  have hold : ¬ ValidE164 e164s[i] := by
    intro hv
    refine hvacant (bswap e164s[i]) (cellOf_live.mpr ⟨validE164_bswap.mpr hv, ?_⟩)
    rw [bswap_bswap, List.getD_eq_getElem _ _ hlt]
  have hstored : ValidE164 (bswap k) := validE164_bswap.mpr hk
  rw [List.getD_eq_getElem _ _ hlt]
  have hne : bswap e164s[i] ≠ k := fun e => hold (validE164_bswap.mp (e ▸ hk))
  refine ⟨hwf, List.length_set, ?_, ?_, ?_, ?_⟩
  · have := lookup_set h hwf hlt (fun k' hc => absurd hc (hvacant k'))
      (fun k' hc => by rw [hcell] at hc; cases hc; rfl) (fun j hj _ => habsent j hj)
    rw [this, if_pos hcell]
  · exact ⟨fun e => absurd e hne, fun hn => absurd ((lookup_eq_none h).mpr habsent) hn⟩
  · show liveSlots (e164s.set i (bswap k)) = _
    rw [if_neg hne, liveSlots, List.countP_set hlt, decide_eq_false hold, decide_eq_true hstored]
    rfl
  · show usedSlots (e164s.set i (bswap k)) = if bswap e164s[i] = FREE_E164 then _ else _
    rw [usedSlots, List.countP_set hlt, if_pos (decide_eq_true hstored.1)]
    by_cases hf : e164s[i] = FREE_E164
    · rw [if_neg (by simp [hf]), if_pos (bswap_eq_free.mpr hf)]; rfl
    · rw [if_pos (decide_eq_true hf), if_neg (fun e => hf (bswap_eq_free.mp e))]
      have : 0 < e164s.countP (· ≠ FREE_E164) :=
        List.countP_pos_iff.mpr ⟨e164s[i], List.getElem_mem hlt, decide_eq_true hf⟩
      unfold usedSlots
      omega

structure Removed (e164s : List Phone) (uuids : List Uuid) (k : Phone) (e164s' : List Phone) (uuids' : List Uuid) :
    Prop where
  wf : BufWF e164s' uuids'
  length : e164s'.length = e164s.length
  map : lookup e164s' uuids' = Function.update (lookup e164s uuids) k none
  live : liveSlots e164s' + 1 = liveSlots e164s
  used : usedSlots e164s' = usedSlots e164s

theorem removed_bury {e164s : List Phone} {uuids : List Uuid} {k : Phone} {i : Nat} (h : BufWF e164s uuids)
    (hi : i < e164s.length) (hc : cell e164s i = .live k) (y : Uuid) :
    Removed e164s uuids k (e164s.set i DELETED_E164) (uuids.set i y) := by
  have htomb : cellOf DELETED_E164 = .deleted := by decide
  have hwf : BufWF (e164s.set i DELETED_E164) (uuids.set i y) := by
    refine ⟨by rw [List.length_set, List.length_set]; exact h.length, ?_⟩
    rw [List.length_set, cell_set hi, htomb]
    exact h.table.bury i
  obtain ⟨hk, hstored⟩ := cellOf_live.mp hc
  rw [List.getD_eq_getElem _ _ hi] at hstored
  have hv : ValidE164 e164s[i] := hstored ▸ validE164_bswap.mpr hk
  refine ⟨hwf, List.length_set, ?_, ?_, ?_⟩
  · have := lookup_set h hwf hi (fun k' hc' => by rw [hc] at hc'; cases hc'; rfl)
      (fun k' hc' => by rw [htomb] at hc'; cases hc') (fun j hj hne hcj => hne (h.table.unique j i k hj hi hcj hc))
    rw [this, if_neg (fun e => by rw [htomb] at e; cases e)]
  · have hpos : 0 < liveSlots e164s :=
      List.countP_pos_iff.mpr ⟨e164s[i], List.getElem_mem hi, decide_eq_true hv⟩
    have hdead : ¬ ValidE164 DELETED_E164 := fun hd => hd.2 rfl
    unfold liveSlots at *
    rw [List.countP_set hi, if_pos (decide_eq_true hv), decide_eq_false hdead]
    simp only [Bool.false_eq_true, if_false]
    omega
  · have hpos : 0 < usedSlots e164s :=
      List.countP_pos_iff.mpr ⟨e164s[i], List.getElem_mem hi, decide_eq_true hv.1⟩
    have htombUsed : DELETED_E164 ≠ FREE_E164 := by decide
    unfold usedSlots at *
    rw [List.countP_set hi, if_pos (decide_eq_true hv.1), if_pos (decide_eq_true htombUsed)]
    omega

/-! ## The two loops -/

theorem hashElement_lt {n : Nat} (hn : 0 < n) (k : Phone) : hashElement n k < n := Nat.mod_lt _ hn

theorem addToBuffer_spec {e164s : List Phone} {uuids : List Uuid} {k : Phone} {uuid : Uuid} {convertUuid : Bool}
    {r : Phone × List Phone × List Uuid} (h : BufWF e164s uuids) (hk : ValidE164 k)
    (hadd : addToBuffer e164s uuids k uuid convertUuid = some r) :
    Added e164s uuids k (if convertUuid then uuid else swapUuid uuid) r := by
  have hvalue : (if convertUuid then uuid else swapUuid uuid) = swapUuid (if convertUuid then swapUuid uuid else uuid) := by
    cases convertUuid <;> simp
  rw [hvalue]
  simp only [addToBuffer] at hadd
  generalize (if convertUuid then swapUuid uuid else uuid) = y at hadd ⊢
  split at hadd
  · cases hadd
  rename_i hslots
  have hn : 0 < e164s.length := by omega
  have hs := hashElement_lt hn k
  split at hadd
  · cases hadd
  · -- the first loop found the key
    rename_i i hp
    obtain ⟨d, -, ht, -⟩ := probe_some hs hp
    obtain ⟨rfl, hc⟩ := vacantTest_key hk ht
    cases hadd
    rw [bswap_bswap]
    exact added_overwrite h (Nat.mod_lt _ hn) hc y
  · rename_i free hp
    obtain ⟨d, hd, ht, hbefore⟩ := probe_some hs hp
    -- slots before the vacant one hold other keys
    have hfull := fun x hx => vacantTest_none (hbefore x hx)
    obtain ⟨hfree, hvacant⟩ := vacantTest_vacant ht
    have hlt : free < e164s.length := hfree ▸ Nat.mod_lt _ hn
    obtain ⟨hfound, habsent⟩ := h.table.find hlt hfree fun x hx => (hfull x hx).2
    rw [presentTest_eq hk] at hadd
    split at hadd
    · -- the second loop found it
      rename_i i hp'
      cases hadd
      obtain ⟨hi, hc⟩ := hfound i hp'
      rw [bswap_bswap]
      exact added_overwrite h hi hc y
    · rename_i hno
      cases hadd
      have := added_fill h hk hd (habsent fun j hj => hno j hj) (fun x hx => (hfull x hx).1) hvacant y
      rw [hfree] at this
      exact this

theorem removeFromBuffer_spec {e164s e164s' : List Phone} {uuids uuids' : List Uuid} {k : Phone} {removed : Bool}
    (h : BufWF e164s uuids) (hk : ValidE164 k)
    (hrem : removeFromBuffer e164s uuids k = some (removed, e164s', uuids')) :
    (removed = true ∧ lookup e164s uuids k ≠ none ∧ Removed e164s uuids k e164s' uuids') ∨
    (removed = false ∧ lookup e164s uuids k = none ∧ e164s' = e164s ∧ uuids' = uuids) := by
  simp only [removeFromBuffer] at hrem
  split at hrem
  · cases hrem
  rename_i hslots
  have hn : 0 < e164s.length := by omega
  have hs := hashElement_lt hn k
  obtain ⟨hfound, habsent⟩ := @WF.find _ _ _ _ _ h.table k _ 0 hs (Nat.mod_eq_of_lt hs) fun x hx => by omega
  rw [presentTest_eq hk] at hrem
  split at hrem
  · rename_i i hp
    cases hrem
    obtain ⟨hi, hc⟩ := hfound i hp
    exact Or.inl ⟨rfl, fun hn => (lookup_eq_none h).mp hn i hi hc, removed_bury h hi hc _⟩
  · rename_i hno
    cases hrem
    exact Or.inr ⟨rfl, (lookup_eq_none h).mpr (habsent fun j hj => hno j hj), rfl, rfl⟩

/-! ## Rehashing -/

section Empty

variable (n : Nat)

theorem cell_replicate (i : Nat) : cell (List.replicate n FREE_E164) i = .free := by
  rw [cell, cellOf_free, List.getD_eq_getElem?_getD, List.getElem?_replicate]
  split <;> rfl

theorem bufWF_replicate (u : Uuid) : BufWF (List.replicate n FREE_E164) (List.replicate n u) := by
  refine ⟨by simp, fun i j k _ _ hc => ?_, fun i k _ hc => ?_⟩
  · rw [cell_replicate] at hc; cases hc
  · rw [cell_replicate] at hc; cases hc

theorem lookup_replicate (u : Uuid) (p : Phone) : lookup (List.replicate n FREE_E164) (List.replicate n u) p = none := by
  refine (lookup_eq_none (bufWF_replicate n u)).mpr fun i _ hc => ?_
  rw [cell_replicate] at hc; cases hc

theorem usedSlots_replicate : usedSlots (List.replicate n FREE_E164) = 0 := by
  simp [usedSlots, List.countP_replicate]

theorem liveSlots_replicate : liveSlots (List.replicate n FREE_E164) = 0 := by
  simp [liveSlots, List.countP_replicate, ValidE164]

end Empty

theorem rehashLoop_spec {slots : List (Phone × Uuid)} :
    ∀ {e164s e164s' : List Phone} {uuids uuids' : List Uuid} {used used' : Nat}, BufWF e164s uuids →
      InternalBuffers.rehashLoop slots (e164s, uuids, used) = some (e164s', uuids', used') →
      BufWF e164s' uuids' ∧ e164s'.length = e164s.length ∧ used' + usedSlots e164s = used + usedSlots e164s' ∧
        ∀ p, lookup e164s' uuids' p = (last? p (liveEntries slots)).or (lookup e164s uuids p) := by
  induction slots with
  | nil =>
    intro e164s e164s' uuids uuids' used used' h hloop
    cases hloop
    exact ⟨h, rfl, rfl, fun p => rfl⟩
  | cons s slots ih =>
    intro e164s e164s' uuids uuids' used used' h hloop
    obtain ⟨stored, uuid⟩ := s
    simp only [InternalBuffers.rehashLoop] at hloop
    by_cases hv : ValidE164 stored
    · have hkey : bswap stored ≠ FREE_E164 ∧ bswap stored ≠ DELETED_E164 := validE164_bswap.mpr hv
      rw [if_pos hkey] at hloop
      split at hloop
      · cases hloop
      rename_i old e164s₁ uuids₁ hadd
      have hadded := addToBuffer_spec h hkey hadd
      obtain ⟨hwf, hlen, hused, hmap⟩ := ih hadded.wf hloop
      refine ⟨hwf, hlen.trans hadded.length, ?_, fun p => ?_⟩
      · have hcount := hadded.used
        simp only at hcount hused
        by_cases hf : old = FREE_E164
        · rw [if_pos hf] at hcount hused; omega
        · rw [if_neg hf] at hcount hused; omega
      · rw [hmap, liveEntries_cons, if_pos hv, last?_cons, Option.or_assoc, hadded.map]
        congr 1
        by_cases hp : p = bswap stored
        · subst hp; simp
        · rw [Function.update_of_ne hp, if_neg (fun e => hp e.symm), Option.none_or]
    · have hkey : ¬ (bswap stored ≠ FREE_E164 ∧ bswap stored ≠ DELETED_E164) := fun hk => hv (validE164_bswap.mp hk)
      rw [if_neg hkey] at hloop
      rw [liveEntries_cons, if_neg hv]
      exact ih h hloop

namespace InternalBuffers

variable {φ : Type} [LoadFactor φ]

def contents (t : InternalBuffers φ) : List (Phone × Uuid) := Directory.contents t.e164sBuffer t.uuidsBuffer

def lookup (t : InternalBuffers φ) : Phone → Option Uuid := Directory.lookup t.e164sBuffer t.uuidsBuffer

/-- What a rehash leaves, whatever the old buffers. -/
structure Rehashed (t t' : InternalBuffers φ) : Prop where
  wf : BufWF t'.e164sBuffer t'.uuidsBuffer
  map : t'.lookup = t.lookup
  used : t'.usedSlotCount = usedSlots t'.e164sBuffer
  elements : t'.elementCount = t.elementCount
  grows : t.capacity ≤ t'.capacity
  small : allocatable t'.capacity = true

theorem rehash_spec {t t' : InternalBuffers φ} (h : t.rehash = some t') : Rehashed t t' := by
  simp only [rehash] at h
  split at h
  · rename_i hsmall
    split at h
    · cases h
    · rename_i e164s uuids used hloop
      cases h
      obtain ⟨hwf, hlen, hused, hmap⟩ := rehashLoop_spec (bufWF_replicate _ _) hloop
      rw [List.length_replicate] at hlen
      refine ⟨hwf, ?_, ?_, rfl, ?_, ?_⟩
      · funext p
        rw [lookup, hmap, lookup_replicate, Option.or_none]; rfl
      · rw [usedSlots_replicate] at hused; simpa using hused
      · show t.capacity ≤ e164s.length
        rw [hlen]; exact Nat.le_max_right _ _
      · show allocatable e164s.length = true
        rw [hlen]; exact hsmall
  · cases h

theorem rehashIfLoaded_lookup {t t' : InternalBuffers φ} (h : t.rehashIfLoaded = some t') : t'.lookup = t.lookup := by
  rw [rehashIfLoaded] at h
  split at h
  · exact (rehash_spec h).map
  · cases h; rfl

end InternalBuffers

/-! ## Calls that report no change, on any buffers -/

theorem lookup_cons (x : Phone) (y : Uuid) (e164s : List Phone) (uuids : List Uuid) (p : Phone) :
    lookup (x :: e164s) (y :: uuids) p =
      (lookup e164s uuids p).or (if ValidE164 x ∧ bswap x = p then some (swapUuid y) else none) := by
  rw [lookup, contents, List.zip_cons_cons, liveEntries_cons]
  by_cases hv : ValidE164 x
  · rw [if_pos hv, last?_cons]
    simp only [hv, true_and]; rfl
  · rw [if_neg hv, if_neg (fun h => hv h.1), Option.or_none]; rfl

/-- Writing the uuid of one slot of a key changes no other key; the key's uuid is the old one or
    the one written. -/
theorem lookup_set_uuid {k : Phone} {y : Uuid} :
    ∀ {e164s : List Phone} {uuids : List Uuid} {i : Nat}, e164s[i]? = some (bswap k) → ∀ p : Phone,
      lookup e164s (uuids.set i y) p = lookup e164s uuids p ∨
        (p = k ∧ lookup e164s (uuids.set i y) p = some (swapUuid y)) := by
  intro e164s
  induction e164s with
  | nil => intro uuids i hi; cases hi
  | cons x e164s ih =>
    intro uuids i hi p
    cases uuids with
    | nil => rw [List.set_nil]; exact Or.inl rfl
    | cons z uuids =>
      cases i with
      | zero =>
        rw [List.getElem?_cons_zero] at hi
        rw [List.set_cons_zero, lookup_cons, lookup_cons, Option.some.inj hi, bswap_bswap]
        cases lookup e164s uuids p with
        | some v => exact Or.inl (by rw [Option.some_or, Option.some_or])
        | none =>
          by_cases hk : ValidE164 (bswap k) ∧ k = p
          · exact Or.inr ⟨hk.2.symm, by rw [Option.none_or, if_pos hk]⟩
          · exact Or.inl (by rw [if_neg hk, if_neg hk])
      | succ i =>
        rw [List.getElem?_cons_succ] at hi
        rw [List.set_cons_succ, lookup_cons, lookup_cons]
        rcases @ih uuids i hi p with h | ⟨hp, h⟩
        · exact Or.inl (by rw [h])
        · exact Or.inr ⟨hp, by rw [h, Option.some_or]⟩

/-- The old key is the new one only when a slot of the key was overwritten. -/
theorem addToBuffer_present {e164s e164s' : List Phone} {uuids uuids' : List Uuid} {k : Phone} {uuid : Uuid}
    {convertUuid : Bool} (hk : ValidE164 k)
    (h : addToBuffer e164s uuids k uuid convertUuid = some (k, e164s', uuids')) :
    e164s' = e164s ∧ ∃ i : Nat, e164s[i]? = some (bswap k) ∧
      uuids' = uuids.set i (if convertUuid then swapUuid uuid else uuid) := by
  simp only [addToBuffer, bswap_bswap] at h
  generalize (if convertUuid then swapUuid uuid else uuid) = y at h ⊢
  split at h
  · cases h
  rename_i hslots
  have hn : 0 < e164s.length := by omega
  have hs := hashElement_lt hn k
  split at h
  · cases h
  · rename_i i hp
    obtain ⟨d, -, ht, -⟩ := probe_some hs hp
    obtain ⟨rfl, hc⟩ := vacantTest_key hk ht
    cases h
    exact ⟨rfl, _, (cell_live_iff.mp ⟨Nat.mod_lt _ hn, hc⟩).2, rfl⟩
  · rename_i free hp
    obtain ⟨d, -, ht, -⟩ := probe_some hs hp
    obtain ⟨hfree, hvacant⟩ := vacantTest_vacant ht
    have hlt : free < e164s.length := hfree ▸ Nat.mod_lt _ hn
    rw [presentTest_eq hk] at h
    split at h
    · rename_i i hp'
      cases h
      obtain ⟨d', -, ht', -⟩ := probe_some hlt hp'
      obtain ⟨rfl, hc⟩ := keyTest_found ht'
      exact ⟨rfl, _, (cell_live_iff.mp ⟨Nat.mod_lt _ hn, hc⟩).2, rfl⟩
    · -- the slot filled held no key
      have hold : bswap (e164s.getD free FREE_E164) = k := congrArg Prod.fst (Option.some.inj h)
      refine absurd (cellOf_live.mpr ⟨hk, ?_⟩) (hfree ▸ hvacant k)
      rw [← hold, bswap_bswap]

namespace InternalBuffers

variable {φ : Type} [LoadFactor φ]

/-- An insert that adds nothing, of a key that has no uuid or has this one, leaves the map. -/
theorem insert_unadded {t t' : InternalBuffers φ} {k : Phone} {u : Uuid} {r : Except (InternalBuffersError φ) Bool}
    (h : t.insert k u = some (r, t')) (hr : r ≠ .ok true) (hu : t.lookup k = none ∨ t.lookup k = some u) :
    t'.lookup = t.lookup := by
  simp only [insert] at h
  split at h
  · cases h; rfl
  rename_i hk
  rw [← not_validE164, not_not] at hk
  split at h
  · cases h
  rename_i t₁ hroom
  have hmap : t₁.lookup = t.lookup := by
    split at hroom
    · exact (rehash_spec hroom).map
    · cases hroom; rfl
  rw [← hmap] at hu ⊢
  split at h
  · cases h; rfl
  simp only [insertSlot] at h
  split at h
  · cases h
  rename_i old e164s uuids hadd
  split at h
  · cases h
  rename_i t₂ hload
  cases h
  have hold : old = k := by
    by_contra hne
    exact hr (by rw [decide_eq_true hne])
  subst hold
  obtain ⟨rfl, i, hi, rfl⟩ := addToBuffer_present hk hadd
  rw [rehashIfLoaded_lookup hload]
  funext p
  rcases @lookup_set_uuid old (swapUuid u) t₁.e164sBuffer t₁.uuidsBuffer i hi p with heq | ⟨rfl, heq⟩
  · exact heq
  · -- the slot written is the one the map reads, and it has the uuid already
    rw [swapUuid_swapUuid] at heq
    have hlen : t₁.e164sBuffer.length = t₁.uuidsBuffer.length := by
      by_contra hne
      simp [addToBuffer, hne] at hadd
    obtain ⟨hlt, -⟩ := List.getElem?_eq_some_iff.mp hi
    rw [hlen] at hlt
    have hpresent : t₁.lookup p ≠ none := by
      intro hn
      refine last?_eq_none.mp hn (p, swapUuid t₁.uuidsBuffer[i]) (mem_contents.mpr ⟨hk, i, hi, ?_⟩) rfl
      rw [swapUuid_swapUuid, List.getElem?_eq_getElem hlt]
    exact heq.trans (hu.resolve_left hpresent).symm

omit [LoadFactor φ] in
theorem remove_unremoved {t t' : InternalBuffers φ} {k : Phone} {r : Except (InternalBuffersError φ) Bool}
    (h : t.remove k = some (r, t')) (hr : r ≠ .ok true) : t'.lookup = t.lookup := by
  simp only [remove] at h
  split at h
  · cases h; rfl
  split at h
  · cases h
  rename_i removed e164s uuids hbuf
  cases h
  simp only [removeFromBuffer] at hbuf
  split at hbuf
  · cases hbuf
  split at hbuf
  · cases hbuf; exact absurd rfl hr
  · cases hbuf; rfl

end InternalBuffers

end ContactDiscovery.Directory
