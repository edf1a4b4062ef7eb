/-
  ContactDiscovery.Directory.TableMap — the native table refines a finite map.

  The specification is a function from phones to uuids with an update per call (`idealStep`). A
  table refines a map when its buffers are well formed with that map, it could be allocated, and
  its two counts are those of its slots (`Refines`).

  Proved: `insert_refines` and `remove_refines`, a call on a key the table takes answers as the
  ideal map does; `runOps_represents`, so does every call of a run in which none panics, and the table a
  run ends with represents the ideal map: its live slots are the map's pairs, no key is in two of
  them, and the counts are exact, across all rehashes and reused tombstones.
-/

import ContactDiscovery.Directory.InternalBuffersProofs

namespace ContactDiscovery.Directory

open Lib Lib.Probe Lib.Assoc
open Enclave (Phone Uuid)

/-! ## The ideal map -/

inductive Op where
  | insert (e164 : Phone) (uuid : Uuid)
  | remove (e164 : Phone)

def Op.e164 : Op → Phone
  | .insert e164 _ => e164
  | .remove e164 => e164

/-- Whether the call changed the keys, and the map after it. -/
def idealStep (m : Phone → Option Uuid) : Op → Bool × (Phone → Option Uuid)
  | .insert e164 uuid => (m e164 = none, Function.update m e164 (some uuid))
  | .remove e164 => (m e164 ≠ none, Function.update m e164 none)

def idealRun (m : Phone → Option Uuid) : List Op → List Bool × (Phone → Option Uuid)
  | [] => ([], m)
  | op :: ops =>
    let (answer, m) := idealStep m op
    let (answers, m) := idealRun m ops
    (answer :: answers, m)

/-! ## Runs of the table -/

namespace InternalBuffers

variable {φ : Type} [LoadFactor φ]

def apply (t : InternalBuffers φ) : Op → Option (Except (InternalBuffersError φ) Bool × InternalBuffers φ)
  | .insert e164 uuid => t.insert e164 uuid
  | .remove e164 => t.remove e164

/-- The answers of a run and the table it ends with; `none` if a call panics. -/
def runOps (t : InternalBuffers φ) :
    List Op → Option (List (Except (InternalBuffersError φ) Bool) × InternalBuffers φ)
  | [] => some ([], t)
  | op :: ops =>
    match t.apply op with
    | none => none
    | some (answer, t) =>
      match t.runOps ops with
      | none => none
      | some (answers, t) => some (answer :: answers, t)

/-- The live slots are the pairs of the map, each key in one slot, and the counts are exact. -/
structure Represents (t : InternalBuffers φ) (m : Phone → Option Uuid) : Prop where
  pairs : ∀ p u, (p, u) ∈ t.contents ↔ m p = some u
  unique : (t.contents.map (·.1)).Nodup
  elements : t.elementCount = liveSlots t.e164sBuffer
  used : t.usedSlotCount = usedSlots t.e164sBuffer

/-! ## One call -/

structure Refines (t : InternalBuffers φ) (m : Phone → Option Uuid) : Prop where
  wf : BufWF t.e164sBuffer t.uuidsBuffer
  small : allocatable t.capacity = true
  map : t.lookup = m
  elements : t.elementCount = liveSlots t.e164sBuffer
  used : t.usedSlotCount = usedSlots t.e164sBuffer

omit [LoadFactor φ] in
theorem Refines.represents {t : InternalBuffers φ} {m : Phone → Option Uuid} (h : Refines t m) : Represents t m := by
  refine ⟨fun p u => ?_, nodup_contents h.wf, h.elements, h.used⟩
  rw [← h.map]
  exact mem_contents_iff h.wf

theorem usizePred_succ {n : Nat} (h : n < 2 ^ 64) : usizePred (n + 1) = n := by
  unfold usizePred; omega

omit [LoadFactor φ] in
theorem Refines.elementCount_le {t : InternalBuffers φ} {m : Phone → Option Uuid} (h : Refines t m) :
    t.elementCount ≤ t.capacity := by
  rw [h.elements]; exact List.countP_le_length

theorem Refines.rehash {t t' : InternalBuffers φ} {m : Phone → Option Uuid} (h : Refines t m)
    (hr : t.rehash = some t') : Refines t' m := by
  have hs := rehash_spec hr
  refine ⟨hs.wf, hs.small, hs.map.trans h.map, ?_, hs.used⟩
  rw [hs.elements, h.elements]
  exact liveSlots_eq h.wf hs.wf hs.map.symm

theorem Refines.rehashIfLoaded {t t' : InternalBuffers φ} {m : Phone → Option Uuid} (h : Refines t m)
    (hr : t.rehashIfLoaded = some t') : Refines t' m := by
  rw [InternalBuffers.rehashIfLoaded] at hr
  split at hr
  · exact h.rehash hr
  · cases hr; exact h

theorem new_refines {capacity : Nat} {minLoadFactor maxLoadFactor : φ} {t : InternalBuffers φ}
    (h : new capacity minLoadFactor maxLoadFactor = some (.ok t)) : Refines t fun _ => none := by
  simp only [new] at h
  split at h
  · cases h
  split at h
  · cases h
  split at h
  · cases h
  split at h
  · rename_i hsmall
    cases h
    refine ⟨bufWF_replicate _ _, ?_, ?_, (liveSlots_replicate _).symm, (usedSlots_replicate _).symm⟩
    · show allocatable (List.replicate capacity FREE_E164).length = true
      rw [List.length_replicate]; exact hsmall
    · funext p; exact lookup_replicate _ _ p
  · cases h

/-- The table between the write of `insert` and its check for load. -/
def written (t : InternalBuffers φ) (k old : Phone) (e164s : List Phone) (uuids : List Uuid) : InternalBuffers φ :=
  { t with
    e164sBuffer := e164s
    uuidsBuffer := uuids
    usedSlotCount := if old = FREE_E164 then t.usedSlotCount + 1 else t.usedSlotCount
    elementCount := if decide (old ≠ k) = true then t.elementCount + 1 else t.elementCount }

theorem insertSlot_eq {t : InternalBuffers φ} {k old : Phone} {u : Uuid} {e164s : List Phone} {uuids : List Uuid}
    (hadd : addToBuffer t.e164sBuffer t.uuidsBuffer k u true = some (old, e164s, uuids)) :
    t.insertSlot k u = (t.written k old e164s uuids).rehashIfLoaded.map fun t' => (.ok (decide (old ≠ k)), t') := by
  simp only [insertSlot, hadd]
  cases hload : (t.written k old e164s uuids).rehashIfLoaded with
  | none =>
    rw [written] at hload
    simp only [hload, Option.map_none]
  | some t' =>
    rw [written] at hload
    simp only [hload, Option.map_some]

theorem insertSlot_some {t t' : InternalBuffers φ} {k : Phone} {u : Uuid} {r : Except (InternalBuffersError φ) Bool}
    (h : t.insertSlot k u = some (r, t')) :
    ∃ old e164s uuids, addToBuffer t.e164sBuffer t.uuidsBuffer k u true = some (old, e164s, uuids) ∧
      r = .ok (decide (old ≠ k)) ∧ (t.written k old e164s uuids).rehashIfLoaded = some t' := by
  cases hadd : addToBuffer t.e164sBuffer t.uuidsBuffer k u true with
  | none => simp only [insertSlot, hadd] at h; cases h
  | some x =>
    obtain ⟨old, e164s, uuids⟩ := x
    rw [insertSlot_eq hadd] at h
    obtain ⟨t₁, hload, he⟩ := Option.map_eq_some_iff.mp h
    cases he
    exact ⟨old, e164s, uuids, rfl, rfl, hload⟩

omit [LoadFactor φ] in
theorem written_refines {t : InternalBuffers φ} {m : Phone → Option Uuid} {k old : Phone} {u : Uuid}
    {e164s : List Phone} {uuids : List Uuid} (h : Refines t m) (hk : ValidE164 k)
    (hadd : addToBuffer t.e164sBuffer t.uuidsBuffer k u true = some (old, e164s, uuids)) :
    (old = k ↔ m k ≠ none) ∧ Refines (t.written k old e164s uuids) (Function.update m k (some u)) := by
  have hadded := addToBuffer_spec h.wf hk hadd
  have hmap : Directory.lookup t.e164sBuffer t.uuidsBuffer = m := h.map
  refine ⟨by rw [← hmap]; exact hadded.old_key, hadded.wf, ?_, ?_, ?_, ?_⟩
  · show allocatable e164s.length = true
    rw [hadded.length]; exact h.small
  · show Directory.lookup e164s uuids = _
    rw [hadded.map, hmap]; rfl
  · show (if decide (old ≠ k) = true then t.elementCount + 1 else t.elementCount) = liveSlots e164s
    rw [hadded.live, h.elements]
    by_cases ho : old = k
    · rw [if_neg (by simp [ho]), if_pos ho]
    · rw [if_pos (decide_eq_true ho), if_neg ho]
  · show (if old = FREE_E164 then t.usedSlotCount + 1 else t.usedSlotCount) = usedSlots e164s
    rw [hadded.used, h.used]

theorem insertSlot_refines {t t' : InternalBuffers φ} {m : Phone → Option Uuid} {k : Phone} {u : Uuid}
    {r : Except (InternalBuffersError φ) Bool} (h : Refines t m) (hk : ValidE164 k)
    (hi : t.insertSlot k u = some (r, t')) :
    r = .ok (decide (m k = none)) ∧ Refines t' (Function.update m k (some u)) := by
  obtain ⟨old, e164s, uuids, hadd, rfl, hload⟩ := insertSlot_some hi
  obtain ⟨hold, hmid⟩ := written_refines h hk hadd
  refine ⟨?_, hmid.rehashIfLoaded hload⟩
  rw [Except.ok.injEq, decide_eq_decide, ne_eq, hold, not_not]

/-- An insert that returns writes to the table itself, or to its rehash if it was full. -/
theorem insert_cases {t t' : InternalBuffers φ} {m : Phone → Option Uuid} {k : Phone} {u : Uuid}
    {r : Except (InternalBuffersError φ) Bool} (h : Refines t m) (hk : ValidE164 k)
    (hi : t.insert k u = some (r, t')) :
    ∃ t₁, (if t.elementCount = t.capacity then t.rehash else some t) = some t₁ ∧ Refines t₁ m ∧
      t₁.elementCount = t.elementCount ∧ t₁.insertSlot k u = some (r, t') := by
  simp only [insert] at hi
  rw [if_neg (fun hbad => not_validE164.mpr hbad hk)] at hi
  split at hi
  · cases hi
  rename_i t₁ hroom
  obtain ⟨h₁, hcount⟩ : Refines t₁ m ∧ t₁.elementCount = t.elementCount := by
    split at hroom
    · exact ⟨h.rehash hroom, (rehash_spec hroom).elements⟩
    · cases hroom; exact ⟨h, rfl⟩
  have hle := h.elementCount_le
  -- the table is never over its capacity, so there is room or the key is there
  rw [if_neg (by omega)] at hi
  exact ⟨t₁, hroom, h₁, hcount, hi⟩

theorem insert_refines {t t' : InternalBuffers φ} {m : Phone → Option Uuid} {k : Phone} {u : Uuid}
    {r : Except (InternalBuffersError φ) Bool} (h : Refines t m) (hk : ValidE164 k)
    (hi : t.insert k u = some (r, t')) :
    r = .ok (decide (m k = none)) ∧ Refines t' (Function.update m k (some u)) := by
  obtain ⟨t₁, -, h₁, -, hslot⟩ := insert_cases h hk hi
  exact insertSlot_refines h₁ hk hslot

omit [LoadFactor φ] in
theorem remove_refines {t t' : InternalBuffers φ} {m : Phone → Option Uuid} {k : Phone}
    {r : Except (InternalBuffersError φ) Bool} (h : Refines t m) (hk : ValidE164 k)
    (hr : t.remove k = some (r, t')) :
    r = .ok (decide (m k ≠ none)) ∧ Refines t' (Function.update m k none) := by
  simp only [remove] at hr
  rw [if_neg (fun hbad => not_validE164.mpr hbad hk)] at hr
  split at hr
  · cases hr
  rename_i removed e164s uuids hbuf
  cases hr
  have hmap : Directory.lookup t.e164sBuffer t.uuidsBuffer = m := h.map
  rcases removeFromBuffer_spec h.wf hk hbuf with ⟨rfl, hpresent, hrem⟩ | ⟨rfl, habsent, rfl, rfl⟩
  · rw [hmap] at hpresent
    refine ⟨by rw [decide_eq_true hpresent], hrem.wf, ?_, ?_, ?_, ?_⟩
    · show allocatable e164s.length = true
      rw [hrem.length]; exact h.small
    · show Directory.lookup e164s uuids = _
      rw [hrem.map, hmap]
    · simp only [if_true]
      have hle := h.elementCount_le
      have hsmall := h.small
      rw [allocatable, decide_eq_true_eq] at hsmall
      rw [h.elements, ← hrem.live] at hle ⊢
      exact usizePred_succ (by omega)
    · show t.usedSlotCount = usedSlots e164s
      rw [hrem.used]; exact h.used
  · rw [hmap] at habsent
    refine ⟨by rw [decide_eq_false (by simp [habsent])], h.wf, h.small, ?_, h.elements, h.used⟩
    show Directory.lookup t.e164sBuffer t.uuidsBuffer = _
    rw [hmap, eq_comm, Function.update_eq_self_iff]; exact habsent.symm

/-! ## Runs -/

theorem apply_refines {t t' : InternalBuffers φ} {m : Phone → Option Uuid} {op : Op}
    {r : Except (InternalBuffersError φ) Bool} (h : Refines t m) (hk : ValidE164 op.e164)
    (ha : t.apply op = some (r, t')) : r = .ok (idealStep m op).1 ∧ Refines t' (idealStep m op).2 := by
  cases op with
  | insert e164 uuid => exact insert_refines h hk ha
  | remove e164 => exact remove_refines h hk ha

theorem runOps_refines {ops : List Op} :
    ∀ {t t' : InternalBuffers φ} {m : Phone → Option Uuid} {answers : List (Except (InternalBuffersError φ) Bool)},
      Refines t m → (∀ op ∈ ops, ValidE164 op.e164) → t.runOps ops = some (answers, t') →
      answers = (idealRun m ops).1.map .ok ∧ Refines t' (idealRun m ops).2 := by
  induction ops with
  | nil =>
    intro t t' m answers h _ hrun
    cases hrun
    exact ⟨rfl, h⟩
  | cons op ops ih =>
    intro t t' m answers h hvalid hrun
    simp only [runOps] at hrun
    split at hrun
    · cases hrun
    rename_i answer t₁ ha
    split at hrun
    · cases hrun
    rename_i answers₁ t₂ hrest
    cases hrun
    obtain ⟨hans, h₁⟩ := apply_refines h (hvalid op List.mem_cons_self) ha
    obtain ⟨hanss, h₂⟩ := ih h₁ (fun op' hop => hvalid op' (List.mem_cons_of_mem _ hop)) hrest
    exact ⟨by rw [hans, hanss]; rfl, h₂⟩

/-- A new table and a run of calls on keys the table takes, none of which panics: the calls answer
    as the ideal map's do, and the table represents the ideal map. -/
theorem runOps_represents {capacity : Nat} {minLoadFactor maxLoadFactor : φ} {t t' : InternalBuffers φ} {ops : List Op}
    {answers : List (Except (InternalBuffersError φ) Bool)}
    (hnew : new capacity minLoadFactor maxLoadFactor = some (.ok t)) (hvalid : ∀ op ∈ ops, ValidE164 op.e164)
    (hrun : t.runOps ops = some (answers, t')) :
    answers = (idealRun (fun _ => none) ops).1.map .ok ∧ Represents t' (idealRun (fun _ => none) ops).2 := by
  obtain ⟨hans, href⟩ := runOps_refines (new_refines hnew) hvalid hrun
  exact ⟨hans, href.represents⟩

/-- Two keys of one hash; the second is found behind the first one's tombstone, which a third key
    then reuses, and the last insert rehashes. -/
def tombstoneOps : List Op :=
  [.insert 4 ⟨fun _ => 1⟩, .insert 8 ⟨fun _ => 2⟩, .remove 4, .insert 8 ⟨fun _ => 3⟩, .insert 12 ⟨fun _ => 4⟩,
    .remove 16, .insert 16 ⟨fun _ => 5⟩]

theorem runOps_tombstone :
    ∃ t t' : InternalBuffers ℚ, new 4 (1 / 4) (3 / 4) = some (.ok t) ∧
      t.runOps tombstoneOps = some ([true, true, true, false, true, false, true].map .ok, t') ∧
      t'.capacity = 12 ∧ Represents t' (idealRun (fun _ => none) tombstoneOps).2 := by
  have hnew := @new_ok ℚ _ 4 (1 / 4) (3 / 4) (by decide +kernel) (by decide +kernel) (by decide +kernel) (by decide)
  have hrun : (runOps ⟨(1 / 4 : ℚ), 3 / 4, 0, 0, List.replicate 4 FREE_E164, List.replicate 4 FREE_UUID⟩ tombstoneOps).map
      (fun r => (r.1, r.2.capacity)) = some ([true, true, true, false, true, false, true].map .ok, 12) := by
    decide +kernel
  obtain ⟨⟨answers, t'⟩, hrun, heq⟩ := Option.map_eq_some_iff.mp hrun
  obtain ⟨rfl, hcap⟩ := Prod.mk.inj heq
  exact ⟨_, t', hnew, hrun, hcap, (runOps_represents hnew (by decide) hrun).2⟩

end InternalBuffers

end ContactDiscovery.Directory
