/-
  ContactDiscovery.Directory.ServingBuffers — what a search of the serving buffers finds: the enclave
  gets the two buffers as they are, with keys and uuids big-endian and slots that are vacant.

  A vacant slot has a zero uuid (`VacantNil`), so a search for a word finds the uuid its number was
  inserted with, or zero (`plainLookup_slots`). `Committed.serving`: so it is in the serving
  table after inserts of new numbers and a commit.
-/

import ContactDiscovery.Directory.DirectoryMap
import ContactDiscovery.Directory.TableMap
import ContactDiscovery.Enclave.HashLookupProofs

namespace ContactDiscovery.Directory

open Lib Lib.Probe Lib.Assoc
open Enclave (Phone Uuid)
open Enclave.HashLookup (plainLookup)

/-! ## Vacant slots -/

def VacantNil (e164s : List Phone) (uuids : List Uuid) : Prop :=
  ∀ i, ¬ValidE164 (e164s.getD i FREE_E164) → uuids.getD i FREE_UUID = FREE_UUID

theorem vacantNil_replicate (n : Nat) : VacantNil (List.replicate n FREE_E164) (List.replicate n FREE_UUID) := by
  intro i _
  rw [List.getD_eq_getElem?_getD, List.getElem?_replicate]
  split <;> rfl

theorem VacantNil.set {e164s : List Phone} {uuids : List Uuid} (h : VacantNil e164s uuids) {i : Nat} (hi : i < e164s.length)
    {x : Phone} (hx : ValidE164 x) (y : Uuid) : VacantNil (e164s.set i x) (uuids.set i y) := by
  intro j hj
  by_cases hij : i = j
  · subst hij
    rw [List.getD_eq_getElem?_getD, List.getElem?_set_self hi, Option.getD_some] at hj
    exact absurd hx hj
  · rw [List.getD_eq_getElem?_getD, List.getElem?_set_ne hij, ← List.getD_eq_getElem?_getD] at hj ⊢
    exact h j hj

theorem addToBuffer_writes {e164s e164s' : List Phone} {uuids uuids' : List Uuid} {k old : Phone} {uuid : Uuid}
    {convertUuid : Bool} (hk : ValidE164 k) (h : addToBuffer e164s uuids k uuid convertUuid = some (old, e164s', uuids')) :
    ∃ i y, i < e164s.length ∧ e164s' = e164s.set i (bswap k) ∧ uuids' = uuids.set i y := by
  have hset : ∀ {i}, i < e164s.length → cell e164s i = .live k → e164s = e164s.set i (bswap k) := by
    intro i hi hc
    rw [← (cellOf_live.mp hc).2, set_getD_self hi]
  simp only [addToBuffer] at h
  split at h
  · cases h
  rename_i hslots
  have hn : 0 < e164s.length := by omega
  have hs := hashElement_lt hn k
  split at h
  · cases h
  · rename_i i hp
    obtain ⟨d, -, ht, -⟩ := probe_some hs hp
    obtain ⟨rfl, hc⟩ := vacantTest_key hk ht
    cases h
    exact ⟨_, _, Nat.mod_lt _ hn, hset (Nat.mod_lt _ hn) hc, rfl⟩
  · rename_i free hp
    obtain ⟨d, -, ht, -⟩ := probe_some hs hp
    have hfree : free < e164s.length := (vacantTest_vacant ht).1 ▸ Nat.mod_lt _ hn
    split at h
    · rename_i i hp'
      obtain ⟨d', -, ht', -⟩ := probe_some hfree hp'
      simp only [presentTest] at ht'
      split at ht'
      · cases ht'
      · split at ht'
        · rename_i hx
          cases ht'
          cases h
          exact ⟨_, _, Nat.mod_lt _ hn, hset (Nat.mod_lt _ hn) (cellOf_live.mpr ⟨hk, hx⟩), rfl⟩
        · cases ht'
    · cases h
      exact ⟨_, _, hfree, rfl, rfl⟩

theorem addToBuffer_vacantNil {e164s e164s' : List Phone} {uuids uuids' : List Uuid} {k old : Phone} {uuid : Uuid}
    {convertUuid : Bool} (hv : VacantNil e164s uuids) (hk : ValidE164 k)
    (h : addToBuffer e164s uuids k uuid convertUuid = some (old, e164s', uuids')) : VacantNil e164s' uuids' := by
  obtain ⟨i, y, hi, rfl, rfl⟩ := addToBuffer_writes hk h
  exact hv.set hi (validE164_bswap.mpr hk) y

theorem rehashLoop_vacantNil {slots : List (Phone × Uuid)} :
    ∀ {e164s e164s' : List Phone} {uuids uuids' : List Uuid} {used used' : Nat}, VacantNil e164s uuids →
      InternalBuffers.rehashLoop slots (e164s, uuids, used) = some (e164s', uuids', used') → VacantNil e164s' uuids' := by
  induction slots with
  | nil =>
    intro e164s e164s' uuids uuids' used used' h hloop
    cases hloop
    exact h
  | cons s slots ih =>
    intro e164s e164s' uuids uuids' used used' h hloop
    simp only [InternalBuffers.rehashLoop] at hloop
    split at hloop
    · rename_i hk
      split at hloop
      · cases hloop
      · rename_i hadd
        exact ih (addToBuffer_vacantNil h hk hadd) hloop
    · exact ih h hloop

namespace InternalBuffers

variable {φ : Type} [LoadFactor φ]

theorem rehash_vacantNil {t t' : InternalBuffers φ} (h : t.rehash = some t') : VacantNil t'.e164sBuffer t'.uuidsBuffer := by
  simp only [rehash] at h
  split at h
  · split at h
    · cases h
    · rename_i hloop
      cases h
      exact rehashLoop_vacantNil (vacantNil_replicate _) hloop
  · cases h

theorem insert_vacantNil {t t' : InternalBuffers φ} {m : Phone → Option Uuid} {k : Phone} {u : Uuid}
    {r : Except (InternalBuffersError φ) Bool} (h : Refines t m) (hv : VacantNil t.e164sBuffer t.uuidsBuffer)
    (hk : ValidE164 k) (hi : t.insert k u = some (r, t')) : VacantNil t'.e164sBuffer t'.uuidsBuffer := by
  obtain ⟨t₁, hroom, -, -, hslot⟩ := insert_cases h hk hi
  have hv₁ : VacantNil t₁.e164sBuffer t₁.uuidsBuffer := by
    split at hroom
    · exact rehash_vacantNil hroom
    · cases hroom; exact hv
  obtain ⟨old, e164s, uuids, hadd, -, hload⟩ := insertSlot_some hslot
  rw [rehashIfLoaded] at hload
  split at hload
  · exact rehash_vacantNil hload
  · cases hload
    exact addToBuffer_vacantNil hv₁ hk hadd

end InternalBuffers

/-! ## Searches -/

theorem swapUuid_zero : swapUuid Uuid.zero = Uuid.zero := by
  have hswap : bswap 0 = 0 := bswap_free
  simp only [swapUuid, Uuid.zero, hswap]

/-- The last slot with a number's word is its last live slot. -/
theorem last?_slots {n : Phone} (hn : ValidE164 n) (slots : List (Phone × Uuid)) :
    last? (bswap n) slots = (last? n (liveEntries slots)).map swapUuid := by
  induction slots with
  | nil => rfl
  | cons s slots ih =>
    obtain ⟨x, y⟩ := s
    rw [last?_cons, ih, liveEntries_cons]
    by_cases hx : ValidE164 x
    · rw [if_pos hx, last?_cons, Option.map_or]
      congr 1
      by_cases heq : x = bswap n
      · rw [if_pos heq, if_pos (by rw [heq, bswap_bswap]), Option.map_some, swapUuid_swapUuid]
      · rw [if_neg heq, if_neg (fun e => heq (by rw [← e, bswap_bswap])), Option.map_none]
    · rw [if_neg hx, if_neg (fun e => hx (by rw [show x = bswap n from e]; exact validE164_bswap.mpr hn)), Option.or_none]

theorem mem_liveEntries {slots : List (Phone × Uuid)} {e : Phone × Uuid} (h : e ∈ liveEntries slots) : ValidE164 e.1 := by
  obtain ⟨s, -, hs⟩ := List.mem_filterMap.mp h
  split at hs
  · rename_i hv
    cases hs
    exact validE164_bswap.mpr hv
  · cases hs

/-- A search for the word of a number finds the uuid of the number; for the word of a vacant slot it
    finds zero. -/
theorem plainLookup_slots {e164s : List Phone} {uuids : List Uuid} (hv : VacantNil e164s uuids) (n : Phone) :
    plainLookup (e164s.zip uuids) (bswap n) = swapUuid ((lookup e164s uuids n).getD Uuid.zero) := by
  unfold plainLookup lookup contents
  by_cases hn : ValidE164 n
  · rw [last?_slots hn]
    cases last? n (liveEntries (e164s.zip uuids)) with
    | none => exact swapUuid_zero.symm
    | some u => rfl
  · have hnone : last? n (liveEntries (e164s.zip uuids)) = none :=
      last?_eq_none.mpr fun e he hk => hn (hk ▸ mem_liveEntries he)
    rw [hnone, Option.getD_none, swapUuid_zero]
    cases hlast : last? (bswap n) (e164s.zip uuids) with
    | none => rfl
    | some u =>
      obtain ⟨i, hi⟩ := List.mem_iff_getElem?.mp (mem_of_last? hlast)
      obtain ⟨hx, hy⟩ := List.getElem?_zip_eq_some.mp hi
      have hnil := hv i (by
        rw [List.getD_eq_getElem?_getD, hx, Option.getD_some]
        exact fun h => hn (validE164_bswap.mp h))
      rw [List.getD_eq_getElem?_getD, hy, Option.getD_some] at hnil
      exact hnil

/-! ## A directory -/

namespace DirectoryMap

variable {φ : Type} [LoadFactor φ]

/-- The building table has the map `m`, which a commit will serve. -/
structure Loaded (d : DirectoryMap φ) (m : Phone → Option Uuid) : Prop where
  building : InternalBuffers.Refines d.building m
  nil : VacantNil d.building.e164sBuffer d.building.uuidsBuffer
  dirty : d.dirty = true ∨ d.serving = d.building

theorem new_loaded {startingCapacity : Nat} {minLoadFactor maxLoadFactor : φ} {d : DirectoryMap φ}
    (h : new startingCapacity minLoadFactor maxLoadFactor = some (.ok d)) : Loaded d fun _ => none := by
  cases hb : InternalBuffers.new startingCapacity minLoadFactor maxLoadFactor with
  | none => simp [new, hb] at h
  | some r =>
    cases r with
    | error e => simp [new, hb] at h
    | ok t =>
      simp only [new, hb, Option.some.injEq, Except.ok.injEq] at h
      subst h
      refine ⟨InternalBuffers.new_refines hb, ?_, .inr rfl⟩
      simp only [InternalBuffers.new] at hb
      split at hb
      · cases hb
      split at hb
      · cases hb
      split at hb
      · cases hb
      split at hb
      · cases hb; exact vacantNil_replicate _
      · cases hb

theorem insert_loaded {d d' : DirectoryMap φ} {m : Phone → Option Uuid} {k : Phone} {u : Uuid}
    {r : Except (InternalBuffersError φ) Bool} (h : Loaded d m) (hk : ValidE164 k) (hnew : m k = none)
    (hi : d.insert k u = some (r, d')) : Loaded d' (Function.update m k (some u)) := by
  simp only [insert] at hi
  split at hi
  · cases hi
  · rename_i building hb
    cases hi
    obtain ⟨hr, hrefines⟩ := InternalBuffers.insert_refines h.building hk hb
    refine ⟨hrefines, InternalBuffers.insert_vacantNil h.building h.nil hk hb, .inl ?_⟩
    rw [hr, decide_eq_true hnew]
    rfl

theorem inserts_loaded {entries : List (Phone × Uuid)} :
    ∀ {d d' : DirectoryMap φ} {m : Phone → Option Uuid}, Loaded d m → (∀ e ∈ entries, ValidE164 e.1 ∧ m e.1 = none) →
      (entries.map (·.1)).Nodup → Runs.run step d (entries.map fun e => Call.insert e.1 e.2) = some d' →
      Loaded d' fun p => (last? p entries).or (m p) := by
  induction entries with
  | nil =>
    intro d d' m h _ _ hrun
    cases hrun
    exact h
  | cons e entries ih =>
    intro d d' m h hentries hnodup hrun
    rw [List.map_cons, List.nodup_cons] at hnodup
    obtain ⟨hk, hnew⟩ := hentries e List.mem_cons_self
    rw [List.map_cons, Runs.run, Option.bind_eq_some_iff] at hrun
    obtain ⟨d₁, hinsert, hrest⟩ := hrun
    obtain ⟨⟨r, d₂⟩, hd₂, rfl⟩ := Option.map_eq_some_iff.mp hinsert
    have h₁ := insert_loaded h hk hnew hd₂
    have hother : ∀ e' ∈ entries, e'.1 ≠ e.1 := fun e' he' heq => hnodup.1 (heq ▸ List.mem_map_of_mem he')
    have h' := ih h₁ (fun e' he' => by
      obtain ⟨hk', hnew'⟩ := hentries e' (List.mem_cons_of_mem _ he')
      exact ⟨hk', by rw [Function.update_of_ne (hother e' he')]; exact hnew'⟩) hnodup.2 hrest
    have hmap : (fun p => (last? p entries).or (Function.update m e.1 (some e.2) p)) =
        fun p => (last? p (e :: entries)).or (m p) := by
      funext p
      rw [last?_cons, Option.or_assoc]
      congr 1
      by_cases hp : e.1 = p
      · subst hp; rw [Function.update_self, if_pos rfl]; rfl
      · rw [Function.update_of_ne (Ne.symm hp), if_neg hp, Option.none_or]
    rw [hmap] at h'
    exact h'

omit [LoadFactor φ] in
theorem loaded_commit {d d' : DirectoryMap φ} {m : Phone → Option Uuid} {r : Except (InternalBuffersError φ) Bool}
    (h : Loaded d m) (hcommit : d.commit = some (r, d')) :
    InternalBuffers.Refines d'.serving m ∧ VacantNil d'.serving.e164sBuffer d'.serving.uuidsBuffer := by
  have hserving : d'.serving = d.building := by
    simp only [commit] at hcommit
    split at hcommit
    · rename_i hclean
      cases hcommit
      exact h.dirty.resolve_left (by simpa using hclean)
    · split at hcommit
      · cases hcommit
      · cases hcommit; rfl
  rw [hserving]
  exact ⟨h.building, h.nil⟩

/-- The table a map serves after the entries were inserted into it, new, and committed. -/
def Committed (entries : List (Phone × Uuid)) (serving : InternalBuffers φ) : Prop :=
  ∃ startingCapacity minLoadFactor maxLoadFactor, ∃ d₀ d d' : DirectoryMap φ, ∃ r,
    new startingCapacity minLoadFactor maxLoadFactor = some (.ok d₀) ∧
    Runs.run step d₀ (entries.map fun e => Call.insert e.1 e.2) = some d ∧ d.commit = some (r, d') ∧ d'.serving = serving

theorem Committed.serving {entries : List (Phone × Uuid)} {serving : InternalBuffers φ} (h : Committed entries serving)
    (hvalid : ∀ e ∈ entries, ValidE164 e.1) (hdistinct : (entries.map (·.1)).Nodup) :
    InternalBuffers.Refines serving (fun p => last? p entries) ∧ VacantNil serving.e164sBuffer serving.uuidsBuffer := by
  obtain ⟨_, _, _, d₀, d, d', r, hnew, hrun, hcommit, rfl⟩ := h
  have hloaded := inserts_loaded (new_loaded hnew) (fun e he => ⟨hvalid e he, rfl⟩) hdistinct hrun
  simp only [Option.or_none] at hloaded
  exact loaded_commit hloaded hcommit

end DirectoryMap

end ContactDiscovery.Directory
