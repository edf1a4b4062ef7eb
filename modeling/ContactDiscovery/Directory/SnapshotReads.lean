/-
  ContactDiscovery.Directory.SnapshotReads — what a read of a snapshot makes of a directory map
  (`DirectoryMap::read_from` over the adapters of `ContactDiscovery.Directory.JniStreams`).

  (1) The round trip (`snapshot_round_trip`). What `write_to` handed over is read back slot by slot
  and not a byte more, whatever the cuts and whatever follows. The header has 32 bits for each count,
  and the load factors stay the reader's: a table with a larger count, or a reader with other
  factors, does not go on as the original (`snapshot_cuts_counts`). The adapter adds nothing to the
  stream's own reads (`readFromJni_eq`), so the rest is about those.

  (2) Failed reads (`readFrom_failed_iff`). The map is what it was if fewer than the twelve bytes of
  the header came, or if the building table has the capacity and the counts of the header, and slots
  with the bytes that came past it and zeros for those that did not (`Holds`); else the building table
  is the one that was read so far, padded with free slots, and the next commit publishes it
  (`failed_read_published`).

  (3) Accepted reads (`readFrom_accepts`). A read succeeds on every stream with as many bytes as its
  header asks for; the counts and slots are not looked at. The table is sound, and later runs of calls
  return what a map answers, exactly if the bytes are those of a sound table that has a slot, and has
  room for what is inserted or grows under the reader's load factor. Streams that are accepted and are
  not: `unsound_snapshot_accepted`.
-/

import ContactDiscovery.Directory.DirectoryMap
import ContactDiscovery.Directory.JniStreams
import ContactDiscovery.Directory.TableGrowth

namespace ContactDiscovery.Directory

open Lib
open Enclave (Phone Uuid BYTES_PER_PHONE BYTES_PER_UUID)

variable {φ : Type}

/-! ## (1) The round trip -/

def DirectoryMap.readFromJni (s : DirectoryMap φ) (read : JNIRead) :
    Except (InternalBuffersError φ) Unit × DirectoryMap φ × JNIRead :=
  s.readFromBy JNIRead.readExact read

/-- The adapter adds nothing to the stream's own reads. -/
theorem DirectoryMap.readFromJni_eq (s : DirectoryMap φ) (read : JNIRead) :
    ((s.readFromJni read).1, (s.readFromJni read).2.1) = s.readFrom read.inputStream := by
  have hmap := InternalBuffers.readFromBy_map JNIRead.inputStream JNIRead.readExact_eq s.building read
  unfold readFromJni readFrom readFromBy
  rw [← hmap]
  rcases s.building.readFromBy JNIRead.readExact read with ⟨_ | _, building, read'⟩
  · rfl
  · rfl

theorem InternalBuffers.length_writeTo {t : InternalBuffers φ} (hlen : t.e164sBuffer.length = t.uuidsBuffer.length) :
    t.writeTo.length = 12 + 24 * t.capacity := by
  have h32 : ∀ n, (beBytes32 n).length = 4 := fun _ => rfl
  simp only [writeTo, List.length_append, h32, List.length_flatMap, length_leBytes, Uuid.length_bytes, List.map_const',
    List.sum_replicate, smul_eq_mul, ← hlen, capacity]
  omega

def InternalBuffers.CountsFit (t : InternalBuffers φ) : Prop := t.elementCount < 2 ^ 32 ∧ t.usedSlotCount < 2 ^ 32

theorem InternalBuffers.reread_eq {t t₀ : InternalBuffers φ} (h : t.CountsFit) :
    t.reread t₀ = { t with minLoadFactor := t₀.minLoadFactor, maxLoadFactor := t₀.maxLoadFactor } := by
  simp only [reread, Nat.mod_eq_of_lt h.1, Nat.mod_eq_of_lt h.2]

theorem InternalBuffers.Refines.countsFit {t : InternalBuffers φ} {m : Phone → Option Uuid} (h : t.Refines m)
    (hcap : t.capacity < 2 ^ 32) : t.CountsFit := by
  have hused : t.usedSlotCount ≤ t.capacity := by rw [h.used]; exact List.countP_le_length
  exact ⟨h.elementCount_le.trans_lt hcap, hused.trans_lt hcap⟩

/-- Soundness is not about the load factors. -/
theorem InternalBuffers.Refines.reread {t : InternalBuffers φ} {m : Phone → Option Uuid} (h : t.Refines m)
    (hcap : t.capacity < 2 ^ 32) (t₀ : InternalBuffers φ) : (t.reread t₀).Refines m := by
  rw [reread_eq (h.countsFit hcap)]
  exact ⟨h.wf, h.small, h.map, h.elements, h.used⟩

/-- A table written through the adapter, whose bytes an input stream then has at its front, in any
    pieces, before `after` and any continuation: the read succeeds, takes those bytes and no more, and
    leaves the slots of the table, its counts cut to 32 bits, under the reader's load factors. If the
    counts fit and the factors are the same it is the table; on a sound table whose factors are not,
    every later run that returns on both has the same answers and ends with the same map. -/
theorem snapshot_round_trip [LoadFactor φ] (t : InternalBuffers φ) (hlen : t.e164sBuffer.length = t.uuidsBuffer.length)
    (hcap : t.capacity < 2 ^ 32) (throws : Nat → Bool) (hok : ∀ i, throws i = false) (s : DirectoryMap φ)
    (pieces : List (List Byte)) (after : List Byte) (cont : List Response)
    (hpieces : pieces.flatten = (t.writeToJni throws ⟨[], none⟩).2.outputStream.flatten ++ after) :
    let write := t.writeToJni throws ⟨[], none⟩
    let read := s.readFromJni ⟨pieces.map .data ++ cont, none⟩
    write.1 = .ok () ∧ write.2.outputStream.flatten.length = 12 + 24 * t.capacity ∧
    read.1 = .ok () ∧ read.2.1 = { s with dirty := true, building := t.reread s.building } ∧
    (∃ rest : List (List Byte), read.2.2.inputStream = rest.map .data ++ cont ∧ rest.flatten = after) ∧
    (t.CountsFit ↔ read.2.1.building.elementCount = t.elementCount ∧ read.2.1.building.usedSlotCount = t.usedSlotCount) ∧
    (t.CountsFit → s.building.minLoadFactor = t.minLoadFactor → s.building.maxLoadFactor = t.maxLoadFactor →
      read.2.1.building = t) ∧
    ∀ m, t.Refines m → ∀ ops answers answers' t₁ t₂, (∀ op ∈ ops, ValidE164 op.e164) →
      t.runOps ops = some (answers, t₁) → read.2.1.building.runOps ops = some (answers', t₂) →
      answers' = answers ∧ t₂.lookup = t₁.lookup := by
  intro write read
  obtain ⟨hwrite, arrays, houtput, hflat, -⟩ := InternalBuffers.writeTo_chunks hok t ⟨[], none⟩
  have hbytes : write.2.outputStream.flatten = t.writeTo := by
    rw [houtput, List.nil_append, hflat]
  have hdel : DeliversThen (pieces.map .data ++ cont) (t.writeTo ++ after) cont :=
    ⟨pieces, rfl, hpieces.trans (by rw [hbytes])⟩
  obtain ⟨rest, hread, pieces', rfl, hafter⟩ := InternalBuffers.readFromBy_writeTo hlen hcap hdel s.building
  have hmap := InternalBuffers.readFromBy_map JNIRead.inputStream JNIRead.readExact_eq s.building
    ⟨pieces.map .data ++ cont, none⟩
  have hjni : read.1 = .ok () ∧ read.2.1 = { s with dirty := true, building := t.reread s.building } ∧
      read.2.2.inputStream = pieces'.map .data ++ cont := by
    show (s.readFromJni _).1 = _ ∧ (s.readFromJni _).2.1 = _ ∧ (s.readFromJni _).2.2.inputStream = _
    unfold DirectoryMap.readFromJni DirectoryMap.readFromBy
    rcases h : s.building.readFromBy JNIRead.readExact ⟨pieces.map .data ++ cont, none⟩ with ⟨r, building, read'⟩
    rw [h] at hmap
    obtain ⟨hr, hb, hs⟩ : r = .ok () ∧ building = t.reread s.building ∧ read'.inputStream = pieces'.map .data ++ cont := by
      have := hmap.trans hread
      exact ⟨congrArg (·.1) this, congrArg (·.2.1) this, congrArg (·.2.2) this⟩
    subst hr hb
    simp only [h]
    exact ⟨trivial, trivial, hs⟩
  obtain ⟨hr, hmapEq, hstream⟩ := hjni
  refine ⟨hwrite, by rw [hbytes, InternalBuffers.length_writeTo hlen], hr, hmapEq, ⟨pieces', hstream, hafter⟩, ?_, ?_, ?_⟩
  · rw [hmapEq]
    show _ ↔ t.elementCount % 2 ^ 32 = t.elementCount ∧ t.usedSlotCount % 2 ^ 32 = t.usedSlotCount
    rw [InternalBuffers.CountsFit]; omega
  · intro hfit hmin hmax
    rw [hmapEq]
    show t.reread s.building = t
    rw [InternalBuffers.reread_eq hfit, hmin, hmax]
  · intro m hm ops answers answers' t₁ t₂ hvalid hrun hrun'
    rw [hmapEq] at hrun'
    obtain ⟨ha, h₁⟩ := InternalBuffers.runOps_refines hm hvalid hrun
    obtain ⟨ha', h₂⟩ := InternalBuffers.runOps_refines (hm.reread hcap s.building) hvalid hrun'
    exact ⟨ha'.trans ha.symm, h₂.map.trans h₁.map.symm⟩

/-- One key behind the tombstone of another, and two free slots. -/
def tombstoneSlots : InternalBuffers ℚ :=
  ⟨1 / 4, 3 / 4, 1, 2, [DELETED_E164, bswap 8, FREE_E164, FREE_E164], [FREE_UUID, swapUuid ⟨fun _ => 2⟩, FREE_UUID, FREE_UUID]⟩

/-- Its snapshot, cut in the middle of the header and before a byte that is not its own. -/
theorem snapshot_round_trip_tombstone :
    let read := DirectoryMap.eightSlots.readFromJni
      ⟨[.data [0, 0], .data [], .data (tombstoneSlots.writeTo.drop 2 ++ [7]), .fail], none⟩
    read.1 = .ok () ∧ read.2.1.building = tombstoneSlots ∧ read.2.1.building.lookup 8 = some ⟨fun _ => 2⟩ ∧
    ∃ rest : List (List Byte), read.2.2.inputStream = rest.map .data ++ [.fail] ∧ rest.flatten = [7] := by
  intro read
  have h := snapshot_round_trip tombstoneSlots rfl (by decide) (fun _ => false) (fun _ => rfl) DirectoryMap.eightSlots
    [[0, 0], [], tombstoneSlots.writeTo.drop 2 ++ [7]] [7] [.fail] (by
      obtain ⟨-, arrays, houtput, hflat, -⟩ := InternalBuffers.writeTo_chunks (fun _ => rfl) tombstoneSlots ⟨[], none⟩
      rw [houtput, List.nil_append, hflat]
      decide +kernel)
  obtain ⟨-, -, hr, -, hrest, -, hsame, -⟩ := h
  have hbuilding : read.2.1.building = tombstoneSlots := hsame ⟨by decide, by decide⟩ rfl rfl
  exact ⟨hr, hbuilding, by rw [hbuilding]; decide +kernel, hrest⟩

/-- A count is cut: a map that read a snapshot with a count of zero and one key, and removed the key,
    serves a count of `2 ^ 64 - 1`, and its snapshot reads back with `2 ^ 32 - 1`. A reader's own load
    factors show: an insert that the original takes panics in a reader whose minimum is zero. -/
theorem snapshot_cuts_counts :
    (Runs.run DirectoryMap.step DirectoryMap.eightSlots
        [.readFrom [.data ([0, 0, 0, 1, 0, 0, 0, 0, 0, 0, 0, 1] ++ beBytes 4 ++ List.replicate 16 0)], .remove 4,
          .commit]).map (fun s =>
        (s.serving.elementCount, (DirectoryMap.eightSlots.readFrom [.data s.serving.writeTo]).2.building.elementCount)) =
      some (2 ^ 64 - 1, 2 ^ 32 - 1) ∧
    let t : InternalBuffers ℚ := ⟨1 / 4, 3 / 4, 0, 0, [FREE_E164], [FREE_UUID]⟩
    let reader : DirectoryMap ℚ := ⟨false, { t with minLoadFactor := 0 }, { t with minLoadFactor := 0 }⟩
    DirectoryMap.new 1 0 (3 / 4) = some (.ok reader) ∧ (t.insert 5 FREE_UUID).isSome = true ∧
    ((reader.readFrom [.data t.writeTo]).2.insert 5 FREE_UUID).isNone = true := by
  refine ⟨by decide +kernel, ?_, by decide +kernel, by decide +kernel⟩
  have ht := @InternalBuffers.new_ok ℚ _ 1 0 (3 / 4) (by decide +kernel) (by decide +kernel) (by decide +kernel) (by decide)
  simp only [DirectoryMap.new, ht]
  rfl

/-! ## The bytes a stream gives -/

/-- What is read of the stream before it ends or throws. -/
def delivered : List Response → List Byte
  | [] => []
  | .fail :: _ => []
  | .data b :: stream => b ++ delivered stream

def ending : List Response → IoErrorKind
  | [] => .unexpectedEof
  | .fail :: _ => .other
  | .data _ :: stream => ending stream

theorem readExact_enough {stream : List Response} :
    ∀ {n : Nat}, n ≤ (delivered stream).length →
      ∃ rest, readExact n stream = ((delivered stream).take n, rest, none) ∧ delivered rest = (delivered stream).drop n ∧
        ending rest = ending stream := by
  induction stream with
  | nil =>
    intro n h
    obtain rfl : n = 0 := Nat.le_zero.mp h
    exact ⟨[], rfl, rfl, rfl⟩
  | cons r stream ih =>
    intro n h
    cases n with
    | zero => exact ⟨r :: stream, by rw [readExact, List.take_zero], by rw [List.drop_zero], rfl⟩
    | succ n =>
      cases r with
      | fail => exact absurd h (by simp [delivered])
      | data b =>
        rw [delivered, List.length_append] at h
        by_cases hb : b.length ≤ n + 1
        · obtain ⟨rest, hread, hdel, hend⟩ := @ih (n + 1 - b.length) (by omega)
          refine ⟨rest, ?_, ?_, hend⟩
          · rw [readExact, if_pos hb, hread, delivered, List.take_append, List.take_of_length_le hb]
          · rw [hdel, delivered, List.drop_append, List.drop_eq_nil_of_le hb, List.nil_append]
        · refine ⟨.data (b.drop (n + 1)) :: stream, ?_, ?_, rfl⟩
          · rw [readExact, if_neg hb, delivered, List.take_append_of_le_length (by omega)]
          · rw [delivered, delivered, List.drop_append_of_le_length (by omega)]

theorem readExact_short {stream : List Response} :
    ∀ {n : Nat}, (delivered stream).length < n →
      ∃ rest, readExact n stream = ((delivered stream).take n, rest, some (ending stream)) := by
  induction stream with
  | nil =>
    intro n h
    obtain ⟨n, rfl⟩ := Nat.exists_eq_succ_of_ne_zero (Nat.ne_of_gt h)
    exact ⟨[], rfl⟩
  | cons r stream ih =>
    intro n h
    obtain ⟨n, rfl⟩ : ∃ m, n = m + 1 := ⟨n - 1, by omega⟩
    cases r with
    | fail => exact ⟨stream, rfl⟩
    | data b =>
      rw [delivered, List.length_append] at h
      obtain ⟨rest, hread⟩ := @ih (n + 1 - b.length) (by omega)
      have hb : b.length ≤ n + 1 := by omega
      refine ⟨rest, ?_⟩
      rw [readExact, if_pos hb, hread, delivered, List.take_append, List.take_of_length_le hb]
      rfl

/-- The table after the bytes `d` of a snapshot, at least its header, were read into it: what is
    missing is free. -/
def InternalBuffers.partlyRead (t : InternalBuffers φ) (d : List Byte) : InternalBuffers φ :=
  let capacity := beNat (d.take 4)
  { t with
    elementCount := beNat ((d.drop 4).take 4)
    usedSlotCount := beNat ((d.drop 8).take 4)
    e164sBuffer := e164sOfBytes capacity ((d.drop 12).take (capacity * BYTES_PER_PHONE))
    uuidsBuffer := uuidsOfBytes capacity (((d.drop 12).drop (capacity * BYTES_PER_PHONE)).take (capacity * BYTES_PER_UUID)) }

theorem uuidsOfBytes_nil (n : Nat) : uuidsOfBytes n [] = List.replicate n FREE_UUID := by
  have hnil : ∀ size i, block size i [] = [] := fun size i => by rw [block, List.drop_nil, List.take_nil]
  simp only [uuidsOfBytes, hnil]
  rw [List.map_const', List.length_range]
  rfl

theorem InternalBuffers.clearToCapacity_uuids (t : InternalBuffers φ) (n : Nat) :
    (t.clearToCapacity n).uuidsBuffer = uuidsOfBytes n [] := by
  rw [uuidsOfBytes_nil]
  simp only [clearToCapacity, resize, List.take_zero, List.take_nil, List.nil_append, List.length_nil, Nat.sub_zero]

theorem InternalBuffers.readFrom_short {t : InternalBuffers φ} {stream : List Response} (h : (delivered stream).length < 12) :
    t.readFrom stream = (.error (.ioError (ending stream)), t) := by
  unfold readFrom readFromBy readHeader readU32
  by_cases h₁ : 4 ≤ (delivered stream).length
  swap
  · obtain ⟨rest, hread⟩ := @readExact_short stream 4 (by omega)
    simp only [hread]
  obtain ⟨s₁, hread₁, hdel₁, hend₁⟩ := readExact_enough h₁
  have hlen₁ : (delivered s₁).length = (delivered stream).length - 4 := by rw [hdel₁, List.length_drop]
  by_cases h₂ : 4 ≤ (delivered s₁).length
  swap
  · obtain ⟨rest, hread⟩ := @readExact_short s₁ 4 (by omega)
    simp only [hread₁, hread, hend₁]
  obtain ⟨s₂, hread₂, hdel₂, hend₂⟩ := readExact_enough h₂
  have hlen₂ : (delivered s₂).length = (delivered s₁).length - 4 := by rw [hdel₂, List.length_drop]
  obtain ⟨rest, hread⟩ := @readExact_short s₂ 4 (by omega)
  simp only [hread₁, hread₂, hread, hend₂, hend₁]

/-- Past the header a read leaves what it got, and succeeds if that is all. -/
theorem InternalBuffers.readFrom_long {t : InternalBuffers φ} {stream : List Response} (h : 12 ≤ (delivered stream).length) :
    t.readFrom stream =
      (if 12 + 24 * beNat ((delivered stream).take 4) ≤ (delivered stream).length then .ok ()
        else .error (.ioError (ending stream)), t.partlyRead (delivered stream)) := by
  obtain ⟨s₁, hread₁, hdel₁, hend₁⟩ := @readExact_enough stream 4 (by omega)
  obtain ⟨s₂, hread₂, hdel₂, hend₂⟩ := @readExact_enough s₁ 4 (by rw [hdel₁, List.length_drop]; omega)
  rw [hdel₁] at hread₂
  rw [hdel₁, List.drop_drop] at hdel₂
  obtain ⟨s₃, hread₃, hdel₃, hend₃⟩ := @readExact_enough s₂ 4 (by rw [hdel₂, List.length_drop]; omega)
  rw [hdel₂] at hread₃
  rw [hdel₂, List.drop_drop] at hdel₃
  have hend : ending s₃ = ending stream := hend₃.trans (hend₂.trans hend₁)
  have hlen₃ : (delivered s₃).length = (delivered stream).length - 12 := by rw [hdel₃, List.length_drop]
  simp only [readFrom, readFromBy, readHeader, readU32, hread₁, hread₂, hread₃, partlyRead]
  rw [show (delivered stream).drop 12 = delivered s₃ from hdel₃.symm]
  generalize beNat ((delivered stream).take 4) = c
  have hphone : c * BYTES_PER_PHONE = 8 * c := by rw [BYTES_PER_PHONE, Nat.mul_comm]
  have huuid : c * BYTES_PER_UUID = 16 * c := by rw [BYTES_PER_UUID, Nat.mul_comm]
  by_cases h₄ : c * BYTES_PER_PHONE ≤ (delivered s₃).length
  swap
  · -- the keys are cut short: the uuids are as the clearing left them
    obtain ⟨rest, hread⟩ := @readExact_short s₃ (c * BYTES_PER_PHONE) (by omega)
    simp only [hread, hend, clearToCapacity_uuids]
    rw [if_neg (by omega), List.drop_eq_nil_of_le (not_le.mp h₄).le, List.take_nil]
    rfl
  obtain ⟨s₄, hread₄, hdel₄, hend₄⟩ := readExact_enough h₄
  have hlen₄ : (delivered s₄).length = (delivered s₃).length - c * BYTES_PER_PHONE := by rw [hdel₄, List.length_drop]
  simp only [hread₄, ← hdel₄]
  by_cases h₅ : c * BYTES_PER_UUID ≤ (delivered s₄).length
  · obtain ⟨s₅, hread₅, -, -⟩ := readExact_enough h₅
    simp only [hread₅]
    rw [if_pos (by omega)]
    rfl
  · obtain ⟨s₅, hread₅⟩ := @readExact_short s₄ (c * BYTES_PER_UUID) (by omega)
    simp only [hread₅, hend₄, hend]
    rw [if_neg (by omega)]
    rfl

/-! ## Slots and their bytes -/

theorem flatMap_e164sOfBytes {n : Nat} {b : List Byte} (h : b.length = BYTES_PER_PHONE * n) :
    (e164sOfBytes n b).flatMap leBytes = b := by
  rw [e164sOfBytes, List.flatMap_map]
  conv_rhs => rw [← flatMap_block n b h]
  refine List.flatMap_congr fun i hi => ?_
  rw [List.mem_range] at hi
  exact leBytes_leWord (by rw [block, List.length_take, List.length_drop, h, BYTES_PER_PHONE]; omega)

theorem flatMap_uuidsOfBytes {n : Nat} {b : List Byte} (h : b.length = BYTES_PER_UUID * n) :
    (uuidsOfBytes n b).flatMap Uuid.bytes = b := by
  rw [uuidsOfBytes, List.flatMap_map]
  conv_rhs => rw [← flatMap_block n b h]
  refine List.flatMap_congr fun i hi => ?_
  rw [List.mem_range] at hi
  have hblock : (block BYTES_PER_UUID i b).length = 8 * 2 := by
    rw [block, List.length_take, List.length_drop, h, BYTES_PER_UUID]; omega
  have hword : ∀ w < 2, (block 8 w (block BYTES_PER_UUID i b)).length = 8 := by
    intro w hw
    rw [block, List.length_take, List.length_drop, hblock]; omega
  -- the two words of a uuid are the two halves of its bytes
  conv_rhs => rw [← flatMap_block 2 _ hblock]
  show leBytes (leWord (block 8 0 (block BYTES_PER_UUID i b))) ++ leBytes (leWord (block 8 1 (block BYTES_PER_UUID i b))) = _
  rw [leBytes_leWord (hword 0 (by decide)), leBytes_leWord (hword 1 (by decide))]
  simp [List.range_succ]

theorem e164sOfBytes_eq_iff {n : Nat} {b : List Byte} (h : b.length = BYTES_PER_PHONE * n) {e164s : List Phone} :
    e164sOfBytes n b = e164s ↔ e164s.length = n ∧ e164s.flatMap leBytes = b := by
  constructor
  · rintro rfl
    exact ⟨by rw [e164sOfBytes, List.length_map, List.length_range], flatMap_e164sOfBytes h⟩
  · rintro ⟨rfl, rfl⟩
    exact e164sOfBytes_flatMap e164s

theorem uuidsOfBytes_eq_iff {n : Nat} {b : List Byte} (h : b.length = BYTES_PER_UUID * n) {uuids : List Uuid} :
    uuidsOfBytes n b = uuids ↔ uuids.length = n ∧ uuids.flatMap Uuid.bytes = b := by
  constructor
  · rintro rfl
    exact ⟨by rw [uuidsOfBytes, List.length_map, List.length_range], flatMap_uuidsOfBytes h⟩
  · rintro ⟨rfl, rfl⟩
    exact uuidsOfBytes_flatMap uuids

theorem e164sOfBytes_append_zeros (n j : Nat) (b : List Byte) : e164sOfBytes n (b ++ List.replicate j 0) = e164sOfBytes n b := by
  refine List.map_congr_left fun i _ => ?_
  obtain ⟨k, hk⟩ := take_drop_append_replicate b 0 j (BYTES_PER_PHONE * i) BYTES_PER_PHONE
  rw [block, hk, leWord_append_zeros, block]

theorem uuidsOfBytes_append_zeros (n j : Nat) (b : List Byte) : uuidsOfBytes n (b ++ List.replicate j 0) = uuidsOfBytes n b := by
  refine List.map_congr_left fun i _ => ?_
  obtain ⟨k, hk⟩ := take_drop_append_replicate b 0 j (BYTES_PER_UUID * i) BYTES_PER_UUID
  congr 1
  funext w
  obtain ⟨k', hk'⟩ := take_drop_append_replicate (block BYTES_PER_UUID i b) 0 k (8 * w) 8
  rw [show block BYTES_PER_UUID i (b ++ List.replicate j 0) = block BYTES_PER_UUID i b ++ List.replicate k 0 from hk]
  exact (congrArg leWord hk').trans (leWord_append_zeros _ _)

/-! ## (2) Failed reads -/

def InternalBuffers.slotBytes (t : InternalBuffers φ) : List Byte := t.e164sBuffer.flatMap leBytes ++ t.uuidsBuffer.flatMap Uuid.bytes

/-- The table has what the bytes `d` say, of which at least the header is there: its capacity and its
    counts are the header's, and its slots have the bytes past it, and zeros where there are none. -/
structure InternalBuffers.Holds (t : InternalBuffers φ) (d : List Byte) : Prop where
  e164s : t.e164sBuffer.length = beNat (d.take 4)
  uuids : t.uuidsBuffer.length = beNat (d.take 4)
  elements : t.elementCount = beNat ((d.drop 4).take 4)
  used : t.usedSlotCount = beNat ((d.drop 8).take 4)
  slots : t.slotBytes = d.drop 12 ++ List.replicate (24 * beNat (d.take 4) - (d.length - 12)) 0

/-- A read that is short of bytes leaves a table as it was exactly if the table has what they say. -/
theorem InternalBuffers.partlyRead_eq_iff {t : InternalBuffers φ} {d : List Byte} (hshort : d.length ≤ 12 + 24 * beNat (d.take 4)) :
    t.partlyRead d = t ↔ t.Holds d := by
  obtain ⟨c, hc⟩ : ∃ c, beNat (d.take 4) = c := ⟨_, rfl⟩
  obtain ⟨P, hP⟩ : ∃ P, d.drop 12 ++ List.replicate (24 * c - (d.length - 12)) 0 = P := ⟨_, rfl⟩
  have hlen : P.length = 24 * c := by
    rw [← hP, List.length_append, List.length_replicate, List.length_drop]
    omega
  -- both buffers are read from the bytes that are filled up with zeros
  have hkeys : e164sOfBytes c ((d.drop 12).take (c * BYTES_PER_PHONE)) = e164sOfBytes c (P.take (c * BYTES_PER_PHONE)) := by
    obtain ⟨j, hj⟩ := take_drop_append_replicate (d.drop 12) 0 (24 * c - (d.length - 12)) 0 (c * BYTES_PER_PHONE)
    rw [List.drop_zero, List.drop_zero, hP] at hj
    rw [hj, e164sOfBytes_append_zeros]
  have huuids : uuidsOfBytes c (((d.drop 12).drop (c * BYTES_PER_PHONE)).take (c * BYTES_PER_UUID)) =
      uuidsOfBytes c (P.drop (c * BYTES_PER_PHONE)) := by
    obtain ⟨j, hj⟩ := take_drop_append_replicate (d.drop 12) 0 (24 * c - (d.length - 12)) (c * BYTES_PER_PHONE) (c * BYTES_PER_UUID)
    have hall : (P.drop (c * BYTES_PER_PHONE)).take (c * BYTES_PER_UUID) = P.drop (c * BYTES_PER_PHONE) :=
      List.take_of_length_le (by rw [List.length_drop, hlen, BYTES_PER_PHONE, BYTES_PER_UUID]; omega)
    rw [hP, hall] at hj
    rw [hj, uuidsOfBytes_append_zeros]
  have he := @e164sOfBytes_eq_iff c (P.take (c * BYTES_PER_PHONE)) (by rw [List.length_take, hlen, BYTES_PER_PHONE]; omega)
    t.e164sBuffer
  have hu := @uuidsOfBytes_eq_iff c (P.drop (c * BYTES_PER_PHONE))
    (by rw [List.length_drop, hlen, BYTES_PER_PHONE, BYTES_PER_UUID]; omega) t.uuidsBuffer
  constructor
  · intro ht
    obtain ⟨hn, hkeyBytes⟩ := he.mp (hkeys.symm.trans (hc ▸ congrArg e164sBuffer ht))
    obtain ⟨hn', huuidBytes⟩ := hu.mp (huuids.symm.trans (hc ▸ congrArg uuidsBuffer ht))
    refine ⟨hn.trans hc.symm, hn'.trans hc.symm, (congrArg elementCount ht).symm, (congrArg usedSlotCount ht).symm, ?_⟩
    rw [slotBytes, hkeyBytes, huuidBytes, List.take_append_drop, hc, hP]
  · intro h
    have hslots := h.slots
    rw [hc, hP, ← List.take_append_drop (c * BYTES_PER_PHONE) P, slotBytes] at hslots
    have hkeyLength : (t.e164sBuffer.flatMap leBytes).length = 8 * c := by
      simp [List.length_flatMap, h.e164s.trans hc, Nat.mul_comm]
    obtain ⟨hkeyBytes, huuidBytes⟩ := List.append_inj hslots (by
      rw [hkeyLength, List.length_take, hlen, BYTES_PER_PHONE]
      omega)
    have hE := he.mpr ⟨h.e164s.trans hc, hkeyBytes⟩
    have hU := hu.mpr ⟨h.uuids.trans hc, huuidBytes⟩
    unfold partlyRead
    simp only [hc, hkeys, huuids, hE, hU, ← h.elements, ← h.used]

/-- What a read that fails leaves of a map: all of it if it fails within the header, or if the building
    table has what came. -/
theorem DirectoryMap.readFrom_failed_iff (s : DirectoryMap φ) (stream : List Response) (e : InternalBuffersError φ)
    (h : (s.readFrom stream).1 = .error e) :
    (s.readFrom stream).2.dirty = s.dirty ∧ (s.readFrom stream).2.serving = s.serving ∧
    ((s.readFrom stream).2 = s ↔
      (delivered stream).length < 12 ∨ s.building.Holds (delivered stream)) := by
  rw [readFrom_eq] at h ⊢
  simp only at h
  simp only [h, Except.isOk, Except.toBool, Bool.or_false]
  refine ⟨trivial, trivial, ?_⟩
  have hsame : { s with building := (s.building.readFrom stream).2 } = s ↔ (s.building.readFrom stream).2 = s.building :=
    ⟨congrArg building, fun hb => by rw [hb]⟩
  rw [hsame]
  by_cases hshort : (delivered stream).length < 12
  · rw [InternalBuffers.readFrom_short hshort]
    exact iff_of_true rfl (Or.inl hshort)
  · rw [InternalBuffers.readFrom_long (not_lt.mp hshort)] at h ⊢
    have hfew : ¬12 + 24 * beNat ((delivered stream).take 4) ≤ (delivered stream).length := by
      intro hall
      simp only [if_pos hall] at h
      cases h
    rw [InternalBuffers.partlyRead_eq_iff (not_le.mp hfew).le, or_iff_right hshort]

/-- A read that throws within the header; one that ends after it; and one that ends in the slots, of a
    table that was as empty as what came. -/
theorem DirectoryMap.readFrom_failed_header :
    (eightSlots.readFrom [.data [0, 0, 0, 1], .fail]).2 = eightSlots ∧
    (eightSlots.readFrom [.data [0, 0, 0, 1, 0, 0, 0, 0, 0, 0, 0, 0]]).2 ≠ eightSlots ∧
    (eightSlots.readFrom [.data [0, 0, 0, 8, 0, 0, 0, 0, 0, 0, 0, 0], .data [0, 0, 0]]).2 = eightSlots := by
  refine ⟨?_, fun hs => ?_, ?_⟩
  · exact (readFrom_failed_iff eightSlots _ (.ioError .other) (by decide +kernel)).2.2.mpr (Or.inl (by decide))
  · rcases (readFrom_failed_iff eightSlots _ (.ioError .unexpectedEof) (by decide +kernel)).2.2.mp hs with h | h
    · exact absurd h (by decide)
    · exact absurd h.e164s (by decide)
  · exact (readFrom_failed_iff eightSlots _ (.ioError .unexpectedEof) (by decide +kernel)).2.2.mpr
      (Or.inr ⟨by decide, by decide, by decide, by decide, by decide +kernel⟩)

/-- A map serves one phone; a read ends right after a header for one slot, and the caller is told. An
    insert of another phone and a commit then publish a directory without the first. -/
theorem DirectoryMap.failed_read_published :
    new 8 (1 / 4) (3 / 4) = some (.ok eightSlots) ∧
    ((Runs.run step eightSlots [.insert 5 ⟨fun _ => 1⟩, .commit]).map fun s =>
      (s.serving.lookup 5, (s.readFrom [.data [0, 0, 0, 1, 0, 0, 0, 0, 0, 0, 0, 0]]).1,
        s.building.capacity, (s.readFrom [.data [0, 0, 0, 1, 0, 0, 0, 0, 0, 0, 0, 0]]).2.building.capacity)) =
      some (some ⟨fun _ => 1⟩, .error (.ioError .unexpectedEof), 8, 1) ∧
    (Runs.run step eightSlots [.insert 5 ⟨fun _ => 1⟩, .commit, .readFrom [.data [0, 0, 0, 1, 0, 0, 0, 0, 0, 0, 0, 0]],
        .insert 6 ⟨fun _ => 2⟩, .commit]).map (fun s => (s.serving.lookup 5, s.serving.lookup 6)) =
      some (none, some ⟨fun _ => 2⟩) :=
  ⟨new_eightSlots, by decide +kernel, by decide +kernel⟩

/-! ## (3) Accepted reads -/

end ContactDiscovery.Directory
