/-
  ContactDiscovery.Directory.Snapshot — writing a table to a stream and reading it from one
  (`write_to` and `read_from` of `directory_map_native/internal_buffers.rs` over the streams of
  `directory_map_native/io.rs`).

  A Java stream is the list of what it has for its reads: bytes, or an exception; at the end of
  the list it is at its end for good. A read takes no more than it asked for and leaves the rest
  to the next one, so the chunks of 32 KiB the adapter asks for do not show; a read that returns
  no bytes is retried.

  Proved: `readFromBy_map`, two readers with the same `read_exact` fill a table alike;
  `readFromBy_writeTo`, a snapshot at the front of a stream is read slot by slot, and no more of the
  stream with it, however the stream cuts its bytes; `readFrom_writeTo`, it is the table again if the
  counts fit in 32 bits.
-/

import ContactDiscovery.Directory.InternalBuffers

namespace ContactDiscovery.Directory

open Lib
open Enclave (Phone Uuid BYTES_PER_PHONE BYTES_PER_UUID)

inductive Response where
  | data (bytes : List Byte)
  | fail
  deriving DecidableEq, Repr

/-- `read_exact` for `n` bytes: the bytes that were read, what is left of the stream, and the
    error that ended it early. -/
def readExact : Nat → List Response → List Byte × List Response × Option IoErrorKind
  | 0, stream => ([], stream, none)
  | _ + 1, [] => ([], [], some .unexpectedEof)
  | _ + 1, .fail :: stream => ([], stream, some .other)
  | n + 1, .data b :: stream =>
    if b.length ≤ n + 1 then
      let (rest, stream, err) := readExact (n + 1 - b.length) stream
      (b ++ rest, stream, err)
    else (b.take (n + 1), .data (b.drop (n + 1)) :: stream, none)

/-- A buffer of `n` cleared keys after these bytes were read into it. -/
def e164sOfBytes (n : Nat) (b : List Byte) : List Phone :=
  (List.range n).map fun i => leWord (block BYTES_PER_PHONE i b)

/-- A buffer of `n` cleared uuids after these bytes were read into it. -/
def uuidsOfBytes (n : Nat) (b : List Byte) : List Uuid :=
  (List.range n).map fun i => ⟨fun w => leWord (block 8 w (block BYTES_PER_UUID i b))⟩

variable {φ : Type}

section Reader

variable {R : Type} (readExact : Nat → R → List Byte × R × Option IoErrorKind)

/-- One `u32` of the header, from an `impl Read` that is given by its `read_exact`. -/
def readU32 (read : R) : Except IoErrorKind Nat × R :=
  match readExact 4 read with
  | (_, read, some e) => (.error e, read)
  | (b, read, none) => (.ok (beNat b), read)

/-- The header: capacity, element count and used slot count. -/
def readHeader (read : R) : Except IoErrorKind (Nat × Nat × Nat) × R :=
  match readU32 readExact read with
  | (.error e, read) => (.error e, read)
  | (.ok capacity, read) =>
    match readU32 readExact read with
    | (.error e, read) => (.error e, read)
    | (.ok elementCount, read) =>
      match readU32 readExact read with
      | (.error e, read) => (.error e, read)
      | (.ok usedSlotCount, read) => (.ok (capacity, elementCount, usedSlotCount), read)

/-- `read_from`; a failed read leaves in the buffers the bytes it had read. -/
def InternalBuffers.readFromBy (t : InternalBuffers φ) (read : R) :
    Except (InternalBuffersError φ) Unit × InternalBuffers φ × R :=
  match readHeader readExact read with
  | (.error e, read) => (.error (.ioError e), t, read)
  | (.ok (capacity, elementCount, usedSlotCount), read) =>
    let t := { t.clearToCapacity capacity with elementCount, usedSlotCount }
    match readExact (capacity * BYTES_PER_PHONE) read with
    | (b, read, some e) => (.error (.ioError e), { t with e164sBuffer := e164sOfBytes capacity b }, read)
    | (b, read, none) =>
      let t := { t with e164sBuffer := e164sOfBytes capacity b }
      match readExact (capacity * BYTES_PER_UUID) read with
      | (b, read, some e) => (.error (.ioError e), { t with uuidsBuffer := uuidsOfBytes capacity b }, read)
      | (b, read, none) => (.ok (), { t with uuidsBuffer := uuidsOfBytes capacity b }, read)

end Reader

/-- `read_from` over the stream's own reads; what is left of the stream is dropped. -/
def InternalBuffers.readFrom (t : InternalBuffers φ) (stream : List Response) :
    Except (InternalBuffersError φ) Unit × InternalBuffers φ :=
  let (r, t, _) := t.readFromBy readExact stream
  (r, t)

section Map

variable {R S : Type} {readR : Nat → R → List Byte × R × Option IoErrorKind} {readS : Nat → S → List Byte × S × Option IoErrorKind}
  (f : R → S) (hf : ∀ n r, ((readR n r).1, f (readR n r).2.1, (readR n r).2.2) = readS n (f r))

include hf

theorem readU32_map (r : R) : ((readU32 readR r).1, f (readU32 readR r).2) = readU32 readS (f r) := by
  unfold readU32
  rw [← hf]
  rcases readR 4 r with ⟨b, r, _ | e⟩
  · rfl
  · rfl

theorem readHeader_map (r : R) : ((readHeader readR r).1, f (readHeader readR r).2) = readHeader readS (f r) := by
  unfold readHeader
  rw [← readU32_map f hf]
  rcases readU32 readR r with ⟨_ | capacity, r₁⟩
  · rfl
  simp only
  rw [← readU32_map f hf]
  rcases readU32 readR r₁ with ⟨_ | elementCount, r₂⟩
  · rfl
  simp only
  rw [← readU32_map f hf]
  rcases readU32 readR r₂ with ⟨_ | usedSlotCount, r₃⟩
  · rfl
  · rfl

/-- Readers with the same `read_exact`, one seen through `f`, fill a table alike. -/
theorem InternalBuffers.readFromBy_map (t : InternalBuffers φ) (r : R) :
    ((t.readFromBy readR r).1, (t.readFromBy readR r).2.1, f (t.readFromBy readR r).2.2) = t.readFromBy readS (f r) := by
  unfold readFromBy
  rw [← readHeader_map f hf]
  rcases readHeader readR r with ⟨_ | ⟨capacity, elementCount, usedSlotCount⟩, r₁⟩
  · rfl
  simp only
  rw [← hf]
  rcases readR (capacity * BYTES_PER_PHONE) r₁ with ⟨b, r₂, _ | e⟩
  swap
  · rfl
  simp only
  rw [← hf]
  rcases readR (capacity * BYTES_PER_UUID) r₂ with ⟨b, r₃, _ | e⟩
  · rfl
  · rfl

end Map

/-- `write_to`: the header's counts are cut to 32 bits. -/
def InternalBuffers.writeTo (t : InternalBuffers φ) : List Byte :=
  beBytes32 t.capacity ++ (beBytes32 t.elementCount ++ (beBytes32 t.usedSlotCount ++
    (t.e164sBuffer.flatMap leBytes ++ t.uuidsBuffer.flatMap Uuid.bytes)))

/-! ## The round trip -/

/-- The stream gives these bytes, cut into pieces in any way, and then has `cont`. -/
def DeliversThen (stream : List Response) (b : List Byte) (cont : List Response) : Prop :=
  ∃ pieces : List (List Byte), stream = pieces.map .data ++ cont ∧ pieces.flatten = b

/-- The stream gives these bytes, cut into pieces in any way, and ends. -/
def Delivers (stream : List Response) (b : List Byte) : Prop :=
  ∃ pieces : List (List Byte), stream = pieces.map .data ∧ pieces.flatten = b

theorem Delivers.deliversThen {stream : List Response} {b : List Byte} (h : Delivers stream b) : DeliversThen stream b [] := by
  obtain ⟨pieces, rfl, hflat⟩ := h
  exact ⟨pieces, (List.append_nil _).symm, hflat⟩

theorem readExact_delivers {stream cont : List Response} {a b : List Byte} (h : DeliversThen stream (a ++ b) cont) :
    ∃ rest, readExact a.length stream = (a, rest, none) ∧ DeliversThen rest b cont := by
  obtain ⟨pieces, rfl, hflat⟩ := h
  have hzero : ∀ s, readExact 0 s = ([], s, none) := fun s => by rw [readExact]
  induction pieces generalizing a with
  | nil =>
    obtain ⟨rfl, rfl⟩ := List.append_eq_nil_iff.mp hflat.symm
    exact ⟨cont, hzero _, [], rfl, rfl⟩
  | cons piece pieces ih =>
    cases a with
    | nil => exact ⟨_, hzero _, piece :: pieces, rfl, hflat⟩
    | cons x a =>
      rw [List.flatten_cons] at hflat
      simp only [List.length_cons, List.map_cons, List.cons_append, readExact]
      rcases List.append_eq_append_iff.mp hflat with ⟨c, hc, hrest⟩ | ⟨c, hc, hrest⟩
      · -- the piece ends within what is asked for
        have hlen : a.length + 1 = piece.length + c.length := by
          rw [← List.length_append, ← hc, List.length_cons]
        obtain ⟨rest, hread, hdel⟩ := ih hrest
        rw [if_pos (by omega), show a.length + 1 - piece.length = c.length by omega, hread]
        exact ⟨rest, by rw [← hc], hdel⟩
      · have hlen : piece.length = a.length + 1 + c.length := by rw [hc, List.length_append, List.length_cons]
        by_cases hnil : c = []
        · subst hnil
          rw [List.length_nil] at hlen
          rw [if_pos (by omega), show a.length + 1 - piece.length = 0 by omega, hzero]
          rw [List.append_nil] at hc
          exact ⟨_, by rw [hc, List.append_nil], pieces, rfl, hrest.symm⟩
        · have hpos := List.length_pos_of_ne_nil hnil
          rw [if_neg (by omega)]
          have htake : piece.take (a.length + 1) = x :: a := by rw [hc]; simp
          have hdrop : piece.drop (a.length + 1) = c := by rw [hc]; simp
          exact ⟨_, by rw [htake], c :: pieces, by rw [hdrop]; rfl, hrest.symm⟩

theorem readExact_beBytes32 {stream cont : List Response} {n : Nat} {b : List Byte}
    (h : DeliversThen stream (beBytes32 n ++ b) cont) :
    ∃ rest, readExact 4 stream = (beBytes32 n, rest, none) ∧ DeliversThen rest b cont := readExact_delivers h

theorem e164sOfBytes_flatMap (e164s : List Phone) : e164sOfBytes e164s.length (e164s.flatMap leBytes) = e164s := by
  apply List.ext_getElem (by simp [e164sOfBytes])
  intro i h₁ h₂
  simp only [e164sOfBytes, List.getElem_map, List.getElem_range]
  rw [BYTES_PER_PHONE, block_flatMap leBytes length_leBytes e164s i h₂, leWord_leBytes]

theorem uuidsOfBytes_flatMap (uuids : List Uuid) : uuidsOfBytes uuids.length (uuids.flatMap Uuid.bytes) = uuids := by
  apply List.ext_getElem (by simp [uuidsOfBytes])
  intro i h₁ h₂
  simp only [uuidsOfBytes, List.getElem_map, List.getElem_range]
  rw [BYTES_PER_UUID, block_flatMap Uuid.bytes Uuid.length_bytes uuids i h₂]
  ext1
  funext w
  have hword : ∀ v : BitVec 64, (leBytes v).take 8 = leBytes v := fun v => List.take_of_length_le (by simp)
  fin_cases w <;> simp [Uuid.bytes, block, hword, leWord_leBytes]

/-- The table as a snapshot has it, read into `t₀`: the header cuts the counts to 32 bits, and the load
    factors are the reader's own. -/
def InternalBuffers.reread (t t₀ : InternalBuffers φ) : InternalBuffers φ where
  minLoadFactor := t₀.minLoadFactor
  maxLoadFactor := t₀.maxLoadFactor
  elementCount := t.elementCount % 2 ^ 32
  usedSlotCount := t.usedSlotCount % 2 ^ 32
  e164sBuffer := t.e164sBuffer
  uuidsBuffer := t.uuidsBuffer

theorem InternalBuffers.readFromBy_writeTo {t : InternalBuffers φ} {stream cont : List Response} {after : List Byte}
    (hlen : t.e164sBuffer.length = t.uuidsBuffer.length) (hcap : t.capacity < 2 ^ 32)
    (h : DeliversThen stream (t.writeTo ++ after) cont) (t₀ : InternalBuffers φ) :
    ∃ rest, t₀.readFromBy readExact stream = (.ok (), t.reread t₀, rest) ∧ DeliversThen rest after cont := by
  unfold writeTo at h
  simp only [List.append_assoc] at h
  obtain ⟨s₁, h₁, d₁⟩ := readExact_beBytes32 h
  obtain ⟨s₂, h₂, d₂⟩ := readExact_beBytes32 d₁
  obtain ⟨s₃, h₃, d₃⟩ := readExact_beBytes32 d₂
  obtain ⟨s₄, h₄, d₄⟩ := readExact_delivers d₃
  obtain ⟨s₅, h₅, d₅⟩ := readExact_delivers d₄
  have hphones : (t.e164sBuffer.flatMap leBytes).length = t.capacity * BYTES_PER_PHONE := by
    simp [List.length_flatMap, capacity, BYTES_PER_PHONE, Nat.mul_comm]
  have hbytes : (t.uuidsBuffer.flatMap Uuid.bytes).length = t.capacity * BYTES_PER_UUID := by
    simp [List.length_flatMap, capacity, BYTES_PER_UUID, hlen]
  have he : e164sOfBytes t.capacity (t.e164sBuffer.flatMap leBytes) = t.e164sBuffer := e164sOfBytes_flatMap _
  have hu : uuidsOfBytes t.capacity (t.uuidsBuffer.flatMap Uuid.bytes) = t.uuidsBuffer := by
    rw [capacity, hlen]; exact uuidsOfBytes_flatMap _
  have hc : beNat (beBytes32 t.capacity) = t.capacity := by rw [beNat_beBytes32, Nat.mod_eq_of_lt hcap]
  rw [hphones] at h₄
  rw [hbytes] at h₅
  refine ⟨s₅, ?_, d₅⟩
  simp only [readFromBy, readHeader, readU32, h₁, h₂, h₃, hc, h₄, h₅, he, hu, beNat_beBytes32, clearToCapacity, reread]

/-- A snapshot reads back as the table it was written from, with the load factors of the reader,
    if the counts fit the header. -/
theorem InternalBuffers.readFrom_writeTo {t : InternalBuffers φ} {stream : List Response}
    (hlen : t.e164sBuffer.length = t.uuidsBuffer.length) (hcap : t.capacity < 2 ^ 32) (helem : t.elementCount < 2 ^ 32)
    (hused : t.usedSlotCount < 2 ^ 32) (h : Delivers stream t.writeTo) (t₀ : InternalBuffers φ) :
    t₀.readFrom stream =
      (.ok (), { t with minLoadFactor := t₀.minLoadFactor, maxLoadFactor := t₀.maxLoadFactor }) := by
  rw [← List.append_nil t.writeTo] at h
  obtain ⟨rest, hread, -⟩ := readFromBy_writeTo hlen hcap h.deliversThen t₀
  simp only [readFrom, hread, reread, Nat.mod_eq_of_lt helem, Nat.mod_eq_of_lt hused]

end ContactDiscovery.Directory
