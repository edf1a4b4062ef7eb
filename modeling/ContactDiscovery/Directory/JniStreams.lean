/-
  ContactDiscovery.Directory.JniStreams — the Java streams as Rust readers and writers
  (`directory_map_native/io.rs`), under the loops of `read_exact` and `write_all`.

  An adapter has a Java array of its own, at most 32 KiB, that it grows and uses again; a read asks
  for no more than the array holds, and a write hands the bytes over in arrays of at most that size. A
  read of no bytes is `Interrupted`, which `read_exact` retries, and the end of the stream is a read
  of length zero. Java arrays are always allocated; a call of either stream may throw.

  Proved: `JNIRead.readExact_eq`, the adapter under `read_exact` reads what `readExact` reads of the
  stream, to the same rest; `writeTo_chunks`, what `write_to` hands over is the table's bytes, in
  arrays that are not empty.
-/

import ContactDiscovery.Directory.Snapshot

namespace ContactDiscovery.Directory

open Lib
open Enclave (Uuid)

def MAX_BUFFER_SIZE : Nat := 32 * 1024

/-- `ensure_buffer_capacity`: the array to use. -/
def ensureBufferCapacity (buffer : Option (List Byte)) (capacity : Nat) : List Byte :=
  match buffer with
  | none => List.replicate capacity 0
  | some array => if array.length ≥ capacity then array else List.replicate capacity 0

/-! ## Reading -/

/-- `InputStream.read` of up to `len` bytes into an array: what it returns, the array, and what is left
    of the stream; `none` is an exception. -/
def inputStreamRead (array : List Byte) (len : Nat) : List Response → Option (Int × List Byte) × List Response
  | [] => (some (-1, array), [])
  | .fail :: stream => (none, stream)
  | .data b :: stream =>
    if b.length ≤ len then (some (b.length, b ++ array.drop b.length), stream)
    else (some (len, b.take len ++ array.drop len), .data (b.drop len) :: stream)

inductive ReadError where
  | interrupted
  | io (kind : IoErrorKind)

structure JNIRead where
  inputStream : List Response
  buffer : Option (List Byte)

/-- The bytes put at the front of a buffer of `len`. -/
def JNIRead.read (r : JNIRead) (len : Nat) : Except ReadError (List Byte) × JNIRead :=
  let maxToRead := min len MAX_BUFFER_SIZE
  if maxToRead = 0 then (.ok [], r)
  else
    match inputStreamRead (ensureBufferCapacity r.buffer maxToRead) maxToRead r.inputStream with
    | (none, stream) => (.error (.io .other), ⟨stream, some (ensureBufferCapacity r.buffer maxToRead)⟩)
    | (some (read, array), stream) =>
      let r := ⟨stream, some array⟩
      if read = 0 then (.error .interrupted, r)
      else if read = -1 then (.ok [], r)
      else
        -- `read as usize`
        let readu := (BitVec.ofInt 64 read).toNat
        if readu > maxToRead then (.error (.io .other), r) else (.ok (array.take readu), r)

def readOnce (len : Nat) : List Response → Except ReadError (List Byte) × List Response
  | [] => (.ok [], [])
  | .fail :: stream => (.error (.io .other), stream)
  | .data [] :: stream => (.error .interrupted, stream)
  | .data (x :: b) :: stream =>
    if b.length + 1 ≤ len then (.ok (x :: b), stream)
    else (.ok ((x :: b).take len), .data ((x :: b).drop len) :: stream)

/-- The array does not show. -/
theorem JNIRead.read_eq (r : JNIRead) {len : Nat} (hlen : len ≠ 0) :
    ((r.read len).1, (r.read len).2.inputStream) = readOnce (min len MAX_BUFFER_SIZE) r.inputStream := by
  have hmax : min len MAX_BUFFER_SIZE ≤ 32768 := min_le_right _ _
  have hpos : min len MAX_BUFFER_SIZE ≠ 0 := by
    have : MAX_BUFFER_SIZE = 32768 := rfl
    omega
  unfold read
  simp only [if_neg hpos]
  generalize min len MAX_BUFFER_SIZE = m at hmax hpos
  generalize ensureBufferCapacity r.buffer m = array
  -- a count from 1 to `m` passes the checks as it is
  have hcount : ∀ k : Nat, k ≤ m → (BitVec.ofInt 64 (k : Int)).toNat = k := by
    intro k hk
    rw [BitVec.ofInt_natCast, BitVec.toNat_ofNat]; omega
  match r.inputStream with
  | [] => rfl
  | .fail :: stream => rfl
  | .data [] :: stream => simp [inputStreamRead, readOnce]
  | .data (x :: b) :: stream =>
    simp only [inputStreamRead, readOnce, List.length_cons]
    by_cases hb : b.length + 1 ≤ m
    · simp only [if_pos hb]
      rw [if_neg (by omega), if_neg (by omega), hcount _ hb, if_neg (by omega), @List.take_left' _ (x :: b) _ (b.length + 1) rfl]
    · simp only [if_neg hb]
      rw [if_neg (by omega), if_neg (by omega), hcount _ le_rfl, if_neg (by omega), List.take_left' ?_]
      rw [List.length_take, List.length_cons]; omega

/-- A read leaves no more of the stream than there was, and less if it is to be retried; what it
    returns fits. -/
theorem readOnce_length (len : Nat) (stream : List Response) :
    (readOnce len stream).2.length ≤ stream.length ∧
    ((readOnce len stream).1 = .error .interrupted → (readOnce len stream).2.length < stream.length) ∧
    ∀ b, (readOnce len stream).1 = .ok b → b.length ≤ len := by
  unfold readOnce
  split
  · exact ⟨le_rfl, nofun, fun b h => by cases h; exact Nat.zero_le _⟩
  · exact ⟨Nat.le_succ _, nofun, nofun⟩
  · exact ⟨Nat.le_succ _, fun _ => Nat.lt_succ_self _, nofun⟩
  · split
    · rename_i hb
      exact ⟨Nat.le_succ _, nofun, fun b h => by cases h; exact hb⟩
    · exact ⟨le_rfl, nofun, fun b h => by cases h; exact List.length_take_le _ _⟩

theorem JNIRead.read_length {r r' : JNIRead} {len : Nat} {a : Except ReadError (List Byte)} (hlen : len ≠ 0)
    (h : r.read len = (a, r')) :
    r'.inputStream.length ≤ r.inputStream.length ∧
    (a = .error .interrupted → r'.inputStream.length < r.inputStream.length) := by
  have heq := r.read_eq hlen
  rw [h] at heq
  have hl := readOnce_length (min len MAX_BUFFER_SIZE) r.inputStream
  rw [← heq] at hl
  exact ⟨hl.1, hl.2.1⟩

/-- `read_exact` for `n` bytes: those read, the reader, and the error that ended it early. -/
def JNIRead.readExact (n : Nat) (r : JNIRead) : List Byte × JNIRead × Option IoErrorKind :=
  if _hn : n = 0 then ([], r, none)
  else
    match _h : r.read n with
    | (.ok [], r') => ([], r', some .unexpectedEof)
    | (.ok (x :: b), r') =>
      let (rest, r'', err) := JNIRead.readExact (n - (b.length + 1)) r'
      (x :: b ++ rest, r'', err)
    | (.error .interrupted, r') => JNIRead.readExact n r'
    | (.error (.io e), r') => ([], r', some e)
termination_by n + r.inputStream.length
decreasing_by
  · have := (JNIRead.read_length _hn _h).1
    omega
  · have := (JNIRead.read_length _hn _h).2 rfl
    omega

theorem readExact_cut {n k : Nat} {b : List Byte} (hk : k ≤ n) (hkb : k < b.length) (stream : List Response) :
    readExact n (.data b :: stream) =
      (b.take k ++ (readExact (n - k) (.data (b.drop k) :: stream)).1, (readExact (n - k) (.data (b.drop k) :: stream)).2) := by
  cases n with
  | zero =>
    obtain rfl : k = 0 := by omega
    rfl
  | succ n =>
    rcases hk.eq_or_lt with rfl | hlt
    · rw [Nat.sub_self, readExact, readExact, if_neg (by omega), List.append_nil]
    · obtain ⟨m, hm⟩ : ∃ m, n + 1 - k = m + 1 := ⟨n - k, by omega⟩
      rw [hm, readExact, readExact, List.length_drop]
      by_cases hb : b.length ≤ n + 1
      · rw [if_pos hb, if_pos (by omega), show m + 1 - (b.length - k) = n + 1 - b.length by omega]
        rw [← List.append_assoc, List.take_append_drop]
      · rw [if_neg hb, if_neg (by omega), List.drop_drop, ← hm, show k + (n + 1 - k) = n + 1 by omega]
        have htake : b.take (n + 1) = b.take k ++ (b.drop k).take (n + 1 - k) := by
          conv_lhs => rw [show n + 1 = k + (n + 1 - k) by omega, List.take_add]
        rw [htake]

theorem readExact_readOnce {n m : Nat} (hm : m ≤ n) (hpos : m ≠ 0) (stream : List Response) :
    readExact n stream =
      match readOnce m stream with
      | (.ok [], s) => ([], s, some .unexpectedEof)
      | (.ok (x :: b), s) => (x :: b ++ (readExact (n - (b.length + 1)) s).1, (readExact (n - (b.length + 1)) s).2)
      | (.error .interrupted, s) => readExact n s
      | (.error (.io e), s) => ([], s, some e) := by
  obtain ⟨n, rfl⟩ : ∃ k, n = k + 1 := ⟨n - 1, by omega⟩
  match stream with
  | [] => rfl
  | .fail :: stream => rfl
  | .data [] :: stream =>
    show readExact (n + 1) (.data [] :: stream) = readExact (n + 1) stream
    rw [readExact, List.length_nil, if_pos (Nat.zero_le _), Nat.sub_zero]
    rfl
  | .data (x :: b) :: stream =>
    rw [readOnce]
    by_cases hb : b.length + 1 ≤ m
    · rw [if_pos hb]
      show readExact (n + 1) (.data (x :: b) :: stream) = _
      rw [readExact, List.length_cons, if_pos (by omega)]
    · rw [if_neg hb]
      obtain ⟨m, rfl⟩ : ∃ k, m = k + 1 := ⟨m - 1, by omega⟩
      show _ = (x :: b.take m ++ _, _)
      have hlen : (b.take m).length + 1 = m + 1 := by rw [List.length_take]; omega
      rw [hlen, readExact_cut hm (by rw [List.length_cons]; omega)]
      rfl

theorem JNIRead.readExact_eq (n : Nat) (r : JNIRead) :
    ((r.readExact n).1, (r.readExact n).2.1.inputStream, (r.readExact n).2.2) = Directory.readExact n r.inputStream := by
  -- the induction follows the loop: each turn reads, or drops an empty piece of the stream
  fun_induction JNIRead.readExact n r with
  | case1 r => rw [Directory.readExact]
  | case2 n r hn r' h =>
    have hread := r.read_eq hn
    rw [h] at hread
    rw [readExact_readOnce (min_le_left n MAX_BUFFER_SIZE) (by rw [MAX_BUFFER_SIZE]; omega), ← hread]
  | case3 n r hn x b r' h rest r'' err hrest ih =>
    have hread := r.read_eq hn
    rw [h] at hread
    rw [readExact_readOnce (min_le_left n MAX_BUFFER_SIZE) (by rw [MAX_BUFFER_SIZE]; omega), ← hread]
    rw [hrest] at ih
    simp only [← ih]
  | case4 n r hn r' h ih =>
    have hread := r.read_eq hn
    rw [h] at hread
    rw [readExact_readOnce (min_le_left n MAX_BUFFER_SIZE) (by rw [MAX_BUFFER_SIZE]; omega), ← hread]
    exact ih
  | case5 n r hn e r' h =>
    have hread := r.read_eq hn
    rw [h] at hread
    rw [readExact_readOnce (min_le_left n MAX_BUFFER_SIZE) (by rw [MAX_BUFFER_SIZE]; omega), ← hread]

variable {φ : Type}

/-! ## Writing -/

inductive WriteError where
  | writeZero
  | other

/-- The arrays handed to `OutputStream.write`, in order. -/
structure JNIWrite where
  outputStream : List (List Byte)
  buffer : Option (List Byte)

/-- `throws i` is that the `i`-th call of the stream throws. -/
def JNIWrite.write (throws : Nat → Bool) (w : JNIWrite) (buf : List Byte) : Except WriteError Nat × JNIWrite :=
  let maxToWrite := min buf.length MAX_BUFFER_SIZE
  if maxToWrite = 0 then (.ok 0, w)
  else
    let array := buf.take maxToWrite ++ (ensureBufferCapacity w.buffer maxToWrite).drop maxToWrite
    if throws w.outputStream.length then (.error .other, ⟨w.outputStream, some array⟩)
    else (.ok maxToWrite, ⟨w.outputStream ++ [array.take maxToWrite], some array⟩)

theorem JNIWrite.write_ok {throws : Nat → Bool} {w : JNIWrite} {buf : List Byte} (hbuf : buf ≠ [])
    (hok : throws w.outputStream.length = false) :
    (w.write throws buf).1 = .ok (min buf.length MAX_BUFFER_SIZE) ∧
    (w.write throws buf).2.outputStream = w.outputStream ++ [buf.take (min buf.length MAX_BUFFER_SIZE)] := by
  have hpos := List.length_pos_of_ne_nil hbuf
  have hmax : MAX_BUFFER_SIZE = 32768 := rfl
  unfold write
  simp only
  rw [if_neg (by omega), hok, if_neg Bool.false_ne_true]
  refine ⟨rfl, ?_⟩
  simp only
  rw [List.take_left' (by rw [List.length_take]; omega)]

def JNIWrite.writeAll (throws : Nat → Bool) (w : JNIWrite) (buf : List Byte) : Except WriteError Unit × JNIWrite :=
  if _hb : buf = [] then (.ok (), w)
  else
    match w.write throws buf with
    | (.error e, w') => (.error e, w')
    | (.ok n, w') => if _hn : n = 0 then (.error .writeZero, w') else JNIWrite.writeAll throws w' (buf.drop n)
termination_by buf.length
decreasing_by
  have := List.length_pos_of_ne_nil _hb
  rw [List.length_drop]; omega

/-- The calls of `write_all`, up to the first that fails. -/
def JNIWrite.writeEach (throws : Nat → Bool) : List (List Byte) → JNIWrite → Except WriteError Unit × JNIWrite
  | [], w => (.ok (), w)
  | buf :: bufs, w =>
    match w.writeAll throws buf with
    | (.error e, w') => (.error e, w')
    | (.ok (), w') => writeEach throws bufs w'

def InternalBuffers.writeToJni (t : InternalBuffers φ) (throws : Nat → Bool) (w : JNIWrite) :
    Except WriteError Unit × JNIWrite :=
  w.writeEach throws [beBytes32 t.capacity, beBytes32 t.elementCount, beBytes32 t.usedSlotCount,
    t.e164sBuffer.flatMap leBytes, t.uuidsBuffer.flatMap Uuid.bytes]

/-- `w'` handed over the bytes after what `w` had, in arrays the adapter makes. -/
def Wrote (w w' : JNIWrite) (bytes : List Byte) : Prop :=
  ∃ arrays, w'.outputStream = w.outputStream ++ arrays ∧ arrays.flatten = bytes ∧
    ∀ a ∈ arrays, a ≠ [] ∧ a.length ≤ MAX_BUFFER_SIZE

theorem Wrote.trans {w₁ w₂ w₃ : JNIWrite} {a b : List Byte} (h₁ : Wrote w₁ w₂ a) (h₂ : Wrote w₂ w₃ b) :
    Wrote w₁ w₃ (a ++ b) := by
  obtain ⟨as, hs, rfl, has⟩ := h₁
  obtain ⟨bs, hs', rfl, hbs⟩ := h₂
  refine ⟨as ++ bs, by rw [hs', hs, List.append_assoc], List.flatten_append, fun x hx => ?_⟩
  rcases List.mem_append.mp hx with hx | hx
  · exact has x hx
  · exact hbs x hx

theorem JNIWrite.writeAll_wrote {throws : Nat → Bool} (hok : ∀ i, throws i = false) (w : JNIWrite) (buf : List Byte) :
    (w.writeAll throws buf).1 = .ok () ∧ Wrote w (w.writeAll throws buf).2 buf := by
  fun_induction JNIWrite.writeAll throws w buf with
  | case1 w => exact ⟨rfl, [], (List.append_nil _).symm, rfl, nofun⟩
  | case2 w buf hb e w' h =>
    have hw := (@write_ok throws w buf hb (hok _)).1
    rw [h] at hw
    cases hw
  | case3 w buf hb w' h =>
    have hw := (@write_ok throws w buf hb (hok _)).1
    rw [h] at hw
    have hpos := List.length_pos_of_ne_nil hb
    have hmax : MAX_BUFFER_SIZE = 32768 := rfl
    have h0 : 0 = min buf.length MAX_BUFFER_SIZE := Except.ok.inj hw
    omega
  | case4 w buf hb n w' h hn ih =>
    obtain ⟨hw, hout⟩ := @write_ok throws w buf hb (hok _)
    rw [h] at hw hout
    have hlen : n = min buf.length MAX_BUFFER_SIZE := Except.ok.inj hw
    have hfirst : Wrote w w' (buf.take n) := by
      refine ⟨[buf.take n], by rw [hlen]; exact hout, by simp, fun a ha => ?_⟩
      rw [List.mem_singleton.mp ha, ← List.length_pos_iff, List.length_take]
      omega
    refine ⟨ih.1, ?_⟩
    have := hfirst.trans ih.2
    rwa [List.take_append_drop] at this

theorem JNIWrite.writeEach_wrote {throws : Nat → Bool} (hok : ∀ i, throws i = false) :
    ∀ (bufs : List (List Byte)) (w : JNIWrite),
      (w.writeEach throws bufs).1 = .ok () ∧ Wrote w (w.writeEach throws bufs).2 bufs.flatten := by
  intro bufs
  induction bufs with
  | nil => intro w; exact ⟨rfl, [], (List.append_nil _).symm, rfl, nofun⟩
  | cons buf bufs ih =>
    intro w
    obtain ⟨hone, hwrote⟩ := JNIWrite.writeAll_wrote hok w buf
    rcases h : w.writeAll throws buf with ⟨_ | _, w'⟩
    · rw [h] at hone; cases hone
    · rw [h] at hwrote
      simp only [writeEach, h]
      exact ⟨(ih w').1, hwrote.trans (ih w').2⟩

/-- A stream that throws nothing gets the table's bytes. -/
theorem InternalBuffers.writeTo_chunks {throws : Nat → Bool} (hok : ∀ i, throws i = false) (t : InternalBuffers φ) (w : JNIWrite) :
    (t.writeToJni throws w).1 = .ok () ∧ Wrote w (t.writeToJni throws w).2 t.writeTo := by
  have h := JNIWrite.writeEach_wrote hok [beBytes32 t.capacity, beBytes32 t.elementCount, beBytes32 t.usedSlotCount,
    t.e164sBuffer.flatMap leBytes, t.uuidsBuffer.flatMap Uuid.bytes] w
  simp only [List.flatten_cons, List.flatten_nil, List.append_nil] at h
  exact h

end ContactDiscovery.Directory
