/-
  ContactDiscovery.Enclave.HashLookup — the oblivious lookup: `cds-enclave-hash.rs` and the
  retry loop around it in `ffi/hash_lookup.rs`.

  A hash slot is a chain of four blocks of four 64-bit lanes. Lane 0 of each block is a dummy
  that is never written, so a chain stores up to twelve query phones. The chain of each slot
  is built by running over all query phones without a branch: a lane takes every phone while
  its mask lane is negative, the masks count insertions, and what is left open at the end is
  filled with ones. The directory is then run over once (`cdsContructHash`), each entry
  writing its uuid into the result lanes of its slot that hold its phone; each query phone
  collects the or of the result lanes that hold it, over all slots.

  The AES hash is a parameter, any function from a key and a phone to 32 bits; the key of an
  attempt is `none` when `HashKey::generate` gave up. Arithmetic wraps, as in the release
  build, where the `debug_assert!` of the retry loop does nothing.
-/

import ContactDiscovery.Lib.Simd
import ContactDiscovery.Enclave.Types

namespace ContactDiscovery.Enclave.HashLookup

open Lib Lib.Simd

abbrev HashSlot := Fin 4 → M256i

abbrev HashSlotResult := Fin 4 → Fin 2 → M256i

inductive CdsHashLookupError where
  | invalidParameter
  | rdRand
  | hashTableOverflow
  deriving DecidableEq, Repr

def CDS_HASH_LOOKUP_SUCCESS : BitVec 32 := 0
def CDS_HASH_LOOKUP_ERROR_INVALID_PARAMETER : BitVec 32 := 1
def CDS_HASH_LOOKUP_ERROR_RDRAND : BitVec 32 := 2
def CDS_HASH_LOOKUP_ERROR_HASH_TABLE_OVERFLOW : BitVec 32 := 3

def CdsHashLookupError.code : CdsHashLookupError → BitVec 32
  | .invalidParameter => CDS_HASH_LOOKUP_ERROR_INVALID_PARAMETER
  | .rdRand => CDS_HASH_LOOKUP_ERROR_RDRAND
  | .hashTableOverflow => CDS_HASH_LOOKUP_ERROR_HASH_TABLE_OVERFLOW

def CHAIN_BLOCK_COUNT : Nat := 4
def CHAIN_BLOCK_PHONE_COUNT : Nat := 32 / BYTES_PER_PHONE
def CHAIN_PHONE_COUNT : BitVec 32 := BitVec.ofNat 32 (CHAIN_BLOCK_COUNT * CHAIN_BLOCK_PHONE_COUNT)
def CACHE_LINE_PHONES : Nat := 32 / BYTES_PER_PHONE
def PREFETCH_PHONES_DIST : Nat := CACHE_LINE_PHONES * 2

/-- `u64::MAX as i64`. -/
def UINT64_MAX : BitVec 64 := BitVec.allOnes 64

def chainBlockDummyMask : M256i := setEpi64x 0 0 0 UINT64_MAX
def chainBlockNonDummyMask : M256i := setEpi64x UINT64_MAX UINT64_MAX UINT64_MAX 0

section Hash

variable {K : Type} (aes : K → Phone → BitVec 32)

/-- `HashKey::hash`: the low word of the phone's AES block, cut to the table's order. -/
def hash (hashKey : K) (phone : Phone) (hashTableOrder : Nat) : BitVec 32 :=
  aes hashKey phone &&& ((1#32 <<< hashTableOrder) - 1)

/-! ## Chains -/

/-- What the loop over the query phones keeps for one slot. -/
structure Chain where
  blocks : Fin 4 → M256i
  masks : Fin 4 → M256i
  idx : BitVec 32

def Chain.start : Chain where
  blocks := fun _ => setzeroSi256
  masks
    | 0 => setEpi64x (UINT64_MAX - 0) (UINT64_MAX - 1) (UINT64_MAX - 2) 0
    | 1 => setEpi64x (UINT64_MAX - 3) (UINT64_MAX - 4) (UINT64_MAX - 5) 0
    | 2 => setEpi64x (UINT64_MAX - 6) (UINT64_MAX - 7) (UINT64_MAX - 8) 0
    | 3 => setEpi64x (UINT64_MAX - 9) (UINT64_MAX - 10) (UINT64_MAX - 11) 0
  idx := 0

/-- One when the two indices are equal, else zero: the difference minus one borrows past
    bit 32 only from zero. -/
def hashSlotMatches (abPhoneHashSlotIdx : BitVec 32) (hashSlotIdx : Nat) : BitVec 64 :=
  (((abPhoneHashSlotIdx.setWidth 64 ^^^ BitVec.ofNat 64 hashSlotIdx) - 1) >>> 32) &&& 1

/-- One query phone's turn at a slot's chain. -/
def Chain.push (hashKey : K) (hashTableOrder hashSlotIdx : Nat) (c : Chain) (abPhone : Phone) : Chain :=
  let abPhoneBlock := set1Epi64x abPhone
  let hashSlotMatches := hashSlotMatches (hash aes hashKey abPhone hashTableOrder) hashSlotIdx
  let chainEq := cmpeqEpi64 abPhoneBlock (c.blocks 0)
  let chainEq := orSi256 chainEq (cmpeqEpi64 abPhoneBlock (c.blocks 1))
  let chainEq := orSi256 chainEq (cmpeqEpi64 abPhoneBlock (c.blocks 2))
  let chainEq := orSi256 chainEq (cmpeqEpi64 abPhoneBlock (c.blocks 3))
  let phoneNotInChain := testzPd chainEq chainEq
  let shouldInsertPhone : BitVec 64 := hashSlotMatches &&& (if phoneNotInChain then 1 else 0)
  { blocks := fun b => blendvPd (c.blocks b) abPhoneBlock (c.masks b)
    masks := fun b => addEpi64 (c.masks b) (set1Epi64x shouldInsertPhone)
    idx := c.idx + shouldInsertPhone.setWidth 32 }

/-- The chain values written out for a slot: what is still open is masked out with ones. -/
def Chain.hashSlot (c : Chain) : HashSlot := fun b => blendvPd (c.blocks b) (set1Epi64x UINT64_MAX) (c.masks b)

def Chain.overflowed (c : Chain) : Bool := CHAIN_PHONE_COUNT < c.idx

def chainOf (hashKey : K) (hashTableOrder : Nat) (abPhones : List Phone) (hashSlotIdx : Nat) : Chain :=
  abPhones.foldl (Chain.push aes hashKey hashTableOrder hashSlotIdx) Chain.start

/-! ## The directory pass -/

def hashPhoneChainBlock (chainResults : HashSlotResult) (inUuidBlocks : Fin 2 → M256i) (chainEq : Fin 4 → M256i)
    (chainBlockIdx : Fin 4) : HashSlotResult :=
  Function.update chainResults chainBlockIdx fun w =>
    blendvEpi8 (xorSi256 (chainResults chainBlockIdx w) chainBlockDummyMask) (inUuidBlocks w) (chainEq chainBlockIdx)

def hashPhone (hashKey : K) (hashTableOrder : Nat) (hashSlots : List HashSlot) (hashSlotResults : List HashSlotResult)
    (entry : Phone × Uuid) : List HashSlotResult :=
  let inPhoneBlock := orSi256 (set1Epi64x entry.1) chainBlockDummyMask
  let inPhoneHashSlotIdx := (hash aes hashKey entry.1 hashTableOrder).toNat
  let hashSlot := hashSlots.getD inPhoneHashSlotIdx fun _ => setzeroSi256
  let chainEq := fun b => cmpeqEpi64 inPhoneBlock (hashSlot b)
  let inUuidBlocks := fun w => set1Epi64x (entry.2.data64 w)
  hashSlotResults.modify inPhoneHashSlotIdx fun chainResults =>
    let chainResults := hashPhoneChainBlock chainResults inUuidBlocks chainEq 0
    let chainResults := hashPhoneChainBlock chainResults inUuidBlocks chainEq 1
    let chainResults := hashPhoneChainBlock chainResults inUuidBlocks chainEq 2
    hashPhoneChainBlock chainResults inUuidBlocks chainEq 3

/-- The loop takes a cache line of phones at a time while it can prefetch ahead, then the
    rest. -/
def cdsContructHash (hashKey : K) (hashTableOrder : Nat) (hashSlots : List HashSlot)
    (inPhonesUuids : List (Phone × Uuid)) (hashSlotResults : List HashSlotResult) : List HashSlotResult :=
  if PREFETCH_PHONES_DIST + CACHE_LINE_PHONES < inPhonesUuids.length then
    cdsContructHash hashKey hashTableOrder hashSlots (inPhonesUuids.drop CACHE_LINE_PHONES)
      ((inPhonesUuids.take CACHE_LINE_PHONES).foldl (hashPhone aes hashKey hashTableOrder hashSlots) hashSlotResults)
  else inPhonesUuids.foldl (hashPhone aes hashKey hashTableOrder hashSlots) hashSlotResults
termination_by inPhonesUuids.length
decreasing_by
  simp only [CACHE_LINE_PHONES, PREFETCH_PHONES_DIST, BYTES_PER_PHONE, List.length_drop] at *; omega

/-! ## Collecting the results -/

def hashSlotCollectResult (chainResults : HashSlotResult) (chainEq : Fin 4 → M256i) (uuidData64Idx : Fin 2) :
    BitVec 64 :=
  let chainResult := setzeroSi256
  let chainResult := blendvEpi8 chainResult (chainResults 0 uuidData64Idx) (chainEq 0)
  let chainResult := blendvEpi8 chainResult (chainResults 1 uuidData64Idx) (chainEq 1)
  let chainResult := blendvEpi8 chainResult (chainResults 2 uuidData64Idx) (chainEq 2)
  let chainResult := blendvEpi8 chainResult (chainResults 3 uuidData64Idx) (chainEq 3)
  extractEpi64 chainResult 0 ||| extractEpi64 chainResult 1 ||| extractEpi64 chainResult 2 |||
    extractEpi64 chainResult 3

/-- The lanes of a slot that hold the phone, the dummies read as zero. -/
def abChainEq (abPhone : Phone) (hashSlot : HashSlot) : Fin 4 → M256i := fun b =>
  cmpeqEpi64 (set1Epi64x abPhone) (andSi256 (hashSlot b) chainBlockNonDummyMask)

def abPhoneResult (hashSlots : List HashSlot) (hashSlotResults : List HashSlotResult) (abPhone : Phone) : Uuid :=
  (hashSlots.zip hashSlotResults).foldl
    (fun r s => ⟨fun w => r.data64 w ||| hashSlotCollectResult s.2 (abChainEq abPhone s.1) w⟩) Uuid.zero

/-- The results written over the chunks of the result buffer. -/
def storeResults (result : Phone → Uuid) : List Phone → List Byte → List Byte
  | abPhone :: abPhones, inAbPhoneResult@(_ :: _) =>
    (result abPhone).bytes ++ storeResults result abPhones (inAbPhoneResult.drop BYTES_PER_UUID)
  | _, abPhoneResults => abPhoneResults

/-- The dummy values the result table is left with. -/
def eraseResult (chainResult : HashSlotResult) : HashSlotResult := fun b w =>
  xorSi256 (andSi256 (chainResult b w) chainBlockDummyMask) chainBlockDummyMask

/-! ## The lookup -/

structure Buffers where
  abPhoneResults : List Byte
  hashSlots : List HashSlot
  hashSlotResults : List HashSlotResult

def trailingZeros (n : Nat) : Nat := ((List.range 64).find? n.testBit).getD 64

def isPowerOfTwo (n : Nat) : Bool := (List.range 64).any fun k => n == 2 ^ k

def hashLookup (hashKey : Option K) (inPhonesUuids : List (Phone × Uuid)) (abPhones : List Phone) (s : Buffers) :
    Except CdsHashLookupError Unit × Buffers :=
  let hashTableOrder := trailingZeros s.hashSlots.length
  if hashTableOrder ≥ 32 ∨ ¬ isPowerOfTwo s.hashSlots.length then (.error .invalidParameter, s)
  else
    match hashKey with
    | none => (.error .rdRand, s)
    | some hashKey =>
      let chain := chainOf aes hashKey hashTableOrder abPhones
      let hashSlots := s.hashSlots.mapIdx fun hashSlotIdx _ => (chain hashSlotIdx).hashSlot
      if (List.range s.hashSlots.length).any fun hashSlotIdx => (chain hashSlotIdx).overflowed then
        (.error .hashTableOverflow, { s with hashSlots := hashSlots })
      else
        let hashSlotResults := cdsContructHash aes hashKey hashTableOrder hashSlots inPhonesUuids s.hashSlotResults
        (.ok (),
          { abPhoneResults := storeResults (abPhoneResult hashSlots hashSlotResults) abPhones s.abPhoneResults
            hashSlots := hashSlots.map fun _ _ => setzeroSi256
            hashSlotResults := hashSlotResults.map eraseResult })

def cdsHashLookup (hashKey : Option K) (inPhonesUuids : List (Phone × Uuid)) (abPhones : List Phone) (s : Buffers) :
    BitVec 32 × Buffers :=
  match hashLookup aes hashKey inPhonesUuids abPhones s with
  | (.ok (), s') => (CDS_HASH_LOOKUP_SUCCESS, s')
  | (.error error, s') => (error.code, s')

/-! ## The retry loop of `ffi/hash_lookup.rs` -/

def MAX_HASH_TABLE_ORDER : Nat := 13
def MAX_HASH_TABLE_SIZE : Nat := 1 <<< MAX_HASH_TABLE_ORDER

def checkedNextPowerOfTwo (n : Nat) : Option Nat := ((List.range 64).map (2 ^ ·)).find? (n ≤ ·)

/-- The loop `for _ in 0..128`, with the key `keys i` drawn in round `i`. -/
def retry (keys : Nat → Option K) (inPhonesUuids : List (Phone × Uuid)) (queryPhones : List Phone) :
    Nat → Nat → Buffers → Except SgxStatus Unit × Buffers
  | 0, _, s => (.error .unexpected, s)
  | n + 1, i, s =>
    let r := cdsHashLookup aes (keys i) inPhonesUuids queryPhones s
    if r.1 = CDS_HASH_LOOKUP_SUCCESS then (.ok (), r.2)
    else if r.1 = CDS_HASH_LOOKUP_ERROR_INVALID_PARAMETER then (.error .unexpected, r.2)
    else if r.1 = CDS_HASH_LOOKUP_ERROR_RDRAND then (.error .unexpected, r.2)
    else if r.1 = CDS_HASH_LOOKUP_ERROR_HASH_TABLE_OVERFLOW then retry keys inPhonesUuids queryPhones n (i + 1) r.2
    else (.error .unexpected, r.2)

/-- The tables `new_vec_memset_s` zeroes, and the result bytes filled with ones. -/
def freshBuffers (hashTableSlotCount resultBytes : Nat) : Buffers where
  abPhoneResults := List.replicate resultBytes 0xff
  hashSlots := List.replicate hashTableSlotCount fun _ => setzeroSi256
  hashSlotResults := List.replicate hashTableSlotCount fun _ _ => setzeroSi256

def ffiHashLookup (keys : Nat → Option K) (inPhonesUuids : List (Phone × Uuid)) (queryPhones : List Phone)
    (queryPhoneResults : List Byte) : Except SgxStatus Unit × List Byte :=
  match checkedNextPowerOfTwo queryPhones.length with
  | none => (.error .invalidParameter, queryPhoneResults)
  | some hashTableSlotCount =>
    if hashTableSlotCount > MAX_HASH_TABLE_SIZE then (.error .invalidParameter, queryPhoneResults)
    else if queryPhones.isEmpty then (.ok (), queryPhoneResults)
    else if queryPhoneResults.length ≠ queryPhones.length * BYTES_PER_UUID then
      (.error .invalidParameter, queryPhoneResults)
    else
      let r := retry aes keys inPhonesUuids queryPhones 128 0 (freshBuffers hashTableSlotCount queryPhoneResults.length)
      (r.1, r.2.abPhoneResults)

end Hash

end ContactDiscovery.Enclave.HashLookup
