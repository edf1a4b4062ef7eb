/-
  ContactDiscovery.Directory.InternalBuffers — the native directory table
  (`directory_map_native/internal_buffers.rs`): a hash table with linear probing and tombstones
  over two buffers, keys and uuids stored big-endian.

  `none` is a panic: mismatching buffers, a slot count of zero, a full table, or an allocation
  over `isize::MAX` bytes. What the code computes from the load factors, in floating point, is a
  class (`LoadFactor`): its comparisons, and the two counts it rounds. Buffers have the capacity
  asked for.
-/

import ContactDiscovery.Enclave.Types
import ContactDiscovery.Lib.Assoc
import ContactDiscovery.Lib.Probe

namespace ContactDiscovery.Directory

open Lib Lib.Probe
open Enclave (Phone Uuid)

def FREE_E164 : Phone := 0
def DELETED_E164 : Phone := 0xFFFFFFFFFFFFFFFF
def FREE_UUID : Uuid := Uuid.zero

/-- A load factor, an `f32`. -/
class LoadFactor (φ : Type) where
  /-- `x > 1.0`. -/
  gtOne : φ → Bool
  /-- `x < 0.0`. -/
  ltZero : φ → Bool
  /-- `x >= y`. -/
  ge : φ → φ → Bool
  /-- `(n as f64 / x as f64) as usize`. -/
  quotient : Nat → φ → Nat
  /-- `(n as f64 * x as f64) as usize`. -/
  product : Nat → φ → Nat

/-- Load factors as exact rationals; `as usize` truncates, saturates and takes NaN to 0. -/
instance : LoadFactor ℚ where
  gtOne x := 1 < x
  ltZero x := x < 0
  ge x y := y ≤ x
  quotient n x := if x = 0 then (if n = 0 then 0 else 2 ^ 64 - 1) else min ⌊n / x⌋₊ (2 ^ 64 - 1)
  product n x := min ⌊n * x⌋₊ (2 ^ 64 - 1)

inductive IoErrorKind where
  | unexpectedEof
  | other
  deriving DecidableEq, Repr

inductive InternalBuffersError (φ : Type) where
  | invalidE164 (e164 : Phone)
  | bufferFull (elementCount capacity : Nat)
  | invalidMinimumLoadFactor (x : φ)
  | invalidMaximumLoadFactor (x : φ)
  | invalidLoadFactorTuple (x y : φ)
  | ioError (kind : IoErrorKind)
  deriving DecidableEq, Repr

structure InternalBuffers (φ : Type) where
  minLoadFactor : φ
  maxLoadFactor : φ
  elementCount : Nat
  usedSlotCount : Nat
  e164sBuffer : List Phone
  uuidsBuffer : List Uuid
  deriving DecidableEq

/-- The big-endian form of a uuid's words, and back. -/
def swapUuid (uuid : Uuid) : Uuid := ⟨fun w => bswap (uuid.data64 w)⟩

@[simp] theorem swapUuid_swapUuid (u : Uuid) : swapUuid (swapUuid u) = u := by
  simp only [swapUuid, bswap_bswap]

/-! ## The buffers -/

def hashElement (slotCount : Nat) (e164 : Phone) : Nat := e164.toNat % slotCount

/-- Where a walk for a slot to write ends: at the key, or at a slot that is free or deleted. -/
inductive Slot where
  | key (i : Nat)
  | vacant (i : Nat)

/-- The first loop of `add_to_buffer`. -/
def vacantTest (e164s : List Phone) (key : Phone) (i : Nat) : Option Slot :=
  let e164 := e164s.getD i FREE_E164
  if e164 = FREE_E164 ∨ e164 = DELETED_E164 then some (.vacant i) else if e164 = key then some (.key i) else none

/-- Its second loop, and the loop of `remove_from_buffer`: free slots end the walk. -/
def presentTest (e164s : List Phone) (key : Phone) (i : Nat) : Option (Option Nat) :=
  let e164 := e164s.getD i FREE_E164
  if e164 = FREE_E164 then some none else if e164 = key then some (some i) else none

/-- The old key in the slot written, and the buffers. -/
def addToBuffer (e164s : List Phone) (uuids : List Uuid) (e164 : Phone) (uuid : Uuid) (convertUuid : Bool) :
    Option (Phone × List Phone × List Uuid) :=
  let slotCount := e164s.length
  if slotCount ≠ uuids.length ∨ slotCount = 0 then none
  else
    let start := hashElement slotCount e164
    let key := bswap e164
    let uuid := if convertUuid then swapUuid uuid else uuid
    match probe slotCount (vacantTest e164s key) start slotCount start with
    | none => none
    | some (.key i) => some (bswap key, e164s, uuids.set i uuid)
    | some (.vacant free) =>
      match probe slotCount (presentTest e164s key) free slotCount free with
      | some (some i) => some (bswap key, e164s, uuids.set i uuid)
      | _ => some (bswap (e164s.getD free FREE_E164), e164s.set free key, uuids.set free uuid)

def removeFromBuffer (e164s : List Phone) (uuids : List Uuid) (e164 : Phone) : Option (Bool × List Phone × List Uuid) :=
  let slotCount := e164s.length
  if slotCount ≠ uuids.length ∨ slotCount = 0 then none
  else
    let start := hashElement slotCount e164
    match probe slotCount (presentTest e164s (bswap e164)) start slotCount start with
    | some (some i) => some (true, e164s.set i DELETED_E164, uuids.set i FREE_UUID)
    | _ => some (false, e164s, uuids)

/-! ## The table -/

variable {φ : Type} [LoadFactor φ]

/-- `n - 1` as the release build computes it on a `usize`. -/
def usizePred (n : Nat) : Nat := (n + (2 ^ 64 - 1)) % 2 ^ 64

def allocatable (n : Nat) : Bool := n * 16 < 2 ^ 63

namespace InternalBuffers

def new (capacity : Nat) (minLoadFactor maxLoadFactor : φ) :
    Option (Except (InternalBuffersError φ) (InternalBuffers φ)) :=
  if LoadFactor.gtOne minLoadFactor || LoadFactor.ltZero minLoadFactor then
    some (.error (.invalidMinimumLoadFactor minLoadFactor))
  else if LoadFactor.gtOne maxLoadFactor || LoadFactor.ltZero maxLoadFactor then
    some (.error (.invalidMaximumLoadFactor maxLoadFactor))
  else if LoadFactor.ge minLoadFactor maxLoadFactor then
    some (.error (.invalidLoadFactorTuple minLoadFactor maxLoadFactor))
  else if allocatable capacity then
    some (.ok ⟨minLoadFactor, maxLoadFactor, 0, 0, List.replicate capacity FREE_E164, List.replicate capacity FREE_UUID⟩)
  else none

theorem new_ok {capacity : Nat} {minLoadFactor maxLoadFactor : φ}
    (hmin : (LoadFactor.gtOne minLoadFactor || LoadFactor.ltZero minLoadFactor) = false)
    (hmax : (LoadFactor.gtOne maxLoadFactor || LoadFactor.ltZero maxLoadFactor) = false)
    (hlt : LoadFactor.ge minLoadFactor maxLoadFactor = false) (hsmall : allocatable capacity = true) :
    new capacity minLoadFactor maxLoadFactor =
      some (.ok ⟨minLoadFactor, maxLoadFactor, 0, 0, List.replicate capacity FREE_E164,
        List.replicate capacity FREE_UUID⟩) := by
  simp only [new, hmin, hmax, hlt, hsmall, Bool.false_eq_true, if_true, if_false]

def capacity (t : InternalBuffers φ) : Nat := t.e164sBuffer.length

/-- The loop of `rehash` over the old slots: the new buffers and their used slots. -/
def rehashLoop : List (Phone × Uuid) → List Phone × List Uuid × Nat → Option (List Phone × List Uuid × Nat)
  | [], r => some r
  | (stored, uuid) :: slots, (e164s, uuids, used) =>
    let e164 := bswap stored
    if e164 ≠ FREE_E164 ∧ e164 ≠ DELETED_E164 then
      match addToBuffer e164s uuids e164 uuid false with
      | none => none
      | some (old, e164s, uuids) => rehashLoop slots (e164s, uuids, if old = FREE_E164 then used + 1 else used)
    else rehashLoop slots (e164s, uuids, used)

def rehash (t : InternalBuffers φ) : Option (InternalBuffers φ) :=
  let newSlotCount := max (LoadFactor.quotient t.elementCount t.minLoadFactor) t.capacity
  if allocatable newSlotCount then
    match rehashLoop (t.e164sBuffer.zip t.uuidsBuffer)
        (List.replicate newSlotCount FREE_E164, List.replicate newSlotCount FREE_UUID, 0) with
    | none => none
    | some (e164s, uuids, used) => some { t with e164sBuffer := e164s, uuidsBuffer := uuids, usedSlotCount := used }
  else none

/-- The end of `insert`: with too many used slots it rehashes. -/
def rehashIfLoaded (t : InternalBuffers φ) : Option (InternalBuffers φ) :=
  if t.usedSlotCount ≥ LoadFactor.product t.capacity t.maxLoadFactor then t.rehash else some t

/-- `insert` past the check for room. -/
def insertSlot (t : InternalBuffers φ) (e164 : Phone) (uuid : Uuid) :
    Option (Except (InternalBuffersError φ) Bool × InternalBuffers φ) :=
  match addToBuffer t.e164sBuffer t.uuidsBuffer e164 uuid true with
  | none => none
  | some (oldE164, e164s, uuids) =>
    let added : Bool := oldE164 ≠ e164
    let t := { t with
      e164sBuffer := e164s
      uuidsBuffer := uuids
      usedSlotCount := if oldE164 = FREE_E164 then t.usedSlotCount + 1 else t.usedSlotCount
      elementCount := if added then t.elementCount + 1 else t.elementCount }
    match t.rehashIfLoaded with
    | none => none
    | some t => some (.ok added, t)

def insert (t : InternalBuffers φ) (e164 : Phone) (uuid : Uuid) :
    Option (Except (InternalBuffersError φ) Bool × InternalBuffers φ) :=
  if e164 = DELETED_E164 ∨ e164 = FREE_E164 then some (.error (.invalidE164 e164), t)
  else
    let capacity := t.capacity
    match (if t.elementCount = capacity then t.rehash else some t) with
    | none => none
    | some t =>
      if t.elementCount > capacity then some (.error (.bufferFull t.elementCount capacity), t)
      else t.insertSlot e164 uuid

def remove (t : InternalBuffers φ) (e164 : Phone) : Option (Except (InternalBuffersError φ) Bool × InternalBuffers φ) :=
  if e164 = DELETED_E164 ∨ e164 = FREE_E164 then some (.error (.invalidE164 e164), t)
  else
    match removeFromBuffer t.e164sBuffer t.uuidsBuffer e164 with
    | none => none
    | some (removed, e164s, uuids) =>
      some (.ok removed, { t with
        e164sBuffer := e164s
        uuidsBuffer := uuids
        elementCount := if removed then usizePred t.elementCount else t.elementCount })

def resize {α : Type} (n : Nat) (x : α) (l : List α) : List α := l.take n ++ List.replicate (n - l.length) x

/-- `copy_from`; `copy_from_slice` panics on slices of different lengths. -/
def copyFrom (t src : InternalBuffers φ) : Option (InternalBuffers φ) :=
  let e164s := if t.capacity ≠ src.capacity then resize src.capacity FREE_E164 t.e164sBuffer else t.e164sBuffer
  let uuids := if t.capacity ≠ src.capacity then resize src.capacity FREE_UUID t.uuidsBuffer else t.uuidsBuffer
  if e164s.length = src.e164sBuffer.length ∧ uuids.length = src.uuidsBuffer.length then
    some ⟨src.minLoadFactor, src.maxLoadFactor, src.elementCount, src.usedSlotCount, src.e164sBuffer, src.uuidsBuffer⟩
  else none

def clearToCapacity (t : InternalBuffers φ) (capacity : Nat) : InternalBuffers φ :=
  { t with
    e164sBuffer := resize capacity FREE_E164 (t.e164sBuffer.take 0)
    uuidsBuffer := resize capacity FREE_UUID (t.uuidsBuffer.take 0) }

end InternalBuffers

end ContactDiscovery.Directory
