/-
  ContactDiscovery.Enclave.Types — what the enclave's modules share: phones and uuids as the
  hash lookup's C header lays them out, and the status codes the enclave returns.
-/

import ContactDiscovery.Lib.Bytes

namespace ContactDiscovery.Enclave

open Lib

abbrev Phone := BitVec 64

/-- The words of a uuid are numbered. -/
instance neZero_two : NeZero 2 := ⟨by decide⟩

/-- `uuid_t`: `data64[0]` and `data64[1]`. -/
@[ext] structure Uuid where
  data64 : Fin 2 → BitVec 64

instance : DecidableEq Uuid := fun a b => decidable_of_iff (a.data64 = b.data64) Uuid.ext_iff.symm

/-- `Uuid::default()`. -/
def Uuid.zero : Uuid := ⟨fun _ => 0⟩

/-- The sixteen bytes a uuid has in memory on the enclave's little-endian machine. -/
def Uuid.bytes (u : Uuid) : List Byte := leBytes (u.data64 0) ++ leBytes (u.data64 1)

/-- `size_of::<Phone>()` and `size_of::<Uuid>()`. -/
def BYTES_PER_PHONE : Nat := 8
def BYTES_PER_UUID : Nat := 16

@[simp] theorem Uuid.length_bytes (u : Uuid) : u.bytes.length = 16 := by simp [Uuid.bytes]

@[simp] theorem Uuid.bytes_zero : Uuid.zero.bytes = List.replicate 16 0 := by decide

/-- The status codes the modelled functions return; `other` is whatever code the SGX runtime
    or the host hands back. -/
inductive SgxStatus where
  | unexpected
  | invalidParameter
  | outOfMemory
  | invalidState
  | macMismatch
  | pendingRequestNotFound
  | invalidRequestSize
  | queryCommitmentMismatch
  | other (code : Nat)
  deriving DecidableEq, Repr

end ContactDiscovery.Enclave
