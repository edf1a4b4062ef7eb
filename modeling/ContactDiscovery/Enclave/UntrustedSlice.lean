/-
  ContactDiscovery.Enclave.UntrustedSlice — host memory as the enclave takes it
  (`sgx_ffi/untrusted_slice.rs`), and the address checks of `sgxsd_enclave_node_init_locked`.

  A non-empty slice carries that its pointer is not null and its size not zero, as `NonNull`
  and `NonZeroUsize` do. A null pointer makes the empty slice whatever the size asked for, and
  the empty slice's pointer is null again. `sgx_is_outside_enclave` is a parameter; `Exact` is
  that it answers for the enclave's real range.

  Proved: `new_nonEmpty`, a slice made from a pointer that is not null lies outside the enclave
  and does not wrap; `outside_null`, when a range that starts at null does.
-/

import ContactDiscovery.Enclave.Types

namespace ContactDiscovery.Enclave

open Lib

abbrev Ptr := BitVec 64
abbrev Usize := BitVec 64

/-! ## Ranges -/

/-- The addresses the enclave is mapped at. -/
structure EnclaveRange where
  base : Nat
  size : Nat
  pos : 0 < size
  fits : base + size ≤ 2 ^ 64

/-- The bytes from `p` on, `n` of them, do not wrap and are not the enclave's. -/
def EnclaveRange.Outside (E : EnclaveRange) (p n : Nat) : Prop :=
  p + n ≤ 2 ^ 64 ∧ ∀ a, p ≤ a → a < p + n → ¬(E.base ≤ a ∧ a < E.base + E.size)

/-- `sgx_is_outside_enclave` answers 1 exactly for the ranges outside, an empty range taken as
    the byte at its start. -/
def EnclaveRange.Exact (E : EnclaveRange) (sgxIsOutsideEnclave : Ptr → Usize → BitVec 32) : Prop :=
  ∀ p n, sgxIsOutsideEnclave p n = 1 ↔ E.Outside p.toNat (max n.toNat 1)

/-- The SDK's own comparison of the range's ends. -/
def EnclaveRange.isOutside (E : EnclaveRange) (p : Ptr) (n : Usize) : BitVec 32 :=
  if p.toNat + max n.toNat 1 ≤ 2 ^ 64 ∧ (p.toNat + max n.toNat 1 ≤ E.base ∨ E.base + E.size ≤ p.toNat) then 1 else 0

/-- A range of at least one byte is outside when it ends before the enclave or starts after. -/
theorem EnclaveRange.outside_iff (E : EnclaveRange) {p n : Nat} (hn : 0 < n) :
    E.Outside p n ↔ p + n ≤ 2 ^ 64 ∧ (p + n ≤ E.base ∨ E.base + E.size ≤ p) := by
  have hpos := E.pos
  constructor
  · intro ⟨hw, h⟩
    refine ⟨hw, ?_⟩
    by_contra hc
    -- the larger of the two starts lies in both
    exact h (max p E.base) (by omega) (by omega) ⟨by omega, by omega⟩
  · intro ⟨hw, h⟩
    exact ⟨hw, fun a _ _ => by omega⟩

theorem EnclaveRange.isOutside_exact (E : EnclaveRange) : E.Exact E.isOutside := by
  intro p n
  rw [E.outside_iff (by omega), EnclaveRange.isOutside]
  split
  · rename_i h; exact ⟨fun _ => h, fun _ => rfl⟩
  · rename_i h; exact ⟨fun h1 => absurd h1 (by decide), fun h1 => absurd h1 h⟩

theorem EnclaveRange.outside_null (E : EnclaveRange) {n : Nat} (hn : n ≤ 2 ^ 64) : E.Outside 0 n ↔ n ≤ E.base := by
  have hpos := E.pos
  by_cases h0 : n = 0
  · subst h0
    exact iff_of_true ⟨by omega, fun a _ h => by omega⟩ (Nat.zero_le _)
  · rw [E.outside_iff (by omega)]; omega

/-! ## Slices -/

inductive UntrustedSlice where
  | nonEmpty (data : Ptr) (size : Usize) (nonNull : data ≠ 0) (nonZero : size ≠ 0)
  | empty

namespace UntrustedSlice

def new (sgxIsOutsideEnclave : Ptr → Usize → BitVec 32) (pData : Ptr) (size : Usize) : Except Unit UntrustedSlice :=
  if h : size ≠ 0 ∧ pData ≠ 0 then
    if sgxIsOutsideEnclave pData size ≠ 1 then .error ()
    else if pData + size < pData then .error ()
    else .ok (.nonEmpty pData size h.2 h.1)
  else .ok .empty

def len : UntrustedSlice → Usize
  | .nonEmpty _ size _ _ => size
  | .empty => 0

def asPtr : UntrustedSlice → Ptr
  | .nonEmpty data _ _ _ => data
  | .empty => 0

def readBytes (mem : Ptr → Byte) (readCount : Usize) : UntrustedSlice → Except Unit (List Byte)
  | .nonEmpty data size _ _ =>
    if readCount ≤ size then .ok ((List.range readCount.toNat).map fun i => mem (data + BitVec.ofNat 64 i)) else .error ()
  | .empty => if readCount = 0 then .ok [] else .error ()

theorem new_null (outside : Ptr → Usize → BitVec 32) (size : Usize) : new outside 0 size = .ok .empty := by
  unfold new
  rw [dif_neg fun h => h.2 rfl]

theorem new_zero (outside : Ptr → Usize → BitVec 32) (p : Ptr) : new outside p 0 = .ok .empty := by
  unfold new
  rw [dif_neg fun h => h.1 rfl]

theorem new_nonEmpty {E : EnclaveRange} {outside : Ptr → Usize → BitVec 32} (hE : E.Exact outside) {p : Ptr} {n : Usize}
    {s : UntrustedSlice} (hp : p ≠ 0) (hn : n ≠ 0) (h : new outside p n = .ok s) :
    s.asPtr = p ∧ E.Outside p.toNat n.toNat := by
  unfold new at h
  rw [dif_pos ⟨hn, hp⟩] at h
  by_cases ho : outside p n = 1
  swap
  · rw [if_pos ho] at h; cases h
  rw [if_neg (not_not.mpr ho)] at h
  have hpos : n.toNat ≠ 0 := fun h0 => hn (BitVec.eq_of_toNat_eq h0)
  have hout := (hE p n).mp ho
  rw [show max n.toNat 1 = n.toNat by omega] at hout
  split at h
  · cases h
  · cases h; exact ⟨rfl, hout⟩

end UntrustedSlice

/-! ## Node initialisation -/

/-- What `sgxsd_enclave_node_init_locked` gets from outside: its argument's table order (`none`
    for a null pointer), and what the key generation, the random source and `calloc` answer. -/
structure NodeInitEnv where
  tableOrder : Option (BitVec 8)
  dhKeypair : Except SgxStatus Unit
  newDhKeypair : Except SgxStatus Unit
  readRand : Except SgxStatus Unit
  calloc : Bool

/-- The table order kept on success. -/
def nodeInitLocked (sgxIsOutsideEnclave : Ptr → Usize → BitVec 32) (initialized : Bool) (env : NodeInitEnv) :
    Except SgxStatus (BitVec 8) := do
  if initialized then throw .invalidState
  if sgxIsOutsideEnclave 0 0 ≠ 1 then throw .unexpected
  if sgxIsOutsideEnclave (BitVec.allOnes 64) 0 ≠ 1 then throw .unexpected
  match env.tableOrder with
  | none => throw .invalidParameter
  | some order =>
    if order.toNat > 63 then throw .invalidParameter
    env.dhKeypair
    env.newDhKeypair
    env.readRand
    if env.calloc then pure order else throw .outOfMemory

end ContactDiscovery.Enclave
