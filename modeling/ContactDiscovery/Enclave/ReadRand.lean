/-
  ContactDiscovery.Enclave.ReadRand — the enclave's own random numbers (`sgxsd_enclave_read_rand` in
  `sgxsd-enclave.c`).

  A call draws 32 bytes from the processor. With the lock held it mixes them into a state that all calls
  share: an HMAC with the state as its key gives a key for two rounds of HKDF, the first for the next
  state and the second for the caller. A draw that fails ends the call before the lock.

  Proved: `mix_eq`, a call is HKDF with the state as salt. `readRand_linearizable`, for any number
  of threads and whatever their order, what the calls return and the state they leave are those of the same
  draws mixed in one after another: none is lost, none is mixed in twice, and no two calls see one state.
-/

import ContactDiscovery.Enclave.RequestKeys
import ContactDiscovery.Lib.Locked

namespace ContactDiscovery.Enclave.ReadRand

open Lib Lib.Crypt Lib.Locked
open PendingRequests (Prk)
open RequestKeys (RaHkdfBuf enclaveHmacSha256 enclaveHmacSha256_eq raHkdfRound deriveRequestKeys_eq shaBytes)

variable (sha256 : List Byte → Prk)

/-! ## A call -/

def hkdfPrk (readRandState : Prk) (x : Bytes 32) : Prk :=
  enclaveHmacSha256 sha256 .var (fun _ => (hashBytes readRandState).1) [fun _ => x.1] 0

/-- From the lock to the unlock: what the caller gets, and the next state. -/
def mix (readRandState : Prk) (x : Bytes 32) : Bytes 32 × Prk :=
  let prk := hkdfPrk sha256 readRandState x
  let hkdfBuf := raHkdfRound sha256 prk ⟨0, 0⟩
  (hashBytes (raHkdfRound sha256 prk hkdfBuf).tN, hkdfBuf.tN)

/-- `sgxsd_enclave_read_rand`, on what the processor gives. -/
def readRand (readRandState : Prk) (drawn : Except SgxStatus (Bytes 32)) : Except SgxStatus (Bytes 32) × Prk :=
  match drawn with
  | .error e => (.error e, readRandState)
  | .ok x => (.ok (mix sha256 readRandState x).1, (mix sha256 readRandState x).2)

/-! ## The accesses under the lock -/

inductive Here where
  | locked (x : Bytes 32)
  | mixed (hkdfPrk : Prk)
  | stored (hkdfPrk : Prk) (hkdfBuf : RaHkdfBuf)

def readRandBody : Body Prk (Bytes 32) Here (Bytes 32) where
  enter := .locked
  access
    | .locked x, readRandState => .next (.mixed (hkdfPrk sha256 readRandState x)) readRandState
    | .mixed prk, _ => .next (.stored prk (raHkdfRound sha256 prk ⟨0, 0⟩)) (raHkdfRound sha256 prk ⟨0, 0⟩).tN
    | .stored prk hkdfBuf, _ => .done (hashBytes (raHkdfRound sha256 prk hkdfBuf).tN)

/-- What a thread has after some accesses, from the state it found. -/
def Reached (x : Bytes 32) (found : Prk) : Here → Prk → Prop
  | .locked x', state => x' = x ∧ state = found
  | .mixed prk, _ => prk = hkdfPrk sha256 found x
  | .stored prk hkdfBuf, state => prk = hkdfPrk sha256 found x ∧ hkdfBuf = raHkdfRound sha256 prk ⟨0, 0⟩ ∧ state = hkdfBuf.tN

variable {sha256}

theorem readRandBody_computes : (readRandBody sha256).Computes (mix sha256) := by
  refine Body.computes_of_inv (P := Reached sha256) (fun _ _ => ⟨rfl, rfl⟩) ?_ ?_
  · intro x found here state after next hreached hacc
    cases here with
    | locked x' =>
      cases hacc
      obtain ⟨hx, hstate⟩ := hreached
      rw [hx, hstate]
      rfl
    | mixed prk =>
      cases hacc
      exact ⟨hreached, rfl, rfl⟩
    | stored prk hkdfBuf => cases hacc
  · intro x found here state y hreached hacc
    cases here with
    | locked x' => cases hacc
    | mixed prk => cases hacc
    | stored prk hkdfBuf =>
      cases hacc
      obtain ⟨hprk, hbuf, hstate⟩ := hreached
      rw [hstate, hbuf, hprk]
      rfl

/-! ## What calls return -/

/-- HKDF, with the state as salt: its first block is the next state, its second what the caller gets. -/
theorem mix_eq (readRandState : Prk) (x : Bytes 32) :
    (hashBytes (mix sha256 readRandState x).2).1 =
      okmBlock (shaBytes sha256) 64 (extract (shaBytes sha256) 64 (hashBytes readRandState).1 x.1) [] 1 ∧
    (mix sha256 readRandState x).1.1 =
      okmBlock (shaBytes sha256) 64 (extract (shaBytes sha256) 64 (hashBytes readRandState).1 x.1) [] 2 := by
  obtain ⟨h, hset, hbytes⟩ := @enclaveHmacSha256_eq sha256 _ .var (fun _ => (hashBytes readRandState).1) [fun _ => x.1] 0
  have hprk : hkdfPrk sha256 readRandState x = h := hset
  have hextract : (hashBytes h).1 = extract (shaBytes sha256) 64 (hashBytes readRandState).1 x.1 := by
    rw [hbytes, extract, List.flatMap_cons, List.flatMap_nil, List.append_nil]
  -- the two rounds are those of a request's keys
  obtain ⟨hfirst, hsecond⟩ := @deriveRequestKeys_eq sha256 ⟨0, h⟩
  rw [← hextract, ← hfirst, ← hsecond, mix, hprk]
  exact ⟨rfl, rfl⟩

variable {T : Type} [DecidableEq T]

/-- For any number of threads, in whatever order they move. -/
theorem readRand_linearizable {start : Prk} {es : List (Ev T (Bytes 32))} {s : St T Prk (Bytes 32) Here (Bytes 32)}
    (hr : Runs.run (step (readRandBody sha256)) (init start) es = some s) :
    s.calls.map (·.2.2) = Body.outputs (mix sha256) start (s.calls.map (·.2.1)) ∧
    ((∀ t, (s.pc t).holds = false) → s.shared = Body.final (mix sha256) start (s.calls.map (·.2.1))) ∧
    ∀ t, callsBy t es = endedBy t s.calls ++ (s.pc t).pending ∧
      ∀ y, s.pc t = .returned y → lastOutput t s.calls = some y := by
  obtain ⟨after, hseq, hshared⟩ := linearizable hr
  obtain ⟨hout, hafter⟩ := hseq.eq readRandBody_computes
  refine ⟨hout, fun hfree => (hshared hfree).trans hafter, fun t => ?_⟩
  obtain ⟨hcalls, hlast⟩ := calls_of_thread hr t
  exact ⟨hcalls, hlast⟩

/-- Two threads draw, and the one that drew later is first at the lock. -/
def twoDraws : List (Ev Bool (Bytes 32)) :=
  [.call false (repeated 32 1), .call true (repeated 32 2), .acquire true, .access true, .access true, .access true, .release true,
    .acquire false, .access false, .access false, .access false, .release false]

theorem readRand_linearizable_two :
    let hash : List Byte → Prk := fun data => BitVec.ofNat 256 (leNat data)
    ∃ s : St Bool Prk (Bytes 32) Here (Bytes 32), Runs.run (step (readRandBody hash)) (init 0) twoDraws = some s ∧
      s.calls.map (fun c => (c.1, c.2.1)) = [(true, repeated 32 2), (false, repeated 32 1)] ∧
      s.calls.map (·.2.2) = Body.outputs (mix hash) 0 [repeated 32 2, repeated 32 1] ∧
      s.shared = Body.final (mix hash) 0 [repeated 32 2, repeated 32 1] := by
  intro hash
  obtain ⟨s, hrun, hcalls, hfree⟩ : ∃ s : St Bool Prk (Bytes 32) Here (Bytes 32),
      Runs.run (step (readRandBody hash)) (init 0) twoDraws = some s ∧
      s.calls.map (fun c => (c.1, c.2.1)) = [(true, repeated 32 2), (false, repeated 32 1)] ∧ ∀ t, (s.pc t).holds = false :=
    ⟨_, rfl, rfl, fun t => by cases t <;> rfl⟩
  have hinputs : s.calls.map (·.2.1) = [repeated 32 2, repeated 32 1] := by
    simpa [Function.comp_def] using congrArg (List.map Prod.snd) hcalls
  obtain ⟨hout, hshared, -⟩ := readRand_linearizable hrun
  rw [hinputs] at hout hshared
  exact ⟨s, hrun, hcalls, hout, hshared hfree⟩

end ContactDiscovery.Enclave.ReadRand
