/-
  ContactDiscovery.Enclave.Node — the life of a node: `sgxsd_enclave_node_init`, the reports on its key
  pairs and its negotiations (`sgxsd-enclave.c`), with the X25519, the SHA-256 and the random numbers of the
  enclave's own code.

  Any number of threads is in ecalls. A step is what a thread does up to its next access of what they
  share: the state of the random numbers, the key pairs and the table, each behind a lock of its own
  (`ReadRand`, `Locks`). `node_init` holds a lock from start to end, and until it ends all other ecalls
  give up. A negotiation draws an ephemeral pair, copies the current one and adds a request.

  The responses are kept with the requests they are for, which no code does.

  Proved: `run_inv`, in every state each key pair that is in use is a private key with its own public
  key, and each response is one that such pairs make; nothing is in use before `node_init` has succeeded,
  and when it has it changes nothing again. `nodeInit_locked`: it returns what `nodeInitLocked` returns, in
  which `Enclave.UntrustedSlice` has the checks without the state.
-/

import ContactDiscovery.Enclave.Curve25519Proofs
import ContactDiscovery.Enclave.ReadRand
import ContactDiscovery.Enclave.Sgxsd
import ContactDiscovery.Enclave.Sha256Proofs

namespace ContactDiscovery.Enclave.Node

open Lib
open PendingRequests (Prk PendingRequest)
open ReadRand (readRand)
open Sha256 (sha256Hash)
open Curve25519 (curve25519Donna curve25519Donna_spec clamp)

/-! ## Key pairs -/

/-- `curve25519_donna`. -/
def x25519 (privkey pubkey : Bytes 32) : Bytes 32 := ⟨curve25519Donna privkey.1 pubkey.1, (curve25519Donna_spec _ _).1⟩

def basepoint : Bytes 32 := ⟨9 :: List.replicate 31 0, rfl⟩

theorem length_clamp (secret : List Byte) : (clamp secret).length = secret.length := by
  simp only [clamp, List.length_modify]

/-- `sgxsd_enclave_generate_curve25519_keypair`, with the next state of the random numbers. -/
def generateCurve25519Keypair (readRandState : Prk) (drawn : Except SgxStatus (Bytes 32)) : Except SgxStatus KeyPair × Prk :=
  match readRand sha256Hash readRandState drawn with
  | (.error e, readRandState) => (.error e, readRandState)
  | (.ok x, readRandState) =>
    let privkey : Bytes 32 := ⟨clamp x.1, by rw [length_clamp, x.2]⟩
    (.ok ⟨privkey, x25519 privkey basepoint⟩, readRandState)

/-- The public key is that of the private key. -/
def Honest (keypair : KeyPair) : Prop := keypair.pubkey = x25519 keypair.privkey basepoint

theorem generate_honest {readRandState readRandState' : Prk} {drawn : Except SgxStatus (Bytes 32)} {keypair : KeyPair}
    (h : generateCurve25519Keypair readRandState drawn = (.ok keypair, readRandState')) : Honest keypair := by
  simp only [generateCurve25519Keypair] at h
  split at h
  · cases h
  · cases h
    rfl

/-! ## Ecalls -/

inductive Pc where
  | idle
  /-- `sgxsd_enclave_get_next_report` before its lock. -/
  | reporting (newDhKeypair : KeyPair)
  /-- `sgxsd_enclave_negotiate_request` before it copies the current pair. -/
  | negotiating (clientPubkey : Bytes 32) (ephemeral : KeyPair)
  /-- Before it adds the request. -/
  | adding (clientPubkey : Bytes 32) (ephemeral static : KeyPair)

structure St (T : Type) where
  nodeInitialized : Bool
  readRandState : Prk
  dhKeypair : KeyPair
  newDhKeypair : KeyPair
  pendingRequestIdKey : Key
  pendingRequestsTableOrder : Nat
  pendingRequests : PendingRequests.St
  pc : T → Pc
  /-- Whom each response was for, and the request that it was made with. -/
  responses : List (Bytes 32 × NegotiationResponse × PendingRequest)

def zeroPair : KeyPair := ⟨zeros 32, zeros 32⟩

def loaded {T : Type} : St T := ⟨false, 0, zeroPair, zeroPair, zeros 32, 0, PendingRequests.init, fun _ => .idle, []⟩

/-- What `node_init` is given, and what the SDK answers. -/
structure NodeInitEnv where
  /-- `sgx_is_outside_enclave` at the two ends of the address space. -/
  outsideFirst : Bool
  outsideLast : Bool
  /-- `pending_requests_table_order`. -/
  args : Option (BitVec 8)
  dhRand : Except SgxStatus (Bytes 32)
  newDhRand : Except SgxStatus (Bytes 32)
  idKeyRand : Except SgxStatus (Bytes 32)
  calloc : Bool

section Ecalls

variable {T : Type}

/-- `sgxsd_enclave_node_init_locked`. What was set before an error stays. -/
def nodeInit (s : St T) (env : NodeInitEnv) : Except SgxStatus Unit × St T :=
  if s.nodeInitialized then (.error .invalidState, s)
  else if !env.outsideFirst then (.error .unexpected, s)
  else if !env.outsideLast then (.error .unexpected, s)
  else
    match env.args with
    | none => (.error .invalidParameter, s)
    | some tableOrder =>
      if tableOrder.toNat > 63 then (.error .invalidParameter, s)
      else
        match generateCurve25519Keypair s.readRandState env.dhRand with
        | (.error e, readRandState) => (.error e, { s with readRandState })
        | (.ok dhKeypair, readRandState) =>
          match generateCurve25519Keypair readRandState env.newDhRand with
          | (.error e, readRandState) => (.error e, { s with readRandState, dhKeypair })
          | (.ok newDhKeypair, readRandState) =>
            match env.idKeyRand with
            | .error e => (.error e, { s with readRandState, dhKeypair, newDhKeypair })
            | .ok pendingRequestIdKey =>
              let s := { s with readRandState, dhKeypair, newDhKeypair, pendingRequestIdKey,
                                pendingRequestsTableOrder := tableOrder.toNat }
              if env.calloc then (.ok (), { s with nodeInitialized := true }) else (.error .outOfMemory, s)

variable [DecidableEq T]

def St.at (s : St T) (t : T) (pc : Pc) : St T := { s with pc := Function.update s.pc t pc }

/-- `sgxsd_enclave_get_next_report` up to its lock. -/
def getNextReport (s : St T) (t : T) (drawn : Except SgxStatus (Bytes 32)) (created : Except SgxStatus Unit) :
    Except SgxStatus Unit × St T :=
  if !s.nodeInitialized then (.error .invalidState, s)
  else
    match generateCurve25519Keypair s.readRandState drawn with
    | (.error e, readRandState) => (.error e, { s with readRandState })
    | (.ok newDhKeypair, readRandState) =>
      match created with
      | .error e => (.error e, { s with readRandState })
      | .ok () => (.ok (), { s with readRandState }.at t (.reporting newDhKeypair))

def setCurrentQuote (s : St T) : Except SgxStatus Unit × St T :=
  if !s.nodeInitialized then (.error .invalidState, s)
  else (.ok (), { s with dhKeypair := s.newDhKeypair })

/-- `sgxsd_enclave_negotiate_request` up to the copy of the current pair. -/
def negotiateRequest (s : St T) (t : T) (clientPubkey : Bytes 32) (drawn : Except SgxStatus (Bytes 32)) :
    Except SgxStatus Unit × St T :=
  if !s.nodeInitialized then (.error .invalidState, s)
  else
    match generateCurve25519Keypair s.readRandState drawn with
    | (.error e, readRandState) => (.error e, { s with readRandState })
    | (.ok ephemeral, readRandState) => (.ok (), { s with readRandState }.at t (.negotiating clientPubkey ephemeral))

inductive Ev (T : Type) where
  | nodeInit (env : NodeInitEnv)
  | getNextReport (t : T) (drawn : Except SgxStatus (Bytes 32)) (created : Except SgxStatus Unit)
  /-- The lock of `get_next_report`. -/
  | storeKeypair (t : T)
  | setCurrentQuote
  | negotiateRequest (t : T) (clientPubkey : Bytes 32) (drawn : Except SgxStatus (Bytes 32))
  /-- The first lock of `negotiate_request`. -/
  | copyKeypair (t : T)
  /-- The rest of `negotiate_request`, with the lock of the table. -/
  | addRequest (t : T) (idIv : Except SgxStatus Iv) (encrypt : Except SgxStatus Unit)

/-- The enclave's code, with its AES-GCM. -/
def primitives (aesGcm : Aead Key Iv Mac) : Primitives := ⟨sha256Hash, x25519, aesGcm⟩

variable (aesGcm : Aead Key Iv Mac)

/-- The rest of `negotiate_request`. -/
def addRequest (s : St T) (t : T) (clientPubkey : Bytes 32) (ephemeral static : KeyPair) (idIv : Except SgxStatus Iv)
    (encrypt : Except SgxStatus Unit) : St T :=
  match Sgxsd.negotiateRequest (primitives aesGcm) (Sgxsd.idCipher aesGcm s.pendingRequestIdKey) s.pendingRequestsTableOrder
      s.pendingRequests clientPubkey ⟨.ok ephemeral, static, idIv, encrypt⟩ with
  | (.error _, pendingRequests, _) => { s with pendingRequests }.at t .idle
  | (.ok response, pendingRequests, _) =>
    { s with
      pendingRequests
      responses := s.responses ++ [(clientPubkey, response, PendingRequest.mk pendingRequests.lastPendingRequestIdVal
        (Sgxsd.negotiatedPrk (primitives aesGcm) clientPubkey ephemeral static))] }.at t .idle

def step (s : St T) : Ev T → Option (St T)
  | .nodeInit env => some (nodeInit s env).2
  | .getNextReport t drawn created =>
    match s.pc t with
    | .idle => some (getNextReport s t drawn created).2
    | _ => none
  | .storeKeypair t =>
    match s.pc t with
    | .reporting newDhKeypair => some ({ s with newDhKeypair }.at t .idle)
    | _ => none
  | .setCurrentQuote => some (setCurrentQuote s).2
  | .negotiateRequest t clientPubkey drawn =>
    match s.pc t with
    | .idle => some (negotiateRequest s t clientPubkey drawn).2
    | _ => none
  | .copyKeypair t =>
    match s.pc t with
    | .negotiating clientPubkey ephemeral => some (s.at t (.adding clientPubkey ephemeral s.dhKeypair))
    | _ => none
  | .addRequest t idIv encrypt =>
    match s.pc t with
    | .adding clientPubkey ephemeral static => some (addRequest aesGcm s t clientPubkey ephemeral static idIv encrypt)
    | _ => none

end Ecalls

/-! ## Every state -/

section States

variable {T : Type} (aesGcm : Aead Key Iv Mac)

/-- A response that was made with honest pairs, and its request. -/
def Made (idKey : Key) (tableOrder : Nat) (clientPubkey : Bytes 32) (response : NegotiationResponse) (r : PendingRequest) : Prop :=
  ∃ (ephemeral static : KeyPair) (idIv : Except SgxStatus Iv) (encrypt : Except SgxStatus Unit) (p p' : PendingRequests.St)
    (acts : List Sgxsd.Act), Honest ephemeral ∧ Honest static ∧
    Sgxsd.negotiateRequest (primitives aesGcm) (Sgxsd.idCipher aesGcm idKey) tableOrder p clientPubkey
      ⟨.ok ephemeral, static, idIv, encrypt⟩ = (.ok response, p', acts) ∧
    r = ⟨p'.lastPendingRequestIdVal, Sgxsd.negotiatedPrk (primitives aesGcm) clientPubkey ephemeral static⟩

def Pc.pairs : Pc → List KeyPair
  | .idle => []
  | .reporting newDhKeypair => [newDhKeypair]
  | .negotiating _ ephemeral => [ephemeral]
  | .adding _ ephemeral static => [ephemeral, static]

structure Inv (s : St T) : Prop where
  /-- Before `node_init` has succeeded. -/
  pristine : s.nodeInitialized = false → (∀ t, s.pc t = .idle) ∧ s.pendingRequests = PendingRequests.init ∧ s.responses = []
  current : s.nodeInitialized = true → Honest s.dhKeypair ∧ Honest s.newDhKeypair
  order : s.nodeInitialized = true → s.pendingRequestsTableOrder ≤ 63
  drawn : ∀ t, ∀ keypair ∈ (s.pc t).pairs, Honest keypair
  made : ∀ x ∈ s.responses, Made aesGcm s.pendingRequestIdKey s.pendingRequestsTableOrder x.1 x.2.1 x.2.2

theorem loaded_inv : Inv aesGcm (loaded : St T) := by
  refine ⟨fun _ => ⟨fun _ => rfl, rfl, rfl⟩, nofun, nofun, ?_, ?_⟩
  · intro t keypair hmem; cases hmem
  · intro x hmem; cases hmem

variable {aesGcm}

/-- What `node_init` may do. It touches no thread, no request and no response. -/
structure InitResult (s : St T) (r : Except SgxStatus Unit × St T) : Prop where
  pc : r.2.pc = s.pc
  pendingRequests : r.2.pendingRequests = s.pendingRequests
  responses : r.2.responses = s.responses
  again : s.nodeInitialized = true → r = (.error .invalidState, s)
  first : s.nodeInitialized = false → r.2.nodeInitialized = true →
    r.1 = .ok () ∧ Honest r.2.dhKeypair ∧ Honest r.2.newDhKeypair ∧ r.2.pendingRequestsTableOrder ≤ 63
  failed : r.2.nodeInitialized = false → ∃ e, r.1 = .error e

theorem nodeInit_result (s : St T) (env : NodeInitEnv) : InitResult s (nodeInit s env) := by
  by_cases hinit : s.nodeInitialized = true
  · rw [nodeInit, if_pos hinit]
    exact ⟨rfl, rfl, rfl, fun _ => rfl, fun h => absurd hinit (by rw [h]; decide), fun _ => ⟨_, rfl⟩⟩
  -- an error that leaves the node uninitialised
  have herror : ∀ (e : SgxStatus) (s' : St T), s'.pc = s.pc → s'.pendingRequests = s.pendingRequests → s'.responses = s.responses →
      s'.nodeInitialized = s.nodeInitialized → InitResult s (.error e, s') := by
    intro e s' hpc hpending hresponses hsame
    exact ⟨hpc, hpending, hresponses, fun h => absurd h hinit, fun _ h => absurd (hsame.symm.trans h) hinit, fun _ => ⟨_, rfl⟩⟩
  rw [nodeInit, if_neg hinit]
  split
  · exact herror _ _ rfl rfl rfl rfl
  split
  · exact herror _ _ rfl rfl rfl rfl
  split
  · exact herror _ _ rfl rfl rfl rfl
  split
  · exact herror _ _ rfl rfl rfl rfl
  rename_i horder
  split
  · exact herror _ _ rfl rfl rfl rfl
  rename_i hdh
  split
  · exact herror _ _ rfl rfl rfl rfl
  rename_i hnew
  split
  · exact herror _ _ rfl rfl rfl rfl
  split
  · exact ⟨rfl, rfl, rfl, fun h => absurd h hinit,
      fun _ _ => ⟨rfl, generate_honest hdh, generate_honest hnew, Nat.le_of_not_lt horder⟩, nofun⟩
  · exact herror _ _ rfl rfl rfl rfl

/-- What `nodeInitLocked` is given of it. -/
def NodeInitEnv.locked (env : NodeInitEnv) : Enclave.NodeInitEnv :=
  ⟨env.args, env.dhRand.map fun _ => (), env.newDhRand.map fun _ => (), env.idKeyRand.map fun _ => (), env.calloc⟩

/-- It returns what `nodeInitLocked` returns, which has no state. -/
theorem nodeInit_locked (s : St T) (env : NodeInitEnv) {sgxIsOutsideEnclave : Ptr → Usize → BitVec 32}
    (hfirst : env.outsideFirst = decide (sgxIsOutsideEnclave 0 0 = 1))
    (hlast : env.outsideLast = decide (sgxIsOutsideEnclave (BitVec.allOnes 64) 0 = 1)) :
    (nodeInit s env).1 = (nodeInitLocked sgxIsOutsideEnclave s.nodeInitialized env.locked).map fun _ => () := by
  unfold nodeInit nodeInitLocked NodeInitEnv.locked
  rcases env with ⟨outsideFirst, outsideLast, args, dhRand, newDhRand, idKeyRand, calloc⟩
  simp only at hfirst hlast
  subst hfirst hlast
  by_cases hinit : s.nodeInitialized = true
  · simp only [hinit, if_true]
    rfl
  by_cases hzero : sgxIsOutsideEnclave 0 0 = 1
  swap
  · simp only [hinit, hzero, ne_eq, not_false_eq_true, decide_false, Bool.not_false, if_true]
    rfl
  by_cases hones : sgxIsOutsideEnclave (BitVec.allOnes 64) 0 = 1
  swap
  · simp only [hinit, hzero, hones, ne_eq, not_true_eq_false, not_false_eq_true, decide_true, decide_false, Bool.not_true,
      Bool.not_false, if_true]
    rfl
  simp only [hinit, hzero, hones, ne_eq, not_true_eq_false, decide_true, Bool.not_true, Bool.false_eq_true, if_false]
  cases args with
  | none => rfl
  | some order =>
    by_cases horder : order.toNat > 63
    · simp only [horder, if_true]
      rfl
    · simp only [horder, if_false]
      cases dhRand <;> cases newDhRand <;> cases idKeyRand <;> cases calloc <;> rfl

/-- A thread that is in an ecall is in an initialised node. -/
theorem Inv.initialized {s : St T} {t : T} (h : Inv aesGcm s) (ht : s.pc t ≠ .idle) : s.nodeInitialized = true := by
  by_contra hfalse
  exact ht ((h.pristine (by simpa using hfalse)).1 t)

/-- The random numbers are not part of it. -/
theorem Inv.readRandState {s : St T} (h : Inv aesGcm s) (readRandState : Prk) : Inv aesGcm { s with readRandState } :=
  ⟨h.pristine, h.current, h.order, h.drawn, h.made⟩

theorem nodeInit_inv {s : St T} (h : Inv aesGcm s) (env : NodeInitEnv) : Inv aesGcm (nodeInit s env).2 := by
  obtain ⟨hpc, hpending, hresponses, hagain, hfirst, -⟩ := nodeInit_result s env
  cases hinit : s.nodeInitialized with
  | true => rw [hagain hinit]; exact h
  | false =>
    obtain ⟨hidle, hempty, hnone⟩ := h.pristine hinit
    refine ⟨fun _ => ⟨fun t => by rw [hpc, hidle], hpending.trans hempty, hresponses.trans hnone⟩, fun htrue => ?_, fun htrue => ?_,
      fun t => ?_, fun x hx => ?_⟩
    · exact ⟨(hfirst hinit htrue).2.1, (hfirst hinit htrue).2.2.1⟩
    · exact (hfirst hinit htrue).2.2.2
    · rw [hpc, hidle]
      exact nofun
    · rw [hresponses, hnone] at hx
      cases hx

variable [DecidableEq T]

@[simp] theorem at_pc_same (s : St T) (t : T) (pc : Pc) : (s.at t pc).pc t = pc := Function.update_self ..
@[simp] theorem at_pc_ne (s : St T) {t u : T} (pc : Pc) (h : u ≠ t) : (s.at t pc).pc u = s.pc u := Function.update_of_ne h ..

/-- A thread of an initialised node moves, and the rest of the node stays honest. -/
theorem Inv.move {s r : St T} {t : T} {pc : Pc} (h : Inv aesGcm s) (hinit : r.nodeInitialized = true) (hpc : r.pc = s.pc)
    (hcurrent : Honest r.dhKeypair ∧ Honest r.newDhKeypair) (horder : r.pendingRequestsTableOrder ≤ 63)
    (hpairs : ∀ keypair ∈ pc.pairs, Honest keypair)
    (hmade : ∀ x ∈ r.responses, Made aesGcm r.pendingRequestIdKey r.pendingRequestsTableOrder x.1 x.2.1 x.2.2) :
    Inv aesGcm (r.at t pc) := by
  refine ⟨fun hfalse => ?_, fun _ => hcurrent, fun _ => horder, fun u => ?_, hmade⟩
  · have hfalse' : r.nodeInitialized = false := hfalse
    rw [hinit] at hfalse'
    cases hfalse'
  · by_cases hu : u = t
    · subst hu
      rw [at_pc_same]
      exact hpairs
    · rw [at_pc_ne r pc hu, hpc]
      exact h.drawn u

theorem getNextReport_inv {s : St T} (h : Inv aesGcm s) (t : T) (drawn : Except SgxStatus (Bytes 32))
    (created : Except SgxStatus Unit) : Inv aesGcm (getNextReport s t drawn created).2 := by
  unfold getNextReport
  split
  · exact h
  rename_i hinit
  have hinit : s.nodeInitialized = true := by simpa using hinit
  split
  · exact h.readRandState _
  rename_i keypair readRandState hgenerate
  split
  · exact h.readRandState _
  · refine h.move hinit rfl (h.current hinit) (h.order hinit) ?_ h.made
    intro keypair' hmem
    rw [List.mem_singleton.mp hmem]
    exact generate_honest hgenerate

theorem negotiateRequest_inv {s : St T} (h : Inv aesGcm s) (t : T) (clientPubkey : Bytes 32) (drawn : Except SgxStatus (Bytes 32)) :
    Inv aesGcm (negotiateRequest s t clientPubkey drawn).2 := by
  unfold negotiateRequest
  split
  · exact h
  rename_i hinit
  have hinit : s.nodeInitialized = true := by simpa using hinit
  split
  · exact h.readRandState _
  · rename_i keypair readRandState hgenerate
    refine h.move hinit rfl (h.current hinit) (h.order hinit) ?_ h.made
    intro keypair' hmem
    rw [List.mem_singleton.mp hmem]
    exact generate_honest hgenerate

theorem addRequest_inv {s : St T} {t : T} {clientPubkey : Bytes 32} {ephemeral static : KeyPair} (h : Inv aesGcm s)
    (hpc : s.pc t = .adding clientPubkey ephemeral static) (idIv : Except SgxStatus Iv) (encrypt : Except SgxStatus Unit) :
    Inv aesGcm (addRequest aesGcm s t clientPubkey ephemeral static idIv encrypt) := by
  have hinit := h.initialized (t := t) (by rw [hpc]; exact nofun)
  have hpairs := h.drawn t
  rw [hpc] at hpairs
  unfold addRequest
  split
  · exact h.move hinit rfl (h.current hinit) (h.order hinit) nofun h.made
  · rename_i response pendingRequests acts hnegotiate
    refine h.move hinit rfl (h.current hinit) (h.order hinit) nofun fun x hx => ?_
    rcases List.mem_append.mp hx with hold | hnew
    · exact h.made x hold
    · rw [List.mem_singleton.mp hnew]
      exact ⟨ephemeral, static, idIv, encrypt, s.pendingRequests, pendingRequests, acts, hpairs _ List.mem_cons_self,
        hpairs _ (List.mem_cons_of_mem _ List.mem_cons_self), hnegotiate, rfl⟩

theorem step_inv {s s' : St T} {e : Ev T} (h : Inv aesGcm s) (hs : step aesGcm s e = some s') : Inv aesGcm s' := by
  cases e with
  | nodeInit env =>
    cases hs
    exact nodeInit_inv h env
  | getNextReport t drawn created =>
    simp only [step] at hs
    split at hs <;> cases hs
    exact getNextReport_inv h t drawn created
  | storeKeypair t =>
    simp only [step] at hs
    split at hs <;> cases hs
    rename_i newDhKeypair hpc
    have hinit := h.initialized (t := t) (by rw [hpc]; exact nofun)
    have hpairs := h.drawn t
    rw [hpc] at hpairs
    exact h.move hinit rfl ⟨(h.current hinit).1, hpairs _ List.mem_cons_self⟩ (h.order hinit) nofun h.made
  | setCurrentQuote =>
    cases hs
    unfold setCurrentQuote
    split
    · exact h
    · rename_i hinit
      have hinit : s.nodeInitialized = true := by simpa using hinit
      exact ⟨fun hfalse => absurd hinit (by rw [show s.nodeInitialized = false from hfalse]; decide),
        fun _ => ⟨(h.current hinit).2, (h.current hinit).2⟩, h.order, h.drawn, h.made⟩
  | negotiateRequest t clientPubkey drawn =>
    simp only [step] at hs
    split at hs <;> cases hs
    exact negotiateRequest_inv h t clientPubkey drawn
  | copyKeypair t =>
    simp only [step] at hs
    split at hs <;> cases hs
    rename_i clientPubkey ephemeral hpc
    have hinit := h.initialized (t := t) (by rw [hpc]; exact nofun)
    have hpairs := h.drawn t
    rw [hpc] at hpairs
    refine h.move hinit rfl (h.current hinit) (h.order hinit) ?_ h.made
    intro keypair hmem
    rcases List.mem_cons.mp hmem with he | hmem
    · rw [he]; exact hpairs _ List.mem_cons_self
    · rw [List.mem_singleton.mp hmem]; exact (h.current hinit).1
  | addRequest t idIv encrypt =>
    simp only [step] at hs
    split at hs <;> cases hs
    rename_i hpc
    exact addRequest_inv h hpc idIv encrypt

theorem run_inv {es : List (Ev T)} {s : St T} (hr : Runs.run (step aesGcm) loaded es = some s) : Inv aesGcm s :=
  Lib.Runs.run_of_inv (fun _ _ _ => step_inv) (loaded_inv aesGcm) hr

end States

end ContactDiscovery.Enclave.Node
