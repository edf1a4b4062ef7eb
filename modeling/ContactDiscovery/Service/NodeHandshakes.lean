/-
  ContactDiscovery.Service.NodeHandshakes — the enclave of the handshakes (`Service.Handshakes`) is the
  node of the enclave's code (`Enclave.Node`).

  The handshakes have an enclave with its key pairs and its table, and each call of the host as one
  step. In the node a call takes a thread several, between its locks. `calls_native`: a thread that makes
  one call after another leaves the keys, the table and the responses that the handshakes' enclave has
  after as many steps, with the pairs that the node drew.
-/

import ContactDiscovery.Enclave.Node
import ContactDiscovery.Service.Handshakes

namespace ContactDiscovery.Service.Handshakes

open Lib
open Enclave (SgxStatus Key Iv Mac KeyPair NegotiationResponse Primitives)
open Enclave.Node (generateCurve25519Keypair primitives)

/-! ## Calls of the host -/

/-- A call of the handshakes' enclave. -/
inductive Native where
  | getNextQuote (keypair : Except SgxStatus KeyPair) (quoted : Except SgxStatus Unit)
  | setCurrentQuote (result : Except SgxStatus Unit)
  | negotiateRequest (clientPublicKey : Bytes 32) (ephemeral : Except SgxStatus KeyPair) (idIv : Except SgxStatus Iv)
      (encrypt : Except SgxStatus Unit)

structure Seen where
  enclave : Instance
  responses : List (Bytes 32 × NegotiationResponse)

def Native.step (P : Primitives) (tableOrder : Nat) (x : Seen) : Native → Option Seen
  | .getNextQuote keypair quoted => some { x with enclave := (x.enclave.getNextQuote keypair quoted).2 }
  | .setCurrentQuote result => some { x with enclave := (x.enclave.setCurrentQuote result).2 }
  | .negotiateRequest clientPublicKey ephemeral idIv encrypt =>
    match x.enclave.negotiateRequest P tableOrder clientPublicKey ephemeral idIv encrypt with
    | (.error _, enclave) => some { x with enclave }
    | (.ok response, enclave) => some ⟨enclave, x.responses ++ [(clientPublicKey, response)]⟩

/-- The same call of a node, with what the SDK gives it. -/
inductive Call where
  | getNextQuote (drawn : Except SgxStatus (Bytes 32)) (created quoted : Except SgxStatus Unit)
  | setCurrentQuote
  | negotiateRequest (clientPublicKey : Bytes 32) (drawn : Except SgxStatus (Bytes 32)) (idIv : Except SgxStatus Iv)
      (encrypt : Except SgxStatus Unit)

section Node

variable {T : Type} (t : T)

/-- What the thread does; it returns where the SDK fails. -/
def Call.ecalls : Call → List (Enclave.Node.Ev T)
  | .getNextQuote (.ok x) (.ok ()) _ => [.getNextReport t (.ok x) (.ok ()), .storeKeypair t]
  | .getNextQuote drawn created _ => [.getNextReport t drawn created]
  | .setCurrentQuote => [.setCurrentQuote]
  | .negotiateRequest clientPublicKey (.ok x) idIv encrypt =>
    [.negotiateRequest t clientPublicKey (.ok x), .copyKeypair t, .addRequest t idIv encrypt]
  | .negotiateRequest clientPublicKey (.error e) _ _ => [.negotiateRequest t clientPublicKey (.error e)]

/-- With the pairs that the node draws. -/
def Call.native (s : Enclave.Node.St T) : Call → Native
  | .getNextQuote drawn created quoted =>
    .getNextQuote ((generateCurve25519Keypair s.readRandState drawn).1.bind fun keypair => created.map fun _ => keypair) quoted
  | .setCurrentQuote => .setCurrentQuote (.ok ())
  | .negotiateRequest clientPublicKey drawn idIv encrypt =>
    .negotiateRequest clientPublicKey (generateCurve25519Keypair s.readRandState drawn).1 idIv encrypt

/-- What the host sees of a node, under its number. -/
def seen (number : Nat) (s : Enclave.Node.St T) : Seen :=
  ⟨⟨number, s.dhKeypair, s.newDhKeypair, s.pendingRequestIdKey, s.pendingRequests⟩, s.responses.map fun x => (x.1, x.2.1)⟩

structure Ready (tableOrder : Nat) (s : Enclave.Node.St T) : Prop where
  initialized : s.nodeInitialized = true
  order : s.pendingRequestsTableOrder = tableOrder
  idle : s.pc t = .idle

variable [DecidableEq T] {aesGcm : Aead Key Iv Mac} {tableOrder : Nat} {s : Enclave.Node.St T} {t}

theorem addRequest_ready {clientPublicKey : Bytes 32} {ephemeral static : KeyPair} {idIv : Except SgxStatus Iv}
    {encrypt : Except SgxStatus Unit} (hinit : s.nodeInitialized = true) (horder : s.pendingRequestsTableOrder = tableOrder) :
    Ready t tableOrder (Enclave.Node.addRequest aesGcm s t clientPublicKey ephemeral static idIv encrypt) := by
  unfold Enclave.Node.addRequest
  split <;> exact ⟨hinit, horder, Enclave.Node.at_pc_same _ _ _⟩

/-- The last step of a negotiation is the call of the handshakes' enclave. -/
theorem addRequest_native (number : Nat) (clientPublicKey : Bytes 32) (ephemeral : KeyPair) (idIv : Except SgxStatus Iv)
    (encrypt : Except SgxStatus Unit) (s : Enclave.Node.St T) :
    Native.step (primitives aesGcm) s.pendingRequestsTableOrder (seen number s)
        (.negotiateRequest clientPublicKey (.ok ephemeral) idIv encrypt) =
      some (seen number (Enclave.Node.addRequest aesGcm s t clientPublicKey ephemeral s.dhKeypair idIv encrypt)) := by
  have haes : (primitives aesGcm).aesGcm = aesGcm := rfl
  simp only [Native.step, Instance.negotiateRequest, Enclave.Node.addRequest, seen, haes]
  rcases Enclave.Sgxsd.negotiateRequest (primitives aesGcm) (Enclave.Sgxsd.idCipher aesGcm s.pendingRequestIdKey)
    s.pendingRequestsTableOrder s.pendingRequests clientPublicKey ⟨.ok ephemeral, s.dhKeypair, idIv, encrypt⟩ with
    ⟨e | response, pendingRequests, acts⟩
  · rfl
  · simp only [Enclave.Node.St.at, List.map_append, List.map_cons, List.map_nil]

/-- The node makes the call, as the handshakes' enclave does. -/
def Makes (aesGcm : Aead Key Iv Mac) (number : Nat) (t : T) (tableOrder : Nat) (s : Enclave.Node.St T) (call : Call) : Prop :=
  ∃ s', Runs.run (Enclave.Node.step aesGcm) s (call.ecalls t) = some s' ∧ Ready t tableOrder s' ∧
    Native.step (primitives aesGcm) tableOrder (seen number s) (call.native s) = some (seen number s')

theorem setCurrentQuote_native (number : Nat) (h : Ready t tableOrder s) : Makes aesGcm number t tableOrder s .setCurrentQuote := by
  refine ⟨{ s with dhKeypair := s.newDhKeypair }, ?_, ⟨h.initialized, h.order, h.idle⟩, rfl⟩
  simp [Call.ecalls, Runs.run, Enclave.Node.step, Enclave.Node.setCurrentQuote, h.initialized]

theorem getNextQuote_native (number : Nat) (h : Ready t tableOrder s) (drawn : Except SgxStatus (Bytes 32))
    (created quoted : Except SgxStatus Unit) : Makes aesGcm number t tableOrder s (.getNextQuote drawn created quoted) := by
  rcases hdrawn : generateCurve25519Keypair s.readRandState drawn with ⟨e | keypair, readRandState⟩
  · refine ⟨{ s with readRandState }, ?_, ⟨h.initialized, h.order, h.idle⟩, by simp only [Call.native, hdrawn]; rfl⟩
    cases drawn with
    | ok x => cases hdrawn
    | error e => simp [Call.ecalls, Runs.run, Enclave.Node.step, Enclave.Node.getNextReport, h.initialized, h.idle, hdrawn]
  · cases drawn with
    | error e => cases hdrawn
    | ok x =>
      cases created with
      | error e =>
        refine ⟨{ s with readRandState }, ?_, ⟨h.initialized, h.order, h.idle⟩, by simp only [Call.native, hdrawn]; rfl⟩
        simp [Call.ecalls, Runs.run, Enclave.Node.step, Enclave.Node.getNextReport, h.initialized, h.idle, hdrawn]
      | ok u =>
        refine ⟨{ s with readRandState, newDhKeypair := keypair }, ?_, ⟨h.initialized, h.order, h.idle⟩,
          by simp only [Call.native, hdrawn]; rfl⟩
        have hidle : Function.update s.pc t .idle = s.pc := by rw [← h.idle, Function.update_eq_self]
        simp [Call.ecalls, Runs.run, Enclave.Node.step, Enclave.Node.getNextReport, Enclave.Node.St.at, h.initialized, h.idle, hdrawn,
          hidle]

theorem negotiateRequest_native (number : Nat) (h : Ready t tableOrder s) (clientPublicKey : Bytes 32)
    (drawn : Except SgxStatus (Bytes 32)) (idIv : Except SgxStatus Iv) (encrypt : Except SgxStatus Unit) :
    Makes aesGcm number t tableOrder s (.negotiateRequest clientPublicKey drawn idIv encrypt) := by
  rcases hdrawn : generateCurve25519Keypair s.readRandState drawn with ⟨e | ephemeral, readRandState⟩
  · refine ⟨{ s with readRandState }, ?_, ⟨h.initialized, h.order, h.idle⟩, by simp only [Call.native, hdrawn]; rfl⟩
    cases drawn with
    | ok x => cases hdrawn
    | error e => simp [Call.ecalls, Runs.run, Enclave.Node.step, Enclave.Node.negotiateRequest, h.initialized, h.idle, hdrawn]
  · cases drawn with
    | error e => cases hdrawn
    | ok x =>
      let copied := ({ s with readRandState }.at t (.negotiating clientPublicKey ephemeral)).at t
        (.adding clientPublicKey ephemeral s.dhKeypair)
      refine ⟨Enclave.Node.addRequest aesGcm copied t clientPublicKey ephemeral s.dhKeypair idIv encrypt, ?_,
        addRequest_ready h.initialized h.order, ?_⟩
      · simp only [copied, Call.ecalls, Runs.run, Enclave.Node.step, Enclave.Node.negotiateRequest, h.initialized, h.idle, hdrawn,
          Bool.not_true, Bool.false_eq_true, if_false, Option.bind_some, Enclave.Node.at_pc_same]
        rfl
      · have hnative := @addRequest_native T t _ aesGcm number clientPublicKey ephemeral idIv encrypt copied
        simp only [Call.native, hdrawn]
        rw [← h.order]
        exact hnative

theorem call_native (number : Nat) (h : Ready t tableOrder s) (call : Call) : Makes aesGcm number t tableOrder s call := by
  cases call with
  | getNextQuote drawn created quoted => exact getNextQuote_native number h drawn created quoted
  | setCurrentQuote => exact setCurrentQuote_native number h
  | negotiateRequest clientPublicKey drawn idIv encrypt => exact negotiateRequest_native number h clientPublicKey drawn idIv encrypt

/-- A thread's calls, one after another. -/
theorem calls_native (number : Nat) : ∀ {calls : List Call} {s : Enclave.Node.St T}, Ready t tableOrder s →
    ∃ s' natives, Runs.run (Enclave.Node.step aesGcm) s (calls.flatMap (Call.ecalls t)) = some s' ∧ Ready t tableOrder s' ∧
      natives.length = calls.length ∧
      Runs.run (Native.step (primitives aesGcm) tableOrder) (seen number s) natives = some (seen number s') := by
  intro calls
  induction calls with
  | nil => exact fun h => ⟨_, [], rfl, h, rfl, rfl⟩
  | cons call calls ih =>
    intro s h
    obtain ⟨s₁, hrun, hready, hnative⟩ := @call_native T t _ aesGcm tableOrder s number h call
    obtain ⟨s', natives, hruns, hready', hlength, hnatives⟩ := ih hready
    refine ⟨s', call.native s :: natives, ?_, hready', congrArg (· + 1) hlength, ?_⟩
    · rw [List.flatMap_cons, Runs.run_append, hrun]
      exact hruns
    · rw [Runs.run, hnative]
      exact hnatives

end Node

end ContactDiscovery.Service.Handshakes
