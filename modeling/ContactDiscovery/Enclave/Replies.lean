/-
  ContactDiscovery.Enclave.Replies — a stop in which nothing fails: each sender of the server gets a
  reply, encrypted under its key, that answers its own phones (`serverStopLocked_replies`).
-/

import ContactDiscovery.Enclave.SgxsdProofs

namespace ContactDiscovery.Enclave.Sgxsd

open Lib
open Server (SgxsdServerState StopArgs Ev Answers LookupCorrect Collected directorySlices replyEvents terminate_collected)

/-- Nothing fails in the reply. -/
def ReplyEnv.Works (env : ReplyEnv) : Prop := ∃ iv, env = ⟨.ok iv, .ok (), .returned⟩

variable {P : Primitives}

variable (P) in
def sealedReply (key : Key) (iv : Iv) (msg : List Byte) : EncryptedBytes :=
  let encrypted := P.aesGcm.encrypt key iv [] msg
  ⟨encrypted.1, iv, encrypted.2⟩

theorem ReplyEnv.Works.result {env : ReplyEnv} (h : env.Works) : replyResult env = .ok () := by
  obtain ⟨iv, rfl⟩ := h
  rfl

theorem serverReply_works {env : ReplyEnv} (h : env.Works) (sender : Sender) (msg : List Byte) :
    ∃ iv, (serverReply P env sender msg).2 = [.sealReply sender.idVal sender.serverKey iv,
      .tag sender.tag (.replied (sealedReply P sender.serverKey iv msg))] := by
  obtain ⟨iv, rfl⟩ := h
  exact ⟨Iv.setLowBit iv, rfl⟩

theorem answers_lookups {env : StopEnv} {lookups : List (Ev Sender)} (h : ∀ ev ∈ lookups, ∃ p u n q, ev = .lookup p u n q)
    (evs : List (Ev Sender)) (i j : Nat) : answers P env i j (lookups ++ evs) = answers P env i j evs := by
  induction lookups with
  | nil => rfl
  | cons ev lookups ih =>
    obtain ⟨p, u, n, q, rfl⟩ := h ev List.mem_cons_self
    exact ih fun ev' hm => h ev' (List.mem_cons_of_mem _ hm)

theorem mem_answers_replies {env : StopEnv} (hw : ∀ i, (env.reply i).Works) :
    ∀ (acc : List (Sender × List Phone)) (msgs : List (List Byte)) (i j k : Nat) (ha : k < acc.length) (hm : k < msgs.length),
      ∃ iv, Act.tag acc[k].1.tag (.replied (sealedReply P acc[k].1.serverKey iv msgs[k])) ∈
        answers P env i j (List.zipWith (fun a m => Ev.reply a.1 m) acc msgs) := by
  intro acc
  induction acc with
  | nil => intro msgs i j k ha; cases ha
  | cons a acc ih =>
    intro msgs i j k ha hm
    cases msgs with
    | nil => cases hm
    | cons msg msgs =>
      rw [List.zipWith_cons_cons, answers]
      obtain ⟨iv, hreply⟩ := serverReply_works (hw i) a.1 msg
      cases k with
      | zero => exact ⟨iv, by rw [hreply]; exact List.mem_append_left _ (by simp)⟩
      | succ k =>
        obtain ⟨iv', hmem⟩ := ih msgs (i + 1) j k (Nat.lt_of_succ_lt_succ ha) (Nat.lt_of_succ_lt_succ hm)
        exact ⟨iv', List.mem_append_right _ hmem⟩

/-- A stop with a directory, correct lookups and replies that work answers every sender. -/
theorem serverStopLocked_replies {outside : Ptr → Usize → BitVec 32}
    {hashLookup : Ptr → Ptr → Usize → List Phone → List Byte → Except SgxStatus Unit × List Byte}
    {R : Phone → List Byte → Prop} {s : SgxsdServerState Sender} {acc : List (Sender × List Phone)} (hs : Collected s acc)
    (hsmall : ∀ a ∈ acc, a.2.length < 2 ^ 28) (hlen : s.queryPhones.length * BYTES_PER_UUID < 2 ^ 64)
    {args : StopArgs} {a b : UntrustedSlice} (hd : directorySlices outside args = some (a, b))
    (hc : LookupCorrect R (hashLookup a.asPtr b.asPtr args.inPhoneCount)) {env : StopEnv}
    (hw : ∀ i, (env.reply i).Works) :
    ∃ r acts, serverStopLocked P outside hashLookup (some s) (some args) env = some (r, acts) ∧
      ∀ x ∈ acc, ∃ iv msg, Answers R x.2 msg ∧
        Act.tag x.1.tag (.replied (sealedReply P x.1.serverKey iv msg)) ∈ acts := by
  obtain ⟨lookups, msgs, hserved, hlookups, hevs, hreturns⟩ := @terminate_collected _ outside hashLookup
    (fun i => replyResult (env.reply i)) R s acc hs hlen args a b hd hc
  have hall := hserved.all hsmall fun i => (hw i).result
  have hreplies : replyEvents acc msgs = List.zipWith (fun a m => Ev.reply a.1 m) acc msgs := by
    rw [replyEvents, hall, List.drop_length, List.map_nil, List.append_nil]
  unfold serverStopLocked
  simp only
  rcases hterm : Server.terminate outside hashLookup (fun i => replyResult (env.reply i)) s (some args) with ⟨evs, r | _⟩
  · rw [hterm] at hevs
    refine ⟨r, _, rfl, fun x hx => ?_⟩
    obtain ⟨k, hk, rfl⟩ := List.mem_iff_getElem.mp hx
    obtain ⟨iv, hmem⟩ := @mem_answers_replies P env hw acc msgs 0 0 k hk (by omega)
    refine ⟨iv, msgs[k], hserved.answer k (by omega) hk, ?_⟩
    simp only at hevs
    rw [hevs, hreplies, answers_lookups hlookups]
    exact hmem
  · rw [hterm] at hreturns
    exact absurd rfl hreturns

end ContactDiscovery.Enclave.Sgxsd
