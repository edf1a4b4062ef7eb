/-
  ContactDiscovery.Service.HandshakesProofs — when a quote is over the key that is returned with it.

  Of an enclave, quotes depend on its number and public keys (`Keys`). A quote that is stored is over
  the key in use of the enclave that runs exactly if that one made the quote and took its new pair when
  the quote was put (`Stored`); a quote that the refreshing thread has is over the new key of the
  enclave that made it, and over no other (`Held`).

  Proved: `handshakes_attested_iff`, that all quotes which are returned are over the key that is
  returned with them exactly if each negotiation was with the enclave that made the quote, and that
  took its new pair when the quote was put. A restart leaves the quote of the enclave before
  (`restarted_unattested`), and a `setCurrentQuote` that fails leaves a quote whose key is not in use
  (`failed_set_unattested`).
-/

import ContactDiscovery.Enclave.SgxsdProofs
import ContactDiscovery.Lib.Runs
import ContactDiscovery.Service.Handshakes

namespace ContactDiscovery.Service.Handshakes

open Lib
open Enclave (SgxStatus Key Iv KeyPair NegotiationResponse Primitives)

/-! ## Keys -/

theorem reportData_inj {a b : Bytes 32} : reportData a = reportData b ↔ a = b := by
  simp [reportData, Subtype.ext_iff]

/-- What quotes depend on: the number of an enclave, and its public keys. -/
structure Keys where
  number : Nat
  dh : Bytes 32
  new : Bytes 32

def Instance.keys (i : Instance) : Keys := ⟨i.number, i.dhKeypair.pubkey, i.newDhKeypair.pubkey⟩

def SgxEnclave.keys (e : SgxEnclave) : Option Keys := e.running.map Instance.keys

@[simp] theorem keys_killEnclave (e : SgxEnclave) : e.killEnclave.keys = e.keys := rfl
@[simp] theorem next_killEnclave (e : SgxEnclave) : e.killEnclave.next = e.next := rfl

theorem handleSgxException_cases (e : SgxEnclave) (status : SgxStatus) :
    e.handleSgxException status = e ∨ e.handleSgxException status = e.killEnclave := by
  unfold SgxEnclave.handleSgxException
  split
  · exact .inr rfl
  · exact .inl rfl

@[simp] theorem keys_handleSgxException (e : SgxEnclave) (status : SgxStatus) : (e.handleSgxException status).keys = e.keys := by
  rcases handleSgxException_cases e status with h | h <;> simp [h]

@[simp] theorem next_handleSgxException (e : SgxEnclave) (status : SgxStatus) : (e.handleSgxException status).next = e.next := by
  rcases handleSgxException_cases e status with h | h <;> simp [h]

/-- A call gets to the enclave with its number, or fails and changes no keys. -/
theorem call_cases {e e' : SgxEnclave} {α : Type} {number : Nat} {native : Instance → Except SgxStatus α × Instance}
    {result : Except SgxStatus α} (h : e.call number native = (result, e')) :
    e'.next = e.next ∧
      ((∃ i, e.running = some i ∧ i.number = number ∧ (native i).1 = result ∧ e'.keys = some (native i).2.keys) ∨
        (∃ status, result = .error status) ∧ e'.keys = e.keys) := by
  unfold SgxEnclave.call at h
  split at h
  · cases h
    exact ⟨by simp, .inr ⟨⟨_, rfl⟩, by simp⟩⟩
  · rename_i i hi
    obtain ⟨hrunning, hnumber⟩ := Option.filter_eq_some_iff.mp hi
    split at h <;> rename_i hnative <;> cases h
    · exact ⟨rfl, .inl ⟨i, hrunning, by simpa using hnumber, by simp [hnative], by simp [SgxEnclave.keys, hnative]⟩⟩
    · exact ⟨by simp, .inl ⟨i, hrunning, by simpa using hnumber, by simp [hnative], by rw [keys_handleSgxException]; simp [SgxEnclave.keys, hnative]⟩⟩

/-- A refresh changes no keys, or draws a new pair, over which the quote is. -/
theorem call_getNextQuote {e e' : SgxEnclave} {number : Nat} {keypair : Except SgxStatus KeyPair} {quoted : Except SgxStatus Unit}
    {result : Except SgxStatus Quote} (h : (e.call number fun i => i.getNextQuote keypair quoted) = (result, e')) :
    e'.next = e.next ∧
      ((e'.keys = e.keys ∧ ∃ status, result = .error status) ∨
        ∃ k new, e.keys = some k ∧ k.number = number ∧ drawnKey keypair = [new] ∧ e'.keys = some { k with new } ∧
          ∀ quote, result = .ok quote → quote = ⟨reportData new⟩) := by
  obtain ⟨hnext, ⟨i, hi, rfl, rfl, hkeys⟩ | ⟨hresult, hkeys⟩⟩ := call_cases h
  · refine ⟨hnext, ?_⟩
    have hrunning : e.keys = some i.keys := by simp [SgxEnclave.keys, hi]
    cases keypair with
    | error status => exact .inl ⟨hkeys.trans hrunning.symm, status, rfl⟩
    | ok keypair =>
      refine .inr ⟨i.keys, keypair.pubkey, hrunning, rfl, rfl, hkeys, fun quote hquote => ?_⟩
      cases quoted with
      | error status => cases hquote
      | ok => cases hquote; rfl
  · exact ⟨hnext, .inl ⟨hkeys, hresult⟩⟩

theorem call_setCurrentQuote {e e' : SgxEnclave} {number : Nat} {result result' : Except SgxStatus Unit}
    (h : (e.call number fun i => i.setCurrentQuote result) = (result', e')) :
    e'.next = e.next ∧
      ((e'.keys = e.keys ∧ ∃ status, result' = .error status) ∨
        ∃ k, e.keys = some k ∧ k.number = number ∧ e'.keys = some { k with dh := k.new } ∧ result' = .ok ()) := by
  obtain ⟨hnext, ⟨i, hi, rfl, rfl, hkeys⟩ | ⟨hresult, hkeys⟩⟩ := call_cases h
  · refine ⟨hnext, ?_⟩
    have hrunning : e.keys = some i.keys := by simp [SgxEnclave.keys, hi]
    cases result with
    | error status => exact .inl ⟨hkeys.trans hrunning.symm, status, rfl⟩
    | ok => exact .inr ⟨i.keys, hrunning, rfl, hkeys, rfl⟩
  · exact ⟨hnext, .inl ⟨hkeys, hresult⟩⟩

/-- A negotiation changes no keys, and gives the key in use of the enclave that is called. -/
theorem call_negotiateRequest {e e' : SgxEnclave} {number : Nat} {P : Primitives} {tableOrder : Nat} {clientPublicKey : Bytes 32}
    {ephemeral : Except SgxStatus KeyPair} {idIv : Except SgxStatus Iv} {encrypt : Except SgxStatus Unit}
    {result : Except SgxStatus NegotiationResponse}
    (h : (e.call number fun i => i.negotiateRequest P tableOrder clientPublicKey ephemeral idIv encrypt) = (result, e')) :
    e'.next = e.next ∧ e'.keys = e.keys ∧
      ∀ r, result = .ok r → ∃ k, e.keys = some k ∧ k.number = number ∧ r.serverStaticPubkey = k.dh := by
  obtain ⟨hnext, ⟨i, hi, rfl, rfl, hkeys⟩ | ⟨⟨status, hresult⟩, hkeys⟩⟩ := call_cases h
  · have hrunning : e.keys = some i.keys := by simp [SgxEnclave.keys, hi]
    refine ⟨hnext, hkeys.trans hrunning.symm, fun r hr => ⟨i.keys, hrunning, rfl, ?_⟩⟩
    simp only [Instance.negotiateRequest, Enclave.Sgxsd.negotiateRequest] at hr
    split at hr
    · cases hr
    split at hr
    · cases hr
    split at hr <;> cases hr
    rfl
  · exact ⟨hnext, hkeys, fun r hr => (by rw [hresult] at hr; cases hr)⟩

section Predicates

variable (drawn : List (Bytes 32)) (next : Nat) (keys : Option Keys)

/-- The number and the keys of an enclave have been drawn. -/
structure Known : Prop where
  number : ∀ k, keys = some k → k.number < next
  dh : ∀ k, keys = some k → k.dh ∈ drawn
  new : ∀ k, keys = some k → k.new ∈ drawn

/-- A quote over a key that has been drawn. -/
def Reported (q : Quote) : Prop := ∃ k ∈ drawn, q.reportData = reportData k

/-- The quote that is stored is over the key in use exactly if it is set. -/
structure Stored (quote : Option SgxSignedQuote) (set : Option Nat) : Prop where
  report : ∀ q, quote = some q → Reported drawn q.quote
  before : ∀ n, set = some n → n < next
  matched : ∀ q k, quote = some q → keys = some k → (q.quote.reportData = reportData k.dh ↔ set = some k.number)

/-- A quote that is not yet set is over the new key of the enclave that made it. -/
structure Held (q : Quote) (madeBy : Nat) : Prop where
  report : Reported drawn q
  before : madeBy < next
  unused : ∀ k, keys = some k → q.reportData ≠ reportData k.dh
  new : ∀ k, keys = some k → (q.reportData = reportData k.new ↔ madeBy = k.number)

variable {drawn next keys}

theorem Reported.mono {q : Quote} (h : Reported drawn q) {drawn' : List (Bytes 32)} (hsub : drawn ⊆ drawn') : Reported drawn' q := by
  obtain ⟨k, hk, hq⟩ := h
  exact ⟨k, hsub hk, hq⟩

theorem Reported.ne {q : Quote} (h : Reported drawn q) {k : Bytes 32} (hk : k ∉ drawn) : q.reportData ≠ reportData k := by
  obtain ⟨k', hk', hq⟩ := h
  intro he
  exact hk (reportData_inj.mp (hq.symm.trans he) ▸ hk')

variable {drawn' : List (Bytes 32)} (hsub : drawn ⊆ drawn')

include hsub

theorem Known.mono (h : Known drawn next keys) : Known drawn' next keys :=
  ⟨h.number, fun k hk => hsub (h.dh k hk), fun k hk => hsub (h.new k hk)⟩

theorem Stored.mono {quote : Option SgxSignedQuote} {set : Option Nat} (h : Stored drawn next keys quote set) :
    Stored drawn' next keys quote set :=
  ⟨fun q hq => (h.report q hq).mono hsub, h.before, h.matched⟩

theorem Held.mono {q : Quote} {madeBy : Nat} (h : Held drawn next keys q madeBy) : Held drawn' next keys q madeBy :=
  ⟨h.report.mono hsub, h.before, h.unused, h.new⟩

omit hsub

theorem Stored.destroy {quote : Option SgxSignedQuote} {set : Option Nat} (h : Stored drawn next keys quote set) :
    Stored drawn next none quote set :=
  ⟨h.report, h.before, fun _ _ _ hk => (by cases hk)⟩

theorem Held.destroy {q : Quote} {madeBy : Nat} (h : Held drawn next keys q madeBy) : Held drawn next none q madeBy :=
  ⟨h.report, h.before, fun _ hk => (by cases hk), fun _ hk => (by cases hk)⟩

section Start

variable {dh new : Bytes 32} (hdh : dh ∉ drawn) (hnew : new ∉ drawn)

theorem Known.start : Known (new :: dh :: drawn) (next + 1) (some ⟨next, dh, new⟩) := by
  refine ⟨?_, ?_, ?_⟩ <;> rintro k ⟨⟩ <;> simp

include hdh

/-- No quote there is was made by an enclave that is started. -/
theorem Stored.start {quote : Option SgxSignedQuote} {set : Option Nat} (h : Stored drawn next keys quote set) :
    Stored (new :: dh :: drawn) (next + 1) (some ⟨next, dh, new⟩) quote set := by
  refine ⟨fun q hq => (h.report q hq).mono (by simp), fun n hn => (h.before n hn).trans (Nat.lt_succ_self _), ?_⟩
  rintro q k hq ⟨⟩
  refine iff_of_false ((h.report q hq).ne hdh) fun hset => ?_
  exact absurd (h.before next hset) (lt_irrefl _)

include hnew

theorem Held.start {q : Quote} {madeBy : Nat} (h : Held drawn next keys q madeBy) :
    Held (new :: dh :: drawn) (next + 1) (some ⟨next, dh, new⟩) q madeBy := by
  refine ⟨h.report.mono (by simp), h.before.trans (Nat.lt_succ_self _), ?_, ?_⟩
  · rintro k ⟨⟩
    exact h.report.ne hdh
  · rintro k ⟨⟩
    exact iff_of_false (h.report.ne hnew) h.before.ne

end Start

theorem Stored.renew {k : Keys} {new : Bytes 32} {quote : Option SgxSignedQuote} {set : Option Nat}
    (h : Stored drawn next (some k) quote set) : Stored drawn next (some { k with new }) quote set := by
  refine ⟨h.report, h.before, ?_⟩
  rintro q k' hq ⟨⟩
  exact h.matched q k hq rfl

theorem Known.renew {k : Keys} (h : Known drawn next (some k)) {new : Bytes 32} : Known (new :: drawn) next (some { k with new }) := by
  refine ⟨?_, ?_, ?_⟩ <;> rintro k' ⟨⟩
  · exact h.number k rfl
  · exact List.mem_cons_of_mem _ (h.dh k rfl)
  · exact List.mem_cons_self

theorem Held.made {k : Keys} (h : Known drawn next (some k)) {new : Bytes 32} (hnew : new ∉ drawn) :
    Held (new :: drawn) next (some { k with new }) ⟨reportData new⟩ k.number := by
  refine ⟨⟨new, by simp, rfl⟩, h.number k rfl, ?_, ?_⟩
  · rintro k' ⟨⟩ he
    exact hnew (reportData_inj.mp he ▸ h.dh k rfl)
  · rintro k' ⟨⟩
    exact iff_of_true rfl rfl

theorem Held.put {q : SgxSignedQuote} {madeBy : Nat} (h : Held drawn next keys q.quote madeBy) :
    Stored drawn next keys (some q) none := by
  refine ⟨?_, fun _ hn => (by cases hn), ?_⟩
  · rintro q' ⟨⟩
    exact h.report
  · rintro q' k ⟨⟩ hk
    exact iff_of_false (h.unused k hk) (by simp)

theorem Known.set {k : Keys} (h : Known drawn next (some k)) : Known drawn next (some { k with dh := k.new }) := by
  refine ⟨?_, ?_, ?_⟩ <;> rintro k' ⟨⟩
  · exact h.number k rfl
  · exact h.new k rfl
  · exact h.new k rfl

/-- The enclave that made the quote takes its key, and another does not. -/
theorem Held.set {q : SgxSignedQuote} {madeBy : Nat} {k : Keys} (hk : Known drawn next (some k))
    (h : Held drawn next (some k) q.quote madeBy) :
    Stored drawn next (some { k with dh := k.new }) (some q) (if madeBy = k.number then some k.number else none) := by
  have hnew := h.new k rfl
  have hbefore := hk.number k rfl
  refine ⟨?_, ?_, ?_⟩
  · rintro q' ⟨⟩
    exact h.report
  · intro n hn
    split at hn <;> cases hn
    exact hbefore
  · rintro q' k' ⟨⟩ ⟨⟩
    simp only [hnew]
    split <;> simp [*]

end Predicates

/-! ## Runs -/

section Runs

variable {ι : Type} [DecidableEq ι]

/-- The quote that the refreshing thread has, its enclave and the one that made it. -/
def Refresh.held : Refresh ι → Option (ι × Quote × Nat)
  | .quoted id quote madeBy => some (id, quote, madeBy)
  | .signed id quote madeBy => some (id, quote.quote, madeBy)
  | .setting id quote madeBy _ => some (id, quote.quote, madeBy)
  | _ => none

section Families

variable (drawn : List (Bytes 32)) (enclaves : ι → SgxEnclave)

structure Cells (quotes : ι → Option SgxSignedQuote) (set : ι → Option Nat) : Prop where
  known : ∀ id, Known drawn (enclaves id).next (enclaves id).keys
  stored : ∀ id, Stored drawn (enclaves id).next (enclaves id).keys (quotes id) (set id)

def Refresh.Holds (r : Refresh ι) : Prop :=
  ∀ id q madeBy, r.held = some (id, q, madeBy) → Held drawn (enclaves id).next (enclaves id).keys q madeBy

variable {drawn enclaves} {id : ι} {e : SgxEnclave} {quotes : ι → Option SgxSignedQuote} {set : ι → Option Nat}
  {drawn' : List (Bytes 32)}

theorem Cells.update (h : Cells drawn enclaves quotes set) (id : ι) (hsub : drawn ⊆ drawn') {quote : Option SgxSignedQuote}
    {number : Option Nat} (hknown : Known drawn' e.next e.keys) (hstored : Stored drawn' e.next e.keys quote number) :
    Cells drawn' (Function.update enclaves id e) (Function.update quotes id quote) (Function.update set id number) := by
  refine ⟨fun id' => ?_, fun id' => ?_⟩ <;> by_cases hid : id' = id
  · subst hid
    simpa using hknown
  · simpa [hid] using (h.known id').mono hsub
  · subst hid
    simpa using hstored
  · simpa [hid] using (h.stored id').mono hsub

theorem Cells.updateEnclave (h : Cells drawn enclaves quotes set) (hsub : drawn ⊆ drawn') (hknown : Known drawn' e.next e.keys)
    (hstored : Stored drawn' e.next e.keys (quotes id) (set id)) : Cells drawn' (Function.update enclaves id e) quotes set := by
  have hupdate : Cells drawn' (Function.update enclaves id e) (Function.update quotes id (quotes id)) (Function.update set id (set id)) :=
    h.update id hsub hknown hstored
  simpa only [Function.update_eq_self] using hupdate

theorem Refresh.Holds.update {r : Refresh ι} (h : r.Holds drawn enclaves) (hsub : drawn ⊆ drawn')
    (hid : ∀ q madeBy, Held drawn (enclaves id).next (enclaves id).keys q madeBy → Held drawn' e.next e.keys q madeBy) :
    r.Holds drawn' (Function.update enclaves id e) := by
  intro id' q madeBy hq
  by_cases hne : id' = id
  · subst hne
    simpa using hid q madeBy (h id' q madeBy hq)
  · simpa [hne] using (h id' q madeBy hq).mono hsub

omit [DecidableEq ι] in
theorem Refresh.holds_of_none {r : Refresh ι} (h : r.held = none) : r.Holds drawn enclaves :=
  fun _ _ _ hq => (by simp [h] at hq)

/-- Numbers and keys are all that matters of an enclave. -/
theorem Cells.same (h : Cells drawn enclaves quotes set) (hsub : drawn ⊆ drawn') (hnext : e.next = (enclaves id).next)
    (hkeys : e.keys = (enclaves id).keys) : Cells drawn' (Function.update enclaves id e) quotes set := by
  refine h.updateEnclave hsub ?_ ?_ <;> rw [hnext, hkeys]
  · exact (h.known id).mono hsub
  · exact (h.stored id).mono hsub

theorem Refresh.Holds.same {r : Refresh ι} (h : r.Holds drawn enclaves) (hnext : e.next = (enclaves id).next)
    (hkeys : e.keys = (enclaves id).keys) : r.Holds drawn (Function.update enclaves id e) :=
  h.update (List.Subset.refl _) fun q madeBy hq => (by rw [hnext, hkeys]; exact hq)

end Families

structure Inv (s : St ι) : Prop where
  cells : Cells s.drawn s.enclaves s.quotes s.set
  holds : s.refresh.Holds s.drawn s.enclaves
  setting : ∀ id q madeBy number, s.refresh = .setting id q madeBy number → s.quotes id = some q ∧ s.handshake = none
  handshake : ∀ h, s.handshake = some h → s.quotes h.id = some h.signedQuote

omit [DecidableEq ι] in
theorem Inv.of_unlocked {s : St ι} (hcells : Cells s.drawn s.enclaves s.quotes s.set) (hholds : s.refresh.Holds s.drawn s.enclaves)
    (hlocks : s.refresh.locks = false) (hhandshake : ∀ h, s.handshake = some h → s.quotes h.id = some h.signedQuote) : Inv s :=
  ⟨hcells, hholds, fun _ _ _ _ hr => (by simp [hr, Refresh.locks] at hlocks), hhandshake⟩

omit [DecidableEq ι] in
theorem initial_inv : Inv (initial ι) := by
  refine ⟨⟨fun id => ⟨?_, ?_, ?_⟩, fun id => ⟨?_, ?_, ?_⟩⟩, Refresh.holds_of_none rfl, ?_, ?_⟩ <;> intros <;>
    simp_all [initial, SgxEnclave.keys]

variable {P : Primitives} {tableOrder : Nat} {s s' : St ι}

theorem start_inv (h : Inv s) {id : ι} {dh new : KeyPair} {idKey : Key}
    (hs : step P tableOrder s (.start id dh new idKey) = some s') : Inv s' := by
  simp only [step] at hs
  split at hs
  · rename_i hfresh
    obtain ⟨-, hdh, hnew⟩ := hfresh
    cases hs
    have hsub : s.drawn ⊆ new.pubkey :: dh.pubkey :: s.drawn := by simp
    exact ⟨h.cells.updateEnclave hsub .start ((h.cells.stored id).start hdh),
      h.holds.update hsub fun q madeBy hq => hq.start hdh hnew, h.setting, h.handshake⟩
  · cases hs

theorem destroy_inv (h : Inv s) {id : ι} (hs : step P tableOrder s (.destroy id) = some s') : Inv s' := by
  simp only [step] at hs
  split at hs
  · cases hs
  split at hs <;> cases hs
  have hsub := List.Subset.refl s.drawn
  refine ⟨h.cells.updateEnclave hsub ⟨?_, ?_, ?_⟩ (h.cells.stored id).destroy,
    h.holds.update hsub fun q madeBy hq => hq.destroy, h.setting, h.handshake⟩ <;> exact fun k hk => (by cases hk)

theorem getNextQuote_inv (h : Inv s) {keypair : Except SgxStatus KeyPair} {quoted : Except SgxStatus Unit}
    (hs : step P tableOrder s (.getNextQuote keypair quoted) = some s') : Inv s' := by
  simp only [step] at hs
  split at hs
  swap
  · cases hs
  rename_i id number _
  split at hs
  swap
  · cases hs
  rename_i hfresh
  have hsub : s.drawn ⊆ drawnKey keypair ++ s.drawn := by simp
  -- Whatever the call returns, the enclave's keys are the same or have a new one.
  have hcells : ∀ {e : SgxEnclave} {result : Except SgxStatus Quote},
      ((s.enclaves id).call number fun i => i.getNextQuote keypair quoted) = (result, e) →
      Cells (drawnKey keypair ++ s.drawn) (Function.update s.enclaves id e) s.quotes s.set ∧
        ∀ quote, result = .ok quote → Held (drawnKey keypair ++ s.drawn) e.next e.keys quote number := by
    intro e result hcall
    obtain ⟨hnext, ⟨hkeys, status, rfl⟩ | ⟨k, new, hk, rfl, hdrawn, hkeys, hquote⟩⟩ := call_getNextQuote hcall
    · exact ⟨h.cells.same hsub hnext hkeys, fun quote hq => (by cases hq)⟩
    · have hknown := h.cells.known id
      have hstored := h.cells.stored id
      have hnew : new ∉ s.drawn := hfresh new (by simp [hdrawn])
      rw [hk] at hknown hstored
      rw [hdrawn] at hsub ⊢
      refine ⟨h.cells.updateEnclave hsub ?_ ?_, fun quote hq => ?_⟩ <;> rw [hnext, hkeys]
      · exact hknown.renew
      · exact hstored.renew.mono hsub
      · rw [hquote quote hq]
        exact .made hknown hnew
  split at hs <;> rename_i e hcall <;> cases hs <;> obtain ⟨hcells, hheld⟩ := hcells hcall
  · refine .of_unlocked hcells ?_ rfl h.handshake
    rintro id' q madeBy ⟨⟩
    simpa [St.setEnclave] using hheld _ rfl
  · exact .of_unlocked hcells (Refresh.holds_of_none rfl) rfl h.handshake

theorem putQuote_inv (h : Inv s) (hs : step P tableOrder s .putQuote = some s') : Inv s' := by
  simp only [step] at hs
  split at hs
  swap
  · cases hs
  rename_i id quote madeBy hrefresh hfree
  have hheld := h.holds id quote.quote madeBy (by simp [hrefresh, Refresh.held])
  have hcells : Cells s.drawn s.enclaves (Function.update s.quotes id (some quote)) (Function.update s.set id none) := by
    have hupdate := h.cells.update id (List.Subset.refl _) (h.cells.known id) hheld.put
    simpa only [Function.update_eq_self] using hupdate
  have hnone : ∀ hk, s.handshake = some hk → Function.update s.quotes id (some quote) hk.id = some hk.signedQuote :=
    fun hk hs => (by simp [hfree] at hs)
  split at hs <;> cases hs
  · exact .of_unlocked hcells (Refresh.holds_of_none rfl) rfl hnone
  · refine ⟨hcells, ?_, ?_, hnone⟩
    · rintro id' q madeBy' ⟨⟩
      exact hheld
    · rintro id' q madeBy' number' ⟨⟩
      exact ⟨by simp, hfree⟩

theorem setCurrentQuote_inv (h : Inv s) {result : Except SgxStatus Unit}
    (hs : step P tableOrder s (.setCurrentQuote result) = some s') : Inv s' := by
  simp only [step] at hs
  split at hs
  swap
  · cases hs
  rename_i id quote madeBy number hrefresh
  obtain ⟨hquote, hfree⟩ := h.setting id quote madeBy number hrefresh
  have hheld := h.holds id quote.quote madeBy (by simp [hrefresh, Refresh.held])
  have hknown := h.cells.known id
  split at hs <;> rename_i e hcall <;> cases hs <;> obtain ⟨hnext, hcall⟩ := call_setCurrentQuote hcall
  · rcases hcall with ⟨-, status, hresult⟩ | ⟨k, hk, rfl, hkeys, -⟩
    · cases hresult
    rw [hk] at hheld hknown
    refine .of_unlocked ?_ (Refresh.holds_of_none rfl) rfl h.handshake
    have hupdate := h.cells.update id (e := e) (List.Subset.refl _) (by rw [hnext, hkeys]; exact hknown.set)
      (by rw [hnext, hkeys]; exact hheld.set hknown)
    rwa [← hquote, Function.update_eq_self] at hupdate
  · rcases hcall with ⟨hkeys, -⟩ | ⟨k, -, -, -, hresult⟩
    · exact .of_unlocked (h.cells.same (List.Subset.refl _) hnext hkeys) (Refresh.holds_of_none rfl) rfl h.handshake
    · cases hresult

theorem negotiateRequest_inv (h : Inv s) {ephemeral : Except SgxStatus KeyPair} {idIv : Except SgxStatus Iv}
    {encrypt : Except SgxStatus Unit} (hs : step P tableOrder s (.negotiateRequest ephemeral idIv encrypt) = some s') : Inv s' := by
  simp only [step] at hs
  split at hs
  · cases hs
  rename_i hk hhandshake
  split at hs <;> rename_i e hcall <;> cases hs <;> obtain ⟨hnext, hkeys, -⟩ := call_negotiateRequest hcall <;>
    exact ⟨h.cells.same (List.Subset.refl _) hnext hkeys, h.holds.same hnext hkeys,
      fun id q madeBy number hr => ⟨(h.setting id q madeBy number hr).1, rfl⟩, fun hk hs => (by cases hs)⟩

theorem step_inv (h : Inv s) {a : Event ι} (hs : step P tableOrder s a = some s') : Inv s' := by
  cases a with
  | start id dhKeypair newDhKeypair idKey => exact start_inv h hs
  | killEnclave id =>
    cases hs
    exact ⟨h.cells.same (List.Subset.refl _) rfl rfl, h.holds.same rfl rfl, h.setting, h.handshake⟩
  | destroy id => exact destroy_inv h hs
  | refreshQuote id =>
    simp only [step] at hs
    split at hs <;> cases hs
    · exact h
    · exact .of_unlocked h.cells (Refresh.holds_of_none rfl) rfl h.handshake
  | getNextQuote keypair quoted => exact getNextQuote_inv h hs
  | getQuoteSignature signature =>
    simp only [step] at hs
    split at hs <;> cases hs
    · rename_i id quote madeBy signature hrefresh
      refine .of_unlocked h.cells ?_ rfl h.handshake
      rintro id' q madeBy' ⟨⟩
      exact h.holds id quote madeBy (by simp [hrefresh, Refresh.held])
    · exact .of_unlocked h.cells (Refresh.holds_of_none rfl) rfl h.handshake
  | putQuote => exact putQuote_inv h hs
  | setCurrentQuote result => exact setCurrentQuote_inv h hs
  | getHandshake id clientPublic =>
    simp only [step] at hs
    split at hs
    · cases hs
    rename_i hfree
    split at hs <;> cases hs
    · rename_i signedQuote number hquote _
      refine ⟨h.cells, h.holds, fun id q madeBy number hr => ?_, ?_⟩
      · exact absurd (.inr (by simp only at hr; rw [hr]; rfl)) hfree
      · rintro hk ⟨⟩
        exact hquote
    · exact h
  | negotiateRequest ephemeral idIv encrypt => exact negotiateRequest_inv h hs

theorem step_returned {a : Event ι} (ha : ∀ ephemeral idIv encrypt, a ≠ .negotiateRequest ephemeral idIv encrypt)
    (hs : step P tableOrder s a = some s') : s'.returned = s.returned := by
  cases a with
  | negotiateRequest ephemeral idIv encrypt => exact absurd rfl (ha ephemeral idIv encrypt)
  | _ =>
    simp only [step] at hs
    repeat' split at hs
    all_goals cases hs
    all_goals rfl

/-- A step returns an unattested response exactly if it negotiates with a quote that is not set. -/
theorem step_attested_iff (hattested : ∀ r ∈ s.returned, Attested r) (h : Inv s) {a : Event ι}
    (hs : step P tableOrder s a = some s') : (∀ r ∈ s'.returned, Attested r) ↔ QuoteSet P tableOrder s a := by
  cases a with
  | negotiateRequest ephemeral idIv encrypt =>
    simp only [step] at hs
    split at hs
    · cases hs
    rename_i hk hhandshake
    split at hs <;> rename_i e hcall <;> cases hs
    · rename_i r
      obtain ⟨-, -, hstatic⟩ := call_negotiateRequest hcall
      obtain ⟨k, hkeys, hnumber, hr⟩ := hstatic r rfl
      have hmatched := (h.cells.stored hk.id).matched hk.signedQuote k (h.handshake hk hhandshake) hkeys
      have hnew : Attested (hk.response r) ↔ s.set hk.id = some hk.number := by
        rw [← hnumber, ← hmatched, Attested, Handshake.response, hr]
      have hall : QuoteSet P tableOrder s (.negotiateRequest ephemeral idIv encrypt) ↔ s.set hk.id = some hk.number := by
        refine ⟨fun hset => hset hk r e hhandshake hcall, fun hset h' r' e' hh' _ => ?_⟩
        cases hhandshake.symm.trans hh'
        exact hset
      simp only [List.forall_mem_append, List.forall_mem_singleton, hnew, hall]
      exact and_iff_right hattested
    · refine iff_of_true hattested fun h' r' e' hh' hcall' => ?_
      cases hhandshake.symm.trans hh'
      cases hcall.symm.trans hcall'
  | _ =>
    rw [step_returned (by simp) hs]
    exact iff_of_true hattested trivial

/-- All responses are attested exactly if each was negotiated with the enclave that made its quote, after
    that took its new pair for it. -/
theorem handshakes_attested_iff (P : Primitives) (tableOrder : Nat) (es : List (Event ι)) :
    Lib.Runs.Always (step P tableOrder) (fun s => ∀ r ∈ s.returned, Attested r) (initial ι) es ↔
      Lib.Runs.Meets (step P tableOrder) (QuoteSet P tableOrder) (initial ι) es :=
  Lib.Runs.always_iff_meets (fun _ _ _ ha h hs => ⟨step_attested_iff ha h hs, step_inv h hs⟩) es (initial ι)
    (fun _ hr => (by cases hr)) initial_inv

/-! ## Quotes of keys that are not in use -/

def plainKey (n : Byte) : KeyPair :=
  ⟨⟨n :: List.replicate 31 0, by simp⟩, ⟨n :: List.replicate 31 0, by simp⟩⟩

def plainStart (n : Byte) : Event Unit := .start () (plainKey n) (plainKey (n + 1)) Enclave.Sgxsd.zeroKey

/-- A refresh up to the put. -/
def plainRefresh (n : Byte) : List (Event Unit) :=
  [.refreshQuote (), .getNextQuote (.ok (plainKey n)) (.ok ()), .getQuoteSignature (some []), .putQuote]

def plainHandshake : List (Event Unit) :=
  [.getHandshake () (plainKey 0).pubkey, .negotiateRequest (.ok (plainKey 0)) (.ok Enclave.Sgxsd.zeroIv) (.ok ())]

def plainAttested (es : List (Event Unit)) : Option (List Bool) :=
  (Lib.Runs.run (step Enclave.Sgxsd.plainPrimitives 1) (initial Unit) es).map fun s => s.returned.map fun r => decide (Attested r)

/-- The quote of an enclave that is gone, with the key of the one that was started since. -/
theorem restarted_unattested :
    plainAttested ([plainStart 1] ++ plainRefresh 3 ++ [.setCurrentQuote (.ok ())] ++ plainHandshake ++
      [.killEnclave (), .destroy (), plainStart 4] ++ plainHandshake) = some [true, false] := by
  decide +kernel

/-- A second quote that was put, with the key of the first. -/
theorem failed_set_unattested :
    plainAttested ([plainStart 1] ++ plainRefresh 3 ++ [.setCurrentQuote (.ok ())] ++
      plainRefresh 4 ++ [.setCurrentQuote (.error .unexpected)] ++ plainHandshake) = some [false] := by
  decide +kernel

end Runs

end ContactDiscovery.Service.Handshakes
