/-
  ContactDiscovery.Enclave.PendingRequests — the table of negotiated requests
  (`sgxsd_enclave_add_pending_request`, `_get_pending_request`, `_remove_pending_request` in
  `sgxsd-enclave.c`).

  Requests are numbered from one; request `j` (from zero) is written at slot `(j + 1) mod 2 ^ k`
  over whatever was there. Its id is the number, encrypted under the id key; the encryption comes
  after the table was written and may fail, and then no id is issued. Removing zeroes the slot.

  What the table should do is said over the history of the run (`Live`): a request lives while
  fewer than `2 ^ k` were added after it and its id was not removed. A run's ids are authentic
  when every id that decrypts was issued before (`Authentic`).

  Proved: `always_exact`, in every state of such a run a get or remove of an issued id succeeds
  exactly when the request lives, with its own key, and everything else fails and changes
  nothing; no id is removed twice.
-/

import ContactDiscovery.Enclave.Types
import ContactDiscovery.Lib.Runs

namespace ContactDiscovery.Enclave.PendingRequests

open Lib

/-- `sgxsd_sha256_hash_t`. -/
abbrev Prk := BitVec 256

structure PendingRequest where
  idVal : BitVec 64
  hkdfPrk : Prk
  deriving DecidableEq

def PendingRequest.zero : PendingRequest := ⟨0, 0⟩

/-- AES-GCM under the id key; an id is its ciphertext with the IV and the MAC. -/
structure IdCipher (Iv Id : Type) where
  encrypt : BitVec 64 → Iv → Except SgxStatus Id
  decrypt : Id → Except SgxStatus (BitVec 64)
  decrypt_encrypt : ∀ v iv id, encrypt v iv = .ok id → decrypt id = .ok v

structure St where
  pendingRequests : Nat → PendingRequest
  lastPendingRequestIdVal : BitVec 64

/-- After `calloc`. -/
def init : St := ⟨fun _ => .zero, 0⟩

/-- The operations; an add brings what the random source gives it for an IV. -/
inductive Op (Iv Id : Type) where
  | add (hkdfPrk : Prk) (iv : Except SgxStatus Iv)
  | get (id : Id)
  | remove (id : Id)

inductive Out (Id : Type) where
  | added (r : Except SgxStatus Id)
  | got (r : Except SgxStatus PendingRequest)

section Table

variable {Iv Id : Type} (C : IdCipher Iv Id) (tableOrder : Nat)

/-- `id_val & pending_request_count_mask`. -/
def slot (idVal : BitVec 64) : Nat := (idVal &&& ((1#64 <<< tableOrder) - 1)).toNat

def addPendingRequest (s : St) (hkdfPrk : Prk) (iv : Except SgxStatus Iv) : Except SgxStatus Id × St :=
  let idVal := s.lastPendingRequestIdVal + 1
  let s' : St := ⟨Function.update s.pendingRequests (slot tableOrder idVal) ⟨idVal, hkdfPrk⟩, idVal⟩
  match iv with
  | .error e => (.error e, s')
  | .ok iv =>
    match C.encrypt idVal iv with
    | .error _ => (.error .unexpected, s')
    | .ok id => (.ok id, s')

def getPendingRequest (s : St) (id : Id) : Except SgxStatus PendingRequest × St :=
  match C.decrypt id with
  | .error e => (.error e, s)
  | .ok idVal =>
    let found := s.pendingRequests (slot tableOrder idVal)
    if found.idVal = idVal then (.ok found, s) else (.error .pendingRequestNotFound, s)

def removePendingRequest (s : St) (id : Id) : Except SgxStatus PendingRequest × St :=
  match C.decrypt id with
  | .error e => (.error e, s)
  | .ok idVal =>
    let found := s.pendingRequests (slot tableOrder idVal)
    if found.idVal = idVal then
      (.ok found, { s with pendingRequests := Function.update s.pendingRequests (slot tableOrder idVal) .zero })
    else (.error .pendingRequestNotFound, s)

def exec (s : St) : Op Iv Id → Out Id × St
  | .add hkdfPrk iv => let r := addPendingRequest C tableOrder s hkdfPrk iv; (.added r.1, r.2)
  | .get id => let r := getPendingRequest C tableOrder s id; (.got r.1, r.2)
  | .remove id => let r := removePendingRequest C tableOrder s id; (.got r.1, r.2)

/-! ## Histories -/

abbrev History (Iv Id : Type) := List (Op Iv Id × Out Id)

def step (s : St × History Iv Id) (op : Op Iv Id) : Option (St × History Iv Id) :=
  some ((exec C tableOrder s.1 op).2, s.2 ++ [(op, (exec C tableOrder s.1 op).1)])

/-- The requests added, each with its key and the id issued for it, if one was. -/
def addsOf (h : History Iv Id) : List (Prk × Except SgxStatus Id) :=
  h.filterMap fun x =>
    match x with
    | (.add prk _, .added r) => some (prk, r)
    | _ => none

/-- Request `j` was added with the key and the id was issued for it. -/
def Issued (h : History Iv Id) (j : Nat) (prk : Prk) (id : Id) : Prop := (addsOf h)[j]? = some (prk, Except.ok id)

/-- The id issued for request `j` was removed. -/
def Removed (h : History Iv Id) (j : Nat) : Prop :=
  ∃ prk id e, Issued h j prk id ∧ (Op.remove id, Out.got (.ok e)) ∈ h

/-- Fewer than `2 ^ k` requests were added after `j`, and it was not removed. -/
def Live (tableOrder : Nat) (h : History Iv Id) (j : Nat) : Prop :=
  j < (addsOf h).length ∧ (addsOf h).length - (j + 1) < 2 ^ tableOrder ∧ ¬Removed h j

/-- An id that decrypts was issued before. -/
def Authentic (s : St × History Iv Id) : Op Iv Id → Prop
  | .add _ _ => True
  | .get id | .remove id => ∀ v, C.decrypt id = .ok v → ∃ j prk, Issued s.2 j prk id

/-- Fewer than `2 ^ 64` requests are added. -/
def Numbered (s : St × History Iv Id) : Op Iv Id → Prop
  | .add _ _ => (addsOf s.2).length + 1 < 2 ^ 64
  | _ => True

/-! ## What the table does -/

/-- The next get or remove, whatever it is, does what the history asks. -/
structure Exact (C : IdCipher Iv Id) (tableOrder : Nat) (s : St × History Iv Id) : Prop where
  remove_live : ∀ j prk id, Issued s.2 j prk id → Live tableOrder s.2 j →
    (removePendingRequest C tableOrder s.1 id).1 = .ok ⟨BitVec.ofNat 64 (j + 1), prk⟩
  get_live : ∀ j prk id, Issued s.2 j prk id → Live tableOrder s.2 j →
    getPendingRequest C tableOrder s.1 id = (.ok ⟨BitVec.ofNat 64 (j + 1), prk⟩, s.1)
  dead : ∀ j prk id, Issued s.2 j prk id → ¬Live tableOrder s.2 j →
    removePendingRequest C tableOrder s.1 id = (.error .pendingRequestNotFound, s.1) ∧
    getPendingRequest C tableOrder s.1 id = (.error .pendingRequestNotFound, s.1)
  forged : ∀ id e, C.decrypt id = .error e →
    removePendingRequest C tableOrder s.1 id = (.error e, s.1) ∧ getPendingRequest C tableOrder s.1 id = (.error e, s.1)
  /-- No id is removed twice. -/
  once : s.2.Pairwise fun x y => ∀ id e e', x = (Op.remove id, Out.got (.ok e)) → y ≠ (Op.remove id, Out.got (.ok e'))

/-! ## Slots -/

variable {tableOrder}

theorem slot_eq (hk : tableOrder ≤ 63) (v : BitVec 64) : slot tableOrder v = v.toNat % 2 ^ tableOrder := by
  have hpow : 2 ^ tableOrder < 2 ^ 64 := Nat.pow_lt_pow_right (by omega) (by omega)
  have hpos := Nat.two_pow_pos tableOrder
  have hone : (1#64 <<< tableOrder).toNat = 2 ^ tableOrder := by
    rw [BitVec.toNat_shiftLeft, Nat.shiftLeft_eq, BitVec.toNat_ofNat, Nat.mod_eq_of_lt (by omega : 1 < 2 ^ 64),
      Nat.one_mul, Nat.mod_eq_of_lt hpow]
  have hmask : ((1#64 <<< tableOrder) - 1).toNat = 2 ^ tableOrder - 1 := by
    have h1 : (1 : BitVec 64).toNat = 1 := rfl
    rw [BitVec.toNat_sub, hone, h1]; omega
  rw [slot, BitVec.toNat_and, hmask, Nat.and_two_pow_sub_one_eq_mod]

/-- Two requests less than a table apart have different slots. -/
theorem slot_ne {i j m : Nat} (hij : i < j) (hm : j - i < m) : i % m ≠ j % m := by
  intro h
  have hd : m ∣ j - i := (Nat.modEq_iff_dvd' (Nat.le_of_lt hij)).mp h
  have := Nat.le_of_dvd (by omega) hd
  omega

/-! ## Histories grow -/

theorem addsOf_concat (h : History Iv Id) (x : Op Iv Id × Out Id) : addsOf (h ++ [x]) = addsOf h ++ addsOf [x] :=
  List.filterMap_append

theorem Issued.mono {h : History Iv Id} {j : Nat} {prk : Prk} {id : Id} (x : Op Iv Id × Out Id) (hi : Issued h j prk id) :
    Issued (h ++ [x]) j prk id := by
  obtain ⟨hj, -⟩ := List.getElem?_eq_some_iff.mp hi
  rw [Issued, addsOf_concat, List.getElem?_append_left hj]
  exact hi

/-- With a number on each id, an id is issued once. -/
def IdsNumbered (C : IdCipher Iv Id) (h : History Iv Id) : Prop :=
  ∀ j prk id, Issued h j prk id → C.decrypt id = .ok (BitVec.ofNat 64 (j + 1))

theorem Issued.inj {C : IdCipher Iv Id} {h : History Iv Id} (hn : IdsNumbered C h) (hlen : (addsOf h).length < 2 ^ 64)
    {i j : Nat} {p q : Prk} {id : Id} (hi : Issued h i p id) (hj : Issued h j q id) : i = j := by
  obtain ⟨hil, -⟩ := List.getElem?_eq_some_iff.mp hi
  obtain ⟨hjl, -⟩ := List.getElem?_eq_some_iff.mp hj
  have h1 := (hn i p id hi).symm.trans (hn j q id hj)
  have h2 := congrArg BitVec.toNat (Except.ok.inj h1)
  rw [BitVec.toNat_ofNat, BitVec.toNat_ofNat] at h2
  omega

/-! ## The invariant -/

structure Inv (C : IdCipher Iv Id) (tableOrder : Nat) (s : St × History Iv Id) : Prop where
  count : s.1.lastPendingRequestIdVal.toNat = (addsOf s.2).length
  bound : (addsOf s.2).length < 2 ^ 64
  ids : IdsNumbered C s.2
  accepted : ∀ id e, (Op.remove id, Out.got (.ok e)) ∈ s.2 → ∃ j prk, Issued s.2 j prk id
  entry : ∀ i < 2 ^ tableOrder, (s.1.pendingRequests i).idVal = 0 ∨ ∃ j prk r, (addsOf s.2)[j]? = some (prk, r) ∧
    s.1.pendingRequests i = ⟨BitVec.ofNat 64 (j + 1), prk⟩ ∧ (j + 1) % 2 ^ tableOrder = i ∧ Live tableOrder s.2 j
  live : ∀ j prk r, (addsOf s.2)[j]? = some (prk, r) → Live tableOrder s.2 j →
    s.1.pendingRequests ((j + 1) % 2 ^ tableOrder) = ⟨BitVec.ofNat 64 (j + 1), prk⟩
  once : s.2.Pairwise fun x y => ∀ id e e', x = (Op.remove id, Out.got (.ok e)) → y ≠ (Op.remove id, Out.got (.ok e'))

theorem init_inv (C : IdCipher Iv Id) (tableOrder : Nat) : Inv C tableOrder (init, []) where
  count := rfl
  bound := Nat.two_pow_pos 64
  ids := by intro j prk id h; cases h
  accepted := by intro id e h; cases h
  entry := fun i _ => Or.inl rfl
  live := by intro j prk r h; cases h
  once := List.Pairwise.nil

variable {C}

theorem toNat_number {h : History Iv Id} {j : Nat} (hb : (addsOf h).length < 2 ^ 64) (hj : j < (addsOf h).length) :
    (BitVec.ofNat 64 (j + 1)).toNat = j + 1 := by
  rw [BitVec.toNat_ofNat]; omega

/-- The slot of an issued id holds its request exactly when the request lives. -/
theorem Inv.found_iff {s : St × History Iv Id} (h : Inv C tableOrder s) {j : Nat} {prk : Prk} {id : Id}
    (hi : Issued s.2 j prk id) :
    (s.1.pendingRequests ((j + 1) % 2 ^ tableOrder)).idVal = BitVec.ofNat 64 (j + 1) ↔ Live tableOrder s.2 j := by
  obtain ⟨hj, -⟩ := List.getElem?_eq_some_iff.mp hi
  have hnum := toNat_number h.bound hj
  constructor
  · intro he
    rcases h.entry ((j + 1) % 2 ^ tableOrder) (Nat.mod_lt _ (Nat.two_pow_pos _)) with h0 | ⟨j', prk', r, hj', heq, -, hl⟩
    · rw [he] at h0
      have := congrArg BitVec.toNat h0
      rw [hnum] at this; simp at this
    · obtain ⟨hjl, -⟩ := List.getElem?_eq_some_iff.mp hj'
      have hnum' := toNat_number h.bound hjl
      rw [heq] at he
      have := congrArg BitVec.toNat he
      rw [hnum, hnum'] at this
      rw [← Nat.succ.inj this]; exact hl
  · intro hl
    rw [h.live j prk _ hi hl]

theorem Inv.exact (hk : tableOrder ≤ 63) {s : St × History Iv Id} (h : Inv C tableOrder s) : Exact C tableOrder s := by
  have hslot : ∀ j prk id, Issued s.2 j prk id → slot tableOrder (BitVec.ofNat 64 (j + 1)) = (j + 1) % 2 ^ tableOrder := by
    intro j prk id hi
    obtain ⟨hj, -⟩ := List.getElem?_eq_some_iff.mp hi
    rw [slot_eq hk, toNat_number h.bound hj]
  refine ⟨?_, ?_, ?_, ?_, h.once⟩
  · intro j prk id hi hl
    have hf := (h.found_iff hi).mpr hl
    unfold removePendingRequest
    simp only [h.ids j prk id hi, hslot j prk id hi]
    rw [if_pos hf, h.live j prk _ hi hl]
  · intro j prk id hi hl
    have hf := (h.found_iff hi).mpr hl
    unfold getPendingRequest
    simp only [h.ids j prk id hi, hslot j prk id hi]
    rw [if_pos hf, h.live j prk _ hi hl]
  · intro j prk id hi hl
    have hf : ¬_ := fun hc => hl ((h.found_iff hi).mp hc)
    unfold removePendingRequest getPendingRequest
    simp only [h.ids j prk id hi, hslot j prk id hi]
    rw [if_neg hf, if_neg hf]
    exact ⟨rfl, rfl⟩
  · intro id e he
    unfold removePendingRequest getPendingRequest
    simp only [he]
    exact ⟨trivial, trivial⟩

/-! ## Steps that change nothing -/

/-- No request was added and none removed. -/
def Quiet (x : Op Iv Id × Out Id) : Prop := addsOf [x] = [] ∧ ∀ id e, x ≠ (Op.remove id, Out.got (.ok e))

theorem Quiet.addsOf {h : History Iv Id} {x : Op Iv Id × Out Id} (hx : Quiet x) :
    PendingRequests.addsOf (h ++ [x]) = PendingRequests.addsOf h := by
  rw [addsOf_concat, hx.1, List.append_nil]

theorem Quiet.issued_iff {h : History Iv Id} {x : Op Iv Id × Out Id} (hx : Quiet x) {j : Nat} {prk : Prk} {id : Id} :
    Issued (h ++ [x]) j prk id ↔ Issued h j prk id := by
  rw [Issued, Issued, hx.addsOf]

theorem Quiet.mem_iff {h : History Iv Id} {x : Op Iv Id × Out Id} (hx : Quiet x) {id : Id} {e : PendingRequest} :
    (Op.remove id, Out.got (.ok e)) ∈ h ++ [x] ↔ (Op.remove id, Out.got (.ok e)) ∈ h := by
  rw [List.mem_append, List.mem_singleton]
  exact ⟨fun hm => hm.resolve_right fun he => hx.2 id e he.symm, Or.inl⟩

theorem Quiet.live_iff {h : History Iv Id} {x : Op Iv Id × Out Id} (hx : Quiet x) {j : Nat} :
    Live tableOrder (h ++ [x]) j ↔ Live tableOrder h j := by
  have hr : Removed (h ++ [x]) j ↔ Removed h j := by
    unfold Removed
    simp only [hx.issued_iff, hx.mem_iff]
  rw [Live, Live, hx.addsOf, hr]

theorem Inv.quiet {s : St × History Iv Id} (h : Inv C tableOrder s) {x : Op Iv Id × Out Id} (hx : Quiet x) :
    Inv C tableOrder (s.1, s.2 ++ [x]) where
  count := by rw [hx.addsOf]; exact h.count
  bound := by rw [hx.addsOf]; exact h.bound
  ids := fun j prk id hi => h.ids j prk id (hx.issued_iff.mp hi)
  accepted := by
    intro id e hm
    obtain ⟨j, prk, hi⟩ := h.accepted id e (hx.mem_iff.mp hm)
    exact ⟨j, prk, hx.issued_iff.mpr hi⟩
  entry := by
    intro i hi
    rcases h.entry i hi with h0 | ⟨j, prk, r, hj, he, hs, hl⟩
    · exact Or.inl h0
    · exact Or.inr ⟨j, prk, r, by rw [hx.addsOf]; exact hj, he, hs, hx.live_iff.mpr hl⟩
  live := by
    intro j prk r hj hl
    rw [hx.addsOf] at hj
    exact h.live j prk r hj (hx.live_iff.mp hl)
  once := by
    rw [List.pairwise_append]
    refine ⟨h.once, List.pairwise_singleton .., fun y _ z hz id e e' _ he => ?_⟩
    rw [List.mem_singleton] at hz; subst hz
    exact hx.2 id e' he

/-! ## Adding -/

/-- An add writes its request over the slot, and issues the number's encryption or nothing. -/
theorem addPendingRequest_eq (s : St) (prk : Prk) (iv : Except SgxStatus Iv) :
    ∃ r, addPendingRequest C tableOrder s prk iv = (r, ⟨Function.update s.pendingRequests
        (slot tableOrder (s.lastPendingRequestIdVal + 1)) ⟨s.lastPendingRequestIdVal + 1, prk⟩,
        s.lastPendingRequestIdVal + 1⟩) ∧
      ∀ id, r = .ok id → C.decrypt id = .ok (s.lastPendingRequestIdVal + 1) := by
  unfold addPendingRequest
  cases iv with
  | error e => exact ⟨.error e, rfl, fun id hid => by cases hid⟩
  | ok iv =>
    cases he : C.encrypt (s.lastPendingRequestIdVal + 1) iv with
    | error e => exact ⟨.error .unexpected, by simp only [he], fun id hid => by cases hid⟩
    | ok id =>
      refine ⟨.ok id, by simp only [he], fun id' hid => ?_⟩
      cases hid
      exact C.decrypt_encrypt _ iv id he

section Add

variable {l : History Iv Id} {prk : Prk} {iv : Except SgxStatus Iv} {r : Except SgxStatus Id}

theorem addsOf_add : addsOf (l ++ [(Op.add prk iv, Out.added r)]) = addsOf l ++ [(prk, r)] := addsOf_concat _ _

theorem length_addsOf_add : (addsOf (l ++ [(Op.add prk iv, Out.added r)])).length = (addsOf l).length + 1 := by
  rw [addsOf_add, List.length_append, List.length_singleton]

theorem getElem?_addsOf_add {j : Nat} {p : Prk} {q : Except SgxStatus Id}
    (hj : (addsOf (l ++ [(Op.add prk iv, Out.added r)]))[j]? = some (p, q)) :
    (j < (addsOf l).length ∧ (addsOf l)[j]? = some (p, q)) ∨ (j = (addsOf l).length ∧ p = prk ∧ q = r) := by
  rw [addsOf_add] at hj
  rcases Nat.lt_trichotomy j (addsOf l).length with hlt | heq | hgt
  · rw [List.getElem?_append_left hlt] at hj; exact Or.inl ⟨hlt, hj⟩
  · subst heq
    rw [List.getElem?_append_right (Nat.le_refl _), Nat.sub_self] at hj
    cases hj; exact Or.inr ⟨rfl, rfl, rfl⟩
  · rw [List.getElem?_eq_none (by rw [List.length_append, List.length_singleton]; omega)] at hj; cases hj

theorem remove_mem_add {id : Id} {e : PendingRequest}
    (hm : (Op.remove id, Out.got (.ok e)) ∈ l ++ [(Op.add prk iv, Out.added r)]) : (Op.remove id, Out.got (.ok e)) ∈ l := by
  rcases List.mem_append.mp hm with hm | hm
  · exact hm
  · cases List.mem_singleton.mp hm

theorem Inv.removed_add {t : St} (h : Inv C tableOrder (t, l)) (hb : (addsOf l).length + 1 < 2 ^ 64)
    (hids : IdsNumbered C (l ++ [(Op.add prk iv, Out.added r)])) (j : Nat) :
    Removed (l ++ [(Op.add prk iv, Out.added r)]) j ↔ Removed l j := by
  constructor
  · intro ⟨p, id, e, hi, hm⟩
    have hm' := remove_mem_add hm
    obtain ⟨j', p', hi'⟩ := h.accepted id e hm'
    have hjj := Issued.inj hids (by rw [length_addsOf_add]; exact hb) hi (hi'.mono _)
    subst hjj
    exact ⟨p', id, e, hi', hm'⟩
  · intro ⟨p, id, e, hi, hm⟩
    exact ⟨p, id, e, hi.mono _, List.mem_append_left _ hm⟩

/-- The new request lives, and the old ones but the one of its slot. -/
theorem Inv.live_add {t : St} (h : Inv C tableOrder (t, l)) (hb : (addsOf l).length + 1 < 2 ^ 64)
    (hids : IdsNumbered C (l ++ [(Op.add prk iv, Out.added r)])) (j : Nat) :
    Live tableOrder (l ++ [(Op.add prk iv, Out.added r)]) j ↔ j = (addsOf l).length ∨
      (Live tableOrder l j ∧ (j + 1) % 2 ^ tableOrder ≠ ((addsOf l).length + 1) % 2 ^ tableOrder) := by
  have hpos := Nat.two_pow_pos tableOrder
  rw [Live, length_addsOf_add, h.removed_add hb hids]
  constructor
  · intro ⟨hlt, hage, hrem⟩
    by_cases e : j = (addsOf l).length
    · exact Or.inl e
    · exact Or.inr ⟨⟨by omega, by omega, hrem⟩, slot_ne (by omega) (by omega)⟩
  · intro hj
    rcases hj with rfl | ⟨⟨hlt, hage, hrem⟩, hslot⟩
    · refine ⟨by omega, by omega, fun ⟨p, id, e, hi, _⟩ => ?_⟩
      obtain ⟨hlt, -⟩ := List.getElem?_eq_some_iff.mp hi
      exact Nat.lt_irrefl _ hlt
    · refine ⟨by omega, ?_, hrem⟩
      -- a request that is now a full table old had the slot of the new one
      by_contra hold
      have hfull : (addsOf l).length + 1 = j + 1 + 2 ^ tableOrder := by omega
      exact hslot (by rw [hfull, Nat.add_mod_right])

end Add

theorem Inv.add (hk : tableOrder ≤ 63) {s : St × History Iv Id} (h : Inv C tableOrder s)
    (hb : (addsOf s.2).length + 1 < 2 ^ 64) (prk : Prk) (iv : Except SgxStatus Iv) (r : Except SgxStatus Id)
    (hr : ∀ id, r = .ok id → C.decrypt id = .ok (s.1.lastPendingRequestIdVal + 1)) :
    Inv C tableOrder (⟨Function.update s.1.pendingRequests (slot tableOrder (s.1.lastPendingRequestIdVal + 1))
      ⟨s.1.lastPendingRequestIdVal + 1, prk⟩, s.1.lastPendingRequestIdVal + 1⟩, s.2 ++ [(Op.add prk iv, Out.added r)]) := by
  have hone : (1 : BitVec 64).toNat = 1 := rfl
  have hnum : (s.1.lastPendingRequestIdVal + 1).toNat = (addsOf s.2).length + 1 := by
    rw [BitVec.toNat_add, h.count, hone]; omega
  have hval : s.1.lastPendingRequestIdVal + 1 = BitVec.ofNat 64 ((addsOf s.2).length + 1) := by
    apply BitVec.eq_of_toNat_eq; rw [hnum, BitVec.toNat_ofNat]; omega
  have hslot : slot tableOrder (s.1.lastPendingRequestIdVal + 1) = ((addsOf s.2).length + 1) % 2 ^ tableOrder := by
    rw [slot_eq hk, hnum]
  rw [hslot, hval]
  have hids : IdsNumbered C (s.2 ++ [(Op.add prk iv, Out.added r)]) := by
    intro j p id hi
    rcases getElem?_addsOf_add hi with ⟨-, hold⟩ | ⟨rfl, -, hrid⟩
    · exact h.ids j p id hold
    · rw [hr id hrid.symm, hval]
  have hlive := h.live_add hb hids
  refine ⟨?_, by rw [length_addsOf_add]; exact hb, hids, ?_, ?_, ?_, ?_⟩
  · rw [length_addsOf_add, ← hval]; exact hnum
  · intro id e hm
    obtain ⟨j, p, hi⟩ := h.accepted id e (remove_mem_add hm)
    exact ⟨j, p, hi.mono _⟩
  · intro i hi
    by_cases hsl : i = ((addsOf s.2).length + 1) % 2 ^ tableOrder
    · -- the slot written
      subst hsl
      refine Or.inr ⟨(addsOf s.2).length, prk, r, ?_, Function.update_self .., rfl, (hlive _).mpr (Or.inl rfl)⟩
      rw [addsOf_add, List.getElem?_append_right (Nat.le_refl _), Nat.sub_self]; rfl
    · have hkeep : (Function.update s.1.pendingRequests (((addsOf s.2).length + 1) % 2 ^ tableOrder)
          ⟨BitVec.ofNat 64 ((addsOf s.2).length + 1), prk⟩) i = s.1.pendingRequests i := Function.update_of_ne hsl ..
      rcases h.entry i hi with h0 | ⟨j, p, q, hj, he, hs, hl⟩
      · exact Or.inl ((congrArg PendingRequest.idVal hkeep).trans h0)
      · refine Or.inr ⟨j, p, q, ?_, hkeep.trans he, hs, (hlive j).mpr (Or.inr ⟨hl, hs ▸ hsl⟩)⟩
        rw [addsOf_add, List.getElem?_append_left hl.1]; exact hj
  · intro j p q hj hl
    show Function.update _ _ _ _ = _
    rcases getElem?_addsOf_add hj with ⟨hlt, hold⟩ | ⟨rfl, rfl, rfl⟩
    · obtain ⟨hl', hne⟩ := ((hlive j).mp hl).resolve_left (by omega)
      rw [Function.update_of_ne hne]
      exact h.live j p q hold hl'
    · exact Function.update_self ..
  · show (s.2 ++ [(Op.add prk iv, Out.added r)]).Pairwise _
    rw [List.pairwise_append]
    refine ⟨h.once, List.pairwise_singleton .., fun y _ z hz id e e' _ he => ?_⟩
    rw [List.mem_singleton] at hz; subst hz
    cases he

/-! ## Removing -/

theorem Inv.remove {s : St × History Iv Id} (h : Inv C tableOrder s) {j : Nat} {prk : Prk} {id : Id}
    (hi : Issued s.2 j prk id) (hl : Live tableOrder s.2 j) (e : PendingRequest) :
    Inv C tableOrder ({ s.1 with
      pendingRequests := Function.update s.1.pendingRequests ((j + 1) % 2 ^ tableOrder) .zero },
      s.2 ++ [(Op.remove id, Out.got (.ok e))]) := by
  have hadds : addsOf (s.2 ++ [(Op.remove id, Out.got (.ok e))]) = addsOf s.2 := by
    rw [addsOf_concat]; exact List.append_nil _
  have hiss : ∀ i p d, Issued (s.2 ++ [(Op.remove id, Out.got (.ok e))]) i p d ↔ Issued s.2 i p d := by
    intro i p d; rw [Issued, Issued, hadds]
  -- exactly request `j` is removed now and was not before
  have hrem : ∀ i, Removed (s.2 ++ [(Op.remove id, Out.got (.ok e))]) i ↔ Removed s.2 i ∨ i = j := by
    intro i
    constructor
    · rintro ⟨p, d, e', hd, hm⟩
      rw [hiss] at hd
      rcases List.mem_append.mp hm with hm | hm
      · exact Or.inl ⟨p, d, e', hd, hm⟩
      · cases List.mem_singleton.mp hm
        exact Or.inr (Issued.inj h.ids h.bound hd hi)
    · rintro (⟨p, d, e', hd, hm⟩ | rfl)
      · exact ⟨p, d, e', (hiss _ _ _).mpr hd, List.mem_append_left _ hm⟩
      · exact ⟨prk, id, e, (hiss _ _ _).mpr hi, List.mem_append_right _ (List.mem_singleton.mpr rfl)⟩
  have hlive : ∀ i, Live tableOrder (s.2 ++ [(Op.remove id, Out.got (.ok e))]) i ↔ Live tableOrder s.2 i ∧ i ≠ j := by
    intro i
    rw [Live, Live, hadds, hrem, not_or]
    exact ⟨fun ⟨a, b, c, d⟩ => ⟨⟨a, b, c⟩, d⟩, fun ⟨⟨a, b, c⟩, d⟩ => ⟨a, b, c, d⟩⟩
  refine ⟨by rw [hadds]; exact h.count, by rw [hadds]; exact h.bound, ?_, ?_, ?_, ?_, ?_⟩
  · intro i p d hd
    exact h.ids i p d ((hiss _ _ _).mp hd)
  · intro d e' hm
    rcases List.mem_append.mp hm with hm | hm
    · obtain ⟨i, p, hd⟩ := h.accepted d e' hm
      exact ⟨i, p, (hiss _ _ _).mpr hd⟩
    · cases List.mem_singleton.mp hm
      exact ⟨j, prk, (hiss _ _ _).mpr hi⟩
  · intro i hlt
    by_cases hsl : i = (j + 1) % 2 ^ tableOrder
    · subst hsl
      have hz : Function.update s.1.pendingRequests ((j + 1) % 2 ^ tableOrder) PendingRequest.zero
          ((j + 1) % 2 ^ tableOrder) = PendingRequest.zero := Function.update_self ..
      exact Or.inl ((congrArg PendingRequest.idVal hz).trans rfl)
    · have hkeep : Function.update s.1.pendingRequests ((j + 1) % 2 ^ tableOrder) PendingRequest.zero i =
          s.1.pendingRequests i := Function.update_of_ne hsl ..
      rcases h.entry i hlt with h0 | ⟨j', p, q, hj', he, hs, hl'⟩
      · exact Or.inl ((congrArg PendingRequest.idVal hkeep).trans h0)
      · refine Or.inr ⟨j', p, q, by rw [hadds]; exact hj', hkeep.trans he, hs, (hlive j').mpr ⟨hl', ?_⟩⟩
        rintro rfl
        exact hsl hs.symm
  · intro i p q hiq hil
    rw [hadds] at hiq
    obtain ⟨hil, hne⟩ := (hlive i).mp hil
    -- two requests that live have different slots
    have hsl : (i + 1) % 2 ^ tableOrder ≠ (j + 1) % 2 ^ tableOrder := by
      have hi1 := hil.1; have hi2 := hil.2.1; have hj1 := hl.1; have hj2 := hl.2.1
      rcases Nat.lt_or_gt_of_ne hne with hlt | hgt
      · exact slot_ne (by omega) (by omega)
      · exact (slot_ne (by omega) (by omega)).symm
    exact (Function.update_of_ne hsl ..).trans (h.live i p q hiq hil)
  · show (s.2 ++ [(Op.remove id, Out.got (.ok e))]).Pairwise _
    rw [List.pairwise_append]
    refine ⟨h.once, List.pairwise_singleton .., fun y hy z hz d e1 e2 hy' hz' => ?_⟩
    rw [List.mem_singleton] at hz; subst hz
    cases hz'
    -- an earlier removal of the id would have removed the request
    exact hl.2.2 ⟨prk, id, e1, hi, hy' ▸ hy⟩

/-! ## Runs -/

theorem quiet_get (id : Id) (r : Except SgxStatus PendingRequest) : @Quiet Iv Id (.get id, .got r) :=
  ⟨rfl, fun d e h => by cases h⟩

theorem quiet_remove_error (id : Id) (e : SgxStatus) : @Quiet Iv Id (.remove id, .got (.error e)) :=
  ⟨rfl, fun d e' h => by cases h⟩

theorem step_inv (hk : tableOrder ≤ 63) (s : St × History Iv Id) (op : Op Iv Id) (s' : St × History Iv Id)
    (h : Inv C tableOrder s) (hc : Authentic C s op ∧ Numbered s op) (hs : step C tableOrder s op = some s') :
    Inv C tableOrder s' := by
  have hexact := h.exact hk
  cases hs
  cases op with
  | add prk iv =>
    obtain ⟨r, heq, hr⟩ := @addPendingRequest_eq Iv Id C tableOrder s.1 prk iv
    simp only [exec, heq]
    exact h.add hk hc.2 prk iv r hr
  | get id =>
    cases hd : C.decrypt id with
    | error e =>
      simp only [exec, (hexact.forged id e hd).2]
      exact h.quiet (quiet_get _ _)
    | ok v =>
      obtain ⟨j, prk, hi⟩ := hc.1 v hd
      by_cases hl : Live tableOrder s.2 j
      · simp only [exec, hexact.get_live j prk id hi hl]
        exact h.quiet (quiet_get _ _)
      · simp only [exec, (hexact.dead j prk id hi hl).2]
        exact h.quiet (quiet_get _ _)
  | remove id =>
    cases hd : C.decrypt id with
    | error e =>
      simp only [exec, (hexact.forged id e hd).1]
      exact h.quiet (quiet_remove_error _ _)
    | ok v =>
      obtain ⟨j, prk, hi⟩ := hc.1 v hd
      by_cases hl : Live tableOrder s.2 j
      · obtain ⟨hj, -⟩ := List.getElem?_eq_some_iff.mp hi
        have hslot : slot tableOrder (BitVec.ofNat 64 (j + 1)) = (j + 1) % 2 ^ tableOrder := by
          rw [slot_eq hk, toNat_number h.bound hj]
        have hf := (h.found_iff hi).mpr hl
        have hrem : removePendingRequest C tableOrder s.1 id = (.ok ⟨BitVec.ofNat 64 (j + 1), prk⟩, { s.1 with
            pendingRequests := Function.update s.1.pendingRequests ((j + 1) % 2 ^ tableOrder) .zero }) := by
          unfold removePendingRequest
          simp only [h.ids j prk id hi, hslot]
          rw [if_pos hf, h.live j prk _ hi hl]
        simp only [exec, hrem]
        exact h.remove hi hl _
      · simp only [exec, (hexact.dead j prk id hi hl).1]
        exact h.quiet (quiet_remove_error _ _)

/-- In every state of a run with authentic ids and fewer than `2 ^ 64` adds, the table does what
    the history asks. -/
theorem always_exact (C : IdCipher Iv Id) (tableOrder : Nat) (hk : tableOrder ≤ 63) (ops : List (Op Iv Id))
    (hm : Runs.Meets (step C tableOrder) (fun s op => Authentic C s op ∧ Numbered s op) (init, []) ops) :
    Runs.Always (step C tableOrder) (Exact C tableOrder) (init, []) ops :=
  Runs.Always.mono (fun _ h => h.exact hk) ops _
    (Runs.always_of_inv (step_inv hk) ops _ (init_inv C tableOrder) hm)

end Table

/-- Ids that are the numbers themselves. -/
def plainCipher : IdCipher Unit (BitVec 64) where
  encrypt := fun v _ => .ok v
  decrypt := .ok
  decrypt_encrypt := by intro v iv id h; cases h; rfl

/-- A table of two slots: a request is added, read, and removed twice. -/
theorem always_exact_removed_twice :
    Runs.Always (step plainCipher 1) (Exact plainCipher 1) (init, [])
      [.add 7 (.ok ()), .get 1, .remove 1, .remove 1] := by
  refine always_exact plainCipher 1 (by decide) _ ?_
  intro s1 h1; cases h1
  refine ⟨⟨trivial, (by decide : 1 < 2 ^ 64)⟩, ?_⟩
  intro s2 h2; cases h2
  refine ⟨⟨fun _ _ => ⟨0, 7, rfl⟩, trivial⟩, ?_⟩
  intro s3 h3; cases h3
  refine ⟨⟨fun _ _ => ⟨0, 7, rfl⟩, trivial⟩, ?_⟩
  intro s4 h4; cases h4
  exact ⟨⟨fun _ _ => ⟨0, 7, rfl⟩, trivial⟩, trivial⟩

end ContactDiscovery.Enclave.PendingRequests
