/-
  ContactDiscovery.Enclave.ServerProofs — what the batch server reads and answers (see
  `ContactDiscovery.Enclave.Server`).

  The abstract server is the list of accepted requests, each with its own phones
  (`accepted`); the phone list and the request list are read off it (`run_refines`). A buffer
  answers a list of phones when it has a block for each, in order (`Answers`); the chunks'
  buffers laid end to end answer the whole list, and splitting it by request gives each
  request the answer of its own phones.

  Proved: `terminate_reads_outside_iff`, when the directory a termination reads is outside the
  enclave, and `terminate_null_reads_enclave`, a run where it is not; `terminate_replies`, who is
  answered with what, and `terminate_unanswered`, runs that leave accepted requests unanswered.
-/

import ContactDiscovery.Enclave.Server

namespace ContactDiscovery.Enclave.Server

open Lib
open HashLookup (MAX_HASH_TABLE_SIZE)

section Server

variable {F : Type} {C : Crypto} {outside : Ptr → Usize → BitVec 32}
  {hashLookup : Ptr → Ptr → Usize → List Phone → List Byte → Except SgxStatus Unit × List Byte}
  {replyResult : Nat → Except SgxStatus Unit}

/-! ## What a request decodes to -/

/-- What the checks on the sizes amount to. -/
theorem sizes_iff {n count : Nat} :
    (¬n < COMMITMENT_NONCE_SIZE ∧ (n - COMMITMENT_NONCE_SIZE) % BYTES_PER_PHONE = 0 ∧
      (n - COMMITMENT_NONCE_SIZE) / BYTES_PER_PHONE = count) ↔ n = COMMITMENT_NONCE_SIZE + BYTES_PER_PHONE * count := by
  simp only [COMMITMENT_NONCE_SIZE, BYTES_PER_PHONE]; omega

/-- A query that is read, and decrypts to data with the commitment. -/
theorem decodeQuery_ok_iff {args : CallArgs} {requestData data plain : List Byte} :
    decodeQuery C args requestData data = .ok plain ↔
      requestData.length = AES_GCM_KEY_LEN ∧
      data.length = COMMITMENT_NONCE_SIZE + BYTES_PER_PHONE * args.queryPhoneCount.toNat ∧
      (∃ h : plain.length = data.length, C.decrypt requestData data args.query.iv args.query.mac = .ok ⟨plain, h⟩) ∧
      C.sha256 plain = args.queryCommitment := by
  constructor
  · intro h
    unfold decodeQuery at h
    split at h
    · cases h
    rename_i hmin
    split at h
    · cases h
    rename_i hsz
    rw [not_or, not_or, not_not, not_not, not_not] at hsz
    obtain ⟨hkey, hmod, hdiv⟩ := hsz
    split at h
    · cases h
    rename_i p hp
    unfold verifyCommitment at h
    by_cases hc : C.sha256 p.1 = args.queryCommitment
    · rw [if_pos hc] at h
      cases h
      exact ⟨hkey, sizes_iff.mp ⟨hmin, hmod, hdiv⟩, ⟨p.2, hp⟩, hc⟩
    · rw [if_neg hc] at h
      cases h
  · rintro ⟨hkey, hsize, ⟨hpl, htag⟩, hc⟩
    obtain ⟨hmin, hmod, hdiv⟩ := sizes_iff.mpr hsize
    unfold decodeQuery
    rw [if_neg hmin, if_neg (by rw [not_or, not_or, not_not, not_not, not_not]; exact ⟨hkey, hmod, hdiv⟩), htag]
    simp only [verifyCommitment, if_pos hc]

theorem decodeQuery_count {args : CallArgs} {requestData data plain : List Byte}
    (h : decodeQuery C args requestData data = .ok plain) : (phonesOf plain).length = args.queryPhoneCount.toNat := by
  obtain ⟨-, hsize, ⟨hlen, -⟩, -⟩ := decodeQuery_ok_iff.mp h
  rw [phonesOf, List.length_map, List.length_range, hlen, (sizes_iff.mpr hsize).2.2]

/-! ## What a termination looks up -/

theorem lookup_not_mem_dropAll (requests : List (PendingRequest F)) (p u : Ptr) (n : Usize) (q : List Phone) :
    Ev.lookup p u n q ∉ dropAll requests := by
  intro h
  obtain ⟨r, -, hr⟩ := List.mem_map.mp h
  cases hr

theorem lookup_not_mem_replyLoop (p u : Ptr) (n : Usize) (q : List Phone) :
    ∀ (requests : List (PendingRequest F)) (i : Nat) (buf : List Byte),
      Ev.lookup p u n q ∉ (replyLoop replyResult i requests buf).1 := by
  intro requests
  induction requests with
  | nil => intro i buf h; cases h
  | cons r requests ih =>
    intro i buf h
    have hone : ∀ msg, Ev.lookup p u n q ∉ (reply replyResult i r.sender msg).1 := by
      intro msg hm
      unfold reply at hm
      split at hm <;> simp at hm
    unfold replyLoop at h
    simp only at h
    split at h
    · cases h
    · split at h
      · rename_i ev e he
        rcases List.mem_append.mp h with h | h
        · exact hone _ (by rw [he]; exact h)
        · exact lookup_not_mem_dropAll _ _ _ _ _ h
      · rename_i ev he
        rcases List.mem_append.mp h with h | h
        · exact hone _ (by rw [he]; exact h)
        · exact ih _ _ h

theorem lookupLoop_mem {p u p' u' : Ptr} {n n' : Usize} {q : List Phone} :
    ∀ (l : List (List Phone × List Byte)),
      Ev.lookup p' u' n' q ∈ (lookupLoop (F := F) hashLookup p u n l).1 → p' = p ∧ u' = u ∧ n' = n := by
  intro l
  induction l with
  | nil => intro h; cases h
  | cons c l ih =>
    intro h
    unfold lookupLoop at h
    split at h
    · cases List.mem_singleton.mp h; exact ⟨rfl, rfl, rfl⟩
    · rcases List.mem_cons.mp h with h | h
      · cases h; exact ⟨rfl, rfl, rfl⟩
      · exact ih h

theorem checkedMul_some {a b : Usize} {n : Nat} (h : checkedMul a n = some b) : b.toNat = a.toNat * n ∧ a.toNat * n < 2 ^ 64 := by
  unfold checkedMul at h
  split at h
  · rename_i hlt
    cases h
    refine ⟨?_, hlt⟩
    by_cases h0 : a.toNat = 0
    · rw [BitVec.toNat_mul, h0]; simp
    · have hn : n < 2 ^ 64 := Nat.lt_of_le_of_lt (Nat.le_mul_of_pos_left n (by omega)) hlt
      rw [BitVec.toNat_mul, BitVec.toNat_ofNat, Nat.mod_eq_of_lt hn, Nat.mod_eq_of_lt hlt]
  · cases h

/-- A lookup in the trace got the pointers of slices made from the arguments. -/
theorem terminate_lookup {s : SgxsdServerState F} {args : StopArgs} {p u : Ptr} {n : Usize} {q : List Phone}
    (h : Ev.lookup p u n q ∈ (terminate outside hashLookup replyResult s (some args)).1) :
    n = args.inPhoneCount ∧ ∃ sp su a b, checkedMul n BYTES_PER_PHONE = some sp ∧ checkedMul n BYTES_PER_UUID = some su ∧
      UntrustedSlice.new outside args.inPhones sp = .ok a ∧ UntrustedSlice.new outside args.inUuids su = .ok b ∧
      p = a.asPtr ∧ u = b.asPtr := by
  unfold terminate at h
  simp only at h
  split at h
  · rename_i sp su hsp hsu
    split at h
    · rename_i a b ha hb
      split at h
      · split at h
        · rename_i ev e out hl
          rcases List.mem_append.mp h with h | h
          · obtain ⟨rfl, rfl, rfl⟩ := lookupLoop_mem _ (by rw [hl]; exact h)
            exact ⟨rfl, sp, su, a, b, hsp, hsu, ha, hb, rfl, rfl⟩
          · exact absurd h (lookup_not_mem_dropAll _ _ _ _ _)
        · rename_i ev out hl
          rcases List.mem_append.mp h with h | h
          · obtain ⟨rfl, rfl, rfl⟩ := lookupLoop_mem _ (by rw [hl]; exact h)
            exact ⟨rfl, sp, su, a, b, hsp, hsu, ha, hb, rfl, rfl⟩
          · exact absurd h (lookup_not_mem_replyLoop _ _ _ _ _ _ _)
      · exact absurd h (lookup_not_mem_dropAll _ _ _ _ _)
    · exact absurd h (lookup_not_mem_dropAll _ _ _ _ _)
  · exact absurd h (lookup_not_mem_dropAll _ _ _ _ _)

/-- One of the two ranges: outside unless its pointer is null, and then outside exactly when
    it ends before the enclave. -/
theorem slice_outside_iff {E : EnclaveRange} (hE : E.Exact outside) {ptr : Ptr} {n sz : Usize} {k : Nat}
    {a : UntrustedSlice} (hsz : checkedMul n k = some sz) (ha : UntrustedSlice.new outside ptr sz = .ok a) :
    E.Outside a.asPtr.toNat (n.toNat * k) ↔ (ptr = 0 → n.toNat * k ≤ E.base) := by
  obtain ⟨hval, hlt⟩ := checkedMul_some hsz
  by_cases hp : ptr = 0
  · subst hp
    rw [UntrustedSlice.new_null] at ha
    cases ha
    exact (E.outside_null (by omega)).trans ⟨fun h _ => h, fun h => h rfl⟩
  · refine iff_of_true ?_ fun h => absurd h hp
    by_cases hz : sz = 0
    · subst hz
      rw [UntrustedSlice.new_zero] at ha
      cases ha
      rw [← hval]
      exact (E.outside_null (by simp)).mpr (by simp)
    · obtain ⟨hptr, hout⟩ := UntrustedSlice.new_nonEmpty hE hp hz ha
      rw [hptr, ← hval]; exact hout

/-- The directory bytes of every lookup in a trace are outside the enclave. -/
def ReadsOutside (E : EnclaveRange) (trace : List (Ev F)) : Prop :=
  ∀ p u n q, Ev.lookup p u n q ∈ trace →
    E.Outside p.toNat (n.toNat * BYTES_PER_PHONE) ∧ E.Outside u.toNat (n.toNat * BYTES_PER_UUID)

/-- A termination that looks phones up reads outside the enclave exactly when a null directory
    pointer comes with a count whose bytes from address zero end before the enclave. -/
theorem terminate_reads_outside_iff (E : EnclaveRange) (outside : Ptr → Usize → BitVec 32) (hE : E.Exact outside)
    (hashLookup : Ptr → Ptr → Usize → List Phone → List Byte → Except SgxStatus Unit × List Byte)
    (replyResult : Nat → Except SgxStatus Unit) (s : SgxsdServerState F) (args : StopArgs)
    (hreach : ∃ p u n q, Ev.lookup p u n q ∈ (terminate outside hashLookup replyResult s (some args)).1) :
    ReadsOutside E (terminate outside hashLookup replyResult s (some args)).1 ↔
      (args.inPhones = 0 → args.inPhoneCount.toNat * BYTES_PER_PHONE ≤ E.base) ∧
      (args.inUuids = 0 → args.inPhoneCount.toNat * BYTES_PER_UUID ≤ E.base) := by
  constructor
  · intro h
    obtain ⟨p, u, n, q, hmem⟩ := hreach
    obtain ⟨rfl, sp, su, a, b, hsp, hsu, ha, hb, rfl, rfl⟩ := terminate_lookup hmem
    obtain ⟨h1, h2⟩ := h _ _ _ _ hmem
    exact ⟨(slice_outside_iff hE hsp ha).mp h1, (slice_outside_iff hE hsu hb).mp h2⟩
  · intro h p u n q hmem
    obtain ⟨rfl, sp, su, a, b, hsp, hsu, ha, hb, rfl, rfl⟩ := terminate_lookup hmem
    exact ⟨(slice_outside_iff hE hsp ha).mpr h.1, (slice_outside_iff hE hsu hb).mpr h.2⟩

/-! ## Chunks -/

theorem chunkPairs_nil : chunkPairs [] = [] := by
  rw [chunkPairs, chunks_nil]; rfl

theorem chunkPairs_ne_nil {phones : List Phone} (h : phones ≠ []) :
    chunkPairs phones =
      (phones.take MAX_HASH_TABLE_SIZE,
        List.replicate ((phones.take MAX_HASH_TABLE_SIZE).length * BYTES_PER_UUID) 0) ::
      chunkPairs (phones.drop MAX_HASH_TABLE_SIZE) := by
  have hpos := List.length_pos_of_ne_nil h
  have hmax : MAX_HASH_TABLE_SIZE = 8192 := by decide
  have hbuf : List.replicate (phones.length * BYTES_PER_UUID) (0 : Byte) ≠ [] := by
    intro h0
    have := congrArg List.length h0
    simp only [List.length_replicate, List.length_nil, BYTES_PER_UUID] at this; omega
  rw [chunkPairs, chunks_ne_nil (by decide) h, chunks_ne_nil (by decide) hbuf, List.zip_cons_cons, chunkPairs]
  rw [List.take_replicate, List.drop_replicate, List.length_take, List.length_drop]
  have h1 : min (MAX_HASH_TABLE_SIZE * BYTES_PER_UUID) (phones.length * BYTES_PER_UUID) =
      min MAX_HASH_TABLE_SIZE phones.length * BYTES_PER_UUID := by simp only [BYTES_PER_UUID]; omega
  have h2 : phones.length * BYTES_PER_UUID - MAX_HASH_TABLE_SIZE * BYTES_PER_UUID =
      (phones.length - MAX_HASH_TABLE_SIZE) * BYTES_PER_UUID := by simp only [BYTES_PER_UUID]; omega
  rw [h1, h2]

/-- The slices a termination makes of its directory arguments. -/
def directorySlices (outside : Ptr → Usize → BitVec 32) (args : StopArgs) : Option (UntrustedSlice × UntrustedSlice) :=
  match checkedMul args.inPhoneCount BYTES_PER_PHONE, checkedMul args.inPhoneCount BYTES_PER_UUID with
  | some inPhonesSize, some inUuidsSize =>
    match UntrustedSlice.new outside args.inPhones inPhonesSize, UntrustedSlice.new outside args.inUuids inUuidsSize with
    | .ok inPhones, .ok inUuids => some (inPhones, inUuids)
    | _, _ => none
  | _, _ => none

theorem directorySlices_some {args : StopArgs} {a b : UntrustedSlice} (hd : directorySlices outside args = some (a, b)) :
    ∃ sp su, checkedMul args.inPhoneCount BYTES_PER_PHONE = some sp ∧
      checkedMul args.inPhoneCount BYTES_PER_UUID = some su ∧
      UntrustedSlice.new outside args.inPhones sp = .ok a ∧ UntrustedSlice.new outside args.inUuids su = .ok b := by
  unfold directorySlices at hd
  split at hd
  · rename_i sp su hsp hsu
    split at hd
    · rename_i a' b' ha hb
      cases hd
      exact ⟨sp, su, hsp, hsu, ha, hb⟩
    · cases hd
  · cases hd

/-- With a directory it accepts, a termination whose lookups fail drops every request. -/
theorem terminate_error {s : SgxsdServerState F} {args : StopArgs} {a b : UntrustedSlice} {ev : List (Ev F)} {e : SgxStatus}
    {out : List Byte} (hd : directorySlices outside args = some (a, b))
    (hlen : s.queryPhones.length * BYTES_PER_UUID < 2 ^ 64)
    (hl : lookupLoop hashLookup a.asPtr b.asPtr args.inPhoneCount (chunkPairs s.queryPhones) = (ev, .error e, out)) :
    terminate outside hashLookup replyResult s (some args) = (ev ++ dropAll s.requests, .returned (.error e)) := by
  obtain ⟨sp, su, hsp, hsu, ha, hb⟩ := directorySlices_some hd
  unfold terminate
  simp only [hsp, hsu, ha, hb, hl]
  rw [if_pos hlen]

/-- With a directory it accepts, a termination whose lookups succeed goes on to the replies. -/
theorem terminate_ok {s : SgxsdServerState F} {args : StopArgs} {a b : UntrustedSlice} {ev : List (Ev F)}
    {results : List Byte} (hd : directorySlices outside args = some (a, b))
    (hlen : s.queryPhones.length * BYTES_PER_UUID < 2 ^ 64)
    (hl : lookupLoop hashLookup a.asPtr b.asPtr args.inPhoneCount (chunkPairs s.queryPhones) = (ev, .ok (), results)) :
    terminate outside hashLookup replyResult s (some args) =
      (ev ++ (replyLoop replyResult 0 s.requests results).1, (replyLoop replyResult 0 s.requests results).2) := by
  obtain ⟨sp, su, hsp, hsu, ha, hb⟩ := directorySlices_some hd
  unfold terminate
  simp only [hsp, hsu, ha, hb, hl]
  rw [if_pos hlen]

theorem lookupLoop_head (p u : Ptr) (n : Usize) (c : List Phone) (buf : List Byte) (l : List (List Phone × List Byte)) :
    Ev.lookup p u n c ∈ (lookupLoop (F := F) hashLookup p u n ((c, buf) :: l)).1 := by
  unfold lookupLoop
  split <;> exact List.mem_cons_self

theorem terminate_mem_lookup {s : SgxsdServerState F} {args : StopArgs} {a b : UntrustedSlice}
    (hd : directorySlices outside args = some (a, b)) (hlen : s.queryPhones.length * BYTES_PER_UUID < 2 ^ 64)
    (hne : s.queryPhones ≠ []) :
    Ev.lookup a.asPtr b.asPtr args.inPhoneCount (s.queryPhones.take MAX_HASH_TABLE_SIZE) ∈
      (terminate outside hashLookup replyResult s (some args)).1 := by
  have hhead : Ev.lookup a.asPtr b.asPtr args.inPhoneCount (s.queryPhones.take MAX_HASH_TABLE_SIZE) ∈
      (lookupLoop (F := F) hashLookup a.asPtr b.asPtr args.inPhoneCount (chunkPairs s.queryPhones)).1 := by
    rw [chunkPairs_ne_nil hne]; exact lookupLoop_head _ _ _ _ _ _
  rcases hl : lookupLoop (F := F) hashLookup a.asPtr b.asPtr args.inPhoneCount (chunkPairs s.queryPhones) with ⟨ev, r, out⟩
  rw [hl] at hhead
  cases r with
  | error e => rw [terminate_error hd hlen hl]; exact List.mem_append_left _ hhead
  | ok r => rw [terminate_ok hd hlen hl]; exact List.mem_append_left _ hhead

/-! ## Requests of zeroes

A request of `n` zero phones, and a cipher that leaves its buffer alone, to run the server
on. -/

def idleCrypto : Crypto := ⟨fun _ d _ _ => .ok ⟨d, rfl⟩, fun _ => []⟩

def zerosCall (sender : F) (n : Nat) : Call F where
  args := some ⟨BitVec.ofNat 32 n, ⟨[], [], BitVec.ofNat 32 (32 + 8 * n), 1⟩, []⟩
  requestData := List.replicate 32 0
  mem := fun _ => 0
  sender := sender

theorem phonesOf_zeros (n : Nat) : phonesOf (List.replicate (32 + 8 * n) 0) = List.replicate n 0 := by
  have hcount : ((List.replicate (32 + 8 * n) (0 : Byte)).length - COMMITMENT_NONCE_SIZE) / BYTES_PER_PHONE = n := by
    rw [List.length_replicate, COMMITMENT_NONCE_SIZE, BYTES_PER_PHONE]; omega
  rw [phonesOf, hcount, List.eq_replicate_iff]
  refine ⟨by rw [List.length_map, List.length_range], fun p hp => ?_⟩
  obtain ⟨i, hi, rfl⟩ := List.mem_map.mp hp
  rw [List.mem_range] at hi
  have hb : block BYTES_PER_PHONE i ((List.replicate (32 + 8 * n) (0 : Byte)).drop COMMITMENT_NONCE_SIZE) =
      List.replicate 8 0 := by
    rw [block, List.drop_replicate, List.drop_replicate, List.take_replicate, BYTES_PER_PHONE, COMMITMENT_NONCE_SIZE]
    congr 1; omega
  rw [hb]; decide

theorem handleCall_zeros (s : SgxsdServerState F) (sender : F) {n : Nat} (hn : 0 < n)
    (hcap : n ≤ s.capacity - s.queryPhones.length) (hsize : 32 + 8 * n < 2 ^ 32)
    (hout : outside 1 (BitVec.ofNat 64 (32 + 8 * n)) = 1) :
    handleCall idleCrypto outside s (zerosCall sender n) =
      (.ok (), { s with queryPhones := s.queryPhones ++ List.replicate n 0, requests := s.requests ++ [⟨sender, n⟩] }) := by
  have hcount : (BitVec.ofNat 32 n).toNat = n := by rw [BitVec.toNat_ofNat]; omega
  have hwide : (BitVec.ofNat 32 (32 + 8 * n)).setWidth 64 = BitVec.ofNat 64 (32 + 8 * n) := by
    apply BitVec.eq_of_toNat_eq
    rw [BitVec.toNat_setWidth, BitVec.toNat_ofNat, BitVec.toNat_ofNat]; omega
  have hval : (BitVec.ofNat 64 (32 + 8 * n)).toNat = 32 + 8 * n := by rw [BitVec.toNat_ofNat]; omega
  have hnz : BitVec.ofNat 64 (32 + 8 * n) ≠ 0 := by
    intro h; have := congrArg BitVec.toNat h; rw [hval] at this; simp at this
  have hnw : ¬((1 : Ptr) + BitVec.ofNat 64 (32 + 8 * n) < 1) := by
    rw [BitVec.lt_def, BitVec.toNat_add, hval]
    have h1 : (1 : BitVec 64).toNat = 1 := rfl
    rw [h1]; omega
  have hnew : UntrustedSlice.new outside 1 (BitVec.ofNat 64 (32 + 8 * n)) =
      .ok (.nonEmpty 1 (BitVec.ofNat 64 (32 + 8 * n)) (by decide) hnz) := by
    unfold UntrustedSlice.new
    rw [dif_pos ⟨hnz, by decide⟩, if_neg (not_not.mpr hout), if_neg hnw]
  have hread : (List.range (32 + 8 * n)).map (fun _ => (0 : Byte)) = List.replicate (32 + 8 * n) 0 := by
    rw [List.map_const', List.length_range]
  have hdec : decodePhoneList idleCrypto outside (fun _ => 0)
      ⟨BitVec.ofNat 32 n, ⟨[], [], BitVec.ofNat 32 (32 + 8 * n), 1⟩, []⟩ (List.replicate 32 0) =
      .ok (List.replicate (32 + 8 * n) 0) := by
    unfold decodePhoneList
    simp only [hwide, hnew, UntrustedSlice.readBytes, hval, hread]
    rw [if_pos (BitVec.le_refl _)]
    refine decodeQuery_ok_iff.mpr ⟨List.length_replicate, ?_, ⟨rfl, rfl⟩, rfl⟩
    rw [List.length_replicate, hcount, COMMITMENT_NONCE_SIZE, BYTES_PER_PHONE]
  have hne : ¬(BitVec.ofNat 32 n = 0 ∨ (BitVec.ofNat 32 n).toNat > s.capacity - s.queryPhones.length) := by
    rw [hcount]
    rintro (h | h)
    · have := congrArg BitVec.toNat h; rw [hcount] at this; simp at this; omega
    · omega
  unfold handleCall zerosCall
  simp only [decodeRequest, if_neg hne, hdec, phonesOf_zeros, List.length_replicate]
  rw [if_pos (by omega)]

/-! ## Null directories -/

def highEnclave : EnclaveRange := ⟨0x7f0000000000, 0x20000000, by decide, by decide⟩

/-- The enclave initialises, takes a request of one phone, and is stopped with null directory
    pointers and a count of `2 ^ 44`: the lookup is called, to read up to address `2 ^ 47` and
    beyond, over the enclave. -/
theorem terminate_null_reads_enclave :
    let outside := highEnclave.isOutside
    let s := (handleCall idleCrypto outside (init 1) (zerosCall () 1)).2
    let hashLookup := fun (_ _ : Ptr) (_ : Usize) (_ : List Phone) (buf : List Byte) => (Except.ok (), buf)
    let t := terminate outside hashLookup (fun _ => .ok ()) s (some ⟨0, BitVec.ofNat 64 (2 ^ 44), 0⟩)
    nodeInitLocked outside false ⟨some 1, .ok (), .ok (), .ok (), true⟩ = .ok 1 ∧
      Ev.lookup 0 0 (BitVec.ofNat 64 (2 ^ 44)) [0] ∈ t.1 ∧ ¬ReadsOutside highEnclave t.1 := by
  intro outside s hashLookup t
  have hs : s = ⟨[⟨(), 1⟩], [0], 1⟩ :=
    congrArg Prod.snd (@handleCall_zeros Unit outside (init 1) () 1 (by decide) (by decide) (by decide) (by decide))
  have hmem : Ev.lookup 0 0 (BitVec.ofNat 64 (2 ^ 44)) [0] ∈ t.1 := by
    have hd : directorySlices outside ⟨0, BitVec.ofNat 64 (2 ^ 44), 0⟩ = some (.empty, .empty) := by
      have h1 : checkedMul (BitVec.ofNat 64 (2 ^ 44)) BYTES_PER_PHONE = some (BitVec.ofNat 64 (2 ^ 47)) := by decide
      have h2 : checkedMul (BitVec.ofNat 64 (2 ^ 44)) BYTES_PER_UUID = some (BitVec.ofNat 64 (2 ^ 48)) := by decide
      unfold directorySlices
      simp only [h1, h2, UntrustedSlice.new_null]
    show _ ∈ (terminate outside hashLookup _ s _).1
    rw [hs]
    exact terminate_mem_lookup hd (by decide) (by decide)
  refine ⟨by decide, hmem, fun h => ?_⟩
  -- the phones' range starts at null and ends past the enclave's base
  have hout := (h _ _ _ _ hmem).1
  rw [show (BitVec.ofNat 64 (2 ^ 44)).toNat * BYTES_PER_PHONE = 2 ^ 47 by decide] at hout
  exact absurd ((highEnclave.outside_null (by decide)).mp hout) (by decide)

/-- The same enclave and request, stopped with two entries at addresses of the host. -/
theorem terminate_reads_host :
    let outside := highEnclave.isOutside
    let s := (handleCall idleCrypto outside (init 1) (zerosCall () 1)).2
    let hashLookup := fun (_ _ : Ptr) (_ : Usize) (_ : List Phone) (buf : List Byte) => (Except.ok (), buf)
    let t := terminate outside hashLookup (fun _ => .ok ()) s (some ⟨0x1000, 2, 0x2000⟩)
    Ev.lookup 0x1000 0x2000 2 [0] ∈ t.1 ∧ ReadsOutside highEnclave t.1 := by
  intro outside s hashLookup t
  have hs : s = ⟨[⟨(), 1⟩], [0], 1⟩ :=
    congrArg Prod.snd (@handleCall_zeros Unit outside (init 1) () 1 (by decide) (by decide) (by decide) (by decide))
  have hd : directorySlices outside ⟨0x1000, 2, 0x2000⟩ =
      some (.nonEmpty 0x1000 16 (by decide) (by decide), .nonEmpty 0x2000 32 (by decide) (by decide)) := by rfl
  have hmem : Ev.lookup 0x1000 0x2000 2 [0] ∈ t.1 := by
    show _ ∈ (terminate outside hashLookup _ s _).1
    rw [hs]
    exact terminate_mem_lookup hd (by decide) (by decide)
  refine ⟨hmem, (terminate_reads_outside_iff highEnclave outside highEnclave.isOutside_exact hashLookup _ s _
    ⟨_, _, _, _, hmem⟩).mpr ⟨fun h => absurd h (by decide), fun h => absurd h (by decide)⟩⟩

/-! ## Answers -/

/-- A buffer with one block for each phone, the block of each as `R` asks. -/
structure Answers (R : Phone → List Byte → Prop) (phones : List Phone) (buf : List Byte) : Prop where
  length : buf.length = BYTES_PER_UUID * phones.length
  block : ∀ i (hi : i < phones.length), R phones[i] (block BYTES_PER_UUID i buf)

variable {R : Phone → List Byte → Prop}

theorem Answers.append {a b : List Phone} {x y : List Byte} (ha : Answers R a x) (hb : Answers R b y) :
    Answers R (a ++ b) (x ++ y) := by
  refine ⟨?_, fun i hi => ?_⟩
  · rw [List.length_append, List.length_append, ha.length, hb.length, Nat.mul_add]
  · by_cases hia : i < a.length
    · have hlen := ha.length
      rw [List.getElem_append_left hia, block_append_left (by simp only [BYTES_PER_UUID] at hlen ⊢; omega)]
      exact ha.block i hia
    · rw [List.length_append] at hi
      obtain ⟨j, rfl⟩ := Nat.exists_eq_add_of_le (Nat.le_of_not_lt hia)
      rw [List.getElem_append_right (by omega), block_append_right ha.length]
      have hj : a.length + j - a.length = j := by omega
      simp only [hj]
      exact hb.block j (by omega)

theorem Answers.split {a b : List Phone} {buf : List Byte} (h : Answers R (a ++ b) buf) :
    Answers R a (buf.take (a.length * BYTES_PER_UUID)) ∧ Answers R b (buf.drop (a.length * BYTES_PER_UUID)) := by
  have hlen := h.length
  rw [List.length_append, Nat.mul_add] at hlen
  have hfront : (buf.take (a.length * BYTES_PER_UUID)).length = BYTES_PER_UUID * a.length := by
    rw [List.length_take, Nat.mul_comm a.length]; omega
  have hback : (buf.drop (a.length * BYTES_PER_UUID)).length = BYTES_PER_UUID * b.length := by
    rw [List.length_drop, Nat.mul_comm a.length]; omega
  refine ⟨⟨hfront, fun i hi => ?_⟩, ⟨hback, fun i hi => ?_⟩⟩
  · have hb := h.block i (by rw [List.length_append]; omega)
    rw [← List.take_append_drop (a.length * BYTES_PER_UUID) buf, List.getElem_append_left hi,
      block_append_left (by simp only [BYTES_PER_UUID] at hfront ⊢; omega)] at hb
    exact hb
  · have hb := h.block (a.length + i) (by rw [List.length_append]; omega)
    rw [← List.take_append_drop (a.length * BYTES_PER_UUID) buf, List.getElem_append_right (by omega),
      block_append_right hfront] at hb
    have hj : a.length + i - a.length = i := by omega
    simp only [hj] at hb
    exact hb

/-- A lookup that answers every chunk of 1 to 8192 phones. -/
def LookupCorrect (R : Phone → List Byte → Prop) (lookup : List Phone → List Byte → Except SgxStatus Unit × List Byte) :
    Prop :=
  ∀ chunk buf, 1 ≤ chunk.length → chunk.length ≤ MAX_HASH_TABLE_SIZE → buf.length = chunk.length * BYTES_PER_UUID →
    ∃ out, lookup chunk buf = (.ok (), out) ∧ Answers R chunk out

/-- The chunks' buffers laid end to end answer the whole list. -/
theorem lookupLoop_answers {p u : Ptr} {n : Usize} (hc : LookupCorrect R (hashLookup p u n)) :
    ∀ (k : Nat) (phones : List Phone), phones.length ≤ k →
      ∃ ev out, lookupLoop (F := F) hashLookup p u n (chunkPairs phones) = (ev, .ok (), out) ∧ Answers R phones out := by
  have hmax : 0 < MAX_HASH_TABLE_SIZE := by decide
  intro k
  -- on a bound of the length: a chunk takes at least one phone off
  induction k with
  | zero =>
    intro phones h
    rw [List.eq_nil_of_length_eq_zero (Nat.le_zero.mp h), chunkPairs_nil]
    exact ⟨[], [], rfl, rfl, fun i hi => absurd hi (Nat.not_lt_zero i)⟩
  | succ k ih =>
    intro phones h
    by_cases hne : phones = []
    · subst hne; exact ih [] (Nat.zero_le k)
    have hpos := List.length_pos_of_ne_nil hne
    obtain ⟨out, hout, hans⟩ := hc (phones.take MAX_HASH_TABLE_SIZE)
      (List.replicate ((phones.take MAX_HASH_TABLE_SIZE).length * BYTES_PER_UUID) 0) (by rw [List.length_take]; omega)
      (List.length_take_le _ _) List.length_replicate
    obtain ⟨ev, rest, hrest, hansr⟩ := ih (phones.drop MAX_HASH_TABLE_SIZE) (by rw [List.length_drop]; omega)
    refine ⟨.lookup p u n (phones.take MAX_HASH_TABLE_SIZE) :: ev, out ++ rest, ?_, ?_⟩
    · rw [chunkPairs_ne_nil hne, lookupLoop, hout]
      simp only [hrest]
    · have happ := hans.append hansr
      rwa [List.take_append_drop] at happ

/-! ## The accepted requests -/

/-- The phones a call's own data decodes to. -/
def ownPhones (C : Crypto) (outside : Ptr → Usize → BitVec 32) (c : Call F) : List Phone :=
  match c.args with
  | none => []
  | some args =>
    match decodePhoneList C outside c.mem args c.requestData with
    | .error _ => []
    | .ok data => phonesOf data

def run (C : Crypto) (outside : Ptr → Usize → BitVec 32) (s : SgxsdServerState F) (calls : List (Call F)) :
    SgxsdServerState F :=
  calls.foldl (fun s c => (handleCall C outside s c).2) s

/-- The calls that returned `Ok`, in order: whom to answer and what they asked. -/
def accepted (C : Crypto) (outside : Ptr → Usize → BitVec 32) : SgxsdServerState F → List (Call F) → List (F × List Phone)
  | _, [] => []
  | s, c :: calls =>
    match handleCall C outside s c with
    | (.ok (), s') => (c.sender, ownPhones C outside c) :: accepted C outside s' calls
    | (.error _, s') => accepted C outside s' calls

theorem decodePhoneList_count {mem : Ptr → Byte} {args : CallArgs} {requestData data : List Byte}
    (h : decodePhoneList C outside mem args requestData = .ok data) : (phonesOf data).length = args.queryPhoneCount.toNat := by
  unfold decodePhoneList at h
  split at h
  · cases h
  split at h
  · cases h
  · exact decodeQuery_count h

theorem length_ownPhones_le {c : Call F} {args : CallArgs} (ha : c.args = some args) :
    (ownPhones C outside c).length ≤ args.queryPhoneCount.toNat := by
  unfold ownPhones
  rw [ha]
  cases hd : decodePhoneList C outside c.mem args c.requestData with
  | error e => simp only [hd]; exact Nat.zero_le _
  | ok data =>
    simp only [hd]
    exact Nat.le_of_eq (decodePhoneList_count hd)

/-- What one call does: nothing, or it adds its own phones, which fit. -/
theorem handleCall_cases (s : SgxsdServerState F) (c : Call F) :
    (∃ e, handleCall C outside s c = (.error e, s)) ∨
    (handleCall C outside s c = (.ok (), { s with
        queryPhones := s.queryPhones ++ ownPhones C outside c
        requests := s.requests ++ [⟨c.sender, (ownPhones C outside c).length⟩] }) ∧
      (ownPhones C outside c).length ≤ s.capacity - s.queryPhones.length) := by
  unfold handleCall
  cases ha : c.args with
  | none => exact Or.inl ⟨_, rfl⟩
  | some args =>
    cases hd : decodeRequest C outside s args c.requestData c.mem with
    | error e => exact Or.inl ⟨e, by simp only [hd]⟩
    | ok data =>
      simp only [hd]
      by_cases hlt : (phonesOf data).length < 2 ^ 32
      swap
      · rw [if_neg hlt]; exact Or.inl ⟨_, rfl⟩
      unfold decodeRequest at hd
      split at hd
      · cases hd
      · rename_i hcap
        rw [not_or] at hcap
        have hown : ownPhones C outside c = phonesOf data := by
          unfold ownPhones; simp only [ha, hd]
        refine Or.inr ⟨by rw [if_pos hlt, hown], ?_⟩
        -- the count checked against the capacity is the number of phones decoded
        rw [hown, decodePhoneList_count hd]
        exact not_lt.mp hcap.2

/-- The server's lists are read off the accepted requests. -/
theorem run_refines (calls : List (Call F)) : ∀ s : SgxsdServerState F,
    (run C outside s calls).requests = s.requests ++ (accepted C outside s calls).map (fun a => ⟨a.1, a.2.length⟩) ∧
    (run C outside s calls).queryPhones = s.queryPhones ++ (accepted C outside s calls).flatMap (·.2) ∧
    (run C outside s calls).capacity = s.capacity ∧
    (s.queryPhones.length ≤ s.capacity → (run C outside s calls).queryPhones.length ≤ s.capacity) := by
  induction calls with
  | nil => intro s; simp [run, accepted]
  | cons c calls ih =>
    intro s
    have hrun : run C outside s (c :: calls) = run C outside (handleCall C outside s c).2 calls := rfl
    rw [hrun, accepted]
    rcases @handleCall_cases F C outside s c with ⟨e, h⟩ | ⟨h, hfit⟩
    · rw [h]; exact ih s
    · rw [h]
      obtain ⟨h1, h2, h3, h4⟩ := ih { s with
        queryPhones := s.queryPhones ++ ownPhones C outside c
        requests := s.requests ++ [⟨c.sender, (ownPhones C outside c).length⟩] }
      refine ⟨?_, ?_, h3, fun hcap => h4 ?_⟩
      · rw [h1, List.map_cons, List.append_assoc]; rfl
      · rw [h2, List.flatMap_cons, List.append_assoc]
      · simp only [List.length_append]; omega

/-! ## The replies -/

/-- The messages `msgs` sent to the first of the accepted requests, from the `i`-th reply call
    on: each answers its own request, and they stop short only at a request too large for a
    reply or after a reply call that failed. -/
structure Served (R : Phone → List Byte → Prop) (replyResult : Nat → Except SgxStatus Unit) (i : Nat)
    (acc : List (F × List Phone)) (msgs : List (List Byte)) : Prop where
  le : msgs.length ≤ acc.length
  answer : ∀ k (hm : k < msgs.length) (ha : k < acc.length), Answers R acc[k].2 msgs[k]
  small : ∀ k (ha : k < acc.length), k < msgs.length → acc[k].2.length < 2 ^ 28
  ok : ∀ k, k + 1 < msgs.length → replyResult (i + k) = .ok ()
  stop : ∀ h : msgs.length < acc.length, 2 ^ 28 ≤ acc[msgs.length].2.length ∨
    ∃ k e, msgs.length = k + 1 ∧ replyResult (i + k) = .error e

theorem Served.cons {i : Nat} {a : F × List Phone} {acc : List (F × List Phone)} {msg : List Byte}
    {msgs : List (List Byte)} (h : Served R replyResult (i + 1) acc msgs) (ha : Answers R a.2 msg)
    (hs : a.2.length < 2 ^ 28) (hr : replyResult i = .ok ()) : Served R replyResult i (a :: acc) (msg :: msgs) where
  le := Nat.succ_le_succ h.le
  answer := by
    intro k hm hk
    cases k with
    | zero => exact ha
    | succ k => exact h.answer k (Nat.lt_of_succ_lt_succ hm) (Nat.lt_of_succ_lt_succ hk)
  small := by
    intro k hk hm
    cases k with
    | zero => exact hs
    | succ k => exact h.small k (Nat.lt_of_succ_lt_succ hk) (Nat.lt_of_succ_lt_succ hm)
  ok := by
    intro k hm
    cases k with
    | zero => exact hr
    | succ k =>
      rw [show i + (k + 1) = i + 1 + k by omega]
      exact h.ok k (Nat.lt_of_succ_lt_succ hm)
  stop := by
    intro hlt
    rcases h.stop (Nat.lt_of_succ_lt_succ hlt) with hbig | ⟨k, e, hk, he⟩
    · exact Or.inl hbig
    · refine Or.inr ⟨k + 1, e, by rw [List.length_cons, hk], ?_⟩
      rw [show i + (k + 1) = i + 1 + k by omega]; exact he

theorem Served.all {i : Nat} {acc : List (F × List Phone)} {msgs : List (List Byte)} (h : Served R replyResult i acc msgs)
    (hsmall : ∀ r ∈ acc, r.2.length < 2 ^ 28) (hok : ∀ k, replyResult k = .ok ()) : msgs.length = acc.length := by
  by_contra hne
  have hlt : msgs.length < acc.length := Nat.lt_of_le_of_ne h.le hne
  rcases h.stop hlt with hbig | ⟨k, e, -, he⟩
  · exact absurd (hsmall _ (List.getElem_mem hlt)) (Nat.not_lt.mpr hbig)
  · rw [hok] at he; cases he

/-- The events of the replies: the messages in order, then a `noreply` for each request left. -/
def replyEvents (acc : List (F × List Phone)) (msgs : List (List Byte)) : List (Ev F) :=
  List.zipWith (fun a m => .reply a.1 m) acc msgs ++ (acc.drop msgs.length).map fun a => .noreply a.1

theorem replyLoop_served : ∀ (acc : List (F × List Phone)) (i : Nat) (buf : List Byte),
    Answers R (acc.flatMap (·.2)) buf → ∃ msgs, Served R replyResult i acc msgs ∧
      (replyLoop replyResult i (acc.map fun a => ⟨a.1, a.2.length⟩) buf).1 = replyEvents acc msgs ∧
      (replyLoop replyResult i (acc.map fun a => ⟨a.1, a.2.length⟩) buf).2 ≠ .panicked := by
  intro acc
  induction acc with
  | nil =>
    intro i buf _
    refine ⟨[], ⟨Nat.le_refl 0, ?_, ?_, ?_, ?_⟩, rfl, fun h => by cases h⟩
    · intro k hm _; cases hm
    · intro k hk _; cases hk
    · intro k hm; cases hm
    · intro h; cases h
  | cons a acc ih =>
    intro i buf hbuf
    rw [List.flatMap_cons] at hbuf
    obtain ⟨hfront, hrest⟩ := hbuf.split
    have hlen := hfront.length
    have hroom : ¬buf.length < a.2.length * BYTES_PER_UUID := by
      rw [List.length_take] at hlen; rw [Nat.mul_comm]; omega
    have hdrop : dropAll (acc.map fun a => (⟨a.1, a.2.length⟩ : PendingRequest F)) =
        acc.map fun a => Ev.noreply a.1 := by rw [dropAll, List.map_map]; rfl
    rw [List.map_cons, replyLoop]
    simp only [if_neg hroom]
    by_cases hs : a.2.length < 2 ^ 28
    · have hfit : (buf.take (a.2.length * BYTES_PER_UUID)).length < 2 ^ 32 := by
        rw [hlen]; simp only [BYTES_PER_UUID]; omega
      rw [reply, if_pos hfit]
      cases hr : replyResult i with
      | error e =>
        -- the call was made and failed: the rest are dropped
        refine ⟨[buf.take (a.2.length * BYTES_PER_UUID)], ⟨?_, ?_, ?_, ?_, ?_⟩, ?_, fun h => by cases h⟩
        · exact Nat.succ_le_succ (Nat.zero_le _)
        · intro k hm _
          cases Nat.lt_one_iff.mp hm
          exact hfront
        · intro k _ hm
          cases Nat.lt_one_iff.mp hm
          exact hs
        · intro k hm; simp at hm
        · intro _; exact Or.inr ⟨0, e, rfl, hr⟩
        · simp only [hdrop, replyEvents, List.zipWith_cons_cons, List.zipWith_nil_right, List.length_singleton,
            List.drop_succ_cons, List.drop_zero]
      | ok r =>
        obtain ⟨msgs, hserved, hev, hout⟩ := ih (i + 1) _ hrest
        refine ⟨buf.take (a.2.length * BYTES_PER_UUID) :: msgs, hserved.cons hfront hs hr, ?_, hout⟩
        rw [hev]; rfl
    · -- the message's length is no `u32`
      have hbig : ¬(buf.take (a.2.length * BYTES_PER_UUID)).length < 2 ^ 32 := by
        rw [hlen]; simp only [BYTES_PER_UUID]; omega
      rw [reply, if_neg hbig]
      refine ⟨[], ⟨Nat.zero_le _, ?_, ?_, ?_, ?_⟩, ?_, fun h => by cases h⟩
      · intro k hm _; cases hm
      · intro k _ hm; cases hm
      · intro k hm; cases hm
      · intro _; exact Or.inl (Nat.le_of_not_lt hs)
      · rw [hdrop]; rfl

/-- The server has these senders to answer, each with the phones it asked for. -/
structure Collected (s : SgxsdServerState F) (acc : List (F × List Phone)) : Prop where
  requests : s.requests = acc.map fun a => ⟨a.1, a.2.length⟩
  phones : s.queryPhones = acc.flatMap (·.2)

theorem Collected.accept {s : SgxsdServerState F} {acc : List (F × List Phone)} (h : Collected s acc) (sender : F)
    (phones : List Phone) :
    Collected { s with
      queryPhones := s.queryPhones ++ phones
      requests := s.requests ++ [⟨sender, phones.length⟩] } (acc ++ [(sender, phones)]) := by
  refine ⟨?_, ?_⟩
  · simp only [h.requests, List.map_append, List.map_cons, List.map_nil]
  · simp only [h.phones, List.flatMap_append, List.flatMap_cons, List.flatMap_nil, List.append_nil]

theorem handleCall_ok {s : SgxsdServerState F} {args : CallArgs} {requestData data : List Byte} {mem : Ptr → Byte}
    (hdecode : decodePhoneList C outside mem args requestData = .ok data) (hcount : args.queryPhoneCount ≠ 0)
    (hroom : args.queryPhoneCount.toNat ≤ s.capacity - s.queryPhones.length) (hlen : (phonesOf data).length < 2 ^ 32)
    (sender : F) :
    handleCall C outside s ⟨some args, requestData, mem, sender⟩ = (.ok (), { s with
      queryPhones := s.queryPhones ++ phonesOf data
      requests := s.requests ++ [⟨sender, (phonesOf data).length⟩] }) := by
  have hrequest : decodeRequest C outside s args requestData mem = .ok data := by
    unfold decodeRequest
    rw [if_neg (not_or.mpr ⟨hcount, by omega⟩), hdecode]
  simp only [handleCall, hrequest, if_pos hlen]

theorem mem_lookupLoop (p u : Ptr) (n : Usize) {ev : Ev F} :
    ∀ l : List (List Phone × List Byte), ev ∈ (lookupLoop hashLookup p u n l).1 → ∃ q, ev = .lookup p u n q := by
  intro l
  induction l with
  | nil => intro h; cases h
  | cons c l ih =>
    intro h
    unfold lookupLoop at h
    split at h
    · exact ⟨_, List.mem_singleton.mp h⟩
    · rcases List.mem_cons.mp h with h | h
      · exact ⟨_, h⟩
      · exact ih h

/-- A termination with correct lookups: its lookups, then replies that serve what was collected. -/
theorem terminate_collected {s : SgxsdServerState F} {acc : List (F × List Phone)} (hs : Collected s acc)
    (hlen : s.queryPhones.length * BYTES_PER_UUID < 2 ^ 64) {args : StopArgs} {a b : UntrustedSlice}
    (hd : directorySlices outside args = some (a, b))
    (hc : LookupCorrect R (hashLookup a.asPtr b.asPtr args.inPhoneCount)) :
    ∃ lookups msgs, Served R replyResult 0 acc msgs ∧ (∀ ev ∈ lookups, ∃ p u n q, ev = Ev.lookup p u n q) ∧
      (terminate outside hashLookup replyResult s (some args)).1 = lookups ++ replyEvents acc msgs ∧
      (terminate outside hashLookup replyResult s (some args)).2 ≠ .panicked := by
  obtain ⟨ev, out, hl, hans⟩ := @lookupLoop_answers F hashLookup R _ _ _ hc _ _ (Nat.le_refl s.queryPhones.length)
  rw [hs.phones] at hans
  obtain ⟨msgs, hserved, hev, hout⟩ := @replyLoop_served F replyResult R acc 0 out hans
  refine ⟨ev, msgs, hserved, fun e he => ?_, ?_, ?_⟩
  · obtain ⟨q, hq⟩ := mem_lookupLoop a.asPtr b.asPtr args.inPhoneCount (chunkPairs s.queryPhones) (by rw [hl]; exact he)
    exact ⟨_, _, _, q, hq⟩
  · rw [terminate_ok hd hlen hl, hs.requests, hev]
  · rw [terminate_ok hd hlen hl, hs.requests]; exact hout

theorem terminate_served (maxQueryPhones : BitVec 32) (calls : List (Call F)) {args : StopArgs} {a b : UntrustedSlice}
    (hd : directorySlices outside args = some (a, b))
    (hc : LookupCorrect R (hashLookup a.asPtr b.asPtr args.inPhoneCount)) :
    ∃ lookups msgs, Served R replyResult 0 (accepted C outside (init maxQueryPhones) calls) msgs ∧
      (∀ f m, Ev.reply f m ∉ lookups) ∧
      (terminate outside hashLookup replyResult (run C outside (init maxQueryPhones) calls) (some args)).1 =
        lookups ++ replyEvents (accepted C outside (init maxQueryPhones) calls) msgs ∧
      (terminate outside hashLookup replyResult (run C outside (init maxQueryPhones) calls) (some args)).2 ≠ .panicked := by
  obtain ⟨hreq, hphones, -, hcap⟩ := @run_refines F C outside calls (init maxQueryPhones)
  have hlen : (run C outside (init maxQueryPhones) calls).queryPhones.length * BYTES_PER_UUID < 2 ^ 64 := by
    have h1 := hcap (Nat.zero_le _)
    have h2 : (init maxQueryPhones : SgxsdServerState F).capacity < 2 ^ 32 := maxQueryPhones.isLt
    simp only [BYTES_PER_UUID]; omega
  obtain ⟨lookups, msgs, hserved, hlookups, hev, hout⟩ := @terminate_collected F outside hashLookup replyResult R _ _
    ⟨hreq, hphones⟩ hlen args a b hd hc
  refine ⟨lookups, msgs, hserved, fun f m hm => ?_, hev, hout⟩
  obtain ⟨_, _, _, _, h⟩ := hlookups _ hm
  cases h

/-- The replies go to the accepted requests in order, each answering its own phones, up to the
    first request of `2 ^ 28` phones or more and not past a reply call that failed; so they go
    to all of them when there is neither. -/
theorem terminate_replies (C : Crypto) (outside : Ptr → Usize → BitVec 32)
    (hashLookup : Ptr → Ptr → Usize → List Phone → List Byte → Except SgxStatus Unit × List Byte)
    (replyResult : Nat → Except SgxStatus Unit) (R : Phone → List Byte → Prop) (maxQueryPhones : BitVec 32)
    (calls : List (Call F)) (args : StopArgs) (a b : UntrustedSlice) (hd : directorySlices outside args = some (a, b))
    (hc : LookupCorrect R (hashLookup a.asPtr b.asPtr args.inPhoneCount)) :
    let acc := accepted C outside (init maxQueryPhones) calls
    let t := terminate outside hashLookup replyResult (run C outside (init maxQueryPhones) calls) (some args)
    t.2 ≠ .panicked ∧ ∃ lookups msgs, (∀ f m, Ev.reply f m ∉ lookups) ∧ t.1 = lookups ++ replyEvents acc msgs ∧
      Served R replyResult 0 acc msgs ∧
      ((∀ r ∈ acc, r.2.length < 2 ^ 28) → (∀ k, replyResult k = .ok ()) → msgs.length = acc.length) := by
  intro acc t
  obtain ⟨lookups, msgs, hserved, hno, hev, hout⟩ := @terminate_served F C outside hashLookup replyResult R
    maxQueryPhones calls args a b hd hc
  exact ⟨hout, lookups, msgs, hno, hev, hserved, hserved.all⟩

/-! ## Requests left unanswered -/

theorem ownPhones_zeros (s : SgxsdServerState F) (sender : F) {n : Nat} (hn : 0 < n)
    (hcap : n ≤ s.capacity - s.queryPhones.length) (hsize : 32 + 8 * n < 2 ^ 32)
    (hout : outside 1 (BitVec.ofNat 64 (32 + 8 * n)) = 1) :
    ownPhones idleCrypto outside (zerosCall sender n) = List.replicate n 0 := by
  have h := handleCall_zeros s sender hn hcap hsize hout
  rcases @handleCall_cases F idleCrypto outside s (zerosCall sender n) with ⟨e, he⟩ | ⟨he, -⟩
  · rw [he] at h; cases h
  · rw [he] at h
    have hq := congrArg (fun r => r.2.queryPhones) h
    exact List.append_cancel_left hq

def zeroLookup (_ _ : Ptr) (_ : Usize) (chunk : List Phone) (_ : List Byte) : Except SgxStatus Unit × List Byte :=
  (.ok (), List.replicate (BYTES_PER_UUID * chunk.length) 0)

theorem zeroLookup_correct (p u : Ptr) (n : Usize) :
    LookupCorrect (fun _ b => b = List.replicate BYTES_PER_UUID 0) (zeroLookup p u n) := by
  intro chunk buf _ _ _
  refine ⟨_, rfl, List.length_replicate, fun i hi => ?_⟩
  rw [block, List.drop_replicate, List.take_replicate]
  congr 1
  simp only [BYTES_PER_UUID]; omega

theorem accepted_zeros (s : SgxsdServerState F) (sender : F) (calls : List (Call F)) {n : Nat} (hn : 0 < n)
    (hcap : n ≤ s.capacity - s.queryPhones.length) (hsize : 32 + 8 * n < 2 ^ 32)
    (hout : outside 1 (BitVec.ofNat 64 (32 + 8 * n)) = 1) :
    accepted idleCrypto outside s (zerosCall sender n :: calls) =
      (sender, List.replicate n 0) :: accepted idleCrypto outside
        { s with queryPhones := s.queryPhones ++ List.replicate n 0, requests := s.requests ++ [⟨sender, n⟩] } calls := by
  rw [accepted, handleCall_zeros s sender hn hcap hsize hout, ownPhones_zeros s sender hn hcap hsize hout]; rfl

theorem accepted_two : accepted idleCrypto (fun _ _ => 1) (init 2) [zerosCall false 1, zerosCall true 1] =
    [(false, [0]), (true, [0])] := by
  have h1 := @accepted_zeros Bool (fun _ _ => 1) (init 2) false [zerosCall true 1] 1 (by decide) (by decide) (by decide) rfl
  have h2 := @accepted_zeros Bool (fun _ _ => 1) ⟨[⟨false, 1⟩], [0], 2⟩ true [] 1 (by decide) (by decide) (by decide) rfl
  exact h1.trans (congrArg _ h2)

theorem reply_mem_replyEvents {acc : List (F × List Phone)} {msgs : List (List Byte)} {f : F} {m : List Byte}
    (h : Ev.reply f m ∈ replyEvents acc msgs) : ∃ k x, acc[k]? = some x ∧ k < msgs.length ∧ x.1 = f := by
  rcases List.mem_append.mp h with h | h
  · obtain ⟨k, hk, he⟩ := List.getElem_of_mem h
    rw [List.length_zipWith] at hk
    rw [List.getElem_zipWith] at he
    cases he
    exact ⟨k, _, List.getElem?_eq_getElem (by omega), by omega, rfl⟩
  · obtain ⟨x, -, hx⟩ := List.mem_map.mp h
    cases hx

/-- A request of `2 ^ 28` phones is accepted and gets no reply, though every lookup and reply
    call succeeds; and of two requests accepted, the second gets none when the first's reply
    call fails. -/
theorem terminate_unanswered :
    let outside : Ptr → Usize → BitVec 32 := fun _ _ => 1
    let big : List (Call Unit) := [zerosCall () (2 ^ 28)]
    let two : List (Call Bool) := [zerosCall false 1, zerosCall true 1]
    (accepted idleCrypto outside (init (BitVec.ofNat 32 (2 ^ 28))) big = [((), List.replicate (2 ^ 28) 0)] ∧
      ∀ m, Ev.reply () m ∉ (terminate outside zeroLookup (fun _ => .ok ())
        (run idleCrypto outside (init (BitVec.ofNat 32 (2 ^ 28))) big) (some ⟨0, 0, 0⟩)).1) ∧
    (accepted idleCrypto outside (init 2) two = [(false, [0]), (true, [0])] ∧
      ∀ m, Ev.reply true m ∉ (terminate outside zeroLookup (fun _ => .error .unexpected)
        (run idleCrypto outside (init 2) two) (some ⟨0, 0, 0⟩)).1) := by
  intro outside big two
  have hd : directorySlices outside ⟨0, 0, 0⟩ = some (.empty, .empty) := rfl
  have hbig : accepted idleCrypto outside (init (BitVec.ofNat 32 (2 ^ 28))) big = [((), List.replicate (2 ^ 28) 0)] :=
    accepted_zeros (init (BitVec.ofNat 32 (2 ^ 28))) () [] (by decide) (by decide) (by decide) rfl
  have htwo : accepted idleCrypto outside (init 2) two = [(false, [0]), (true, [0])] := accepted_two
  refine ⟨⟨hbig, fun m hm => ?_⟩, ⟨htwo, fun m hm => ?_⟩⟩
  · obtain ⟨lookups, msgs, hserved, hno, hev, -⟩ := @terminate_served Unit idleCrypto outside zeroLookup (fun _ => .ok ())
      _ (BitVec.ofNat 32 (2 ^ 28)) big ⟨0, 0, 0⟩ _ _ hd (zeroLookup_correct _ _ _)
    rw [hev] at hm
    rcases List.mem_append.mp hm with hm | hm
    · exact hno _ _ hm
    · obtain ⟨k, x, hx, hkm, -⟩ := reply_mem_replyEvents hm
      obtain ⟨hk, hxk⟩ := List.getElem?_eq_some_iff.mp hx
      have hs := hserved.small k hk hkm
      have hxm : x ∈ [((), List.replicate (2 ^ 28) (0 : Phone))] := hbig ▸ List.mem_of_getElem? hx
      rw [hxk, List.mem_singleton.mp hxm, List.length_replicate] at hs
      exact Nat.lt_irrefl _ hs
  · obtain ⟨lookups, msgs, hserved, hno, hev, -⟩ := @terminate_served Bool idleCrypto outside zeroLookup
      (fun _ => .error .unexpected) _ 2 two ⟨0, 0, 0⟩ _ _ hd (zeroLookup_correct _ _ _)
    rw [hev] at hm
    rcases List.mem_append.mp hm with hm | hm
    · exact hno _ _ hm
    · obtain ⟨k, x, hx, hkm, hf⟩ := reply_mem_replyEvents hm
      rw [htwo] at hx
      match k, hx, hkm with
      | 0, hx, _ => cases hx; cases hf
      | 1, _, hkm => cases hserved.ok 0 hkm

/-- Two requests of one phone whose replies succeed: both are answered. -/
theorem terminate_replies_two :
    let outside : Ptr → Usize → BitVec 32 := fun _ _ => 1
    let two : List (Call Bool) := [zerosCall false 1, zerosCall true 1]
    accepted idleCrypto outside (init 2) two = [(false, [0]), (true, [0])] ∧
    ∃ lookups msgs, msgs.length = 2 ∧ (terminate outside zeroLookup (fun _ => .ok ())
      (run idleCrypto outside (init 2) two) (some ⟨0, 0, 0⟩)).1 =
        lookups ++ replyEvents (accepted idleCrypto outside (init 2) two) msgs := by
  intro outside two
  have htwo : accepted idleCrypto outside (init 2) two = [(false, [0]), (true, [0])] := accepted_two
  obtain ⟨-, lookups, msgs, -, hev, -, hall⟩ := terminate_replies idleCrypto outside zeroLookup (fun _ => .ok ()) _ 2 two
    ⟨0, 0, 0⟩ .empty .empty rfl (zeroLookup_correct _ _ _)
  refine ⟨htwo, lookups, msgs, ?_, hev⟩
  have h := hall (by rw [htwo]; intro r hr; simp at hr; rcases hr with rfl | rfl <;> decide) fun _ => rfl
  rw [h, htwo]; rfl

end Server

end ContactDiscovery.Enclave.Server
