/-
  ContactDiscovery.Enclave.RequestDecoding — which requests `handle_call` takes.

  A request is well formed (`WellFormed`) when its envelope is a key, its phone count is positive and
  fits, its query is a buffer of the host of the size the count asks for, and the query decrypts under
  the key to bytes with the commitment it came with. The sizes come from four fields of the host's
  choice; the checks on them, a subtraction, a remainder and a division, amount to one equation.

  Proved: `handleCall_accepts_iff`, a call succeeds exactly on a well-formed request, then takes its
  phones in order and one pending request of that count, and otherwise leaves the server as it was.
-/

import ContactDiscovery.Enclave.ServerProofs

namespace ContactDiscovery.Enclave.Server

open Lib

/-! ## Phones -/

theorem decodePhone_eq (data : List Byte) : decodePhone data = leWord data := by
  unfold decodePhone leWord
  induction data with
  | nil => rfl
  | cons b data ih =>
    rw [List.foldr_cons, List.foldr_cons, ih]
    generalize data.foldr (fun x n => x.toNat + 256 * n) 0 = n
    have hb := b.isLt
    apply BitVec.eq_of_toNat_eq
    have hshift : (n % 2 ^ 64) <<< 8 % 2 ^ 64 = (n % 2 ^ 56) <<< 8 := by
      rw [Nat.shiftLeft_eq, Nat.shiftLeft_eq]; omega
    rw [BitVec.toNat_or, BitVec.toNat_shiftLeft, BitVec.toNat_ofNat, BitVec.toNat_setWidth, BitVec.toNat_ofNat, hshift,
      Nat.mod_eq_of_lt (by omega : b.toNat < 2 ^ 64), ← Nat.shiftLeft_add_eq_or_of_lt hb, Nat.shiftLeft_eq]
    omega

/-- Request data with room for `n` phones is a nonce and the bytes of the phones it decodes to. -/
theorem phonesOf_spec {data : List Byte} {n : Nat} (h : data.length = COMMITMENT_NONCE_SIZE + BYTES_PER_PHONE * n) :
    (phonesOf data).length = n ∧ (phonesOf data).flatMap leBytes = data.drop COMMITMENT_NONCE_SIZE := by
  have hcount : (data.length - COMMITMENT_NONCE_SIZE) / BYTES_PER_PHONE = n := by
    rw [h, Nat.add_sub_cancel_left, Nat.mul_div_cancel_left n (by decide)]
  have hlen : (data.drop COMMITMENT_NONCE_SIZE).length = BYTES_PER_PHONE * n := by
    rw [List.length_drop, h, Nat.add_sub_cancel_left]
  unfold phonesOf
  rw [hcount]
  refine ⟨by rw [List.length_map, List.length_range], ?_⟩
  rw [List.flatMap_map]
  conv_rhs => rw [← flatMap_block n _ hlen]
  refine List.flatMap_congr fun i hi => ?_
  rw [List.mem_range] at hi
  -- a block inside the data is a whole word
  have hblock : (block BYTES_PER_PHONE i (data.drop COMMITMENT_NONCE_SIZE)).length = 8 := by
    rw [block, List.length_take, List.length_drop, hlen, BYTES_PER_PHONE]; omega
  rw [decodePhone_eq, leBytes_leWord hblock]

/-! ## Buffers of the host -/

/-- An object of the host: it has an address, it ends before the address space does, and none of
    its bytes are the enclave's. -/
def HostBuffer (E : EnclaveRange) (p : Ptr) (n : Nat) : Prop := p ≠ 0 ∧ p.toNat + n < 2 ^ 64 ∧ E.Outside p.toNat n

def bytesAt (mem : Ptr → Byte) (p : Ptr) (n : Nat) : List Byte := (List.range n).map fun i => mem (p + BitVec.ofNat 64 i)

theorem length_bytesAt (mem : Ptr → Byte) (p : Ptr) (n : Nat) : (bytesAt mem p n).length = n := by
  rw [bytesAt, List.length_map, List.length_range]

section Decode

variable {C : Crypto} {E : EnclaveRange} {outside : Ptr → Usize → BitVec 32} {mem : Ptr → Byte}

theorem slice_new_ok_iff (hE : E.Exact outside) {p : Ptr} {n : Usize} (hp : p ≠ 0) (hn : n ≠ 0) {slice : UntrustedSlice} :
    UntrustedSlice.new outside p n = .ok slice ↔ HostBuffer E p n.toNat ∧ slice = .nonEmpty p n hp hn := by
  have hpos : n.toNat ≠ 0 := fun h => hn (BitVec.eq_of_toNat_eq h)
  have hout : outside p n = 1 ↔ E.Outside p.toNat n.toNat := by
    rw [hE p n, show max n.toNat 1 = n.toNat by omega]
  have hwrap : p + n < p ↔ ¬p.toNat + n.toNat < 2 ^ 64 := by
    have := p.isLt
    have := n.isLt
    rw [BitVec.lt_def, BitVec.toNat_add]; omega
  unfold UntrustedSlice.new HostBuffer
  rw [dif_pos ⟨hn, hp⟩]
  by_cases ho : outside p n = 1
  · rw [if_neg (not_not.mpr ho)]
    by_cases hw : p.toNat + n.toNat < 2 ^ 64
    · rw [if_neg (hwrap.not.mpr (not_not.mpr hw))]
      exact ⟨fun h => ⟨⟨hp, hw, hout.mp ho⟩, by cases h; rfl⟩, fun h => by rw [h.2]⟩
    · rw [if_pos (hwrap.mpr hw)]
      exact ⟨nofun, fun h => absurd h.1.2.1 hw⟩
  · rw [if_pos ho]
    exact ⟨nofun, fun h => absurd (hout.mpr h.1.2.2) ho⟩

/-- A slice of at least one byte is made and read whole exactly if it is a buffer of the host. -/
theorem slice_read_iff (hE : E.Exact outside) {p : Ptr} {n : Usize} (hn : n ≠ 0) {data : List Byte} :
    (∃ slice, UntrustedSlice.new outside p n = .ok slice ∧ slice.readBytes mem n = .ok data) ↔
      HostBuffer E p n.toNat ∧ data = bytesAt mem p n.toNat := by
  by_cases hp : p = 0
  · subst hp
    constructor
    · rintro ⟨slice, hnew, hread⟩
      -- a null pointer makes the empty slice, which has no byte to read
      rw [UntrustedSlice.new_null] at hnew
      cases hnew
      rw [UntrustedSlice.readBytes, if_neg hn] at hread
      cases hread
    · rintro ⟨h, -⟩
      exact absurd rfl h.1
  · have hread : (UntrustedSlice.nonEmpty p n hp hn).readBytes mem n = .ok (bytesAt mem p n.toNat) := by
      rw [UntrustedSlice.readBytes, if_pos (BitVec.le_refl n), bytesAt]
    constructor
    · rintro ⟨slice, hnew, h⟩
      obtain ⟨hbuf, rfl⟩ := (slice_new_ok_iff hE hp hn).mp hnew
      rw [hread] at h
      cases h
      exact ⟨hbuf, rfl⟩
    · rintro ⟨hbuf, rfl⟩
      exact ⟨_, (slice_new_ok_iff hE hp hn).mpr ⟨hbuf, rfl⟩, hread⟩

/-! ## Well-formed requests -/

/-- The query decrypts to `plain` under the key, and `plain` has the commitment. -/
structure Opens (C : Crypto) (mem : Ptr → Byte) (args : CallArgs) (requestData plain : List Byte) : Prop where
  tag : ∃ h, C.decrypt requestData (bytesAt mem args.query.data args.query.size.toNat) args.query.iv args.query.mac =
    .ok ⟨plain, h⟩
  commitment : C.sha256 plain = args.queryCommitment

theorem Opens.length {args : CallArgs} {requestData plain : List Byte} (h : Opens C mem args requestData plain) :
    plain.length = args.query.size.toNat := by
  obtain ⟨hlen, -⟩ := h.tag
  rw [hlen, length_bytesAt]

theorem decodePhoneList_ok_iff (hE : E.Exact outside) {args : CallArgs} {requestData plain : List Byte} :
    decodePhoneList C outside mem args requestData = .ok plain ↔
      requestData.length = AES_GCM_KEY_LEN ∧ HostBuffer E args.query.data args.query.size.toNat ∧
      args.query.size.toNat = COMMITMENT_NONCE_SIZE + BYTES_PER_PHONE * args.queryPhoneCount.toNat ∧
      Opens C mem args requestData plain := by
  have hwide : (args.query.size.setWidth 64).toNat = args.query.size.toNat := by
    have := args.query.size.isLt
    rw [BitVec.toNat_setWidth]; omega
  have hlen := length_bytesAt mem args.query.data args.query.size.toNat
  constructor
  · intro h
    unfold decodePhoneList at h
    split at h
    · cases h
    rename_i slice hnew
    split at h
    · cases h
    rename_i data hread
    obtain ⟨hkey, hsize, htag, hc⟩ := decodeQuery_ok_iff.mp h
    have hn : args.query.size.setWidth 64 ≠ 0 := by
      intro h0
      rw [h0, UntrustedSlice.new_zero] at hnew
      cases hnew
      rw [h0, UntrustedSlice.readBytes, if_pos rfl] at hread
      cases hread
      rw [List.length_nil, COMMITMENT_NONCE_SIZE] at hsize
      omega
    obtain ⟨hbuf, hdata⟩ := (slice_read_iff hE hn).mp ⟨slice, hnew, hread⟩
    rw [hwide] at hbuf hdata
    subst hdata
    exact ⟨hkey, hbuf, hlen ▸ hsize, htag, hc⟩
  · rintro ⟨hkey, hbuf, hsize, htag, hc⟩
    have hn : args.query.size.setWidth 64 ≠ 0 := by
      intro h0
      rw [h0, hsize] at hwide
      simp only [BitVec.ofNat_eq_ofNat, BitVec.toNat_ofNat, COMMITMENT_NONCE_SIZE] at hwide
      omega
    obtain ⟨slice, hnew, hread⟩ := (@slice_read_iff E outside mem hE _ _ hn _).mpr ⟨by rw [hwide]; exact hbuf, rfl⟩
    rw [hwide] at hread
    unfold decodePhoneList
    simp only [hnew, hread]
    exact decodeQuery_ok_iff.mpr ⟨hkey, hlen.trans hsize, htag, hc⟩

/-- A request the server has room for, that the host had the right to make: `plain` is what its query
    decrypts to. -/
structure WellFormed {F : Type} (C : Crypto) (E : EnclaveRange) (s : SgxsdServerState F) (args : CallArgs)
    (requestData : List Byte) (mem : Ptr → Byte) (plain : List Byte) : Prop where
  key : requestData.length = 32
  positive : 1 ≤ args.queryPhoneCount.toNat
  room : args.queryPhoneCount.toNat ≤ s.capacity - s.queryPhones.length
  buffer : HostBuffer E args.query.data args.query.size.toNat
  size : args.query.size.toNat = 32 + 8 * args.queryPhoneCount.toNat
  opens : Opens C mem args requestData plain

theorem decodeRequest_ok_iff {F : Type} (hE : E.Exact outside) {s : SgxsdServerState F} {args : CallArgs}
    {requestData plain : List Byte} :
    decodeRequest C outside s args requestData mem = .ok plain ↔ WellFormed C E s args requestData mem plain := by
  have hzero : args.queryPhoneCount = 0 ↔ ¬1 ≤ args.queryPhoneCount.toNat := by
    rw [← BitVec.toNat_inj, BitVec.ofNat_eq_ofNat, BitVec.toNat_zero]; omega
  unfold decodeRequest
  by_cases hroom : args.queryPhoneCount = 0 ∨ args.queryPhoneCount.toNat > s.capacity - s.queryPhones.length
  · rw [if_pos hroom]
    refine ⟨nofun, fun h => ?_⟩
    rcases hroom with h0 | hfull
    · exact absurd h.positive (hzero.mp h0)
    · exact absurd h.room (by omega)
  · rw [if_neg hroom, decodePhoneList_ok_iff hE]
    rw [not_or, hzero, not_not] at hroom
    constructor
    · rintro ⟨hkey, hbuf, hsize, hopens⟩
      exact ⟨hkey, hroom.1, by omega, hbuf, hsize, hopens⟩
    · intro h
      exact ⟨h.key, h.buffer, h.size, h.opens⟩

/-- A call succeeds exactly on a well-formed request; then the phones of its query, in order, and one
    request of that count are added, and otherwise nothing changes. -/
theorem handleCall_accepts_iff {F : Type} (C : Crypto) (E : EnclaveRange) (outside : Ptr → Usize → BitVec 32)
    (hE : E.Exact outside) (s : SgxsdServerState F) (args : CallArgs) (requestData : List Byte) (mem : Ptr → Byte)
    (sender : F) :
    ((handleCall C outside s ⟨some args, requestData, mem, sender⟩).1 = .ok () ↔
      ∃ plain, WellFormed C E s args requestData mem plain) ∧
    (∀ plain, WellFormed C E s args requestData mem plain →
      ∃ phones : List Phone, phones.length = args.queryPhoneCount.toNat ∧ phones.flatMap leBytes = plain.drop 32 ∧
        (handleCall C outside s ⟨some args, requestData, mem, sender⟩).2 =
          { requests := s.requests ++ [⟨sender, args.queryPhoneCount.toNat⟩]
            queryPhones := s.queryPhones ++ phones
            capacity := s.capacity }) ∧
    ((handleCall C outside s ⟨some args, requestData, mem, sender⟩).1 ≠ .ok () →
      (handleCall C outside s ⟨some args, requestData, mem, sender⟩).2 = s) := by
  have hok : ∀ plain, WellFormed C E s args requestData mem plain →
      (phonesOf plain).length = args.queryPhoneCount.toNat ∧ (phonesOf plain).flatMap leBytes = plain.drop 32 ∧
        handleCall C outside s ⟨some args, requestData, mem, sender⟩ =
          (.ok (), ⟨s.requests ++ [⟨sender, args.queryPhoneCount.toNat⟩], s.queryPhones ++ phonesOf plain, s.capacity⟩) := by
    intro plain h
    obtain ⟨hcount, hbytes⟩ := @phonesOf_spec plain _ (h.opens.length.trans h.size)
    refine ⟨hcount, hbytes, ?_⟩
    unfold handleCall
    simp only [(decodeRequest_ok_iff hE).mpr h, hcount]
    rw [if_pos args.queryPhoneCount.isLt]
  refine ⟨⟨fun h => ?_, ?_⟩, fun plain h => ⟨_, (hok plain h).1, (hok plain h).2.1, by rw [(hok plain h).2.2]⟩, fun h => ?_⟩
  · cases hd : decodeRequest C outside s args requestData mem with
    | ok plain => exact ⟨plain, (decodeRequest_ok_iff hE).mp hd⟩
    | error e =>
      unfold handleCall at h
      simp only [hd] at h
      cases h
  · rintro ⟨plain, h⟩
    rw [(hok plain h).2.2]
  · rcases @handleCall_cases _ C outside s ⟨some args, requestData, mem, sender⟩ with ⟨e, he⟩ | ⟨he, -⟩
    · rw [he]
    · exact absurd (by rw [he]) h

/-- A server with room for two phones takes a request of one, and a second request of two does not
    fit. -/
theorem handleCall_accepts_one :
    let s : SgxsdServerState Unit := init 2
    (handleCall idleCrypto highEnclave.isOutside s (zerosCall () 1)).1 = .ok () ∧
    (∃ phones : List Phone, phones.length = 1 ∧ phones.flatMap leBytes = List.replicate 8 0 ∧
      (handleCall idleCrypto highEnclave.isOutside s (zerosCall () 1)).2 = ⟨[⟨(), 1⟩], phones, 2⟩) ∧
    (handleCall idleCrypto highEnclave.isOutside ⟨[⟨(), 1⟩], [0], 2⟩ (zerosCall () 2)).2 = ⟨[⟨(), 1⟩], [0], 2⟩ := by
  have hwf : WellFormed idleCrypto highEnclave (init 2 : SgxsdServerState Unit)
      ⟨1, ⟨[], [], 40, 1⟩, []⟩ (List.replicate 32 0) (fun _ => 0) (List.replicate 40 0) :=
    ⟨rfl, by decide, by decide, ⟨by decide, by decide, (highEnclave.outside_iff (by decide)).mpr (by decide)⟩, by decide,
      ⟨⟨rfl, rfl⟩, rfl⟩⟩
  obtain ⟨hiff, hadd, -⟩ := handleCall_accepts_iff idleCrypto highEnclave highEnclave.isOutside highEnclave.isOutside_exact
    (init 2 : SgxsdServerState Unit) ⟨1, ⟨[], [], 40, 1⟩, []⟩ (List.replicate 32 0) (fun _ => 0) ()
  obtain ⟨hiff2, -, hsame⟩ := handleCall_accepts_iff idleCrypto highEnclave highEnclave.isOutside highEnclave.isOutside_exact
    (⟨[⟨(), 1⟩], [0], 2⟩ : SgxsdServerState Unit) ⟨2, ⟨[], [], 48, 1⟩, []⟩ (List.replicate 32 0) (fun _ => 0) ()
  refine ⟨hiff.mpr ⟨_, hwf⟩, hadd _ hwf, hsame fun h => ?_⟩
  obtain ⟨plain, hroom⟩ := hiff2.mp h
  exact absurd hroom.room (by decide)

end Decode

end ContactDiscovery.Enclave.Server
