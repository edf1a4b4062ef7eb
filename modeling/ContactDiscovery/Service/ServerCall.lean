/-
  ContactDiscovery.Service.ServerCall — a request on its way from the service into the enclave: the
  arguments `SgxsdBatch.add` fills in, and the native call that takes them apart (`server_call` in
  `cds_jni/src/sgx_enclave.rs`).

  A Java array is a list of bytes, and none is null. The native call copies the query into a vector
  of the host's memory, at a pointer that is input; the enclave reads it there. `readBytes_placed`:
  it reads what was copied, if the vector is outside the enclave (`Hosted`).
-/

import ContactDiscovery.Client.Client

namespace ContactDiscovery.Service

open Lib
open Client (DiscoveryRequest DiscoveryRequestEnvelope)
open Enclave (SgxStatus Phone Ptr Usize UntrustedSlice PendingRequestId BYTES_PER_PHONE)
open Enclave.Server (CallArgs Crypto decodePhoneList decodeQuery)
open Enclave.Sgxsd (CallIn)

def RUNTIME_EXCEPTION_CLASS : String := "java/lang/RuntimeException"

/-- `PossibleError`; the code 0 of an error of the native call itself is `none`. -/
inductive PossibleError where
  | generic (cls msg : String)
  | sgxError (name : String) (code : Option SgxStatus)
  deriving DecidableEq

structure NativeServerCallArgs where
  msgData : List Byte
  msgIv : List Byte
  msgMac : List Byte
  pendingRequestId : List Byte
  queryData : List Byte
  queryIv : List Byte
  queryMac : List Byte
  queryPhoneCount : BitVec 32
  queryCommitment : List Byte

/-- The arguments of a request with its envelope for this host. -/
def nativeServerCallArgs (request : DiscoveryRequest) (envelope : DiscoveryRequestEnvelope) : NativeServerCallArgs where
  msgData := envelope.envelope.data
  msgIv := envelope.envelope.iv.1
  msgMac := envelope.envelope.mac.1
  pendingRequestId := envelope.requestId
  queryData := request.query.data
  queryIv := request.query.iv.1
  queryMac := request.query.mac.1
  queryPhoneCount := request.addressCount
  queryCommitment := request.commitment.1

def jniArrayToFixedBuffer (n : Nat) (array : List Byte) : Except PossibleError (Bytes n) :=
  if h : array.length = n then .ok ⟨array, h⟩
  else .error (.generic RUNTIME_EXCEPTION_CLASS
    ("expected " ++ toString n ++ " length, got " ++ toString array.length ++ " length array"))

def placed (ptr : Ptr) (data : List Byte) : Ptr → Byte := fun a => data.getD (a - ptr).toNat 0

/-- The call into the enclave that `server_call` makes, with the query's vector at `ptr`. -/
def serverCall (ptr : Ptr) (args : NativeServerCallArgs) : Except PossibleError CallIn :=
  if args.msgData = [] then .error (.sgxError "bad_msg_data" none)
  else if args.queryData = [] then .error (.sgxError "bad_query_data" none)
  else do
    let msgIv ← jniArrayToFixedBuffer 12 args.msgIv
    let msgMac ← jniArrayToFixedBuffer 16 args.msgMac
    let queryIv ← jniArrayToFixedBuffer 12 args.queryIv
    let queryMac ← jniArrayToFixedBuffer 16 args.queryMac
    let queryCommitment ← jniArrayToFixedBuffer 32 args.queryCommitment
    let pendingRequestId ← jniArrayToFixedBuffer 36 args.pendingRequestId
    .ok { ecall := none
          args := some ⟨args.queryPhoneCount, ⟨queryIv.1, queryMac.1, BitVec.ofNat 32 args.queryData.length, ptr⟩,
            queryCommitment.1⟩
          header := ⟨msgIv, msgMac, .ofBytes pendingRequestId⟩
          msgData := args.msgData
          mem := placed ptr args.queryData }

section Request

variable (ptr : Ptr) {request : DiscoveryRequest} {envelope : DiscoveryRequestEnvelope}

def requestArgs (request : DiscoveryRequest) : CallArgs where
  queryPhoneCount := request.addressCount
  query := ⟨request.query.iv.1, request.query.mac.1, BitVec.ofNat 32 request.query.data.length, ptr⟩
  queryCommitment := request.commitment.1

end Request

/-! ## The query in the host's memory -/

/-- The vector with the data is outside the enclave. -/
structure Hosted (outside : Ptr → Usize → BitVec 32) (ptr : Ptr) (data : List Byte) : Prop where
  notNull : ptr ≠ 0
  isOutside : outside ptr (BitVec.ofNat 64 data.length) = 1
  fits : ptr.toNat + data.length < 2 ^ 64
  small : data.length < 2 ^ 32

variable {outside : Ptr → Usize → BitVec 32} {ptr : Ptr} {data : List Byte}

theorem Hosted.size (h : Hosted outside ptr data) :
    (BitVec.ofNat 32 data.length).setWidth 64 = BitVec.ofNat 64 data.length := by
  have := h.small
  apply BitVec.eq_of_toNat_eq
  simp only [BitVec.toNat_setWidth, BitVec.toNat_ofNat]
  omega

theorem readBytes_placed (h : Hosted outside ptr data) (hne : data ≠ []) :
    ∃ slice, UntrustedSlice.new outside ptr (BitVec.ofNat 64 data.length) = .ok slice ∧
      slice.readBytes (placed ptr data) (BitVec.ofNat 64 data.length) = .ok data := by
  have hsmall := h.small
  have hfits := h.fits
  have hlen : (BitVec.ofNat 64 data.length).toNat = data.length := by rw [BitVec.toNat_ofNat]; omega
  have hpos := List.length_pos_of_ne_nil hne
  have hsize : BitVec.ofNat 64 data.length ≠ 0 := by
    intro h0
    rw [h0] at hlen
    simp at hlen
    omega
  have hwrap : ¬ptr + BitVec.ofNat 64 data.length < ptr := by
    rw [BitVec.lt_def, BitVec.toNat_add, hlen, Nat.mod_eq_of_lt hfits]
    omega
  refine ⟨.nonEmpty ptr (BitVec.ofNat 64 data.length) h.notNull hsize, ?_, ?_⟩
  · unfold UntrustedSlice.new
    rw [dif_pos ⟨hsize, h.notNull⟩, if_neg (not_not.mpr h.isOutside), if_neg hwrap]
  · simp only [UntrustedSlice.readBytes]
    rw [if_pos (BitVec.le_refl _), hlen]
    congr 1
    apply List.ext_getElem (by simp)
    intro i h₁ h₂
    have hi : (ptr + BitVec.ofNat 64 i - ptr).toNat = i := by
      rw [BitVec.add_comm, BitVec.add_sub_cancel, BitVec.toNat_ofNat]
      omega
    simp only [List.getElem_map, List.getElem_range, placed, hi]
    exact List.getD_eq_getElem _ _ h₂

/-- Wherever the vector is, the enclave decodes what was in the request. -/
theorem decodePhoneList_placed {request : DiscoveryRequest} (h : Hosted outside ptr request.query.data)
    (hne : request.query.data ≠ []) (S : Crypto) (requestData : List Byte) :
    decodePhoneList S outside (placed ptr request.query.data) (requestArgs ptr request) requestData =
      decodeQuery S (requestArgs ptr request) requestData request.query.data := by
  obtain ⟨slice, hnew, hread⟩ := readBytes_placed h hne
  have hsize : (requestArgs ptr request).query.size.setWidth 64 = BitVec.ofNat 64 request.query.data.length := h.size
  have hptr : (requestArgs ptr request).query.data = ptr := rfl
  unfold decodePhoneList
  rw [hsize, hptr, hnew]
  simp only [hread]

end ContactDiscovery.Service
