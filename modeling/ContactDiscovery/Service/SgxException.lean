/-
  ContactDiscovery.Service.SgxException — the exceptions of calls into an enclave (`handleSgxException`
  and `convertSgxException` in `SgxEnclave.java`).

  `handleSgxException` looks at the code: it throws another exception, ends the enclave, or returns, and
  the caller then throws the `SgxException` itself or fails a future with it.
-/

import ContactDiscovery.Enclave.Types

namespace ContactDiscovery.Service

open Enclave (SgxStatus)

inductive Throwable where
  | sgxException (name : String) (code : Option SgxStatus)
  | noSuchPendingRequest
  | invalidRequestSize
  | aeadBadTag
  | illegalArgument (message : String)
  | illegalState (message : String)
  | nullPointer
  /-- Another class, thrown by the native code. -/
  | native (cls msg : String)
  deriving DecidableEq

def SGX_ERROR_ENCLAVE_LOST : Nat := 0x0004
def SGX_ERROR_ENCLAVE_CRASHED : Nat := 0x1006
def SGX_ERROR_INVALID_ENCLAVE : Nat := 0x2001
def SGX_ERROR_INVALID_ENCLAVE_ID : Nat := 0x2002

/-- The cases of `handleSgxException`. -/
inductive SgxCase where
  | illegalArgument
  | illegalState
  | killEnclave
  | passed
  deriving DecidableEq

def sgxCase : Option SgxStatus → SgxCase
  | some .invalidParameter => .illegalArgument
  | some .invalidState => .illegalState
  | some (.other code) =>
    if code ∈ [SGX_ERROR_ENCLAVE_LOST, SGX_ERROR_ENCLAVE_CRASHED, SGX_ERROR_INVALID_ENCLAVE, SGX_ERROR_INVALID_ENCLAVE_ID] then
      .killEnclave
    else .passed
  | _ => .passed

/-- What `handleSgxException` throws, if it throws. -/
def handleSgxException (name : String) (code : Option SgxStatus) : Option Throwable :=
  match sgxCase code with
  | .illegalArgument => some (.illegalArgument name)
  | .illegalState => some (.illegalState name)
  | _ => none

def convertSgxException (name : String) : Option SgxStatus → Throwable
  | some .pendingRequestNotFound => .noSuchPendingRequest
  | some .invalidRequestSize => .invalidRequestSize
  | some .macMismatch => .aeadBadTag
  | some .invalidParameter => .illegalArgument name
  | some .invalidState => .illegalState name
  | code => .sgxException name code

end ContactDiscovery.Service
