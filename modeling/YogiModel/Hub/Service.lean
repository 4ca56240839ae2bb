import Mathlib
import YogiModel.Base.Except
import YogiModel.Web.Bytes

namespace Yogi.Hub

open Web

-- The `response_type`s of the class `Service` with which a request is answered.
inductive ResponseType
  | ok
  | internalServerError
  | invalidRequest
  | apiError
  | alreadyMonitoring
  | invalidTerminalId
  | invalidBindingId
  | invalidOperationId
  | invalidCommandId
  | invalidTerminalType
  | alreadyLoggedIn
  | notLoggedIn
  | notReady
  deriving DecidableEq

-- The `response_pair`.
structure Response where
  type : ResponseType
  data : Bytes
  deriving DecidableEq

-- What is undefined behaviour in the source: memory outside of an array is used.
inductive Fault
  | outOfBounds
  | outOfFuel
  deriving DecidableEq

-- `QByteArray::at`
def byteAt (request : Bytes) (i : Nat) : Except Fault UInt8 :=
  match request[i]? with
  | some b => .ok b
  | none   => .error .outOfBounds

theorem byteAt_ok_iff {request : Bytes} {i : Nat} : (∃ b, byteAt request i = .ok b) ↔ i < request.length := by
  simp only [byteAt]
  split
  case h_1 h => simpa using (List.getElem?_eq_some_iff.mp h).choose
  case h_2 h => simpa using h

-- `QByteArray::constData`: the bytes are followed by a zero.
def constData (bytes : Bytes) : Bytes :=
  bytes ++ [0]

end Yogi.Hub
