/-
  Crows.Boot.Mftah — what the loader sees of libmftah.

  libmftah is linked in and its source is not part of the tree, so its protocol is a
  parameter: every result the loader reads is a field, and what a result needs of the
  library is a hypothesis there. `WorkOrder` is the part of mftah_work_order_t the
  loader reads.
-/

import Crows.Lib.Memory

namespace Crows.Boot

open Crows.Lib

inductive MftahStatus where
  | success
  | invalidParameter
  | invalidPassword
  | threadBusy
  | other (code : Nat)
  deriving DecidableEq, Repr

/-- `MFTAH_ERROR`. -/
def MftahStatus.isError (st : MftahStatus) : Bool := st != .success

/-- The fields of mftah_work_order_t. -/
structure WorkOrder where
  threadIndex : Nat
  location : Addr
  length : UInt64
  suppressProgress : Bool
  deriving DecidableEq, Repr

/-- The methods `LoadAndDecrypt` calls, over the library's own payload type. -/
structure MftahProtocol where
  Payload : Type
  payloadHeaderSizeof : UInt64
  createHash : Mem → Addr → UInt64 → MftahStatus × List UInt8
  createPayload : Mem → Addr → UInt64 → MftahStatus × Payload
  /-- The memory the payload is decrypted in, before and after. -/
  decrypt : Mem → Payload → List UInt8 → MftahStatus × Mem
  getBufferBase : Payload → MftahStatus × Addr

end Crows.Boot
