/-
  Crows.Boot.Efi — what the loader takes from UEFI and gnu-efi.

  `EfiStatus` is EFI_STATUS with the loader's own codes (mftah_uefi.h); `isError` is
  EFI_ERROR, the sign bit, which the loader's codes carry too. `EfiLib` holds the
  gnu-efi routines the ramdisk driver calls; `EfiLib.Documented` is what their
  documentation promises of them, and nothing more.
-/

import Crows.Lib.Memory

namespace Crows.Boot

open Crows.Lib

inductive EfiStatus where
  | success
  | invalidParameter
  | unsupported
  | badBufferSize
  | bufferTooSmall
  | notReady
  | deviceError
  | writeProtected
  | outOfResources
  | mediaChanged
  | notFound
  | aborted
  | alreadyStarted
  | endOfFile
  | noPayloadFound
  | singlePayloadFound
  | multiPayloadFound
  | menuGoBack
  | invalidPassword
  /-- Any other code, warnings included. -/
  | other (code : UInt64)
  deriving DecidableEq, Repr

/-- `EFI_ERROR`. -/
def EfiStatus.isError : EfiStatus → Bool
  | .success => false
  | .other code => decide (2 ^ 63 ≤ code.toNat)
  | _ => true

structure EfiGuid where
  data1 : UInt32
  data2 : UInt16
  data3 : UInt16
  data4 : List UInt8
  deriving DecidableEq, Repr

/-- The gnu-efi routines the ramdisk driver calls. -/
structure EfiLib where
  copyMem : Mem → Addr → Addr → UInt64 → Mem
  divU64x32 : UInt64 → UInt64 → UInt64
  multU64x32 : UInt64 → UInt64 → UInt64

/-- Their documented behaviour: `CopyMem` copies between regions that do not overlap,
    `DivU64x32` divides by a divisor of at most 31 bits, `MultU64x32` multiplies by one
    of at most 32 bits. -/
structure EfiLib.Documented (L : EfiLib) : Prop where
  copyMem : ∀ (m : Mem) (dst src : Addr) (n : UInt64), Separate dst n.toNat src n.toNat →
    L.copyMem m dst src n = m.write dst (m.read src n.toNat)
  divU64x32 : ∀ a b : UInt64, 0 < b.toNat → b.toNat < 2 ^ 31 → L.divU64x32 a b = a / b
  multU64x32 : ∀ a b : UInt64, b.toNat < 2 ^ 32 → L.multU64x32 a b = a * b

/-- A library that behaves as documented everywhere. -/
def gnuEfi : EfiLib where
  copyMem m dst src n := m.write dst (m.read src n.toNat)
  divU64x32 a b := a / b
  multU64x32 a b := a * b

theorem gnuEfi_documented : gnuEfi.Documented where
  copyMem _ _ _ _ _ := rfl
  divU64x32 _ _ _ _ := rfl
  multU64x32 _ _ _ := rfl

end Crows.Boot
