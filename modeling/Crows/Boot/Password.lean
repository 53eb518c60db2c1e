/-
  Crows.Boot.Password — CheckPassword: the narrowed password, the library's verdict on it,
  and what is left behind.

  The header and the first block of the payload are read for the library and the handle
  is put back to the beginning. The password goes as CHAR8 into a pool block of its own,
  which is freed at the end with the password in it (`Pool.free_write_alloc`); an accepted
  one is copied to PasswordActual as well.

  `checkPassword_cases` says all that a call which comes back can have done:
  - it handed the library the characters of the password, as many as half its length in
    bytes, the handle is at the beginning, and its status is the verdict; or
  - it did not come to that, and its status is an error that is no verdict.
-/

import Crows.Boot.Line
import Crows.Boot.Payload
import Crows.Lib.Pool

namespace Crows.Boot.Password

open Crows.Lib
open Crows.Boot.Payload
open Crows.Boot.Input (isPrintable)
open Crows.Boot.Select (Outcome)

/-- The library with check_password. -/
structure MftahLoader extends MftahProtocol where
  checkPassword : Mem → Payload → List UInt8 → MftahStatus

/-- The bytes of CHAR16 cells, low byte first. -/
def bytesOf (cells : Nat → Char16) (j : Nat) : UInt8 :=
  if j % 2 = 0 then (cells (j / 2)).toUInt8 else (cells (j / 2) >>> 8).toUInt8

/-- A password as it is handed to the library: what the pointer points at, and the length. -/
structure Handed where
  buffer : List UInt8
  length : UInt8
  deriving DecidableEq, Repr

def Handed.bytes (h : Handed) : List UInt8 := h.buffer.take h.length.toNat

/-- What the firmware answers during one CheckPassword; `allocatePool` is asked for DataBuffer and `read 0` is
    its one Read. Neither call knows the loader's own codes. -/
structure CheckFirmware extends Firmware where
  setPosition : EfiStatus
  /-- Whether there is a block for PasswordBufferChar8. -/
  passwordBufferChar8 : Bool
  read_ne_invalidPassword : read 0 ≠ .invalidPassword
  setPosition_ne_invalidPassword : setPosition ≠ .invalidPassword

structure Checked where
  status : EfiStatus
  file : EfiFile
  mem : Mem
  /-- The blocks of PasswordBufferChar8. -/
  pool : Pool (List UInt8)
  passwordActual : List UInt8
  passwordLengthActual : UInt8
  /-- What check_password was handed, if the call came to it. -/
  handed : Option Handed

/-- The loop that fills PasswordBufferChar8. -/
def narrow (passwordBuffer : Nat → UInt8) (passLenChar8 : Nat) (block : List UInt8) : List UInt8 :=
  (List.range passLenChar8).foldl (fun block i => block.set i (passwordBuffer (i * 2))) block

def checkPassword (M : MftahLoader) (fw : CheckFirmware) (file : EfiFile) (passwordBuffer : Nat → UInt8)
    (passLen : UInt8) (passwordActual : List UInt8) (passwordLengthActual : UInt8) (mem : Mem)
    (pool : Pool (List UInt8)) : Outcome Checked :=
  let initialReadLength := M.payloadHeaderSizeof + aesBlocklen
  let readFileSize := fileSize fw.toFirmware file
  let stop := fun (status : EfiStatus) (f : EfiFile) (m : Mem) =>
    Outcome.returned ⟨status, f, m, pool, passwordActual, passwordLengthActual, none⟩
  if readFileSize < initialReadLength then stop .aborted file mem
  else if readFileSize % aesBlocklen ≠ 0 then stop .aborted file mem
  else if (fw.read 0).isError then stop (fw.read 0) file mem
  else
    let (got, f1) := file.read initialReadLength.toNat
    let m1 := mem.write fw.allocatePool.2 got
    if got.length ≠ initialReadLength.toNat then stop .endOfFile f1 m1
    else if fw.setPosition.isError then stop fw.setPosition f1 m1
    else
      let f2 := { f1 with pos := 0 }
      let created := M.createPayload m1 fw.allocatePool.2 initialReadLength
      if created.1.isError then stop .aborted f2 m1
      else if fw.passwordBufferChar8 = false then .faulted
      else
        let passLenChar8 := passLen / 2
        let block := pool.length
        let zeroed := List.replicate (passLenChar8.toNat + 1) 0
        let buffer := narrow passwordBuffer passLenChar8.toNat zeroed
        let pool := (pool.alloc zeroed).write block buffer
        let handed := Handed.mk buffer passLenChar8
        match M.checkPassword m1 created.2 handed.bytes with
        | .success =>
          .returned ⟨.success, f2, m1, pool.free block,
            buffer.take passLenChar8.toNat ++ passwordActual.drop passLenChar8.toNat, passLenChar8, some handed⟩
        | .invalidPassword =>
          .returned ⟨.invalidPassword, f2, m1, pool.free block, passwordActual, passwordLengthActual, some handed⟩
        | _ => .returned ⟨.aborted, f2, m1, pool.free block, passwordActual, passwordLengthActual, some handed⟩

/-! ## The narrowed password -/

@[simp] theorem bytesOf_even (cells : Nat → Char16) (i : Nat) : bytesOf cells (i * 2) = (cells i).toUInt8 := by
  simp [bytesOf]

/-- By induction on the characters narrowed so far: the rest of the block is still zero. -/
theorem narrow_replicate (passwordBuffer : Nat → UInt8) (k rest : Nat) :
    narrow passwordBuffer k (List.replicate (k + rest) 0) =
      (List.range k).map (fun i => passwordBuffer (i * 2)) ++ List.replicate rest 0 := by
  induction k generalizing rest with
  | zero => simp [narrow]
  | succ k ih =>
    have hsize : k + 1 + rest = k + (rest + 1) := by omega
    have hprev : narrow passwordBuffer (k + 1) (List.replicate (k + 1 + rest) 0) =
        (narrow passwordBuffer k (List.replicate (k + (rest + 1)) 0)).set k (passwordBuffer (k * 2)) := by
      simp only [narrow, List.range_succ, List.foldl_append, List.foldl_cons, List.foldl_nil, hsize]
    rw [hprev, ih (rest + 1), List.range_succ]
    simp [List.replicate_succ]

/-- PasswordBufferChar8 holds the low bytes of the characters, and a NUL. -/
theorem narrow_zeroed (passwordBuffer : Nat → UInt8) (n : Nat) :
    narrow passwordBuffer n (List.replicate (n + 1) 0) = (List.range n).map (fun i => passwordBuffer (i * 2)) ++ [0] :=
  narrow_replicate passwordBuffer n 1

/-- What the library is handed of a password in CHAR16 cells. -/
def handedOf (passwordBuffer : Nat → UInt8) (passLen : UInt8) : Handed :=
  ⟨(List.range (passLen / 2).toNat).map (fun i => passwordBuffer (i * 2)) ++ [0], passLen / 2⟩

/-- A printable character is its low byte. -/
theorem toUInt16_toUInt8_of_printable {c : Char16} (h : isPrintable c = true) : c.toUInt8.toUInt16 = c := by
  rw [isPrintable, Bool.and_eq_true, decide_eq_true_eq, decide_eq_true_eq] at h
  have hle : c.toNat ≤ 0x7E := h.2
  apply UInt16.toNat.inj
  simp
  omega

theorem toUInt8_ne_zero_of_printable {c : Char16} (h : isPrintable c = true) : c.toUInt8 ≠ 0 := by
  intro hzero
  have hback := toUInt16_toUInt8_of_printable h
  rw [hzero] at hback
  subst hback
  exact absurd h (by decide)

/-! ## What a call has done -/

variable {M : MftahLoader} {fw : CheckFirmware} {file : EfiFile} {passwordBuffer : Nat → UInt8} {passLen : UInt8}
  {passwordActual : List UInt8} {passwordLengthActual : UInt8} {mem : Mem} {pool : Pool (List UInt8)}

/-- The call came to check_password: the status is the verdict and the block is freed. -/
structure Verdict (file : EfiFile) (passwordBuffer : Nat → UInt8) (passLen : UInt8) (passwordActual : List UInt8)
    (passwordLengthActual : UInt8) (pool : Pool (List UInt8)) (c : Checked) : Prop where
  handed : c.handed = some (handedOf passwordBuffer passLen)
  file : c.file = { file with pos := 0 }
  pool : c.pool = pool ++ [⟨false, (handedOf passwordBuffer passLen).buffer⟩]
  actual : c.status = .success ∧
        c.passwordActual = (handedOf passwordBuffer passLen).bytes ++ passwordActual.drop (passLen / 2).toNat ∧
        c.passwordLengthActual = passLen / 2 ∨
      (c.status = .invalidPassword ∨ c.status = .aborted) ∧ c.passwordActual = passwordActual ∧
        c.passwordLengthActual = passwordLengthActual

/-- The call did not come to it, and its status is an error. -/
structure NoVerdict (pool : Pool (List UInt8)) (c : Checked) : Prop where
  handed : c.handed = none
  pool : c.pool = pool
  error : c.status.isError = true
  status : c.status ≠ .invalidPassword

theorem checkPassword_cases {c : Checked}
    (h : checkPassword M fw file passwordBuffer passLen passwordActual passwordLengthActual mem pool = .returned c) :
    Verdict file passwordBuffer passLen passwordActual passwordLengthActual pool c ∨ NoVerdict pool c := by
  have haborted : EfiStatus.aborted ≠ .invalidPassword := by decide
  have hend : EfiStatus.endOfFile ≠ .invalidPassword := by decide
  unfold checkPassword at h
  dsimp only at h
  split at h
  · cases h
    exact .inr ⟨rfl, rfl, rfl, haborted⟩
  split at h
  · cases h
    exact .inr ⟨rfl, rfl, rfl, haborted⟩
  split at h
  · rename_i herror
    cases h
    exact .inr ⟨rfl, rfl, herror, fw.read_ne_invalidPassword⟩
  split at h
  · cases h
    exact .inr ⟨rfl, rfl, rfl, hend⟩
  split at h
  · rename_i herror
    cases h
    exact .inr ⟨rfl, rfl, herror, fw.setPosition_ne_invalidPassword⟩
  split at h
  · cases h
    exact .inr ⟨rfl, rfl, rfl, haborted⟩
  split at h
  · cases h
  rw [Pool.free_write_alloc, narrow_zeroed] at h
  split at h
  · cases h
    exact .inl ⟨rfl, rfl, rfl, .inl ⟨rfl, rfl, rfl⟩⟩
  · cases h
    exact .inl ⟨rfl, rfl, rfl, .inr ⟨.inl rfl, rfl, rfl⟩⟩
  · cases h
    exact .inl ⟨rfl, rfl, rfl, .inr ⟨.inr rfl, rfl, rfl⟩⟩

end Crows.Boot.Password
