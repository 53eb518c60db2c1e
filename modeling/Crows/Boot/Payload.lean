/-
  Crows.Boot.Payload — loading and decrypting the chosen payload (`LoadAndDecrypt`,
  main.c), and the ramdisk `WrapperRegisterRamdisk` makes of it.

  The file is read into a pool block of its own size, decrypted in place, and the
  ramdisk is taken to be what follows the header, at the length the decrypted header
  declares at offset 96. Nothing compares that length with the size of the block: the
  registration checks see a base and a length only, and each request is held to the
  length. So the requests stay inside the block just when header and declared length
  fit in it (`contained_iff`).
-/

import Crows.Boot.Mftah
import Crows.Boot.RamDiskRuns

namespace Crows.Boot.Payload

open Crows.Lib
open Crows.Boot.RamDisk

def aesBlocklen : UInt64 := 16

/-- `MFTAH_RAMDISK_LOAD_BLOCK_SIZE`. -/
def mftahRamdiskLoadBlockSize : Nat := 16384

/-! ## The model -/

/-- An open file: its bytes and the position of the handle. -/
structure EfiFile where
  bytes : List UInt8
  pos : Nat
  deriving DecidableEq, Repr

/-- A read delivers what is asked for, or what is left, and moves the position. -/
def EfiFile.read (f : EfiFile) (size : Nat) : List UInt8 × EfiFile :=
  let got := (f.bytes.drop f.pos).take size
  (got, { f with pos := f.pos + got.length })

/-- What the firmware answers during one `LoadAndDecrypt`. -/
structure Firmware where
  /-- Whether LibFileInfo returns the file's information. -/
  libFileInfo : Bool
  allocatePool : EfiStatus × Addr
  /-- The status of each Read, in order. -/
  read : Nat → EfiStatus

def fileSize (fw : Firmware) (f : EfiFile) : UInt64 := if fw.libFileInfo then UInt64.ofNat f.bytes.length else 0

/-- A call that comes back, or one of the loader's panics, which hang. -/
inductive Exit (α : Type) where
  | panic
  | ret (a : α)

/-- The globals that hold the ramdisk image. -/
structure Image where
  gRamdiskImage : Addr
  gRamdiskImageLength : UInt64
  deriving DecidableEq, Repr

structure Loaded where
  status : EfiStatus
  mem : Mem
  file : EfiFile
  loadedPayloadHash : List UInt8
  image : Image

/-- The offsets the read loop asks for. -/
def chunkOffsets (size : Nat) : List Nat :=
  (List.range ((size + (mftahRamdiskLoadBlockSize - 1)) / mftahRamdiskLoadBlockSize)).map
    (· * mftahRamdiskLoadBlockSize)

/-- The read loop: one chunk at each offset, until a read fails. -/
def readChunks (fw : Firmware) (readBuffer : Addr) : List Nat → Mem → EfiFile → EfiStatus × Mem × EfiFile
  | [], m, f => (.success, m, f)
  | i :: rest, m, f =>
    let st := fw.read (i / mftahRamdiskLoadBlockSize)
    if st.isError then (st, m, f)
    else
      let r := f.read mftahRamdiskLoadBlockSize
      readChunks fw readBuffer rest (m.write (readBuffer + UInt64.ofNat i) r.1) r.2

variable (M : MftahProtocol)

/-- `LoadAndDecrypt`; on a failure the image globals and the hash buffer stay as far as
    they had got. -/
def loadAndDecrypt (fw : Firmware) (file : EfiFile) (password : List UInt8) (hash0 : List UInt8) (image0 : Image)
    (mem : Mem) : Exit Loaded :=
  let readFileSize := fileSize fw file
  let fail := fun (st : EfiStatus) (m : Mem) (f : EfiFile) (h : List UInt8) => Exit.ret ⟨st, m, f, h, image0⟩
  if readFileSize % aesBlocklen ≠ 0 then fail .aborted mem file hash0
  else if fw.allocatePool.1 = .outOfResources ∨ fw.allocatePool.2 = 0 ∨ fw.allocatePool.1.isError then .panic
  else
    let readBuffer := fw.allocatePool.2
    let (st, m1, f1) := readChunks fw readBuffer (chunkOffsets readFileSize.toNat) mem file
    if st.isError then fail st m1 f1 hash0
    else
      let hashed := M.createHash m1 readBuffer readFileSize
      let created := M.createPayload m1 readBuffer readFileSize
      if created.1.isError then fail .aborted m1 f1 hashed.2
      else
        let decrypted := M.decrypt m1 created.2 password
        if decrypted.1.isError then fail .aborted decrypted.2 f1 hashed.2
        else
          let base := M.getBufferBase created.2
          if base.1.isError ∨ base.2 = 0 then fail .aborted decrypted.2 f1 hashed.2
          else .ret
            { status := .success, mem := decrypted.2, file := f1, loadedPayloadHash := hashed.2,
              image := ⟨base.2 + M.payloadHeaderSizeof, decrypted.2.readU64 (base.2 + 96)⟩ }

/-- The length the header of a decrypted payload declares. -/
def headerLength (m : Mem) (base : Addr) : UInt64 := m.readU64 (base + 96)

/-- `RamDiskRegister`'s checks as `WrapperRegisterRamdisk` meets them. -/
def wrapperRegisterChecks (image : Image) (devicePath : Addr) : EfiStatus :=
  ramDiskRegisterChecks image.gRamdiskImage image.gRamdiskImageLength (some gEfiRamdiskVirtualDiskGuid) devicePath

def wrapperPrivateData (L : EfiLib) (image : Image) : RamdiskPrivateData :=
  ramDiskPrivateData L image.gRamdiskImage image.gRamdiskImageLength gEfiRamdiskVirtualDiskGuid

variable {M}

/-- What a load that comes back with success leaves in the image globals. -/
theorem loadAndDecrypt_success {fw : Firmware} {file : EfiFile} {password hash0 : List UInt8} {image0 : Image}
    {mem : Mem} {r : Loaded} (hbase : ∀ m a n, (M.getBufferBase (M.createPayload m a n).2).2 = a)
    (h : loadAndDecrypt M fw file password hash0 image0 mem = .ret r) (hok : r.status = .success) :
    r.image = ⟨fw.allocatePool.2 + M.payloadHeaderSizeof, headerLength r.mem fw.allocatePool.2⟩ := by
  have bad : ∀ st : EfiStatus, st.isError = true → st ≠ .success := fun _ => isError_ne_success
  simp only [loadAndDecrypt] at h
  split at h
  · cases h
    cases hok
  split at h
  · cases h
  split at h
  · rename_i hst
    cases h
    exact absurd hok (bad _ hst)
  split at h
  · cases h
    cases hok
  split at h
  · cases h
    cases hok
  split at h
  · cases h
    cases hok
  · cases h
    simp only [hbase, headerLength]

/-! ## What the requests touch -/

/-- Every request the block protocols accept touches only the `n` bytes from `buf` on. -/
def Contained (L : EfiLib) (pd : RamdiskPrivateData) (buf : Addr) (n : Nat) : Prop :=
  ∀ (m : Mem) (id : UInt32) (lba bufferSize : UInt64) (buffer : Addr),
    (ramDiskBlkIoReadBlocks L pd m id lba bufferSize buffer).1 = .success ∨
      (ramDiskBlkIoWriteBlocks L pd m id lba bufferSize buffer).1 = .success →
    ∀ a, InRegion (pd.startingAddr + L.multU64x32 lba pd.media.blockSize.toUInt64) bufferSize.toNat a →
      InRegion buf n a

section Contained
variable {L : EfiLib} {buf hdr len : UInt64} {typ : EfiGuid}

/-- An accepted request touches offsets of the image below its length. -/
theorem touched_offset (hL : L.Documented) (ha : Accepted (buf + hdr) len) {m : Mem} {id : UInt32}
    {lba n : UInt64} {buffer : Addr}
    (h : (ramDiskBlkIoReadBlocks L (ramDiskPrivateData L (buf + hdr) len typ) m id lba n buffer).1 = .success ∨
      (ramDiskBlkIoWriteBlocks L (ramDiskPrivateData L (buf + hdr) len typ) m id lba n buffer).1 = .success)
    {a : Addr} (hin : InRegion (buf + hdr + lba * 512) n.toNat a) :
    ∃ off : Nat, off < len.toNat ∧ a = buf + hdr + UInt64.ofNat off := by
  have hne : n ≠ 0 := by
    intro e
    subst e
    exact absurd hin (Nat.not_lt_zero _)
  have hins : Inside len lba n := by
    rcases h with h | h
    · exact core_inside hL ha (r := .read .blkIo id lba n buffer) (Or.inl rfl) hne h
    · exact core_inside hL ha (r := .write .blkIo id lba n buffer) (Or.inr rfl) hne h
  have hend := hins.2
  have hlt := len.toNat_lt
  have hd : (a - (buf + hdr + lba * 512)).toNat < n.toNat := hin
  refine ⟨lba.toNat * 512 + (a - (buf + hdr + lba * 512)).toNat, by omega, ?_⟩
  rw [UInt64.ofNat_add, UInt64.ofNat_toNat, UInt64.ofNat_mul, UInt64.ofNat_toNat]
  show a = buf + hdr + (lba * 512 + (a - (buf + hdr + lba * 512)))
  grind

/-- The requests stay in a block of `n` bytes at `buf` just when the header and the
    length the image declares fit in it. -/
theorem contained_iff (hL : L.Documented) (ha : Accepted (buf + hdr) len) (n : UInt64) :
    Contained L (ramDiskPrivateData L (buf + hdr) len typ) buf n.toNat ↔ hdr.toNat + len.toNat ≤ n.toNat := by
  have hmul : ∀ lba, L.multU64x32 lba 512 = lba * 512 := fun lba => hL.multU64x32 _ _ (by decide)
  have hn := n.toNat_lt
  have hh := hdr.toNat_lt
  have hpos := ha.pos
  have hal := ha.aligned
  unfold Contained
  simp only [privateData_startingAddr, privateData_blockSize, hmul]
  constructor
  · intro hc
    apply Nat.le_of_not_lt
    intro hlt
    -- the first byte of the image past the block, and the disk block it is in
    have hoff : max hdr.toNat n.toNat < 2 ^ 64 := by omega
    obtain ⟨j, hj⟩ := Nat.exists_eq_add_of_le (Nat.le_max_left hdr.toNat n.toNat)
    have hjlt : j < len.toNat := by omega
    have hlen := len.toNat_lt
    have hlba : (UInt64.ofNat (j / 512)).toNat = j / 512 := by
      rw [UInt64.toNat_ofNat']
      omega
    have hins : Inside len (UInt64.ofNat (j / 512)) 512 := by
      refine ⟨by decide, ?_⟩
      rw [hlba, show (512 : UInt64).toNat = 512 from rfl]
      clear hlt hj hoff
      omega
    have hread : (ramDiskBlkIoReadBlocks L (ramDiskPrivateData L (buf + hdr) len typ) (fun _ => 0) 0
        (UInt64.ofNat (j / 512)) 512 1).1 = .success :=
      (core_decision hL ha (r := .read .blkIo 0 (UInt64.ofNat (j / 512)) 512 1) (Or.inl rfl) (by decide)
        (by decide)).mpr hins
    have ha' : buf + hdr + UInt64.ofNat j - (buf + hdr + UInt64.ofNat (j / 512) * 512) = UInt64.ofNat (j % 512) := by
      have hsplit : UInt64.ofNat j = UInt64.ofNat (j / 512) * 512 + UInt64.ofNat (j % 512) := by
        rw [show (512 : UInt64) = UInt64.ofNat 512 from rfl, ← UInt64.ofNat_mul, ← UInt64.ofNat_add]
        congr 1
        omega
      rw [hsplit]
      grind
    have hin := hc _ _ _ _ _ (Or.inl hread) (buf + hdr + UInt64.ofNat j) (by
      unfold InRegion
      rw [ha', UInt64.toNat_ofNat', show (512 : UInt64).toNat = 512 from rfl]
      omega)
    have hback : buf + hdr + UInt64.ofNat j - buf = hdr + UInt64.ofNat j := by grind
    unfold InRegion at hin
    rw [hback, UInt64.toNat_add, UInt64.toNat_ofNat'] at hin
    omega
  · intro hfit m id lba bufferSize buffer h a hin
    obtain ⟨off, hoff, rfl⟩ := touched_offset hL ha h hin
    have hback : buf + hdr + UInt64.ofNat off - buf = hdr + UInt64.ofNat off := by grind
    unfold InRegion
    rw [hback, UInt64.toNat_add, UInt64.toNat_ofNat']
    omega

end Contained

/-- After a load that comes back with success into the block `ReadBuffer`, every request
    the registered ramdisk accepts stays in that block if and only if registration
    refuses the image, or header and declared length fit in the file's size. -/
theorem loaded_ramdisk_contained_iff (L : EfiLib) (hL : L.Documented) (M : MftahProtocol)
    (hbase : ∀ m a n, (M.getBufferBase (M.createPayload m a n).2).2 = a) (fw : Firmware) (file : EfiFile)
    (password hash0 : List UInt8) (image0 : Image) (mem : Mem) (devicePath : Addr) (r : Loaded)
    (hload : loadAndDecrypt M fw file password hash0 image0 mem = .ret r) (hok : r.status = .success) :
    (wrapperRegisterChecks r.image devicePath = .success →
        Contained L (wrapperPrivateData L r.image) fw.allocatePool.2 (fileSize fw file).toNat) ↔
      (wrapperRegisterChecks ⟨fw.allocatePool.2 + M.payloadHeaderSizeof, headerLength r.mem fw.allocatePool.2⟩
          devicePath = .success →
        M.payloadHeaderSizeof.toNat + (headerLength r.mem fw.allocatePool.2).toNat ≤ (fileSize fw file).toNat) := by
  rw [loadAndDecrypt_success hbase hload hok]
  refine forall_congr' fun hreg => ?_
  exact contained_iff hL ((ramDiskRegisterChecks_success _ _ _ _).mp hreg).1 _

/-! A library whose payloads are not encrypted at all, with a 128-byte header. -/

def plainLib : MftahProtocol where
  Payload := Addr
  payloadHeaderSizeof := 128
  createHash _ _ _ := (.success, List.replicate 32 0)
  createPayload _ a _ := (.success, a)
  decrypt m _ _ := (.success, m)
  getBufferBase a := (.success, a)

def steadyFirmware : Firmware := ⟨true, (.success, 0x100000), fun _ => .success⟩

/-- A payload of `n` bytes whose header declares `256 * k` bytes of image. -/
def payloadFile (n : Nat) (k : UInt8) : EfiFile := ⟨(List.replicate n 0).set 97 k, 0⟩

set_option maxRecDepth 4000 in
theorem loaded_ramdisk_contained_iff_small :
    ∃ r, loadAndDecrypt plainLib steadyFirmware (payloadFile 640 2) [] [] ⟨0, 0⟩ (fun _ => 0) = .ret r ∧
      ((wrapperRegisterChecks r.image 1 = .success →
          Contained gnuEfi (wrapperPrivateData gnuEfi r.image) 0x100000 (fileSize steadyFirmware (payloadFile 640 2)).toNat) ↔
        (wrapperRegisterChecks ⟨0x100000 + 128, headerLength r.mem 0x100000⟩ 1 = .success →
          (128 : UInt64).toNat + (headerLength r.mem 0x100000).toNat ≤
            (fileSize steadyFirmware (payloadFile 640 2)).toNat)) :=
  ⟨_, rfl, loaded_ramdisk_contained_iff gnuEfi gnuEfi_documented plainLib (fun _ _ _ => rfl) steadyFirmware
    (payloadFile 640 2) [] [] ⟨0, 0⟩ (fun _ => 0) 1 _ rfl rfl⟩

set_option maxRecDepth 4000 in
/-- A file of 256 bytes whose header declares 4096: the registered ramdisk reaches past
    the 256 bytes that were loaded. -/
theorem loaded_ramdisk_escapes :
    ∃ r, loadAndDecrypt plainLib steadyFirmware (payloadFile 256 16) [] [] ⟨0, 0⟩ (fun _ => 0) = .ret r ∧
      r.status = .success ∧ fileSize steadyFirmware (payloadFile 256 16) = 256 ∧
      wrapperRegisterChecks r.image 1 = .success ∧
      ¬ Contained gnuEfi (wrapperPrivateData gnuEfi r.image) 0x100000 256 := by
  refine ⟨_, rfl, rfl, by decide, by decide, ?_⟩
  have himage : Accepted ((0x100000 : UInt64) + 128) 4096 := ⟨by decide, by decide, by decide⟩
  intro hc
  have hfit := (contained_iff gnuEfi_documented himage 256).mp hc
  exact absurd hfit (by decide)

end Crows.Boot.Payload
