/-
  Crows.Boot.Nfit — the bytes of the NFIT that RamDiskPublishNfit installs, and its checksum.

  The table is built in a zeroed block: the header, four reserved bytes and one SPA range
  structure with the base, the size and the type of the ramdisk. CalculateCheckSum8 then
  sums the block, with the Checksum field still 0, and what it returns is stored in that
  field.

  CalculateCheckSum8 returns the sum and not what makes up for it:
  - `checksum_stored_iff`: storing it makes the bytes sum to 0 modulo 256 exactly when
    they summed to a multiple of 128.
  - `nfit_checks_iff`: for which bases, sizes, types and release dates the NFIT passes.
-/
import Crows.Boot.RamDisk
import Crows.Lib.Checksum

namespace Crows.Boot.Nfit

open Crows.Lib
open Crows.Boot.RamDisk

/-! ## The structures of acpi.h -/

/-- EFI_ACPI_NFIT_SIGNATURE, 'N', 'F', 'I', 'T'. -/
def efiAcpiNfitSignature : UInt32 := 0x5449464E

/-- MFTAH_CREATOR_ID, 'X', 'M', 'I', 'T'. -/
def mftahCreatorId : UInt32 := 0x54494D58

/-- MFTAH_OEM_TABLE_ID, 'M', 'F', 'T', 'A', 'H', 'E', 'F', 'I'. -/
def mftahOemTableId : UInt64 := 0x494645484154464D

/-- PcdAcpiDefaultOemId, 'S', 'O', 'L', 'S' and two blanks. -/
def pcdAcpiDefaultOemId : List UInt8 := [0x53, 0x4F, 0x4C, 0x53, 0x20, 0x20]

/-- The 16 bytes of a GUID in memory. -/
def guidBytes (g : EfiGuid) : List UInt8 :=
  leBytes 4 g.data1.toNat ++ leBytes 2 g.data2.toNat ++ leBytes 2 g.data3.toNat ++
    (List.range 8).map fun i => g.data4.getD i 0

structure EfiAcpiDescriptionHeader where
  signature : UInt32
  length : UInt32
  revision : UInt8
  checksum : UInt8
  oemId : List UInt8
  oemTableId : UInt64
  oemRevision : UInt32
  creatorId : UInt32
  creatorRevision : UInt32

/-- Packed. -/
def EfiAcpiDescriptionHeader.bytes (h : EfiAcpiDescriptionHeader) : List UInt8 :=
  leBytes 4 h.signature.toNat ++ leBytes 4 h.length.toNat ++ [h.revision, h.checksum] ++ h.oemId ++
    leBytes 8 h.oemTableId.toNat ++ leBytes 4 h.oemRevision.toNat ++ leBytes 4 h.creatorId.toNat ++
    leBytes 4 h.creatorRevision.toNat

/-- EFI_ACPI_6_4_NFIT_SYSTEM_PHYSICAL_ADDRESS_RANGE_STRUCTURE. -/
structure SystemPhysicalAddressRange where
  type : UInt16
  length : UInt16
  spaRangeStructureIndex : UInt16
  flags : UInt16
  reserved8 : UInt32
  proximityDomain : UInt32
  addressRangeTypeGuid : EfiGuid
  systemPhysicalAddressRangeBase : UInt64
  systemPhysicalAddressRangeLength : UInt64
  addressRangeMemoryMappingAttribute : UInt64

def SystemPhysicalAddressRange.bytes (r : SystemPhysicalAddressRange) : List UInt8 :=
  leBytes 2 r.type.toNat ++ leBytes 2 r.length.toNat ++ leBytes 2 r.spaRangeStructureIndex.toNat ++
    leBytes 2 r.flags.toNat ++ leBytes 4 r.reserved8.toNat ++ leBytes 4 r.proximityDomain.toNat ++
    guidBytes r.addressRangeTypeGuid ++ leBytes 8 r.systemPhysicalAddressRangeBase.toNat ++
    leBytes 8 r.systemPhysicalAddressRangeLength.toNat ++ leBytes 8 r.addressRangeMemoryMappingAttribute.toNat

/-! ## CalculateCheckSum8 -/

section Checksum

variable (maxAddress : UInt64)

/-- CalculateCheckSum8 of util.c, with MAX_ADDRESS. -/
def calculateCheckSum8 (m : Mem) (buffer : Addr) (length : UInt64) : UInt8 :=
  if buffer = 0 ∨ maxAddress - buffer + 1 < length ∨ length = 0 then 0
  else (List.range length.toNat).foldl (fun checksum count => checksum + m (buffer + UInt64.ofNat count)) 0

variable {maxAddress}

/-- Of a buffer in the address space it is the sum. -/
theorem calculateCheckSum8_toNat {m : Mem} {buffer : Addr} {length : UInt64} (hbuffer : buffer ≠ 0)
    (hroom : buffer.toNat + length.toNat ≤ maxAddress.toNat + 1) :
    (calculateCheckSum8 maxAddress m buffer length).toNat = byteSum (m.read buffer length.toNat) % 256 := by
  have hnat : buffer.toNat ≠ 0 := fun h => hbuffer (UInt64.toNat_inj.mp h)
  unfold calculateCheckSum8
  by_cases hlength : length = 0
  · subst hlength
    simp
    rfl
  · have hpos : length.toNat ≠ 0 := fun h => hlength (UInt64.toNat_inj.mp h)
    have hmax := maxAddress.toNat_lt
    have hlimit : ¬ maxAddress - buffer + 1 < length := by
      rw [UInt64.lt_iff_toNat_lt]
      simp only [UInt64.toNat_add, UInt64.toNat_sub, UInt64.reduceToNat]
      omega
    rw [if_neg (by simp [hbuffer, hlimit, hlength])]
    have hfold := toNat_foldl_add (m.read buffer length.toNat) 0
    rw [Mem.read, List.foldl_map] at hfold
    rw [hfold, ← Mem.read]
    simp

/-- The buffer after the checksum of its bytes is stored in one of them. -/
def checksumStored (maxAddress : UInt64) (m : Mem) (buffer : Addr) (length : UInt64) (i : Nat) : List UInt8 :=
  (m.write (buffer + UInt64.ofNat i) [calculateCheckSum8 maxAddress m buffer length]).read buffer length.toNat

/-- The sum of a buffer whose checksum byte was 0, stored in that byte. -/
theorem checksum_stored_iff {m : Mem} {buffer : Addr} {length : UInt64} {i : Nat} (hbuffer : buffer ≠ 0)
    (hroom : buffer.toNat + length.toNat ≤ maxAddress.toNat + 1) (hi : i < length.toNat)
    (hzero : m (buffer + UInt64.ofNat i) = 0) :
    Checks (checksumStored maxAddress m buffer length i) ↔ byteSum (m.read buffer length.toNat) % 128 = 0 := by
  unfold checksumStored
  rw [Mem.read_write_byte m buffer hi (Nat.le_of_lt length.toNat_lt)]
  apply checks_set_sum_iff
  · rw [Mem.getElem?_read m buffer hi, hzero]
  · exact calculateCheckSum8_toNat hbuffer hroom

end Checksum

/-! ## The NFIT -/

/-- The fields of the header that RamDiskPublishNfit fills in, with OemRevision from the build. -/
def nfitHeader (mftahReleaseDate : UInt32) : EfiAcpiDescriptionHeader where
  signature := efiAcpiNfitSignature
  length := 40 + 56
  revision := 1
  checksum := 0
  oemId := pcdAcpiDefaultOemId
  oemTableId := mftahOemTableId
  oemRevision := mftahReleaseDate
  creatorId := mftahCreatorId
  creatorRevision := 1

def spaRange (pd : RamdiskPrivateData) : SystemPhysicalAddressRange where
  type := 0
  length := 56
  spaRangeStructureIndex := 0
  flags := 0
  reserved8 := 0
  proximityDomain := 0
  addressRangeTypeGuid := pd.typeGuid
  systemPhysicalAddressRangeBase := pd.startingAddr
  systemPhysicalAddressRangeLength := pd.size
  addressRangeMemoryMappingAttribute := 0

/-- The block before the checksum is calculated. -/
def nfitBytes (mftahReleaseDate : UInt32) (pd : RamdiskPrivateData) : List UInt8 :=
  (nfitHeader mftahReleaseDate).bytes ++ leBytes 4 0 ++ (spaRange pd).bytes

/-- NfitLen. -/
def nfitLen : UInt64 := 40 + 56

/-- The bytes that InstallAcpiTable is handed; Checksum is the tenth byte of the header. -/
def publishedNfit (maxAddress : UInt64) (mftahReleaseDate : UInt32) (pd : RamdiskPrivateData) (m : Mem) (nfit : Addr) :
    List UInt8 :=
  checksumStored maxAddress (m.write nfit (nfitBytes mftahReleaseDate pd)) nfit nfitLen 9

@[simp] theorem length_guidBytes (g : EfiGuid) : (guidBytes g).length = 16 := by
  simp [guidBytes]

@[simp] theorem length_nfitBytes (mftahReleaseDate : UInt32) (pd : RamdiskPrivateData) :
    (nfitBytes mftahReleaseDate pd).length = 96 := by
  simp [nfitBytes, EfiAcpiDescriptionHeader.bytes, SystemPhysicalAddressRange.bytes, nfitHeader, pcdAcpiDefaultOemId]

/-- The sum of the bytes that are the same in every NFIT, and of those of the release date, the type, the base
    and the size. -/
theorem byteSum_nfitBytes (mftahReleaseDate : UInt32) (pd : RamdiskPrivateData) :
    byteSum (nfitBytes mftahReleaseDate pd) =
      1746 + byteSum (leBytes 4 mftahReleaseDate.toNat) + byteSum (guidBytes pd.typeGuid) +
        byteSum (leBytes 8 pd.startingAddr.toNat) + byteSum (leBytes 8 pd.size.toNat) := by
  have hsignature : byteSum (leBytes 4 efiAcpiNfitSignature.toNat) = 305 := by decide
  have hoem : byteSum pcdAcpiDefaultOemId = 385 := by decide
  have htable : byteSum (leBytes 8 mftahOemTableId.toNat) = 580 := by decide
  have hcreator : byteSum (leBytes 4 mftahCreatorId.toNat) = 322 := by decide
  have hlength : byteSum (leBytes 4 (40 + 56 : UInt32).toNat) = 96 := byteSum_leBytes_small 3 (by decide)
  have hrevision : byteSum (leBytes 4 (1 : UInt32).toNat) = 1 := byteSum_leBytes_small 3 (by decide)
  have hrange : byteSum (leBytes 2 (56 : UInt16).toNat) = 56 := byteSum_leBytes_small 1 (by decide)
  simp only [nfitBytes, EfiAcpiDescriptionHeader.bytes, SystemPhysicalAddressRange.bytes, nfitHeader, spaRange,
    byteSum_append, hsignature, hoem, htable, hcreator, hlength, hrevision, hrange]
  simp
  omega

theorem read_nfitBytes (mftahReleaseDate : UInt32) (pd : RamdiskPrivateData) (m : Mem) (nfit : Addr) :
    (m.write nfit (nfitBytes mftahReleaseDate pd)).read nfit nfitLen.toNat = nfitBytes mftahReleaseDate pd := by
  have hlen := length_nfitBytes mftahReleaseDate pd
  have hfits : (nfitBytes mftahReleaseDate pd).length ≤ 2 ^ 64 := by
    rw [hlen]
    decide
  have hwhole := Mem.read_write m nfit hfits
  rw [hlen] at hwhole
  exact hwhole

/-- The bytes that are the same in every NFIT are 46 short of a multiple of 128. -/
theorem nfit_checks_iff {maxAddress : UInt64} {nfit : Addr} (hnfit : nfit ≠ 0)
    (hroom : nfit.toNat + nfitLen.toNat ≤ maxAddress.toNat + 1) (mftahReleaseDate : UInt32) (pd : RamdiskPrivateData)
    (m : Mem) :
    Checks (publishedNfit maxAddress mftahReleaseDate pd m nfit) ↔
      (byteSum (leBytes 4 mftahReleaseDate.toNat) + byteSum (guidBytes pd.typeGuid) +
        byteSum (leBytes 8 pd.startingAddr.toNat) + byteSum (leBytes 8 pd.size.toNat)) % 128 = 46 := by
  have hread := read_nfitBytes mftahReleaseDate pd m nfit
  have hzero : m.write nfit (nfitBytes mftahReleaseDate pd) (nfit + UInt64.ofNat 9) = 0 := by
    have hcell := Mem.getElem?_read (m.write nfit (nfitBytes mftahReleaseDate pd)) nfit (i := 9) (n := nfitLen.toNat)
      (by decide)
    rw [hread] at hcell
    exact (Option.some.inj hcell).symm
  unfold publishedNfit
  rw [checksum_stored_iff hnfit hroom (by decide) hzero, hread, byteSum_nfitBytes]
  omega

/-- The base and the size are behind the first 72 bytes. -/
theorem nfitBytes_range (mftahReleaseDate : UInt32) (pd : RamdiskPrivateData) :
    (nfitBytes mftahReleaseDate pd).drop 72 =
      leBytes 8 pd.startingAddr.toNat ++ (leBytes 8 pd.size.toNat ++ leBytes 8 0) := by
  have hlen : ((nfitHeader mftahReleaseDate).bytes ++ leBytes 4 0 ++
      (leBytes 2 0 ++ leBytes 2 56 ++ leBytes 2 0 ++ leBytes 2 0 ++ leBytes 4 0 ++ leBytes 4 0 ++
        guidBytes pd.typeGuid)).length = 72 := by
    simp [EfiAcpiDescriptionHeader.bytes, nfitHeader, pcdAcpiDefaultOemId]
  exact List.drop_left' hlen

/-- Storing the checksum changes none of them. -/
theorem publishedNfit_range (maxAddress : UInt64) (mftahReleaseDate : UInt32) (pd : RamdiskPrivateData) (m : Mem)
    (nfit : Addr) :
    leNat (((publishedNfit maxAddress mftahReleaseDate pd m nfit).drop 72).take 8) = pd.startingAddr.toNat ∧
    leNat (((publishedNfit maxAddress mftahReleaseDate pd m nfit).drop 80).take 8) = pd.size.toNat := by
  have hstart := pd.startingAddr.toNat_lt
  have hsize := pd.size.toNat_lt
  have hdrop :
      (publishedNfit maxAddress mftahReleaseDate pd m nfit).drop 72 = (nfitBytes mftahReleaseDate pd).drop 72 := by
    unfold publishedNfit checksumStored
    rw [Mem.read_write_byte _ nfit (by decide) (by decide), List.drop_set_of_lt (by decide), read_nfitBytes]
  have hbase : ((nfitBytes mftahReleaseDate pd).drop 72).take 8 = leBytes 8 pd.startingAddr.toNat := by
    rw [nfitBytes_range]
    exact List.take_left' (length_leBytes 8 _)
  have hlength : (((nfitBytes mftahReleaseDate pd).drop 72).drop 8).take 8 = leBytes 8 pd.size.toNat := by
    rw [nfitBytes_range, List.drop_left' (length_leBytes 8 _)]
    exact List.take_left' (length_leBytes 8 _)
  constructor
  · rw [hdrop, hbase, leNat_leBytes]
    exact Nat.mod_eq_of_lt hstart
  · rw [← hdrop, List.drop_drop] at hlength
    rw [hlength, leNat_leBytes]
    exact Nat.mod_eq_of_lt hsize

/-- What CalculateCheckSum8 returns is the right checksum for two of the 256 sums: 0 and 128. -/
theorem checksums_iff (maxAddress : UInt64) (m : Mem) {buffer : Addr} (hbuffer : buffer ≠ 0) :
    (∀ (length : UInt64) (i : Nat), buffer.toNat + length.toNat ≤ maxAddress.toNat + 1 → i < length.toNat →
      m (buffer + UInt64.ofNat i) = 0 →
      (Checks (checksumStored maxAddress m buffer length i) ↔ byteSum (m.read buffer length.toNat) % 128 = 0)) ∧
    (buffer.toNat + nfitLen.toNat ≤ maxAddress.toNat + 1 →
      ∀ (L : EfiLib) (mftahReleaseDate : UInt32) (ramDiskBase ramDiskSize : UInt64) (ramDiskType : EfiGuid),
      (Checks (publishedNfit maxAddress mftahReleaseDate (ramDiskPrivateData L ramDiskBase ramDiskSize ramDiskType) m
          buffer) ↔
        (byteSum (leBytes 4 mftahReleaseDate.toNat) + byteSum (guidBytes ramDiskType) +
          byteSum (leBytes 8 ramDiskBase.toNat) + byteSum (leBytes 8 ramDiskSize.toNat)) % 128 = 46)) := by
  refine ⟨fun length i hroom hi hzero => checksum_stored_iff hbuffer hroom hi hzero, ?_⟩
  intro hroom L mftahReleaseDate ramDiskBase ramDiskSize ramDiskType
  exact nfit_checks_iff hbuffer hroom mftahReleaseDate _ m

/-- Sixteen bytes of 8 come to 128, and so does an NFIT with a suitable date. -/
theorem checksums_iff_pages :
    (Checks (checksumStored uint64Max (fun a => if a = 0x1000 then 0 else 8) 0x1000 17 0) ↔ 128 % 128 = 0) ∧
    (Checks (publishedNfit uint64Max 0x20240101
        (ramDiskPrivateData gnuEfi 0x100000 0x200 gEfiRamdiskVirtualDiskGuid) (fun _ => 0) 0x1000) ↔
      (0x46 + byteSum (guidBytes gEfiRamdiskVirtualDiskGuid) + 0x10 + 2) % 128 = 46) := by
  have hpage : (0x1000 : Addr) ≠ 0 := by decide
  have hbytes :=
    (checksums_iff uint64Max (fun a => if a = 0x1000 then 0 else 8) hpage).1 17 0 (by decide) (by decide) rfl
  have hnfit := (checksums_iff uint64Max (fun _ => 0) hpage).2 (by decide) gnuEfi 0x20240101 0x100000 0x200
    gEfiRamdiskVirtualDiskGuid
  exact ⟨hbytes, hnfit⟩

/-- A ramdisk of one block at 1 MiB, on the first of January 2024. -/
theorem nfit_checksum_wrong :
    ramDiskRegisterChecks 0x100000 0x200 (some gEfiRamdiskVirtualDiskGuid) 0x2000 = .success ∧
    ¬ Checks (publishedNfit uint64Max 0x20240101
      (ramDiskPrivateData gnuEfi 0x100000 0x200 gEfiRamdiskVirtualDiskGuid) (fun _ => 0) 0x1000) := by
  refine ⟨by decide, ?_⟩
  have hpage : (0x1000 : Addr) ≠ 0 := by decide
  rw [nfit_checks_iff hpage (by decide)]
  decide

end Crows.Boot.Nfit
