/-
  Crows.Boot.Geometry — the three descriptions of a ramdisk that RamDiskRegister publishes.

  The Block I/O media describes it by a block size and the number of its last block, the
  node of the device path by its first and its last address, each in two 32-bit words, and
  the SPA range structure of the NFIT by its base and its length. Each is computed from the
  base and the size in 64-bit arithmetic of its own: the media rounds the size up to blocks,
  and the node's last address is base + size - 1, where base + size is 0 for a ramdisk that
  ends at 2^64.

  Proved, for every base and size:
  - `geometries_agree`: the checks accept exactly the positive multiples of 512 that end at
    or below 2^64, and of these all three descriptions denote the addresses from base up
    to base + size.
-/
import Crows.Boot.Nfit

namespace Crows.Boot.Geometry

open Crows.Lib
open Crows.Boot.RamDisk
open Crows.Boot.Nfit

/-! ## The node of the device path -/

/-- MEDIA_RAMDISK_DEVICE_PATH; an address is two words, the low one first. -/
structure MediaRamdiskDevicePath where
  type : UInt8
  subType : UInt8
  length : UInt8 × UInt8
  startingAddr : UInt32 × UInt32
  endingAddr : UInt32 × UInt32
  typeGuid : EfiGuid
  nodeInstance : UInt16

/-- sizeof(MEDIA_RAMDISK_DEVICE_PATH). -/
def sizeOfDevicePath : Nat := 38

def mRamDiskDeviceNodeTemplate : MediaRamdiskDevicePath where
  type := 0x04
  subType := 0x09
  length := (UInt8.ofNat sizeOfDevicePath, UInt8.ofNat (sizeOfDevicePath / 256))
  startingAddr := (0, 0)
  endingAddr := (0, 0)
  typeGuid := ⟨0, 0, 0, List.replicate 8 0⟩
  nodeInstance := 0

/-- The words that CopyMem makes of a UINT64. -/
def words (x : UInt64) : UInt32 × UInt32 := (x.toUInt32, (x >>> 32).toUInt32)

/-- The number in two words. -/
def wordsNat (w : UInt32 × UInt32) : Nat := w.1.toNat + 2 ^ 32 * w.2.toNat

def ramDiskInitDeviceNode (pd : RamdiskPrivateData) (node : MediaRamdiskDevicePath) : MediaRamdiskDevicePath :=
  let endingAddr := pd.startingAddr + pd.size - 1
  { node with
    startingAddr := words pd.startingAddr
    endingAddr := words endingAddr
    typeGuid := pd.typeGuid
    nodeInstance := pd.instanceNumber }

/-- The node that RamDiskRegister appends to the path. -/
def deviceNode (pd : RamdiskPrivateData) : MediaRamdiskDevicePath :=
  ramDiskInitDeviceNode pd mRamDiskDeviceNodeTemplate

theorem wordsNat_words (x : UInt64) : wordsNat (words x) = x.toNat := by
  have hx := x.toNat_lt
  simp [wordsNat, words, UInt64.toNat_shiftRight, Nat.shiftRight_eq_div_pow]
  omega

/-! ## What the descriptions denote -/

/-- The addresses of the blocks of the media. -/
def mediaRange (pd : RamdiskPrivateData) : Set Nat :=
  Set.Ico pd.startingAddr.toNat
    (pd.startingAddr.toNat + (pd.media.lastBlock.toNat + 1) * pd.media.blockSize.toNat)

/-- From the first to the last address. -/
def nodeRange (node : MediaRamdiskDevicePath) : Set Nat :=
  Set.Icc (wordsNat node.startingAddr) (wordsNat node.endingAddr)

/-- From the base on, as many addresses as the length says. -/
def nfitRange (nfit : List UInt8) : Set Nat :=
  Set.Ico (leNat ((nfit.drop 72).take 8)) (leNat ((nfit.drop 72).take 8) + leNat ((nfit.drop 80).take 8))

section Agree

variable {L : EfiLib} {ramDiskBase ramDiskSize : UInt64} {ramDiskType : EfiGuid}

/-- The rounding up does not wrap, and rounds nothing. -/
theorem mediaRange_eq (hL : L.Documented) (ha : Accepted ramDiskBase ramDiskSize) :
    mediaRange (ramDiskPrivateData L ramDiskBase ramDiskSize ramDiskType) =
      Set.Ico ramDiskBase.toNat (ramDiskBase.toNat + ramDiskSize.toNat) := by
  have hblocks := lastBlock_eq hL ha ramDiskType
  show Set.Ico ramDiskBase.toNat (ramDiskBase.toNat +
    ((ramDiskPrivateData L ramDiskBase ramDiskSize ramDiskType).media.lastBlock.toNat + 1) * 512) = _
  rw [hblocks]

/-- At the top of the address space the sum wraps to 0, and taking 1 wraps it back. -/
theorem endingAddr_eq (ha : Accepted ramDiskBase ramDiskSize) :
    (ramDiskBase + ramDiskSize - 1).toNat = ramDiskBase.toNat + ramDiskSize.toNat - 1 := by
  have hpos := ha.pos
  have hfits := ha.fits
  have hbase := ramDiskBase.toNat_lt
  simp only [UInt64.toNat_sub, UInt64.toNat_add, UInt64.reduceToNat]
  omega

theorem nodeRange_eq (ha : Accepted ramDiskBase ramDiskSize) :
    nodeRange (deviceNode (ramDiskPrivateData L ramDiskBase ramDiskSize ramDiskType)) =
      Set.Ico ramDiskBase.toNat (ramDiskBase.toNat + ramDiskSize.toNat) := by
  have hpos := ha.pos
  have hend := endingAddr_eq ha
  show Set.Icc (wordsNat (words ramDiskBase)) (wordsNat (words (ramDiskBase + ramDiskSize - 1))) = _
  rw [wordsNat_words, wordsNat_words, hend]
  ext a
  simp only [Set.mem_Icc, Set.mem_Ico]
  omega

variable (L ramDiskBase ramDiskSize ramDiskType) in
/-- The numbers that are published, and the addresses that they denote, with NFIT `nfit`. -/
structure Published (nfit : List UInt8) : Prop where
  blocks : ((ramDiskPrivateData L ramDiskBase ramDiskSize ramDiskType).media.lastBlock.toNat + 1) *
    (ramDiskPrivateData L ramDiskBase ramDiskSize ramDiskType).media.blockSize.toNat = ramDiskSize.toNat
  first :
    wordsNat (deviceNode (ramDiskPrivateData L ramDiskBase ramDiskSize ramDiskType)).startingAddr = ramDiskBase.toNat
  last : wordsNat (deviceNode (ramDiskPrivateData L ramDiskBase ramDiskSize ramDiskType)).endingAddr =
    ramDiskBase.toNat + ramDiskSize.toNat - 1
  rangeBase : leNat ((nfit.drop 72).take 8) = ramDiskBase.toNat
  rangeLength : leNat ((nfit.drop 80).take 8) = ramDiskSize.toNat
  media : mediaRange (ramDiskPrivateData L ramDiskBase ramDiskSize ramDiskType) =
    Set.Ico ramDiskBase.toNat (ramDiskBase.toNat + ramDiskSize.toNat)
  node : nodeRange (deviceNode (ramDiskPrivateData L ramDiskBase ramDiskSize ramDiskType)) =
    Set.Ico ramDiskBase.toNat (ramDiskBase.toNat + ramDiskSize.toNat)
  range : nfitRange nfit = Set.Ico ramDiskBase.toNat (ramDiskBase.toNat + ramDiskSize.toNat)

/-- Of an accepted ramdisk all descriptions are exact. -/
theorem published (hL : L.Documented) (ha : Accepted ramDiskBase ramDiskSize) (maxAddress : UInt64)
    (mftahReleaseDate : UInt32) (m : Mem) (nfit : Addr) :
    Published L ramDiskBase ramDiskSize ramDiskType (publishedNfit maxAddress mftahReleaseDate
      (ramDiskPrivateData L ramDiskBase ramDiskSize ramDiskType) m nfit) := by
  have hrange := publishedNfit_range maxAddress mftahReleaseDate
    (ramDiskPrivateData L ramDiskBase ramDiskSize ramDiskType) m nfit
  refine ⟨lastBlock_eq hL ha ramDiskType, wordsNat_words ramDiskBase, ?_, hrange.1, hrange.2, mediaRange_eq hL ha,
    nodeRange_eq ha, ?_⟩
  · show wordsNat (words (ramDiskBase + ramDiskSize - 1)) = _
    rw [wordsNat_words]
    exact endingAddr_eq ha
  · unfold nfitRange
    rw [hrange.1, hrange.2]
    rfl

theorem geometries_agree (hL : L.Documented) {devicePath : Addr} (hpath : devicePath ≠ 0) :
    (ramDiskRegisterChecks ramDiskBase ramDiskSize (some ramDiskType) devicePath = .success ↔
      (0 < ramDiskSize.toNat ∧ ramDiskSize.toNat % 512 = 0) ∧ ramDiskBase.toNat + ramDiskSize.toNat ≤ 2 ^ 64) ∧
    (ramDiskRegisterChecks ramDiskBase ramDiskSize (some ramDiskType) devicePath = .success →
      ∀ (maxAddress : UInt64) (mftahReleaseDate : UInt32) (m : Mem) (nfit : Addr),
        Published L ramDiskBase ramDiskSize ramDiskType (publishedNfit maxAddress mftahReleaseDate
          (ramDiskPrivateData L ramDiskBase ramDiskSize ramDiskType) m nfit)) := by
  have hchecks := ramDiskRegisterChecks_success ramDiskBase ramDiskSize (some ramDiskType) devicePath
  constructor
  · rw [hchecks]
    constructor
    · rintro ⟨ha, -, -⟩
      exact ⟨⟨ha.pos, ha.aligned⟩, ha.fits⟩
    · rintro ⟨⟨hpos, haligned⟩, hfits⟩
      exact ⟨⟨hpos, haligned, hfits⟩, Option.some_ne_none _, hpath⟩
  · intro haccepted maxAddress mftahReleaseDate m nfit
    exact published hL (hchecks.mp haccepted).1 maxAddress mftahReleaseDate m nfit

/-- The last block below 2^64. -/
theorem geometries_agree_top :
    (0x2000 : Addr) ≠ 0 ∧
    ramDiskRegisterChecks 0xFFFFFFFFFFFFFE00 0x200 (some gEfiRamdiskVirtualDiskGuid) 0x2000 = .success ∧
    Published gnuEfi 0xFFFFFFFFFFFFFE00 0x200 gEfiRamdiskVirtualDiskGuid (publishedNfit uint64Max 0x20240101
      (ramDiskPrivateData gnuEfi 0xFFFFFFFFFFFFFE00 0x200 gEfiRamdiskVirtualDiskGuid) (fun _ => 0) 0x1000) := by
  have hpath : (0x2000 : Addr) ≠ 0 := by decide
  have haccepted :
      ramDiskRegisterChecks 0xFFFFFFFFFFFFFE00 0x200 (some gEfiRamdiskVirtualDiskGuid) 0x2000 = .success := by
    decide
  exact ⟨hpath, haccepted, (geometries_agree gnuEfi_documented hpath).2 haccepted _ _ _ _⟩

end Agree

end Crows.Boot.Geometry
