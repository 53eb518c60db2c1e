/-
  Crows.Boot.RamDisk — the ramdisk driver (ramdisk.c): the checks `RamDiskRegister`
  makes before it builds anything, the private data it builds, and the Block I/O and
  Block I/O 2 requests that work on it.

  The private data lives in its own pool block and the disk's bytes in physical
  memory, so a request takes the private data as it stands and the memory, and gives
  the status and the memory back. An Ex request also gives back its token and the
  events it signalled. A NULL pointer is address 0.

  In exact integers the checks accept just the sizes that are positive multiples of
  512 with `base + size ≤ 2^64` (`ramDiskRegisterChecks_success`), the media then has
  `size / 512` blocks (`lastBlock_eq`), and a transfer with a buffer and a length goes
  through just when it is a whole number of blocks inside the disk (`transfer_inside`,
  `transfer_refused`): neither the block count nor the address of a block wraps.
-/

import Crows.Boot.Efi

namespace Crows.Boot.RamDisk

open Crows.Lib

/-- `RAM_DISK_BLOCK_SIZE`. -/
def ramDiskBlockSize : UInt64 := 512

def gEfiRamdiskVirtualDiskGuid : EfiGuid :=
  ⟨0x77AB535A, 0x45FC, 0x624B, [0x55, 0x60, 0xF7, 0xB2, 0x81, 0xD1, 0xF9, 0x6E]⟩

def uint64Max : UInt64 := 0xFFFFFFFFFFFFFFFF

/-! ## The model -/

structure EfiBlockIoMedia where
  mediaId : UInt32
  removableMedia : Bool
  mediaPresent : Bool
  logicalPartition : Bool
  readOnly : Bool
  writeCaching : Bool
  blockSize : UInt32
  lastBlock : UInt64
  deriving DecidableEq, Repr

structure RamdiskPrivateData where
  media : EfiBlockIoMedia
  startingAddr : UInt64
  size : UInt64
  typeGuid : EfiGuid
  instanceNumber : UInt16
  deriving DecidableEq, Repr

/-- `mRamDiskPrivateDataTemplate`: everything past the signature is zero. -/
def mRamDiskPrivateDataTemplate : RamdiskPrivateData where
  media := ⟨0, false, false, false, false, false, 0, 0⟩
  startingAddr := 0
  size := 0
  typeGuid := ⟨0, 0, 0, List.replicate 8 0⟩
  instanceNumber := 0

/-- The checks `RamDiskRegister` makes on its arguments, in its order. -/
def ramDiskRegisterChecks (ramDiskBase ramDiskSize : UInt64) (ramDiskType : Option EfiGuid) (devicePath : Addr) :
    EfiStatus :=
  if ramDiskSize = 0 ∨ ramDiskType = none ∨ devicePath = 0 then .notFound
  else if ramDiskSize % ramDiskBlockSize ≠ 0 then .badBufferSize
  else if uint64Max ≤ ramDiskSize ∨ uint64Max - ramDiskSize + 1 < ramDiskBase then .invalidParameter
  else .success

variable (L : EfiLib)

def ramDiskInitBlockIo (privateData : RamdiskPrivateData) : RamdiskPrivateData :=
  { privateData with media :=
    { privateData.media with
      removableMedia := false
      mediaPresent := true
      logicalPartition := false
      readOnly := false
      writeCaching := false
      blockSize := ramDiskBlockSize.toUInt32
      lastBlock := L.divU64x32 (privateData.size + ramDiskBlockSize - 1) ramDiskBlockSize - 1 } }

/-- The private data `RamDiskRegister` installs the block protocols over. -/
def ramDiskPrivateData (ramDiskBase ramDiskSize : UInt64) (ramDiskType : EfiGuid) : RamdiskPrivateData :=
  ramDiskInitBlockIo L { mRamDiskPrivateDataTemplate with
    typeGuid := ramDiskType, startingAddr := ramDiskBase, size := ramDiskSize }

/-- What `RamDiskBlkIoReadBlocks` and `RamDiskBlkIoWriteBlocks` do alike once the
    medium's own checks are past: `copy` is handed the address of the first block. -/
def transfer (pd : RamdiskPrivateData) (m : Mem) (lba bufferSize : UInt64) (buffer : Addr) (copy : Addr → Mem) :
    EfiStatus × Mem :=
  if buffer = 0 then (.invalidParameter, m)
  else if bufferSize = 0 then (.success, m)
  else if bufferSize % pd.media.blockSize.toUInt64 ≠ 0 then (.badBufferSize, m)
  else if pd.media.lastBlock < lba then (.invalidParameter, m)
  else
    let numberOfBlocks := bufferSize / pd.media.blockSize.toUInt64
    if pd.media.lastBlock < lba + numberOfBlocks - 1 then (.invalidParameter, m)
    else (.success, copy (pd.startingAddr + L.multU64x32 lba pd.media.blockSize.toUInt64))

def ramDiskBlkIoReadBlocks (pd : RamdiskPrivateData) (m : Mem) (mediaId : UInt32) (lba bufferSize : UInt64)
    (buffer : Addr) : EfiStatus × Mem :=
  if mediaId ≠ pd.media.mediaId then (.mediaChanged, m)
  else transfer L pd m lba bufferSize buffer fun disk => L.copyMem m buffer disk bufferSize

def ramDiskBlkIoWriteBlocks (pd : RamdiskPrivateData) (m : Mem) (mediaId : UInt32) (lba bufferSize : UInt64)
    (buffer : Addr) : EfiStatus × Mem :=
  if mediaId ≠ pd.media.mediaId then (.mediaChanged, m)
  else if pd.media.readOnly = true then (.writeProtected, m)
  else transfer L pd m lba bufferSize buffer fun disk => L.copyMem m disk buffer bufferSize

def ramDiskBlkIoFlushBlocks (m : Mem) : EfiStatus × Mem := (.success, m)

/-- `EFI_BLOCK_IO2_TOKEN`; event 0 is NULL. -/
structure EfiBlockIo2Token where
  event : Nat
  transactionStatus : EfiStatus
  deriving DecidableEq, Repr

structure Outcome where
  status : EfiStatus
  mem : Mem
  token : Option EfiBlockIo2Token
  signalled : List Nat

/-- How every Ex request ends: nothing on an error, else the token's event, if it has
    one, is signalled after its status is stored. -/
def complete (res : EfiStatus × Mem) (token : Option EfiBlockIo2Token) : Outcome :=
  if res.1.isError then ⟨res.1, res.2, token, []⟩
  else
    match token with
    | none => ⟨.success, res.2, none, []⟩
    | some t =>
      if t.event = 0 then ⟨.success, res.2, some t, []⟩
      else ⟨.success, res.2, some { t with transactionStatus := .success }, [t.event]⟩

def ramDiskBlkIo2ReadBlocksEx (pd : RamdiskPrivateData) (m : Mem) (mediaId : UInt32) (lba : UInt64)
    (token : Option EfiBlockIo2Token) (bufferSize : UInt64) (buffer : Addr) : Outcome :=
  complete (ramDiskBlkIoReadBlocks L pd m mediaId lba bufferSize buffer) token

def ramDiskBlkIo2WriteBlocksEx (pd : RamdiskPrivateData) (m : Mem) (mediaId : UInt32) (lba : UInt64)
    (token : Option EfiBlockIo2Token) (bufferSize : UInt64) (buffer : Addr) : Outcome :=
  complete (ramDiskBlkIoWriteBlocks L pd m mediaId lba bufferSize buffer) token

def ramDiskBlkIo2FlushBlocksEx (pd : RamdiskPrivateData) (m : Mem) (token : Option EfiBlockIo2Token) : Outcome :=
  complete (if pd.media.readOnly = true then .writeProtected else .success, m) token

/-! ## What registration accepts -/

/-- A base and size the checks let through, in exact integers. -/
structure Accepted (base size : UInt64) : Prop where
  pos : 0 < size.toNat
  aligned : size.toNat % 512 = 0
  fits : base.toNat + size.toNat ≤ 2 ^ 64

theorem ramDiskRegisterChecks_success (base size : UInt64) (typ : Option EfiGuid) (path : Addr) :
    ramDiskRegisterChecks base size typ path = .success ↔ Accepted base size ∧ typ ≠ none ∧ path ≠ 0 := by
  have hs := size.toNat_lt
  have hb := base.toNat_lt
  have hzero : size = 0 ↔ size.toNat = 0 := by rw [← UInt64.toNat_inj]; rfl
  have hmod : size % ramDiskBlockSize = 0 ↔ size.toNat % 512 = 0 := by
    rw [← UInt64.toNat_inj, UInt64.toNat_mod]; rfl
  have hbig : uint64Max ≤ size ↔ 2 ^ 64 - 1 ≤ size.toNat := by rw [UInt64.le_iff_toNat_le]; rfl
  have hfit : size.toNat < 2 ^ 64 - 1 → 0 < size.toNat →
      (uint64Max - size + 1 < base ↔ 2 ^ 64 < base.toNat + size.toNat) := by
    intro h1 h2
    have hsub : (uint64Max - size + 1).toNat = 2 ^ 64 - size.toNat := by
      simp only [UInt64.toNat_add, UInt64.toNat_sub, uint64Max, UInt64.reduceToNat]
      omega
    rw [UInt64.lt_iff_toNat_lt, hsub]
    omega
  unfold ramDiskRegisterChecks
  constructor
  · intro h
    split at h
    · cases h
    rename_i h1
    split at h
    · cases h
    rename_i h2
    split at h
    · cases h
    rename_i h3
    simp only [hzero, not_or] at h1
    simp only [ne_eq, hmod, Classical.not_not] at h2
    simp only [hbig, not_or, Nat.not_le] at h3
    have hle := mt (hfit h3.1 (by omega)).mpr h3.2
    exact ⟨⟨by omega, h2, by omega⟩, h1.2.1, h1.2.2⟩
  · intro h
    obtain ⟨⟨hpos, hal, hf⟩, htyp, hpath⟩ := h
    have hlt : size.toNat < 2 ^ 64 - 1 := by omega
    rw [if_neg (by rw [hzero]; simp only [htyp, hpath, or_self, or_false]; omega),
      if_neg (by rw [ne_eq, Classical.not_not, hmod]; exact hal),
      if_neg (by rw [hbig, hfit hlt hpos]; omega)]

/-! ## The media and a transfer, in exact integers -/

variable {L}

@[simp] theorem privateData_mediaId (base size : UInt64) (typ : EfiGuid) :
    (ramDiskPrivateData L base size typ).media.mediaId = 0 := rfl
@[simp] theorem privateData_readOnly (base size : UInt64) (typ : EfiGuid) :
    (ramDiskPrivateData L base size typ).media.readOnly = false := rfl
@[simp] theorem privateData_startingAddr (base size : UInt64) (typ : EfiGuid) :
    (ramDiskPrivateData L base size typ).startingAddr = base := rfl
@[simp] theorem privateData_blockSize (base size : UInt64) (typ : EfiGuid) :
    (ramDiskPrivateData L base size typ).media.blockSize.toUInt64 = 512 := rfl

theorem lastBlock_eq (hL : L.Documented) {base size : UInt64} (ha : Accepted base size) (typ : EfiGuid) :
    ((ramDiskPrivateData L base size typ).media.lastBlock.toNat + 1) * 512 = size.toNat := by
  have hs := size.toNat_lt
  have hpos := ha.pos
  have hal := ha.aligned
  have hdiv : L.divU64x32 (size + ramDiskBlockSize - 1) ramDiskBlockSize = (size + 512 - 1) / 512 :=
    hL.divU64x32 _ _ (by decide) (by decide)
  show ((L.divU64x32 (size + ramDiskBlockSize - 1) ramDiskBlockSize - 1).toNat + 1) * 512 = size.toNat
  rw [hdiv]
  simp only [UInt64.toNat_sub, UInt64.toNat_div, UInt64.toNat_add, UInt64.reduceToNat]
  omega

/-- The address of a block of the disk does not wrap. -/
theorem blockAddr_toNat {base size : UInt64} (ha : Accepted base size) {lba : UInt64}
    (hl : lba.toNat * 512 < size.toNat) : (base + lba * 512).toNat = base.toNat + lba.toNat * 512 := by
  have hf := ha.fits
  simp only [UInt64.toNat_add, UInt64.toNat_mul, UInt64.reduceToNat]
  omega

/-- A request is inside the disk: whole blocks, all below the end. -/
def Inside (size lba bufferSize : UInt64) : Prop :=
  bufferSize.toNat % 512 = 0 ∧ lba.toNat * 512 + bufferSize.toNat ≤ size.toNat

instance (size lba bufferSize : UInt64) : Decidable (Inside size lba bufferSize) :=
  inferInstanceAs (Decidable (_ ∧ _))

theorem transfer_inside (hL : L.Documented) {base size : UInt64} (ha : Accepted base size) (typ : EfiGuid) (m : Mem)
    {lba bufferSize : UInt64} {buffer : Addr} (copy : Addr → Mem) (hbuf : buffer ≠ 0) (hne : bufferSize ≠ 0)
    (hin : Inside size lba bufferSize) :
    transfer L (ramDiskPrivateData L base size typ) m lba bufferSize buffer copy =
      (.success, copy (base + lba * 512)) := by
  obtain ⟨hmod, hend⟩ := hin
  have hs := size.toNat_lt
  have hlast := lastBlock_eq hL ha typ
  have hpos : 0 < bufferSize.toNat := by
    have : bufferSize.toNat ≠ 0 := fun h => hne (UInt64.toNat_inj.mp h)
    omega
  have h512 : bufferSize % 512 = 0 := by
    rw [← UInt64.toNat_inj, UInt64.toNat_mod]
    exact hmod
  have hfirst : ¬ (ramDiskPrivateData L base size typ).media.lastBlock < lba := by
    rw [UInt64.lt_iff_toNat_lt]
    omega
  have hfinal : ¬ (ramDiskPrivateData L base size typ).media.lastBlock < lba + bufferSize / 512 - 1 := by
    rw [UInt64.lt_iff_toNat_lt]
    simp only [UInt64.toNat_sub, UInt64.toNat_add, UInt64.toNat_div, UInt64.reduceToNat]
    omega
  have hmul : L.multU64x32 lba 512 = lba * 512 := hL.multU64x32 _ _ (by decide)
  simp only [transfer, hbuf, hne, if_false, privateData_blockSize, h512, ne_eq, not_true, hfirst, hfinal,
    privateData_startingAddr, hmul]

theorem transfer_refused (hL : L.Documented) {base size : UInt64} (ha : Accepted base size) (typ : EfiGuid) (m : Mem)
    {lba bufferSize : UInt64} {buffer : Addr} (copy : Addr → Mem) (hbuf : buffer ≠ 0) (hne : bufferSize ≠ 0)
    (hout : ¬ Inside size lba bufferSize) :
    ∃ st : EfiStatus, st.isError = true ∧
      transfer L (ramDiskPrivateData L base size typ) m lba bufferSize buffer copy = (st, m) := by
  have hs := size.toNat_lt
  have hl := lba.toNat_lt
  have hlast := lastBlock_eq hL ha typ
  have hn : bufferSize.toNat ≠ 0 := fun h => hne (UInt64.toNat_inj.mp h)
  have hb := bufferSize.toNat_lt
  have hmod : bufferSize % 512 = 0 ↔ bufferSize.toNat % 512 = 0 := by
    rw [← UInt64.toNat_inj, UInt64.toNat_mod]; rfl
  simp only [transfer, hbuf, hne, if_false, privateData_blockSize]
  by_cases h512 : bufferSize % 512 = 0
  · by_cases hfirst : (ramDiskPrivateData L base size typ).media.lastBlock < lba
    · exact ⟨.invalidParameter, rfl, by simp [h512, hfirst]⟩
    · have hfinal : (ramDiskPrivateData L base size typ).media.lastBlock < lba + bufferSize / 512 - 1 := by
        -- not wrapping: both the first block and the count are at most `2 ^ 55`
        have hend : ¬ lba.toNat * 512 + bufferSize.toNat ≤ size.toNat := fun h => hout ⟨hmod.mp h512, h⟩
        rw [UInt64.lt_iff_toNat_lt] at hfirst ⊢
        simp only [UInt64.toNat_sub, UInt64.toNat_add, UInt64.toNat_div, UInt64.reduceToNat]
        have := hmod.mp h512
        omega
      exact ⟨.invalidParameter, rfl, by simp [h512, hfirst, hfinal]⟩
  · exact ⟨.badBufferSize, rfl, by simp [h512]⟩

/-- A NULL buffer is refused and an empty request does nothing. -/
theorem transfer_trivial (pd : RamdiskPrivateData) (m : Mem) {lba bufferSize : UInt64} {buffer : Addr}
    (copy : Addr → Mem) (h : buffer = 0 ∨ bufferSize = 0) :
    (transfer L pd m lba bufferSize buffer copy).2 = m ∧
      ((transfer L pd m lba bufferSize buffer copy).1 = .success ∨
        (transfer L pd m lba bufferSize buffer copy).1 = .invalidParameter) := by
  by_cases hb : buffer = 0
  · simp [transfer, hb]
  · have hz : bufferSize = 0 := h.resolve_left hb
    simp [transfer, hb, hz]

end Crows.Boot.RamDisk
