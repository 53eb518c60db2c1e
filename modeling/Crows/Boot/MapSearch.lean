/-
  Crows.Boot.MapSearch — the search of RamDiskPublishNfit for the memory of the ramdisk.

  The search walks over the memory map that GetMemoryMap has left in a block, from one
  descriptor to the next by the stride the firmware gives, and stops at the first that
  starts at or below the ramdisk and does not end before it. The ends are compared as
  64-bit sums.

  RamDiskRegister lets a ramdisk end at 2^64 exactly, and its end is then 0:
  - `search_returns`: the walk ends, with what `Register.memoryFound` says of the
    descriptors in the block.
  - `search_exact_iff`: it finds the ramdisk exactly where a descriptor contains it, in
    every map without a descriptor at or below the ramdisk, and in every map when the
    ramdisk ends below 2^64; and in no other case.
-/
import Crows.Boot.Register

namespace Crows.Boot.MapSearch

open Crows.Lib
open Crows.Boot.RamDisk
open Crows.Boot.Register

/-! ## The descriptors in memory -/

/-- sizeof(EFI_MEMORY_DESCRIPTOR). -/
def sizeOfDescriptor : Nat := 40

/-- What the search reads of a descriptor, PhysicalStart and NumberOfPages. -/
def descriptorAt (m : Mem) (entry : Addr) : MemoryDescriptor := ⟨m.readU64 (entry + 8), m.readU64 (entry + 24)⟩

/-- As many descriptors from `entry` on, `descriptorSize` bytes apart. -/
def descriptorsFrom (m : Mem) (descriptorSize : UInt64) : Nat → Addr → List MemoryDescriptor
  | 0, _ => []
  | n + 1, entry => descriptorAt m entry :: descriptorsFrom m descriptorSize n (entry + descriptorSize)

/-- The addresses that a descriptor describes, in exact integers. -/
def range (d : MemoryDescriptor) : Set Nat :=
  Set.Ico d.physicalStart.toNat (d.physicalStart.toNat + efiPageSize.toNat * d.numberOfPages.toNat)

/-- The descriptor ends below 2^64. -/
def Valid (d : MemoryDescriptor) : Prop :=
  d.physicalStart.toNat + efiPageSize.toNat * d.numberOfPages.toNat < 2 ^ 64

/-! ## The search -/

section Search

variable (L : EfiLib) (m : Mem) (startingAddr size : UInt64) (memoryMapEnd : Addr) (descriptorSize : UInt64)

/-- One turn of the loop, at MemoryMapEntry. -/
def searchTurn (entry : Addr) : Turn Addr Bool :=
  if entry < memoryMapEnd then
    let d := descriptorAt m entry
    if d.physicalStart ≤ startingAddr ∧
        startingAddr + size ≤ d.physicalStart + L.multU64x32 d.numberOfPages efiPageSize then .done true
    else .again (entry + descriptorSize)
  else .done false

/-- MemoryFound behind the loop. -/
def Search (memoryMap : Addr) (memoryMapSize : UInt64) (found : Bool) : Prop :=
  Returns (searchTurn L m startingAddr size (memoryMap + memoryMapSize) descriptorSize) memoryMap found

variable {L m startingAddr size memoryMapEnd descriptorSize}

/-- The test on one descriptor. -/
def Covers (L : EfiLib) (startingAddr size : UInt64) (d : MemoryDescriptor) : Prop :=
  d.physicalStart ≤ startingAddr ∧ startingAddr + size ≤ d.physicalStart + L.multU64x32 d.numberOfPages efiPageSize

theorem searchTurn_covers {entry : Addr} (hbefore : entry < memoryMapEnd)
    (h : Covers L startingAddr size (descriptorAt m entry)) :
    searchTurn L m startingAddr size memoryMapEnd descriptorSize entry = .done true := by
  unfold searchTurn
  rw [if_pos hbefore]
  exact if_pos h

theorem searchTurn_skips {entry : Addr} (hbefore : entry < memoryMapEnd)
    (h : ¬ Covers L startingAddr size (descriptorAt m entry)) :
    searchTurn L m startingAddr size memoryMapEnd descriptorSize entry = .again (entry + descriptorSize) := by
  unfold searchTurn
  rw [if_pos hbefore]
  exact if_neg h

theorem searchTurn_end {entry : Addr} (hlast : ¬ entry < memoryMapEnd) :
    searchTurn L m startingAddr size memoryMapEnd descriptorSize entry = .done false :=
  if_neg hlast

theorem memoryFound_covers {d : MemoryDescriptor} (h : Covers L startingAddr size d) (ds : List MemoryDescriptor) :
    memoryFound L startingAddr size (d :: ds) = true := by
  unfold Covers at h
  unfold memoryFound
  rw [List.any_cons, decide_eq_true h, Bool.true_or]

theorem memoryFound_skips {d : MemoryDescriptor} (h : ¬ Covers L startingAddr size d) (ds : List MemoryDescriptor) :
    memoryFound L startingAddr size (d :: ds) = memoryFound L startingAddr size ds := by
  unfold Covers at h
  unfold memoryFound
  rw [List.any_cons, decide_eq_false h, Bool.false_or]

/-- By induction on the descriptors that are left. -/
theorem search_from (hstride : sizeOfDescriptor ≤ descriptorSize.toNat) {n : Nat} {entry : Addr}
    (hend : entry.toNat + n * descriptorSize.toNat = memoryMapEnd.toNat) :
    Returns (searchTurn L m startingAddr size memoryMapEnd descriptorSize) entry
      (memoryFound L startingAddr size (descriptorsFrom m descriptorSize n entry)) := by
  have hpos : 0 < descriptorSize.toNat := Nat.lt_of_lt_of_le (by decide) hstride
  have hmax := memoryMapEnd.toNat_lt
  induction n generalizing entry with
  | zero =>
    have hlast : ¬ entry < memoryMapEnd := by
      rw [UInt64.lt_iff_toNat_lt]
      omega
    exact (returns_done (searchTurn_end hlast)).mpr rfl
  | succ n ih =>
    rw [Nat.succ_mul] at hend
    have hbefore : entry < memoryMapEnd := by
      rw [UInt64.lt_iff_toNat_lt]
      omega
    have hnext : (entry + descriptorSize).toNat = entry.toNat + descriptorSize.toNat := by
      rw [UInt64.toNat_add]
      omega
    rw [descriptorsFrom]
    by_cases hcovers : Covers L startingAddr size (descriptorAt m entry)
    · rw [returns_done (searchTurn_covers hbefore hcovers)]
      exact memoryFound_covers hcovers _
    · rw [returns_again (searchTurn_skips hbefore hcovers), memoryFound_skips hcovers]
      apply ih
      omega

/-- The walk over a map of `n` descriptors ends with what `memoryFound` says of them. -/
theorem search_returns {memoryMap : Addr} {memoryMapSize : UInt64} {n : Nat}
    (hstride : sizeOfDescriptor ≤ descriptorSize.toNat) (hsize : memoryMapSize.toNat = n * descriptorSize.toNat)
    (hroom : memoryMap.toNat + memoryMapSize.toNat < 2 ^ 64) (found : Bool) :
    Search L m startingAddr size descriptorSize memoryMap memoryMapSize found ↔
      found = memoryFound L startingAddr size (descriptorsFrom m descriptorSize n memoryMap) := by
  have hend : memoryMap.toNat + n * descriptorSize.toNat = (memoryMap + memoryMapSize).toNat := by
    rw [UInt64.toNat_add, hsize]
    omega
  have hreturns : Search L m startingAddr size descriptorSize memoryMap memoryMapSize
      (memoryFound L startingAddr size (descriptorsFrom m descriptorSize n memoryMap)) := search_from hstride hend
  constructor
  · intro h
    exact h.unique hreturns
  · rintro rfl
    exact hreturns

/-! ## In exact integers -/

theorem mem_memoryFound {descriptors : List MemoryDescriptor} :
    memoryFound L startingAddr size descriptors = true ↔
      ∃ d ∈ descriptors, Covers L startingAddr size d := by
  simp [memoryFound, Covers]

/-- The end of a valid descriptor does not wrap. -/
theorem descriptorEnd_toNat (hL : L.Documented) {d : MemoryDescriptor} (hd : Valid d) :
    (d.physicalStart + L.multU64x32 d.numberOfPages efiPageSize).toNat =
      d.physicalStart.toNat + efiPageSize.toNat * d.numberOfPages.toNat := by
  have hvalid : d.physicalStart.toNat + 4096 * d.numberOfPages.toNat < 2 ^ 64 := hd
  rw [hL.multU64x32 _ _ (by decide), UInt64.toNat_add, UInt64.toNat_mul]
  show (d.physicalStart.toNat + d.numberOfPages.toNat * 4096 % 2 ^ 64) % 2 ^ 64 = d.physicalStart.toNat + 4096 * _
  omega

/-- A ramdisk is contained where its ends are. -/
theorem subset_range_iff {d : MemoryDescriptor} (hsize : 0 < size.toNat) :
    Set.Ico startingAddr.toNat (startingAddr.toNat + size.toNat) ⊆ range d ↔
      d.physicalStart.toNat ≤ startingAddr.toNat ∧
        startingAddr.toNat + size.toNat ≤ d.physicalStart.toNat + efiPageSize.toNat * d.numberOfPages.toNat := by
  apply Set.Ico_subset_Ico_iff
  omega

/-- For a ramdisk that ends below 2^64 the comparison is exact. -/
theorem covers_iff (hL : L.Documented) {d : MemoryDescriptor} (hd : Valid d) (hsize : 0 < size.toNat)
    (hfits : startingAddr.toNat + size.toNat < 2 ^ 64) :
    Covers L startingAddr size d ↔
      Set.Ico startingAddr.toNat (startingAddr.toNat + size.toNat) ⊆ range d := by
  have hend : (startingAddr + size).toNat = startingAddr.toNat + size.toNat := by
    rw [UInt64.toNat_add]
    exact Nat.mod_eq_of_lt hfits
  unfold Covers
  rw [subset_range_iff hsize, UInt64.le_iff_toNat_le, UInt64.le_iff_toNat_le, descriptorEnd_toNat hL hd, hend]

/-- A ramdisk that ends at 2^64 is compared by its start alone. -/
theorem covers_top {d : MemoryDescriptor} (htop : startingAddr.toNat + size.toNat = 2 ^ 64) :
    Covers L startingAddr size d ↔ d.physicalStart ≤ startingAddr := by
  have hzero : startingAddr + size = 0 := by
    rw [← UInt64.toNat_inj, UInt64.toNat_add, htop]
    rfl
  unfold Covers
  rw [hzero]
  exact ⟨fun h => h.1, fun h => ⟨h, UInt64.zero_le⟩⟩

/-- No valid descriptor contains it. -/
theorem not_subset_top {d : MemoryDescriptor} (hd : Valid d) (hsize : 0 < size.toNat)
    (htop : startingAddr.toNat + size.toNat = 2 ^ 64) :
    ¬ Set.Ico startingAddr.toNat (startingAddr.toNat + size.toNat) ⊆ range d := by
  rw [subset_range_iff hsize]
  rintro ⟨-, hle⟩
  have hvalid : d.physicalStart.toNat + efiPageSize.toNat * d.numberOfPages.toNat < 2 ^ 64 := hd
  omega

/-- The search ends, and it finds the ramdisk just where a single descriptor of the map contains it. -/
def SearchExact (L : EfiLib) (m : Mem) (startingAddr size descriptorSize : UInt64) (memoryMap : Addr)
    (memoryMapSize : UInt64) (descriptors : List MemoryDescriptor) : Prop :=
  ∃ found, Search L m startingAddr size descriptorSize memoryMap memoryMapSize found ∧
    (found = true ↔
      ∃ d ∈ descriptors, Set.Ico startingAddr.toNat (startingAddr.toNat + size.toNat) ⊆ range d)

theorem search_exact_iff (hL : L.Documented) {ramDiskType : EfiGuid} {devicePath : Addr}
    (haccepted : ramDiskRegisterChecks startingAddr size (some ramDiskType) devicePath = .success)
    {memoryMap : Addr} {memoryMapSize : UInt64} {n : Nat} (hstride : sizeOfDescriptor ≤ descriptorSize.toNat)
    (hsize : memoryMapSize.toNat = n * descriptorSize.toNat)
    (hroom : memoryMap.toNat + memoryMapSize.toNat < 2 ^ 64)
    (hvalid : ∀ d ∈ descriptorsFrom m descriptorSize n memoryMap, Valid d) :
    SearchExact L m startingAddr size descriptorSize memoryMap memoryMapSize
        (descriptorsFrom m descriptorSize n memoryMap) ↔
      startingAddr.toNat + size.toNat < 2 ^ 64 ∨
        ∀ d ∈ descriptorsFrom m descriptorSize n memoryMap, startingAddr < d.physicalStart := by
  obtain ⟨hpos, -, hfits⟩ := ((ramDiskRegisterChecks_success _ _ _ _).mp haccepted).1
  have hreturns : ∀ found, Search L m startingAddr size descriptorSize memoryMap memoryMapSize found ↔
      found = memoryFound L startingAddr size (descriptorsFrom m descriptorSize n memoryMap) :=
    search_returns hstride hsize hroom
  have hfound : SearchExact L m startingAddr size descriptorSize memoryMap memoryMapSize
        (descriptorsFrom m descriptorSize n memoryMap) ↔
      (memoryFound L startingAddr size (descriptorsFrom m descriptorSize n memoryMap) = true ↔
        ∃ d ∈ descriptorsFrom m descriptorSize n memoryMap,
          Set.Ico startingAddr.toNat (startingAddr.toNat + size.toNat) ⊆ range d) := by
    constructor
    · rintro ⟨found, hsearch, hiff⟩
      rw [← (hreturns found).mp hsearch]
      exact hiff
    · intro hiff
      exact ⟨_, (hreturns _).mpr rfl, hiff⟩
  rw [hfound, mem_memoryFound]
  rcases Nat.lt_or_eq_of_le hfits with hbelow | htop
  · refine ⟨fun _ => .inl hbelow, fun _ => ?_⟩
    exact exists_congr fun d => and_congr_right fun hd => covers_iff hL (hvalid d hd) hpos hbelow
  · constructor
    · intro hiff
      refine .inr fun d hd => ?_
      apply UInt64.not_le.mp
      intro hle
      obtain ⟨d', hd', hsub⟩ := hiff.mp ⟨d, hd, (covers_top htop).mpr hle⟩
      exact not_subset_top (hvalid d' hd') hpos htop hsub
    · rintro (hbelow | habove)
      · omega
      · constructor
        · rintro ⟨d, hd, hcovers⟩
          exact absurd ((covers_top htop).mp hcovers) (UInt64.not_le.mpr (habove d hd))
        · rintro ⟨d, hd, hsub⟩
          exact absurd hsub (not_subset_top (hvalid d hd) hpos htop)

end Search

/-- A map at 4 KiB with the first MiB as its only descriptor, of conventional memory. -/
def lowMemoryMap : Mem :=
  Mem.write (fun _ => 0) 0x1000 (leBytes 8 7 ++ leBytes 8 0 ++ leBytes 8 0 ++ leBytes 8 0x100 ++ leBytes 8 0xF)

theorem descriptorsFrom_lowMemoryMap : descriptorsFrom lowMemoryMap 48 1 0x1000 = [⟨0, 0x100⟩] := by
  decide +kernel

theorem valid_lowMemoryMap : ∀ d ∈ descriptorsFrom lowMemoryMap 48 1 0x1000, Valid d := by
  rw [descriptorsFrom_lowMemoryMap]
  unfold Valid
  decide

/-- A ramdisk of one block at 64 KiB. -/
theorem search_exact_iff_low :
    SearchExact gnuEfi lowMemoryMap 0x10000 0x200 48 0x1000 48 (descriptorsFrom lowMemoryMap 48 1 0x1000) ↔
      (0x10000 : UInt64).toNat + (0x200 : UInt64).toNat < 2 ^ 64 ∨
        ∀ d ∈ descriptorsFrom lowMemoryMap 48 1 0x1000, (0x10000 : UInt64) < d.physicalStart := by
  have haccepted : ramDiskRegisterChecks 0x10000 0x200 (some gEfiRamdiskVirtualDiskGuid) 0x2000 = .success := by decide
  exact search_exact_iff gnuEfi_documented haccepted (by decide) (by decide) (by decide) valid_lowMemoryMap

/-- The last block below 2^64 is found in the first MiB. -/
theorem top_block_found :
    ramDiskRegisterChecks 0xFFFFFFFFFFFFFE00 0x200 (some gEfiRamdiskVirtualDiskGuid) 0x2000 = .success ∧
    (∀ d ∈ descriptorsFrom lowMemoryMap 48 1 0x1000, Valid d) ∧
    ¬ SearchExact gnuEfi lowMemoryMap 0xFFFFFFFFFFFFFE00 0x200 48 0x1000 48
      (descriptorsFrom lowMemoryMap 48 1 0x1000) := by
  refine ⟨by decide, valid_lowMemoryMap, ?_⟩
  rintro ⟨found, hsearch, hiff⟩
  have hwalk := (search_returns (n := 1) (by decide) (by decide) (by decide) found).mp hsearch
  rw [descriptorsFrom_lowMemoryMap] at hwalk
  have hfound : found = true := hwalk.trans (by decide)
  obtain ⟨d, hd, hsub⟩ := hiff.mp hfound
  exact not_subset_top (valid_lowMemoryMap d hd) (by decide) (by decide) hsub

end Crows.Boot.MapSearch
