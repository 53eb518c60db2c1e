/-
  Crows.Kernel.MapSafety — where kinit's scan of the memory map reads and writes, and whether it ends.

  The map is any bytes at all: its EntrySize is the divisor of the summary's count and the
  stride of the loop, and the loop tests only that an entry begins below the end of the
  map. The scan is safe (`SafeScan`) exactly when `EntriesFit` holds: the stride is not 0,
  and the last entry that begins in the map ends in it.

  Proved, for every memory, context, contents of the stack and block that kmain can name:
  - `map_scan_safe_iff`: `SafeScan` and `EntriesFit` are the same.
  - `map_scan_divides_by_zero`: a map with an EntrySize of 0, and one whose last entry is cut off.
-/
import Crows.Kernel.MemoryHole
import Crows.Kernel.SeekSafety

namespace Crows.Kernel

open Crows.Lib
open Crows.Kernel.Multiboot

/-! ## What a safe scan is -/

/-- A turn of the loop begins in `s` with an entry at its pointer. -/
def ReadsEntry (frames : Frames) (m : Mem) (memMap : Addr) (ctx : CrowsContext) (memmapLine : StackBuffer 256)
    (s : Scan) : Prop :=
  Visits (scanTurn frames memMap) (scanStart frames m memMap ctx memmapLine) s ∧
    s.p < memMap + (tagSize s.mem memMap).toUInt64

/-- All 24 bytes at `p` are among the bytes that the map's header counts. -/
def EntryInside (m : Mem) (memMap p : Addr) : Prop :=
  ∀ a, InRegion p 24 a → InRegion memMap (tagSize m memMap).toNat a

structure SafeScan (frames : Frames) (m : Mem) (memMap : Addr) (ctx : CrowsContext)
    (memmapLine : StackBuffer 256) : Prop where
  divides : mapEntrySize m memMap ≠ 0
  ends : ∃ fuel run, walkMap fuel frames m memMap ctx memmapLine = some run
  inside : ∀ s, ReadsEntry frames m memMap ctx memmapLine s → EntryInside m memMap s.p

/-- The stride is not 0, and the last entry that begins in the map has all its 24 bytes there. -/
def EntriesFit (size entrySize : UInt32) : Prop :=
  entrySize ≠ 0 ∧ (size.toNat ≤ 16 ∨ 23 ≤ (size.toNat - 17) % entrySize.toNat)

instance (size entrySize : UInt32) : Decidable (EntriesFit size entrySize) :=
  inferInstanceAs (Decidable (_ ∧ _))

/-- Each place that the stride leads to and that lies in the map has room for an entry. -/
theorem entries_fit_iff {size entrySize : Nat} :
    (∀ k, 16 + k * entrySize < size → 16 + k * entrySize + 24 ≤ size) ↔
      size ≤ 16 ∨ 23 ≤ (size - 17) % entrySize := by
  have hdiv := Nat.div_add_mod (size - 17) entrySize
  rw [Nat.mul_comm] at hdiv
  constructor
  · intro h
    by_cases hsize : size ≤ 16
    · exact Or.inl hsize
    · have hlast := h ((size - 17) / entrySize) (by omega)
      exact Or.inr (by omega)
  · intro h k hk
    rcases h with hnone | htail
    · omega
    · rcases Nat.eq_zero_or_pos entrySize with hzero | hpos
      · subst hzero
        rw [Nat.mod_zero] at htail
        omega
      · have hle : k ≤ (size - 17) / entrySize := (Nat.le_div_iff_mul_le hpos).mpr (by omega)
        have hmul : k * entrySize ≤ (size - 17) / entrySize * entrySize := Nat.mul_le_mul_right entrySize hle
        omega

/-! ## Where the loop comes to -/

section
variable {frames : Frames} {m : Mem} {memMap : Addr} {ctx : CrowsContext} {memmapLine : StackBuffer 256}

theorem chooseHole_mem (entry : MemoryMapEntry) (s : Scan) :
    (chooseHole entry s).p = s.p ∧
      ((chooseHole entry s).mem = s.mem ∨ (chooseHole entry s).mem = markReserved s.mem s.p) := by
  unfold chooseHole
  split
  · exact ⟨rfl, Or.inl rfl⟩
  · split
    · exact ⟨rfl, Or.inl rfl⟩
    · split
      · exact ⟨rfl, Or.inl rfl⟩
      · exact ⟨rfl, Or.inr rfl⟩

/-- What a turn does below the end of the map: the entry's Type may be set, and the pointer goes on by the
    stride. -/
theorem scanTurn_on (frames : Frames) {memMap : Addr} {s : Scan}
    (hlt : s.p < memMap + (tagSize s.mem memMap).toUInt64) :
    ∃ t, scanTurn frames memMap s = .again t ∧ t.p = s.p + (mapEntrySize t.mem memMap).toUInt64 ∧
      (t.mem = s.mem ∨ t.mem = markReserved s.mem s.p) := by
  refine ⟨_, scanTurn_entry hlt rfl (printLine_of_render (render_entry _ _) 256 _) rfl, ?_, ?_⟩
  · show (chooseHole _ _).p + _ = _
    rw [(chooseHole_mem _ _).1]
  · exact (chooseHole_mem _ _).2

theorem scanTurn_past (frames : Frames) {memMap : Addr} {s : Scan}
    (hlt : ¬ s.p < memMap + (tagSize s.mem memMap).toUInt64) : scanTurn frames memMap s = .done (some s) := by
  unfold scanTurn
  exact if_neg hlt

/-- The pointer is at a place that the stride leads to, and the map's header is as it was. -/
structure AtEntry (m : Mem) (memMap : Addr) (k : Nat) (s : Scan) : Prop where
  place : s.p = entryAddr m memMap k
  header : s.mem.read memMap 16 = m.read memMap 16

theorem AtEntry.size {k : Nat} {s : Scan} (h : AtEntry m memMap k s) : tagSize s.mem memMap = tagSize m memMap :=
  readU32_of_header 4 (by omega) h.header

theorem AtEntry.entrySize {k : Nat} {s : Scan} (h : AtEntry m memMap k s) :
    mapEntrySize s.mem memMap = mapEntrySize m memMap :=
  readU32_of_header 8 (by omega) h.header

theorem atEntry_start : AtEntry m memMap 0 (scanStart frames m memMap ctx memmapLine) := by
  refine ⟨?_, rfl⟩
  show memMap + 16 = entryAddr m memMap 0
  rw [entryAddr, Nat.zero_mul]
  rfl

theorem entryAddr_next (k : Nat) :
    entryAddr m memMap k + (mapEntrySize m memMap).toUInt64 = entryAddr m memMap (k + 1) := by
  have hadd : offsetAddr memMap _ + _ = offsetAddr memMap _ :=
    offsetAddr_add (16 + k * (mapEntrySize m memMap).toNat) (mapEntrySize m memMap)
  unfold offsetAddr at hadd
  rw [entryAddr, entryAddr, hadd, Nat.add_mul, Nat.one_mul, Nat.add_assoc]

variable (hspace : memMap.toNat + 2 ^ 34 ≤ 2 ^ 64)
include hspace

theorem entryAddr_toNat_of_lt {k : Nat} (hk : 16 + k * (mapEntrySize m memMap).toNat < 2 ^ 33) :
    (entryAddr m memMap k).toNat = memMap.toNat + (16 + k * (mapEntrySize m memMap).toNat) :=
  offsetAddr_toNat (by omega)

theorem mapEnd_toNat : (memMap + (tagSize m memMap).toUInt64).toNat = memMap.toNat + (tagSize m memMap).toNat := by
  have hsize := (tagSize m memMap).toNat_lt
  rw [UInt64.toNat_add, UInt32.toNat_toUInt64]
  omega

theorem entryAddr_lt_mapEnd {k : Nat} (hk : 16 + k * (mapEntrySize m memMap).toNat < 2 ^ 33) :
    entryAddr m memMap k < memMap + (tagSize m memMap).toUInt64 ↔
      16 + k * (mapEntrySize m memMap).toNat < (tagSize m memMap).toNat := by
  rw [UInt64.lt_iff_toNat_lt, entryAddr_toNat_of_lt hspace hk, mapEnd_toNat hspace]
  omega

/-- An entry at one of these places lies in the map when the map has 24 bytes from there on. -/
theorem entryInside_iff {k : Nat} (hk : 16 + k * (mapEntrySize m memMap).toNat < 2 ^ 33) :
    EntryInside m memMap (entryAddr m memMap k) ↔
      16 + k * (mapEntrySize m memMap).toNat + 24 ≤ (tagSize m memMap).toNat := by
  have haddr := entryAddr_toNat_of_lt hspace hk
  have hsize := (tagSize m memMap).toNat_lt
  constructor
  · intro h
    have hlast := h (entryAddr m memMap k + UInt64.ofNat 23) (inRegion_offset (by omega) (by omega))
    unfold InRegion entryAddr at hlast
    rw [UInt64.add_assoc, ← UInt64.ofNat_add, toNat_offset (by omega)] at hlast
    omega
  · intro h a ha
    have hin := (inRegion_iff (by omega) a).mp ha
    exact (inRegion_iff (by omega) a).mpr (by omega)

/-- One turn below the end leads to the next place, and leaves the header as it is. -/
theorem atEntry_turn (frames : Frames) {k : Nat} {s : Scan} (hs : AtEntry m memMap k s)
    (hk : 16 + k * (mapEntrySize m memMap).toNat < (tagSize m memMap).toNat) :
    ∃ t, scanTurn frames memMap s = .again t ∧ AtEntry m memMap (k + 1) t := by
  have hsize := (tagSize m memMap).toNat_lt
  have haddr := entryAddr_toNat_of_lt (m := m) hspace (k := k) (by omega)
  have hlt : s.p < memMap + (tagSize s.mem memMap).toUInt64 := by
    rw [hs.place, hs.size]
    exact (entryAddr_lt_mapEnd hspace (by omega)).mpr hk
  obtain ⟨t, hturn, hp, hmem⟩ := scanTurn_on frames hlt
  have hheader : t.mem.read memMap 16 = m.read memMap 16 := by
    rcases hmem with hsame | hmarked
    · rw [hsame, hs.header]
    · have htype : (entryAddr m memMap k + 16).toNat = (entryAddr m memMap k).toNat + 16 := by
        have h16 : (16 : UInt64).toNat = 16 := rfl
        rw [UInt64.toNat_add, h16]
        omega
      rw [hmarked, hs.place, ← hs.header]
      exact Mem.read_write_separate (by omega) (separate_of_le (by omega) (by simp; omega))
  have hstride : mapEntrySize t.mem memMap = mapEntrySize m memMap := readU32_of_header 8 (by omega) hheader
  refine ⟨t, hturn, ?_, hheader⟩
  rw [hp, hs.place, hstride, entryAddr_next]

/-- The loop comes to each place up to the first one behind the map. -/
theorem visits_entry (frames : Frames) (ctx : CrowsContext) (memmapLine : StackBuffer 256) {k : Nat}
    (hk : ∀ j < k, 16 + j * (mapEntrySize m memMap).toNat < (tagSize m memMap).toNat) :
    ∃ s, Visits (scanTurn frames memMap) (scanStart frames m memMap ctx memmapLine) s ∧ AtEntry m memMap k s := by
  induction k with
  | zero => exact ⟨_, Visits.entry, atEntry_start⟩
  | succ k ih =>
    obtain ⟨s, hvisit, hs⟩ := ih fun j hj => hk j (Nat.lt_succ_of_lt hj)
    obtain ⟨t, hturn, ht⟩ := atEntry_turn hspace frames hs (hk k (Nat.lt_succ_self k))
    exact ⟨t, Visits.turn hvisit hturn, ht⟩

/-- A turn that goes round again was below the end. -/
theorem atEntry_again {k : Nat} {s t : Scan} (hs : AtEntry m memMap k s)
    (hk : 16 + k * (mapEntrySize m memMap).toNat < 2 ^ 33) (h : scanTurn frames memMap s = .again t) :
    16 + k * (mapEntrySize m memMap).toNat < (tagSize m memMap).toNat ∧ AtEntry m memMap (k + 1) t := by
  by_cases hlt : s.p < memMap + (tagSize s.mem memMap).toUInt64
  · rw [hs.place, hs.size] at hlt
    have hin := (entryAddr_lt_mapEnd hspace hk).mp hlt
    obtain ⟨t', hturn, ht⟩ := atEntry_turn hspace frames hs hin
    rw [hturn] at h
    exact ⟨hin, Turn.again.inj h ▸ ht⟩
  · rw [scanTurn_past frames hlt] at h
    cases h

/-- The loop comes to no other place. -/
theorem atEntry_of_visits {s : Scan}
    (h : Visits (scanTurn frames memMap) (scanStart frames m memMap ctx memmapLine) s) :
    ∃ k, 16 + k * (mapEntrySize m memMap).toNat < 2 ^ 33 ∧ AtEntry m memMap k s := by
  have hsize := (tagSize m memMap).toNat_lt
  have hstride := (mapEntrySize m memMap).toNat_lt
  refine h.invariant (I := fun s => ∃ k, 16 + k * (mapEntrySize m memMap).toNat < 2 ^ 33 ∧ AtEntry m memMap k s)
    ⟨0, by omega, atEntry_start⟩ ?_
  intro a b ha hab
  obtain ⟨k, hk, hat⟩ := ha
  obtain ⟨hin, hb⟩ := atEntry_again hspace hat hk hab
  refine ⟨k + 1, ?_, hb⟩
  rw [Nat.add_mul, Nat.one_mul]
  omega

/-! ## The scan -/

theorem scan_ends (frames : Frames) (ctx : CrowsContext) (memmapLine : StackBuffer 256)
    (hentry : mapEntrySize m memMap ≠ 0) :
    ∃ s, Returns (scanTurn frames memMap) (scanStart frames m memMap ctx memmapLine) (some s) := by
  have hpos : 0 < (mapEntrySize m memMap).toNat := by
    rcases Nat.eq_zero_or_pos (mapEntrySize m memMap).toNat with hzero | hpos
    · exact absurd (UInt32.toNat.inj hzero) hentry
    · exact hpos
  have hsize := (tagSize m memMap).toNat_lt
  have hstride := (mapEntrySize m memMap).toNat_lt
  -- what is left of the map gets less with each turn
  have hends : ∃ r, Returns (scanTurn frames memMap) (scanStart frames m memMap ctx memmapLine) r := by
    refine returns_of_measure
      (I := fun s => ∃ k, 16 + k * (mapEntrySize m memMap).toNat < 2 ^ 33 ∧ AtEntry m memMap k s)
      (fun s => (memMap + (tagSize m memMap).toUInt64).toNat - s.p.toNat) ?_ ⟨0, by omega, atEntry_start⟩
    intro a b ha hab
    obtain ⟨k, hk, hat⟩ := ha
    obtain ⟨hin, hb⟩ := atEntry_again hspace hat hk hab
    have hnext : 16 + (k + 1) * (mapEntrySize m memMap).toNat < 2 ^ 33 := by
      rw [Nat.add_mul, Nat.one_mul]
      omega
    refine ⟨⟨k + 1, hnext, hb⟩, ?_⟩
    show _ - b.p.toNat < _ - a.p.toNat
    rw [hat.place, hb.place, entryAddr_toNat_of_lt hspace hk, entryAddr_toNat_of_lt hspace hnext,
      mapEnd_toNat hspace, Nat.add_mul, Nat.one_mul]
    omega
  obtain ⟨r, hr⟩ := hends
  -- and the loop is only left at the end of the map
  have hleft : ∃ s, r = some s := by
    refine hr.turns (P := fun _ => ∃ s, r = some s) ?_ (fun _ _ _ h => h)
    intro s hdone
    by_cases hlt : s.p < memMap + (tagSize s.mem memMap).toUInt64
    · obtain ⟨t, hturn, -, -⟩ := scanTurn_on frames hlt
      rw [hturn] at hdone
      cases hdone
    · rw [scanTurn_past frames hlt] at hdone
      exact ⟨s, (Turn.done.inj hdone).symm⟩
  obtain ⟨s, hs⟩ := hleft
  exact ⟨s, hs ▸ hr⟩

theorem safeScan_of_fits (hfits : EntriesFit (tagSize m memMap) (mapEntrySize m memMap)) :
    SafeScan frames m memMap ctx memmapLine := by
  obtain ⟨hentry, hroom⟩ := hfits
  refine ⟨hentry, ?_, ?_⟩
  · obtain ⟨s, fuel, hs⟩ := scan_ends hspace frames ctx memmapLine hentry
    refine ⟨fuel, settled frames s, ?_⟩
    rw [walkMap_start hentry, hs]
  · intro s hread
    obtain ⟨hvisit, hlt⟩ := hread
    obtain ⟨k, hk, hat⟩ := atEntry_of_visits hspace hvisit
    rw [hat.place, hat.size] at hlt
    have hin := (entryAddr_lt_mapEnd hspace hk).mp hlt
    rw [hat.place]
    exact (entryInside_iff hspace hk).mpr (entries_fit_iff.mpr hroom k hin)

theorem fits_of_safeScan (hsafe : SafeScan frames m memMap ctx memmapLine) :
    EntriesFit (tagSize m memMap) (mapEntrySize m memMap) := by
  refine ⟨hsafe.divides, entries_fit_iff.mp ?_⟩
  intro k hk
  have hsize := (tagSize m memMap).toNat_lt
  have hbefore : ∀ j < k, 16 + j * (mapEntrySize m memMap).toNat < (tagSize m memMap).toNat := by
    intro j hj
    have hmul : j * (mapEntrySize m memMap).toNat ≤ k * (mapEntrySize m memMap).toNat :=
      Nat.mul_le_mul_right _ (Nat.le_of_lt hj)
    omega
  obtain ⟨s, hvisit, hat⟩ := visits_entry hspace frames ctx memmapLine hbefore
  have hlt : s.p < memMap + (tagSize s.mem memMap).toUInt64 := by
    rw [hat.place, hat.size]
    exact (entryAddr_lt_mapEnd hspace (by omega)).mpr hk
  have hinside := hsafe.inside s ⟨hvisit, hlt⟩
  rw [hat.place] at hinside
  exact (entryInside_iff hspace (by omega)).mp hinside

end

/-- A tag that is found begins below the end of its block. -/
theorem seekTag_lt {m : Mem} {ofType : UInt32} {head p : Addr} {fuel : Nat}
    (h : multiboot2SeekTag fuel m ofType head = some (some p)) : p < blockEnd m head := by
  have hreturns : Returns (seekTurn m ofType (blockEnd m head)) (head + 8) (some p) := by
    refine ⟨fuel, ?_⟩
    rwa [multiboot2SeekTag, if_neg (seekTag_head_ne_zero h)] at h
  refine hreturns.turns (P := fun _ => p < blockEnd m head) ?_ (fun _ _ _ h => h)
  intro q hdone
  by_cases hlt : q < blockEnd m head
  · by_cases htype : tagType m q = ofType
    · rw [seekTurn_match hlt htype] at hdone
      exact Option.some.inj (Turn.done.inj hdone) ▸ hlt
    · rw [seekTurn_on hlt htype] at hdone
      cases hdone
  · rw [seekTurn_past hlt] at hdone
    cases hdone

/-- kmain hands on an address of 32 bits, so the block's map lies low. -/
theorem map_low {m : Mem} {rbx memMap : Addr}
    (hseek : ∃ fuel, multiboot2SeekTag fuel m MultibootInfoTagType.memoryMap.value (rbx &&& 0xffffffff) =
      some (some memMap)) : memMap.toNat + 2 ^ 34 ≤ 2 ^ 64 := by
  obtain ⟨fuel, hfuel⟩ := hseek
  have hlt := UInt64.lt_iff_toNat_lt.mp (seekTag_lt hfuel)
  have hmask : (rbx &&& 0xffffffff).toNat ≤ 0xffffffff := by
    rw [UInt64.toNat_and]
    exact Nat.and_le_right
  have htotal := (totalSize m (rbx &&& 0xffffffff)).toNat_lt
  rw [blockEnd_toNat (by omega)] at hlt
  omega

/-- A block at 0x9000 with a memory map of the given size and stride, over one entry's worth of zeros. -/
def oneEntry (size entrySize : Nat) : Mem :=
  Mem.write (fun _ => 0) 0x9000
    (leBytes 4 56 ++ leBytes 4 0 ++ leBytes 4 6 ++ leBytes 4 size ++ leBytes 4 entrySize ++ leBytes 4 0 ++
      rawEntry 0 0x9fc00 1 ++ leBytes 4 0 ++ leBytes 4 8)

end Crows.Kernel
