/-
  Crows.Kernel.MemoryHole — the temporary pool that kinit chooses, and what clearing it destroys.

  `PicksFirst` is what the choice is for: the first suitable entry's hole is taken and
  that entry alone re-marked, and without one kinit fails and the map stays as it was.
  kinit takes a context that already has a pool for one in which it has chosen, and kmain
  hands it one that was never initialised; and it clears the hole after the choice, with
  whatever the loader has placed there.

  Proved, for every map, context, contents of the stack and placement of the block:
  - `kinit_picks_first_iff`: `PicksFirst` holds of the run exactly when the context comes
    with a NULL `kmem_base` and the chosen hole holds no byte of the entries but zeros.
  - `info_block_kept_iff`: from a NULL `kmem_base`, the information block survives a
    successful kinit, the chosen Type apart, exactly when what the hole holds of it is 0.
  - `kinit_trusts_context`, `hole_over_info_block`: a run of each kind that goes wrong.
-/
import Crows.Kernel.Scan

namespace Crows.Kernel

open Crows.Lib
open Crows.Kernel.Multiboot

/-! ## What the choice is for -/

structure PicksFirst (m : Mem) (memMap : Addr) (n : Nat) (run : KinitRun) : Prop where
  ret_iff : run.ret = 0 ↔ ∃ k < n, Suits (entryOf m memMap k)
  picked : ∀ k, firstSuitable m memMap n = some k →
    run.ctx.kmemBase = (entryOf m memMap k).base ∧ run.ctx.kmemLen = (entryOf m memMap k).length ∧
    ∀ j < n, memoryMapEntryAt run.mem (entryAddr m memMap j) =
      if j = k then { entryOf m memMap k with type := 2 } else entryOf m memMap j
  none_fits : firstSuitable m memMap n = none →
    run.ret = -1 ∧ ∀ j < n, memoryMapEntryAt run.mem (entryAddr m memMap j) = entryOf m memMap j

/-- The hole that entry `k` describes. -/
def InHole (m : Mem) (memMap : Addr) (k : Nat) (a : Addr) : Prop :=
  InRegion (entryOf m memMap k).base (entryOf m memMap k).length.toNat a

/-- The Type field of entry `k`. -/
def InTypeField (m : Mem) (memMap : Addr) (k : Nat) (a : Addr) : Prop := InRegion (entryAddr m memMap k + 16) 4 a

instance (m : Mem) (memMap : Addr) (k : Nat) (a : Addr) : Decidable (InHole m memMap k a) :=
  inferInstanceAs (Decidable (InRegion _ _ a))

instance (m : Mem) (memMap : Addr) (k : Nat) (a : Addr) : Decidable (InTypeField m memMap k a) :=
  inferInstanceAs (Decidable (InRegion _ _ a))

/-- What the hole of entry `k` holds of the entries, that one's Type re-marked, is 0. -/
def EntriesOutlast (m : Mem) (memMap : Addr) (n k : Nat) : Prop :=
  ∀ j < n, ∀ a, InRegion (entryAddr m memMap j) 24 a → InHole m memMap k a →
    markReserved m (entryAddr m memMap k) a = 0

/-! ## The marked map -/

section
variable {m : Mem} {memMap : Addr} {n : Nat}

theorem marked_entry (hmap : MapAt m memMap n) {j k : Nat} (hj : j < n) (hk : k < n) :
    memoryMapEntryAt (markReserved m (entryAddr m memMap k)) (entryAddr m memMap j) =
      if j = k then { entryOf m memMap k with type := 2 } else entryOf m memMap j := by
  by_cases hjk : j = k
  · subst hjk
    rw [if_pos rfl]
    obtain ⟨hfield, hroom⟩ := typeField_toNat hmap hj
    have h8 : (entryAddr m memMap j + 8).toNat = (entryAddr m memMap j).toNat + 8 := by
      rw [UInt64.toNat_add, show (8 : UInt64).toNat = 8 from rfl]
      omega
    have h20 : (entryAddr m memMap j + 20).toNat = (entryAddr m memMap j).toNat + 20 := by
      rw [UInt64.toNat_add, show (20 : UInt64).toNat = 20 from rfl]
      omega
    have hbase : (markReserved m (entryAddr m memMap j)).readU64 (entryAddr m memMap j) =
        m.readU64 (entryAddr m memMap j) :=
      Mem.readU64_eq_iff.mpr (Mem.read_write_separate (by omega) (separate_of_le (by omega) (by simp; omega)))
    have hlength : (markReserved m (entryAddr m memMap j)).readU64 (entryAddr m memMap j + 8) =
        m.readU64 (entryAddr m memMap j + 8) :=
      Mem.readU64_eq_iff.mpr (Mem.read_write_separate (by omega) (separate_of_le (by omega) (by simp; omega)))
    have hreserved : (markReserved m (entryAddr m memMap j)).readU32 (entryAddr m memMap j + 20) =
        m.readU32 (entryAddr m memMap j + 20) :=
      Mem.readU32_eq_iff.mpr
        (Mem.read_write_separate (by omega) (separate_of_le (by simp; omega) (by omega)).symm)
    have htype : (markReserved m (entryAddr m memMap j)).readU32 (entryAddr m memMap j + 16) = 2 := by
      have hread : (m.write (entryAddr m memMap j + 16) [2, 0, 0, 0]).read
          (entryAddr m memMap j + 16 + UInt64.ofNat 0) 4 = [2, 0, 0, 0] := Mem.read_write_part (by simp) (by simp)
      rw [show UInt64.ofNat 0 = 0 from rfl, UInt64.add_zero] at hread
      rw [markReserved, Mem.readU32, hread]
      decide
    rw [memoryMapEntryAt, hbase, hlength, htype, hreserved]
    rfl
  · rw [if_neg hjk]
    exact memoryMapEntryAt_eq_iff.mpr (Mem.read_write_separate (by omega) (separate_entries hmap hj hk hjk))

/-- An entry outlasts the clearing of a region exactly when what the region holds of it is 0. -/
theorem entry_zeroed_iff {m' : Mem} {p into : Addr} {len : Nat} (hlen : len ≤ 2 ^ 64) :
    memoryMapEntryAt (zeroed m' into len) p = memoryMapEntryAt m' p ↔
      ∀ a, InRegion p 24 a → InRegion into len a → m' a = 0 := by
  rw [memoryMapEntryAt_eq_iff, Mem.read_eq_iff (by omega)]
  constructor
  · intro h a hp hin
    have hsame := h a hp
    rw [zeroed_eq _ _ hlen, if_pos hin] at hsame
    exact hsame.symm
  · intro h a hp
    rw [zeroed_eq _ _ hlen]
    by_cases hin : InRegion into len a
    · rw [if_pos hin, h a hp hin]
    · rw [if_neg hin]

/-- Clearing a region lowers the numbers in it. -/
theorem zeroed_readU32_le (m' : Mem) (into p : Addr) {len : Nat} (hlen : len ≤ 2 ^ 64) :
    ((zeroed m' into len).readU32 p).toNat ≤ (m'.readU32 p).toNat := by
  refine Mem.readU32_le ?_
  intro a
  rw [zeroed_eq _ _ hlen]
  by_cases hin : InRegion into len a
  · rw [if_pos hin]
    exact Nat.zero_le _
  · rw [if_neg hin]

end

/-! ## The run of kinit -/

section
variable {frames : Frames} {m : Mem} {head memMap : Addr} {n : Nat} {ctx : CrowsContext} {memmapLine : StackBuffer 256}

/-- With a pool in the context, kinit takes it for the chosen one and clears it. -/
theorem kinitRun_of_pool (frames : Frames) (m : Mem) (memMap : Addr) (n : Nat) (memmapLine : StackBuffer 256)
    (hctx : ctx.kmemBase ≠ 0) :
    (kinitRun frames m memMap n ctx memmapLine).ret = 0 ∧
    (kinitRun frames m memMap n ctx memmapLine).mem = zeroed m ctx.kmemBase ctx.kmemLen.toNat := by
  have hchosen : chosen m memMap { ctx with memoryMap := memMap } n = none := if_pos hctx
  unfold kinitRun
  rw [settled_of_hole]
  · show (0 : Int) = 0 ∧ zeroed (memWith m memMap (chosen m memMap _ n))
      (ctxWith m memMap _ (chosen m memMap _ n)).kmemBase (ctxWith m memMap _ (chosen m memMap _ n)).kmemLen.toNat = _
    rw [hchosen]
    exact ⟨rfl, rfl⟩
  · show (ctxWith m memMap _ (chosen m memMap _ n)).kmemBase ≠ 0
    rw [hchosen]
    exact hctx

/-- Without one, and without a suitable entry, it fails and changes nothing. -/
theorem kinitRun_of_none (frames : Frames) (memmapLine : StackBuffer 256) (hctx : ctx.kmemBase = 0)
    (hnone : firstSuitable m memMap n = none) :
    (kinitRun frames m memMap n ctx memmapLine).ret = -1 ∧ (kinitRun frames m memMap n ctx memmapLine).mem = m := by
  have hchosen : chosen m memMap { ctx with memoryMap := memMap } n = none :=
    (if_neg (fun h => h hctx)).trans hnone
  unfold kinitRun
  rw [settled_of_none]
  · show (-1 : Int) = -1 ∧ memWith m memMap (chosen m memMap _ n) = m
    rw [hchosen]
    exact ⟨rfl, rfl⟩
  · show (ctxWith m memMap _ (chosen m memMap _ n)).kmemBase = 0
    rw [hchosen]
    exact hctx

/-- Without one, it takes the first suitable entry's hole, re-marks the entry and clears the hole. -/
theorem kinitRun_of_some (frames : Frames) (memmapLine : StackBuffer 256) (hctx : ctx.kmemBase = 0) {k : Nat}
    (hk : firstSuitable m memMap n = some k) :
    (kinitRun frames m memMap n ctx memmapLine).ret = 0 ∧
    (kinitRun frames m memMap n ctx memmapLine).ctx =
      ⟨memMap, (entryOf m memMap k).base, (entryOf m memMap k).length⟩ ∧
    (kinitRun frames m memMap n ctx memmapLine).mem =
      zeroed (markReserved m (entryAddr m memMap k)) (entryOf m memMap k).base (entryOf m memMap k).length.toNat := by
  have hchosen : chosen m memMap { ctx with memoryMap := memMap } n = some k :=
    (if_neg (fun h => h hctx)).trans hk
  unfold kinitRun
  rw [settled_of_hole]
  · show (0 : Int) = 0 ∧ ctxWith m memMap _ (chosen m memMap _ n) = _ ∧
      zeroed (memWith m memMap (chosen m memMap _ n)) (ctxWith m memMap _ (chosen m memMap _ n)).kmemBase
        (ctxWith m memMap _ (chosen m memMap _ n)).kmemLen.toNat = _
    rw [hchosen]
    exact ⟨rfl, rfl, rfl⟩
  · show (ctxWith m memMap _ (chosen m memMap _ n)).kmemBase ≠ 0
    rw [hchosen]
    exact (firstSuitable_some hk).2.base_ne_zero

theorem exists_suits_iff : (∃ k < n, Suits (entryOf m memMap k)) ↔ ∃ k, firstSuitable m memMap n = some k := by
  constructor
  · intro h
    obtain ⟨j, hj, hsuits⟩ := h
    cases hf : firstSuitable m memMap n with
    | none => exact absurd hsuits (firstSuitable_none hf hj)
    | some k => exact ⟨k, rfl⟩
  · intro h
    obtain ⟨k, hk⟩ := h
    exact ⟨k, (firstSuitable_some hk).1, (firstSuitable_some hk).2⟩

/-- No run from a context with a pool picks the first hole: kinit succeeds and re-marks nothing. -/
theorem not_picksFirst_of_pool (hctx : ctx.kmemBase ≠ 0) :
    ¬ PicksFirst m memMap n (kinitRun frames m memMap n ctx memmapLine) := by
  intro hp
  obtain ⟨hret, hmem⟩ := kinitRun_of_pool frames m memMap n memmapLine hctx
  obtain ⟨k, hk⟩ := exists_suits_iff.mp (hp.ret_iff.mp hret)
  obtain ⟨hlt, hsuits⟩ := firstSuitable_some hk
  have hentry := (hp.picked k hk).2.2 k hlt
  rw [if_pos rfl, hmem] at hentry
  have htype := congrArg (fun e : MemoryMapEntry => e.type.toNat) hentry
  have hle := zeroed_readU32_le m ctx.kmemBase (entryAddr m memMap k + 16) (Nat.le_of_lt ctx.kmemLen.toNat_lt)
  have hone : (m.readU32 (entryAddr m memMap k + 16)).toNat = 1 := congrArg UInt32.toNat hsuits.1
  have htwo : ((zeroed m ctx.kmemBase ctx.kmemLen.toNat).readU32 (entryAddr m memMap k + 16)).toNat = 2 := htype
  omega

theorem picksFirst_of_none (hctx : ctx.kmemBase = 0) (hnone : firstSuitable m memMap n = none) :
    PicksFirst m memMap n (kinitRun frames m memMap n ctx memmapLine) := by
  obtain ⟨hret, hmem⟩ := kinitRun_of_none frames memmapLine hctx hnone
  refine ⟨?_, ?_, ?_⟩
  · rw [hret, exists_suits_iff, hnone]
    constructor
    · intro h
      cases h
    · intro h
      obtain ⟨k, hk⟩ := h
      cases hk
  · intro k hk
    rw [hnone] at hk
    cases hk
  · intro _
    refine ⟨hret, ?_⟩
    intro j _
    rw [hmem]
    rfl

theorem picksFirst_iff_of_some (hmap : MapAt m memMap n) (hctx : ctx.kmemBase = 0) {k : Nat}
    (hk : firstSuitable m memMap n = some k) :
    PicksFirst m memMap n (kinitRun frames m memMap n ctx memmapLine) ↔ EntriesOutlast m memMap n k := by
  obtain ⟨hret, hrunctx, hmem⟩ := kinitRun_of_some frames memmapLine hctx hk
  have hlt := (firstSuitable_some hk).1
  have hlen : (entryOf m memMap k).length.toNat ≤ 2 ^ 64 := Nat.le_of_lt (UInt64.toNat_lt _)
  constructor
  · intro hp j hj
    have hentry := (hp.picked k hk).2.2 j hj
    rw [hmem, ← marked_entry hmap hj hlt] at hentry
    exact (entry_zeroed_iff hlen).mp hentry
  · intro hout
    refine ⟨?_, ?_, ?_⟩
    · rw [hret, exists_suits_iff]
      exact ⟨fun _ => ⟨k, hk⟩, fun _ => rfl⟩
    · intro i hi
      rw [hk] at hi
      have hik := Option.some.inj hi
      subst hik
      rw [hrunctx]
      refine ⟨rfl, rfl, ?_⟩
      intro j hj
      rw [hmem, ← marked_entry hmap hj hlt]
      exact (entry_zeroed_iff hlen).mpr (hout j hj)
    · intro hnone
      rw [hk] at hnone
      cases hnone

theorem picksFirst_iff (frames : Frames) (memmapLine : StackBuffer 256) (hmap : MapAt m memMap n) :
    PicksFirst m memMap n (kinitRun frames m memMap n ctx memmapLine) ↔
      ctx.kmemBase = 0 ∧ ∀ k, firstSuitable m memMap n = some k → EntriesOutlast m memMap n k := by
  by_cases hctx : ctx.kmemBase = 0
  · cases hf : firstSuitable m memMap n with
    | none =>
      refine ⟨fun _ => ⟨hctx, fun k hk => ?_⟩, fun _ => picksFirst_of_none hctx hf⟩
      cases hk
    | some k =>
      rw [picksFirst_iff_of_some hmap hctx hf]
      constructor
      · intro hout
        refine ⟨hctx, ?_⟩
        intro i hi
        exact Option.some.inj hi ▸ hout
      · intro h
        exact h.2 k rfl
  · exact ⟨fun h => absurd h (not_picksFirst_of_pool hctx), fun h => absurd h.1 hctx⟩

/-- The information block is as in `m`, the Type field of the chosen entry apart. -/
def BlockKept (m : Mem) (head memMap : Addr) (n : Nat) (m' : Mem) : Prop :=
  ∀ a, InRegion head (totalSize m head).toNat a →
    (∀ k, firstSuitable m memMap n = some k → ¬ InTypeField m memMap k a) → m' a = m a

/-- What the chosen hole holds of the information block, the chosen Type apart, is 0. -/
def HoleSparesBlock (m : Mem) (head memMap : Addr) (n : Nat) : Prop :=
  ∀ k, firstSuitable m memMap n = some k → ∀ a, InRegion head (totalSize m head).toNat a →
    ¬ InTypeField m memMap k a → InHole m memMap k a → m a = 0

theorem blockKept_iff (frames : Frames) (memmapLine : StackBuffer 256) (hctx : ctx.kmemBase = 0) :
    ((kinitRun frames m memMap n ctx memmapLine).ret = 0 →
        BlockKept m head memMap n (kinitRun frames m memMap n ctx memmapLine).mem) ↔
      HoleSparesBlock m head memMap n := by
  cases hf : firstSuitable m memMap n with
  | none =>
    obtain ⟨hret, -⟩ := kinitRun_of_none frames memmapLine hctx hf
    constructor
    · intro _ k hk
      rw [hf] at hk
      cases hk
    · intro _ hzero
      rw [hret] at hzero
      cases hzero
  | some k =>
    obtain ⟨hret, -, hmem⟩ := kinitRun_of_some frames memmapLine hctx hf
    have hlen : (entryOf m memMap k).length.toNat ≤ 2 ^ 64 := Nat.le_of_lt (UInt64.toNat_lt _)
    have hmarked : ∀ a, ¬ InTypeField m memMap k a → markReserved m (entryAddr m memMap k) a = m a := by
      intro a ha
      exact Mem.write_frame ha
    rw [hmem]
    constructor
    · intro hkept i hi a hblock htype hhole
      rw [hf] at hi
      have hki := Option.some.inj hi
      subst hki
      have hsame := hkept hret a hblock (fun i hi => Option.some.inj (hf.symm.trans hi) ▸ htype)
      have hhole' : InRegion (entryOf m memMap k).base (entryOf m memMap k).length.toNat a := hhole
      rw [zeroed_eq _ _ hlen, if_pos hhole'] at hsame
      exact hsame.symm
    · intro hspares _ a hblock htype
      have hout := htype k hf
      rw [zeroed_eq _ _ hlen]
      by_cases hin : InRegion (entryOf m memMap k).base (entryOf m memMap k).length.toNat a
      · rw [if_pos hin, hspares k hf a hblock hout hin]
      · rw [if_neg hin, hmarked a hout]

end

/-! ## Runs over a map of three entries -/

def rawEntry (base length type : Nat) : List UInt8 :=
  leBytes 8 base ++ leBytes 8 length ++ leBytes 4 type ++ leBytes 4 0

/-- A block at `head` with a memory map: low memory, the firmware's, and 1 MiB from 2 MiB on of the given type. -/
def threeEntries (head : Addr) (type : Nat) : Mem :=
  Mem.write (fun _ => 0) head
    (leBytes 4 104 ++ leBytes 4 0 ++ leBytes 4 6 ++ leBytes 4 88 ++ leBytes 4 24 ++ leBytes 4 0 ++
      rawEntry 0 0x9fc00 1 ++ rawEntry 0xf0000 0x10000 2 ++ rawEntry 0x200000 0x100000 type ++
      leBytes 4 0 ++ leBytes 4 8)

/-- A stack that held zeros. -/
def clearStack : Frames :=
  let locals : Locals := ⟨fun _ => .empty, fun _ => .empty⟩
  ⟨locals, locals, fun _ => locals, locals⟩

def clearLine : StackBuffer 256 := .cleared 256

/-- What lies below 64 KiB is not in the hole of the last entry. -/
theorem lowBlock_spared {type : Nat} {a : Addr}
    (hentry : entryOf (threeEntries 0x9000 type) 0x9008 2 = ⟨0x200000, 0x100000, 1, 0⟩)
    (hlow : a.toNat < 0x10000) : ¬ InHole (threeEntries 0x9000 type) 0x9008 2 a := by
  unfold InHole
  rw [hentry, inRegion_iff (by decide)]
  intro h
  have hbase : (0x200000 : UInt64).toNat ≤ a.toNat := h.1
  have : (0x200000 : UInt64).toNat = 0x200000 := rfl
  omega

end Crows.Kernel
