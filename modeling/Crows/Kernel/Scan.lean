/-
  Crows.Kernel.Scan — kinit's walk over a memory map, entry by entry.

  `MapAt m memMap n` says that memory holds a map of `n` entries. `scanAt` is the state in
  which the loop begins its turn at entry `j`, from the memory at the start, the context
  and the contents of the line's array: `scanTurn_scanAt`, one turn leads from each to
  the next, whatever the entries hold. `kinit_iff` puts the turns together: kinit comes
  to an end, and what it leaves is `kinitRun`.
-/
import Crows.Kernel.Init

namespace Crows.Kernel

open Crows.Lib
open Crows.Kernel.Multiboot

/-! ## The texts of the lines -/

def infoBlockText (locals : Locals) (rbx : UInt64) : List UInt8 :=
  ascii "Got Multiboot2 info block at physical address 0x" ++
    (hexString (chr 'X') rbx (locals.hexTail 49) ++ ascii ".\r\n")

def summaryText (size count : UInt32) : List UInt8 :=
  ascii "Iterating Memory Map provided by Multiboot2 (" ++ (uString size.toUInt64 ++
    (ascii " bytes, " ++ (uString count.toUInt64 ++ ascii " entries).\r\n")))

def entryText (locals : Locals) (entry : MemoryMapEntry) : List UInt8 :=
  ascii "   Base 0x" ++ (hexString (chr 'X') entry.base (locals.hexTail 11) ++
    (ascii " -- Length 0x" ++ (hexString (chr 'X') entry.length (locals.hexTail 26) ++
      (ascii " -- Type " ++ (dString entry.type.toUInt64 (locals.dTail 37) ++ ascii "\r\n")))))

def holeText (locals : Locals) (into : Addr) : List UInt8 :=
  ascii "Using temporary memory hole at '0x" ++
    (hexString (chr 'X') into (locals.hexTail 35) ++ ascii "'.\r\n")

theorem render_infoBlock (locals : Locals) (rbx : UInt64) :
    render locals 0 infoBlockFormat [.word rbx] = some (infoBlockText locals rbx) := by
  have hsplit : infoBlockFormat = ascii "Got Multiboot2 info block at physical address 0x" ++
      (chr '%' :: chr 'X' :: ascii ".\r\n") := by decide
  rw [hsplit, render_literal (by decide), render_string (by decide) rfl, render_end (by decide)]
  rfl

theorem render_summary (locals : Locals) (size count : UInt32) :
    render locals 0 summaryFormat [.word size.toUInt64, .word count.toUInt64] =
      some (summaryText size count) := by
  have hsplit : summaryFormat = ascii "Iterating Memory Map provided by Multiboot2 (" ++
      (chr '%' :: chr 'u' :: (ascii " bytes, " ++ (chr '%' :: chr 'u' :: ascii " entries).\r\n"))) := by decide
  rw [hsplit, render_literal (by decide), render_string (by decide) rfl, render_literal (by decide),
    render_string (by decide) rfl, render_end (by decide)]
  rfl

theorem render_entry (locals : Locals) (entry : MemoryMapEntry) :
    render locals 0 entryFormat [.word entry.base, .word entry.length, .word entry.type.toUInt64] =
      some (entryText locals entry) := by
  have hsplit : entryFormat = ascii "   Base 0x" ++ (chr '%' :: chr 'X' :: (ascii " -- Length 0x" ++
      (chr '%' :: chr 'X' :: (ascii " -- Type " ++ (chr '%' :: chr 'd' :: ascii "\r\n"))))) := by decide
  rw [hsplit, render_literal (by decide), render_string (by decide) rfl, render_literal (by decide),
    render_string (by decide) rfl, render_literal (by decide), render_string (by decide) rfl,
    render_end (by decide)]
  rfl

theorem render_hole (locals : Locals) (into : Addr) :
    render locals 0 holeFormat [.word into] = some (holeText locals into) := by
  have hsplit : holeFormat = ascii "Using temporary memory hole at '0x" ++
      (chr '%' :: chr 'X' :: ascii "'.\r\n") := by decide
  rw [hsplit, render_literal (by decide), render_string (by decide) rfl, render_end (by decide)]
  rfl

theorem printLine_of_render {size : Nat} {locals : Locals} {fmt : List UInt8} {args : List Arg}
    {text : List UInt8} (h : render locals 0 fmt args = some text) (limit : Int) (b : StackBuffer size) :
    printLine locals limit fmt args b =
      some (b.store (text.take limit.toNat),
        .line (text.take limit.toNat) (b.store (text.take limit.toNat)).string) := by
  unfold printLine
  rw [snprintf_of_render h]
  rfl

/-! ## The map in memory -/

/-- Memory holds a memory map tag of `n` entries at `memMap`, each as long as EntrySize says. -/
structure MapAt (m : Mem) (memMap : Addr) (n : Nat) : Prop where
  entrySize_ge : 24 ≤ (mapEntrySize m memMap).toNat
  size_eq : (tagSize m memMap).toNat = 16 + n * (mapEntrySize m memMap).toNat
  inSpace : memMap.toNat + (tagSize m memMap).toNat < 2 ^ 64

/-- Where entry `j` begins; for `j` the number of entries, where the map ends. -/
def entryAddr (m : Mem) (memMap : Addr) (j : Nat) : Addr :=
  memMap + UInt64.ofNat (16 + j * (mapEntrySize m memMap).toNat)

def entryOf (m : Mem) (memMap : Addr) (j : Nat) : MemoryMapEntry := memoryMapEntryAt m (entryAddr m memMap j)

section
variable {m : Mem} {memMap : Addr} {n : Nat}

theorem entry_end_le (hmap : MapAt m memMap n) {j k : Nat} (hjk : j < k) :
    j * (mapEntrySize m memMap).toNat + 24 ≤ k * (mapEntrySize m memMap).toNat := by
  have hsize := hmap.entrySize_ge
  have hmul : (j + 1) * (mapEntrySize m memMap).toNat ≤ k * (mapEntrySize m memMap).toNat :=
    Nat.mul_le_mul_right _ hjk
  rw [Nat.add_mul, Nat.one_mul] at hmul
  omega

theorem offset_le_size (hmap : MapAt m memMap n) {j : Nat} (hj : j ≤ n) :
    16 + j * (mapEntrySize m memMap).toNat ≤ (tagSize m memMap).toNat := by
  have hmul : j * (mapEntrySize m memMap).toNat ≤ n * (mapEntrySize m memMap).toNat := Nat.mul_le_mul_right _ hj
  have hsize := hmap.size_eq
  omega

theorem entryAddr_toNat (hmap : MapAt m memMap n) {j : Nat} (hj : j ≤ n) :
    (entryAddr m memMap j).toNat = memMap.toNat + 16 + j * (mapEntrySize m memMap).toNat := by
  have hle := offset_le_size hmap hj
  have hspace := hmap.inSpace
  simp only [entryAddr, UInt64.toNat_add, UInt64.toNat_ofNat']
  omega

theorem entryAddr_succ (hmap : MapAt m memMap n) {j : Nat} (hj : j < n) :
    entryAddr m memMap j + (mapEntrySize m memMap).toUInt64 = entryAddr m memMap (j + 1) := by
  have hnow := entryAddr_toNat hmap (Nat.le_of_lt hj)
  have hnext := entryAddr_toNat hmap (j := j + 1) hj
  have hlt := (entryAddr m memMap (j + 1)).toNat_lt
  rw [Nat.add_mul, Nat.one_mul] at hnext
  apply UInt64.toNat.inj
  rw [UInt64.toNat_add, UInt32.toNat_toUInt64, hnow, hnext]
  omega

/-- The loop's bound is met exactly by the entries of the map. -/
theorem entryAddr_lt_end (hmap : MapAt m memMap n) {j : Nat} (hj : j ≤ n) :
    entryAddr m memMap j < memMap + (tagSize m memMap).toUInt64 ↔ j < n := by
  have hspace := hmap.inSpace
  have hend : (memMap + (tagSize m memMap).toUInt64).toNat = memMap.toNat + (tagSize m memMap).toNat := by
    rw [UInt64.toNat_add, UInt32.toNat_toUInt64]
    omega
  rw [UInt64.lt_iff_toNat_lt, entryAddr_toNat hmap hj, hend, hmap.size_eq]
  constructor
  · intro h
    by_contra hge
    have hjn : j = n := by omega
    subst hjn
    omega
  · intro hlt
    have := entry_end_le hmap hlt
    omega

/-- The Type field of an entry. -/
theorem typeField_toNat (hmap : MapAt m memMap n) {k : Nat} (hk : k < n) :
    (entryAddr m memMap k + 16).toNat = (entryAddr m memMap k).toNat + 16 ∧
      (entryAddr m memMap k).toNat + 24 < 2 ^ 64 := by
  have haddr := entryAddr_toNat hmap (Nat.le_of_lt hk)
  have hnext := entry_end_le hmap hk
  have hsize := hmap.size_eq
  have hspace := hmap.inSpace
  have h16 : (16 : UInt64).toNat = 16 := rfl
  rw [UInt64.toNat_add, h16]
  omega

/-- Marking an entry leaves the map's header as it was. -/
theorem separate_header (hmap : MapAt m memMap n) {k : Nat} (hk : k < n) :
    Separate memMap 16 (entryAddr m memMap k + 16) 4 := by
  obtain ⟨hfield, hroom⟩ := typeField_toNat hmap hk
  have haddr := entryAddr_toNat hmap (Nat.le_of_lt hk)
  exact separate_of_le (by omega) (by omega)

/-- Marking an entry leaves the others as they were. -/
theorem separate_entries (hmap : MapAt m memMap n) {j k : Nat} (hj : j < n) (hk : k < n) (hjk : j ≠ k) :
    Separate (entryAddr m memMap j) 24 (entryAddr m memMap k + 16) 4 := by
  obtain ⟨hfield, hroom⟩ := typeField_toNat hmap hk
  obtain ⟨-, hroomj⟩ := typeField_toNat hmap hj
  have haddrj := entryAddr_toNat hmap (Nat.le_of_lt hj)
  have haddrk := entryAddr_toNat hmap (Nat.le_of_lt hk)
  rcases Nat.lt_or_gt_of_ne hjk with hlt | hgt
  · have := entry_end_le hmap hlt
    exact separate_of_le (by omega) (by omega)
  · have := entry_end_le hmap hgt
    exact (separate_of_le (by omega) (by omega)).symm

end

/-- The four fields of an entry are its 24 bytes. -/
theorem memoryMapEntryAt_eq_iff {m m' : Mem} {p p' : Addr} :
    memoryMapEntryAt m p = memoryMapEntryAt m' p' ↔ m.read p 24 = m'.read p' 24 := by
  have hsplit : ∀ (m : Mem) (p : Addr),
      m.read p 24 = m.read p 8 ++ (m.read (p + 8) 8 ++ (m.read (p + 16) 4 ++ m.read (p + 20) 4)) := by
    intro m p
    have h16 : p + 8 + 8 = p + 16 := by rw [UInt64.add_assoc, show (8 + 8 : UInt64) = 16 by decide]
    have h20 : p + 16 + 4 = p + 20 := by rw [UInt64.add_assoc, show (16 + 4 : UInt64) = 20 by decide]
    have hbase : m.read p 24 = m.read p 8 ++ m.read (p + 8) 16 := m.read_append p 8 16
    have hlength : m.read (p + 8) 16 = m.read (p + 8) 8 ++ m.read (p + 8 + 8) 8 := m.read_append (p + 8) 8 8
    have htype : m.read (p + 16) 8 = m.read (p + 16) 4 ++ m.read (p + 16 + 4) 4 := m.read_append (p + 16) 4 4
    rw [hbase, hlength, h16, htype, h20]
  constructor
  · intro h
    rw [memoryMapEntryAt, memoryMapEntryAt, MemoryMapEntry.mk.injEq] at h
    obtain ⟨hbase, hlength, htype, hreserved⟩ := h
    rw [hsplit m p, hsplit m' p', Mem.readU64_eq_iff.mp hbase, Mem.readU64_eq_iff.mp hlength,
      Mem.readU32_eq_iff.mp htype, Mem.readU32_eq_iff.mp hreserved]
  · intro h
    rw [hsplit m p, hsplit m' p'] at h
    obtain ⟨hbase, h⟩ := List.append_inj h (by simp)
    obtain ⟨hlength, h⟩ := List.append_inj h (by simp)
    obtain ⟨htype, hreserved⟩ := List.append_inj h (by simp)
    unfold memoryMapEntryAt
    rw [Mem.readU64_eq_iff.mpr hbase, Mem.readU64_eq_iff.mpr hlength, Mem.readU32_eq_iff.mpr htype,
      Mem.readU32_eq_iff.mpr hreserved]

/-! ## What is chosen -/

/-- Free, from 2 MiB on and at least 1 MiB long. -/
def Suits (entry : MemoryMapEntry) : Prop :=
  entry.type = 1 ∧ 0x200000 ≤ entry.base ∧ 0x100000 ≤ entry.length

instance (entry : MemoryMapEntry) : Decidable (Suits entry) :=
  inferInstanceAs (Decidable (entry.type = 1 ∧ 0x200000 ≤ entry.base ∧ 0x100000 ≤ entry.length))

/-- The first suitable one of the first `n` entries. -/
def firstSuitable (m : Mem) (memMap : Addr) (n : Nat) : Option Nat :=
  (List.range n).find? fun j => Suits (entryOf m memMap j)

/-- The entry kinit has chosen once it has looked at `j` of them: with a pool in the context it chooses none. -/
def chosen (m : Mem) (memMap : Addr) (ctx : CrowsContext) (j : Nat) : Option Nat :=
  if ctx.kmemBase ≠ 0 then none else firstSuitable m memMap j

def ctxWith (m : Mem) (memMap : Addr) (ctx : CrowsContext) : Option Nat → CrowsContext
  | none => ctx
  | some k => { ctx with kmemBase := (entryOf m memMap k).base, kmemLen := (entryOf m memMap k).length }

def memWith (m : Mem) (memMap : Addr) : Option Nat → Mem
  | none => m
  | some k => markReserved m (entryAddr m memMap k)

theorem firstSuitable_succ (m : Mem) (memMap : Addr) (j : Nat) :
    firstSuitable m memMap (j + 1) =
      (firstSuitable m memMap j).or (if Suits (entryOf m memMap j) then some j else none) := by
  unfold firstSuitable
  rw [List.range_succ, List.find?_append]
  by_cases hsuits : Suits (entryOf m memMap j)
  · simp [hsuits]
  · simp [hsuits]

theorem firstSuitable_some {m : Mem} {memMap : Addr} {n k : Nat} (h : firstSuitable m memMap n = some k) :
    k < n ∧ Suits (entryOf m memMap k) := by
  have hmem := List.mem_of_find?_eq_some h
  have hsuits := List.find?_some h
  exact ⟨List.mem_range.mp hmem, of_decide_eq_true hsuits⟩

theorem firstSuitable_none {m : Mem} {memMap : Addr} {n : Nat} (h : firstSuitable m memMap n = none) {j : Nat}
    (hj : j < n) : ¬ Suits (entryOf m memMap j) := by
  have hnot := List.find?_eq_none.mp h j (List.mem_range.mpr hj)
  simpa using hnot

theorem Suits.base_ne_zero {entry : MemoryMapEntry} (h : Suits entry) : entry.base ≠ 0 := by
  intro hzero
  have hbase := h.2.1
  rw [hzero] at hbase
  exact absurd hbase (by decide)

theorem chosen_some {m : Mem} {memMap : Addr} {ctx : CrowsContext} {j k : Nat}
    (h : chosen m memMap ctx j = some k) :
    ctx.kmemBase = 0 ∧ k < j ∧ Suits (entryOf m memMap k) := by
  unfold chosen at h
  by_cases hctx : ctx.kmemBase ≠ 0
  · rw [if_pos hctx] at h
    cases h
  · rw [if_neg hctx] at h
    exact ⟨by simpa using hctx, firstSuitable_some h⟩

/-! ## The loop, turn by turn -/

section
variable (frames : Frames) (m : Mem) (memMap : Addr) (ctx : CrowsContext) (memmapLine : StackBuffer 256)

/-- What snprintf stores of the summary and of entry `j`'s line. -/
def summaryBytes : List UInt8 :=
  (summaryText (tagSize m memMap) (tagSize m memMap / mapEntrySize m memMap)).take 256

def entryBytes (j : Nat) : List UInt8 := (entryText (frames.entry j) (entryOf m memMap j)).take 256

/-- The line's array when the loop has come to entry `j`. -/
def lineAt : Nat → StackBuffer 256
  | 0 => memmapLine.store (summaryBytes m memMap)
  | j + 1 => (lineAt j).clear.store (entryBytes frames m memMap j)

def printAt (j : Nat) : Print :=
  .line (entryBytes frames m memMap j) (lineAt frames m memMap memmapLine (j + 1)).string

def consoleAt (j : Nat) : List Print :=
  .line (summaryBytes m memMap) (lineAt frames m memMap memmapLine 0).string ::
    (List.range j).map (printAt frames m memMap memmapLine)

/-- The state in which the loop begins its turn at entry `j`. -/
def scanAt (j : Nat) : Scan where
  p := entryAddr m memMap j
  index := j
  mem := memWith m memMap (chosen m memMap ctx j)
  ctx := ctxWith m memMap ctx (chosen m memMap ctx j)
  memmapLine := lineAt frames m memMap memmapLine j
  console := consoleAt frames m memMap memmapLine j

end

section
variable {frames : Frames} {m : Mem} {memMap : Addr} {ctx : CrowsContext} {memmapLine : StackBuffer 256} {n : Nat}

theorem memWith_header (hmap : MapAt m memMap n) {j : Nat} (hj : j ≤ n) :
    (memWith m memMap (chosen m memMap ctx j)).read memMap 16 = m.read memMap 16 := by
  cases hc : chosen m memMap ctx j with
  | none => rfl
  | some k =>
    obtain ⟨-, hk, -⟩ := chosen_some hc
    exact Mem.read_write_separate (by omega) (separate_header hmap (by omega))

theorem readU32_of_header {m m' : Mem} {memMap : Addr} (off : Nat) (hoff : off + 4 ≤ 16)
    (h : m.read memMap 16 = m'.read memMap 16) :
    m.readU32 (memMap + UInt64.ofNat off) = m'.readU32 (memMap + UInt64.ofNat off) := by
  rw [Mem.readU32_eq_iff, ← m.read_part hoff, ← m'.read_part hoff, h]

theorem memWith_size (hmap : MapAt m memMap n) {j : Nat} (hj : j ≤ n) :
    tagSize (memWith m memMap (chosen m memMap ctx j)) memMap = tagSize m memMap :=
  readU32_of_header 4 (by omega) (memWith_header hmap hj)

theorem memWith_entrySize (hmap : MapAt m memMap n) {j : Nat} (hj : j ≤ n) :
    mapEntrySize (memWith m memMap (chosen m memMap ctx j)) memMap = mapEntrySize m memMap :=
  readU32_of_header 8 (by omega) (memWith_header hmap hj)

/-- The entry the loop has come to is still as the loader supplied it. -/
theorem memWith_entry (hmap : MapAt m memMap n) {j : Nat} (hj : j < n) :
    memoryMapEntryAt (memWith m memMap (chosen m memMap ctx j)) (entryAddr m memMap j) = entryOf m memMap j := by
  cases hc : chosen m memMap ctx j with
  | none => rfl
  | some k =>
    obtain ⟨-, hk, -⟩ := chosen_some hc
    refine memoryMapEntryAt_eq_iff.mpr ?_
    exact Mem.read_write_separate (by omega) (separate_entries hmap hj (by omega) (by omega))

theorem ctxWith_kmemBase (hctx : ctx.kmemBase = 0) {j : Nat} :
    (ctxWith m memMap ctx (firstSuitable m memMap j)).kmemBase = 0 ↔ firstSuitable m memMap j = none := by
  cases hf : firstSuitable m memMap j with
  | none => exact ⟨fun _ => rfl, fun _ => hctx⟩
  | some k =>
    have hne := (firstSuitable_some hf).2.base_ne_zero
    exact ⟨fun h => absurd h hne, fun h => by cases h⟩

/-- What the loop does with an entry it has printed. -/
theorem chooseHole_eq {s : Scan} {j : Nat} (hp : s.p = entryAddr m memMap j)
    (hctx : s.ctx = ctxWith m memMap ctx (chosen m memMap ctx j))
    (hmem : s.mem = memWith m memMap (chosen m memMap ctx j)) :
    chooseHole (entryOf m memMap j) s =
      { s with
        ctx := ctxWith m memMap ctx (chosen m memMap ctx (j + 1)),
        mem := memWith m memMap (chosen m memMap ctx (j + 1)) } := by
  unfold chooseHole
  by_cases hbase : ctx.kmemBase = 0
  · have hchosen : ∀ i, chosen m memMap ctx i = firstSuitable m memMap i := by
      intro i
      exact if_neg (fun h => h hbase)
    rw [hchosen] at hctx hmem
    rw [hchosen (j + 1), firstSuitable_succ]
    cases hf : firstSuitable m memMap j with
    | some k =>
      -- an earlier entry has been chosen
      have hne : s.ctx.kmemBase ≠ 0 := by
        rw [hctx, Ne, ctxWith_kmemBase hbase, hf]
        exact Option.some_ne_none k
      rw [if_pos hne, Option.some_or, ← hf, ← hctx, ← hmem]
    | none =>
      rw [hf] at hctx hmem
      have hnone : ¬ s.ctx.kmemBase ≠ 0 := by
        rw [hctx]
        exact fun h => h hbase
      rw [if_neg hnone, Option.none_or]
      by_cases hsuits : Suits (entryOf m memMap j)
      · have hfree : ¬ ((entryOf m memMap j).base < 0x200000 ∨ (entryOf m memMap j).type ≠ 1) := by
          intro h
          rcases h with hlow | htype
          · exact absurd hlow (UInt64.not_lt.mpr hsuits.2.1)
          · exact htype hsuits.1
        rw [if_neg hfree, if_neg (UInt64.not_lt.mpr hsuits.2.2), if_pos hsuits, hctx, hmem, hp]
        rfl
      · rw [if_neg hsuits, show ctxWith m memMap ctx none = s.ctx from hctx.symm,
          show memWith m memMap none = s.mem from hmem.symm]
        by_cases hfree : (entryOf m memMap j).base < 0x200000 ∨ (entryOf m memMap j).type ≠ 1
        · rw [if_pos hfree]
        · rw [not_or] at hfree
          have hshort : (entryOf m memMap j).length < 0x100000 := by
            by_contra hlong
            exact hsuits ⟨not_not.mp hfree.2, UInt64.not_lt.mp hfree.1, UInt64.not_lt.mp hlong⟩
          rw [if_neg (not_or.mpr hfree), if_pos hshort]
  · have hchosen : ∀ i, chosen m memMap ctx i = none := by
      intro i
      exact if_pos hbase
    rw [hchosen] at hctx hmem
    have hne : s.ctx.kmemBase ≠ 0 := by
      rw [hctx]
      exact hbase
    rw [if_pos hne, hchosen (j + 1), ← hctx, ← hmem]

/-- What a turn at an entry does. -/
theorem scanTurn_entry {s t : Scan} {entry : MemoryMapEntry} {line : StackBuffer 256} {print : Print}
    (hlt : s.p < memMap + (tagSize s.mem memMap).toUInt64) (hentry : memoryMapEntryAt s.mem s.p = entry)
    (hprint : printLine (frames.entry s.index) 256 entryFormat
      [.word entry.base, .word entry.length, .word entry.type.toUInt64] s.memmapLine.clear = some (line, print))
    (ht : chooseHole entry { s with memmapLine := line, console := s.console ++ [print], index := s.index + 1 } = t) :
    scanTurn frames memMap s = .again { t with p := t.p + (mapEntrySize t.mem memMap).toUInt64 } := by
  subst hentry
  subst ht
  unfold scanTurn
  rw [if_pos hlt]
  simp only [hprint]

theorem consoleAt_succ (j : Nat) :
    consoleAt frames m memMap memmapLine (j + 1) =
      consoleAt frames m memMap memmapLine j ++ [printAt frames m memMap memmapLine j] := by
  rw [consoleAt, consoleAt, List.range_succ, List.map_append]
  rfl

/-- One turn of the loop leads from the state at an entry to the state at the next. -/
theorem scanTurn_scanAt (hmap : MapAt m memMap n) {j : Nat} (hj : j < n) :
    scanTurn frames memMap (scanAt frames m memMap ctx memmapLine j) =
      .again (scanAt frames m memMap ctx memmapLine (j + 1)) := by
  have hle := Nat.le_of_lt hj
  have hlt : (scanAt frames m memMap ctx memmapLine j).p <
      memMap + (tagSize (scanAt frames m memMap ctx memmapLine j).mem memMap).toUInt64 := by
    have hsize : tagSize (memWith m memMap (chosen m memMap ctx j)) memMap = _ := memWith_size hmap hle
    show entryAddr m memMap j < memMap + (tagSize (memWith m memMap (chosen m memMap ctx j)) memMap).toUInt64
    rw [hsize]
    exact (entryAddr_lt_end hmap hle).mpr hj
  rw [scanTurn_entry hlt (memWith_entry hmap hj) (printLine_of_render (render_entry _ _) 256 _)
    (chooseHole_eq rfl rfl rfl)]
  simp only [scanAt]
  rw [memWith_entrySize hmap hj, entryAddr_succ hmap hj, consoleAt_succ]
  rfl

theorem scanTurn_end (hmap : MapAt m memMap n) :
    scanTurn frames memMap (scanAt frames m memMap ctx memmapLine n) =
      .done (some (scanAt frames m memMap ctx memmapLine n)) := by
  unfold scanTurn
  rw [if_neg]
  have hsize : tagSize (memWith m memMap (chosen m memMap ctx n)) memMap = _ := memWith_size hmap (Nat.le_refl n)
  show ¬ entryAddr m memMap n < memMap + (tagSize (memWith m memMap (chosen m memMap ctx n)) memMap).toUInt64
  rw [hsize, entryAddr_lt_end hmap (Nat.le_refl n)]
  exact Nat.lt_irrefl n

theorem scan_returns (hmap : MapAt m memMap n) :
    Returns (scanTurn frames memMap) (scanAt frames m memMap ctx memmapLine 0)
      (some (scanAt frames m memMap ctx memmapLine n)) :=
  loop_of_turns (f := scanAt frames m memMap ctx memmapLine) (fun _ hj => scanTurn_scanAt hmap hj)
    (scanTurn_end hmap)

end

/-! ## The hole -/

/-- Clearing the hole puts a 0 at each of its addresses and leaves the others. -/
theorem zeroed_eq (m : Mem) (into : Addr) {n : Nat} (hn : n ≤ 2 ^ 64) (a : Addr) :
    zeroed m into n a = if InRegion into n a then 0 else m a := by
  induction n with
  | zero =>
    have hout : ¬ InRegion into 0 a := Nat.not_lt_zero _
    rw [if_neg hout]
    rfl
  | succ i ih =>
    rw [zeroed]
    by_cases hlast : a = into + UInt64.ofNat i
    · subst hlast
      have hin : InRegion (into + UInt64.ofNat i) [(0x00 : UInt8)].length (into + UInt64.ofNat i) := by
        unfold InRegion
        rw [UInt64.sub_self]
        exact Nat.one_pos
      rw [Mem.write_in hin, if_pos (inRegion_offset (Nat.lt_succ_self i) (by omega))]
      simp
    · have hout : ¬ InRegion (into + UInt64.ofNat i) [(0x00 : UInt8)].length a := by
        intro h
        have hzero : (a - (into + UInt64.ofNat i)).toNat = 0 := Nat.lt_one_iff.mp h
        exact hlast (sub_eq_zero.mp (UInt64.toNat.inj hzero))
      have hiff : InRegion into (i + 1) a ↔ InRegion into i a := by
        unfold InRegion
        constructor
        · intro h
          rcases Nat.lt_succ_iff_lt_or_eq.mp h with hlt | heq
          · exact hlt
          · refine absurd ?_ hlast
            rw [← heq, UInt64.ofNat_toNat, UInt64.add_comm, UInt64.sub_add_cancel]
        · exact Nat.lt_succ_of_lt
      rw [Mem.write_frame hout, ih (by omega)]
      simp only [hiff]

/-- What was stored in the hole before it is cleared does not show. -/
theorem zeroed_write (m : Mem) (into : Addr) {bytes : List UInt8} {n : Nat} (hn : n ≤ 2 ^ 64)
    (hfits : bytes.length ≤ n) : zeroed (m.write into bytes) into n = zeroed m into n := by
  funext a
  rw [zeroed_eq _ _ hn, zeroed_eq _ _ hn]
  by_cases hin : InRegion into n a
  · rw [if_pos hin, if_pos hin]
  · rw [if_neg hin, if_neg hin, Mem.write_frame (fun h => hin (h.mono hfits))]

theorem holeLimit_le (kmemLen : UInt64) : (holeLimit kmemLen).toNat ≤ kmemLen.toNat := by
  have hlow := UInt64.toNat_toUInt32 kmemLen
  have hint := toInt_toInt32 kmemLen.toUInt32
  unfold holeLimit
  by_cases hpos : 2 * kmemLen.toUInt32.toNat < 2 ^ 32
  · rw [if_pos hpos] at hint
    omega
  · rw [if_neg hpos] at hint
    have hlt := kmemLen.toUInt32.toNat_lt
    omega

/-- What snprintf stores in the hole. -/
def holeBytes (frames : Frames) (ctx : CrowsContext) : List UInt8 :=
  (holeText frames.hole ctx.kmemBase).take (holeLimit ctx.kmemLen).toNat

theorem length_holeBytes_le (frames : Frames) (ctx : CrowsContext) :
    (holeBytes frames ctx).length ≤ ctx.kmemLen.toNat :=
  Nat.le_trans (List.length_take_le _ _) (holeLimit_le ctx.kmemLen)

/-! ## The run of kinit -/

/-- How kinit leaves the loop over the entries. -/
def settled (frames : Frames) (s : Scan) : KinitRun :=
  if s.ctx.kmemBase = 0 then
    ⟨-1, s.mem, s.ctx, s.console ++ [noHole]⟩
  else
    ⟨0, zeroed s.mem s.ctx.kmemBase s.ctx.kmemLen.toNat, s.ctx, s.console ++
      [.line (holeBytes frames s.ctx)
        (memString (s.mem.write s.ctx.kmemBase (holeBytes frames s.ctx)) s.ctx.kmemBase)]⟩

theorem settled_of_none {frames : Frames} {s : Scan} (h : s.ctx.kmemBase = 0) :
    settled frames s = ⟨-1, s.mem, s.ctx, s.console ++ [noHole]⟩ := if_pos h

theorem settled_of_hole {frames : Frames} {s : Scan} (h : s.ctx.kmemBase ≠ 0) :
    settled frames s = ⟨0, zeroed s.mem s.ctx.kmemBase s.ctx.kmemLen.toNat, s.ctx, s.console ++
      [.line (holeBytes frames s.ctx)
        (memString (s.mem.write s.ctx.kmemBase (holeBytes frames s.ctx)) s.ctx.kmemBase)]⟩ := if_neg h

theorem settleHole_eq (frames : Frames) (s : Scan) : settleHole frames s = some (settled frames s) := by
  unfold settleHole settled
  by_cases hbase : s.ctx.kmemBase = 0
  · rw [if_pos hbase, if_pos hbase]
  · rw [if_neg hbase, if_neg hbase]
    simp only [snprintf_of_render (render_hole frames.hole s.ctx.kmemBase)]
    show some (KinitRun.mk 0 (zeroed (s.mem.write s.ctx.kmemBase (holeBytes frames s.ctx)) _ _) _ _) = _
    rw [zeroed_write _ _ (Nat.le_of_lt s.ctx.kmemLen.toNat_lt) (length_holeBytes_le frames s.ctx)]
    rfl

/-- kinit over a map of `n` entries at `memMap`, from the end. -/
def kinitRun (frames : Frames) (m : Mem) (memMap : Addr) (n : Nat) (ctx : CrowsContext)
    (memmapLine : StackBuffer 256) : KinitRun :=
  settled frames (scanAt frames m memMap { ctx with memoryMap := memMap } memmapLine n)

section
variable {frames : Frames} {m : Mem} {head memMap : Addr} {ctx : CrowsContext} {memmapLine : StackBuffer 256} {n : Nat}

theorem entrySize_ne_zero (hmap : MapAt m memMap n) : mapEntrySize m memMap ≠ 0 := by
  intro hzero
  have hsize := hmap.entrySize_ge
  rw [hzero] at hsize
  exact absurd hsize (by decide)

/-- The state in which kinit enters the loop over the entries. -/
def scanStart (frames : Frames) (m : Mem) (memMap : Addr) (ctx : CrowsContext) (memmapLine : StackBuffer 256) :
    Scan where
  p := memMap + 16
  index := 0
  mem := m
  ctx := ctx
  memmapLine := lineAt frames m memMap memmapLine 0
  console := consoleAt frames m memMap memmapLine 0

theorem walkMap_start (hsize : mapEntrySize m memMap ≠ 0) (fuel : Nat) :
    walkMap fuel frames m memMap ctx memmapLine =
      match loop (scanTurn frames memMap) fuel (scanStart frames m memMap ctx memmapLine) with
      | some (some s) => some (settled frames s)
      | _ => none := by
  unfold walkMap
  rw [if_neg hsize, printLine_of_render (render_summary frames.summary _ _)]
  simp only [settleHole_eq]
  rfl

theorem walkMap_eq (hmap : MapAt m memMap n) (fuel : Nat) :
    walkMap fuel frames m memMap ctx memmapLine =
      match loop (scanTurn frames memMap) fuel (scanAt frames m memMap ctx memmapLine 0) with
      | some (some s) => some (settled frames s)
      | _ => none := by
  have hstart : entryAddr m memMap 0 = memMap + 16 := by
    rw [entryAddr, Nat.zero_mul]
    rfl
  have hchosen : chosen m memMap ctx 0 = none := by
    cases hc : chosen m memMap ctx 0 with
    | none => rfl
    | some k => exact absurd (chosen_some hc).2.1 (Nat.not_lt_zero k)
  have hscan : scanAt frames m memMap ctx memmapLine 0 = scanStart frames m memMap ctx memmapLine := by
    unfold scanAt
    rw [hstart, hchosen]
    rfl
  rw [walkMap_start (entrySize_ne_zero hmap), hscan]

theorem seekTag_head_ne_zero {fuel : Nat} {ofType : UInt32} {p : Addr}
    (h : multiboot2SeekTag fuel m ofType head = some (some p)) : head ≠ 0 := by
  intro hzero
  rw [multiboot2SeekTag, if_pos hzero] at h
  cases h

theorem seekTag_mono {fuel fuel' : Nat} (hle : fuel ≤ fuel') {ofType : UInt32} {r : Option Addr}
    (h : multiboot2SeekTag fuel m ofType head = some r) : multiboot2SeekTag fuel' m ofType head = some r := by
  unfold multiboot2SeekTag at *
  by_cases hhead : head = 0
  · rw [if_pos hhead] at h ⊢
    exact h
  · rw [if_neg hhead] at h ⊢
    exact loop_mono hle h

theorem seekTag_unique {fuel fuel' : Nat} {ofType : UInt32} {r r' : Option Addr}
    (h : multiboot2SeekTag fuel m ofType head = some r) (h' : multiboot2SeekTag fuel' m ofType head = some r') :
    r = r' := by
  have hmax := seekTag_mono (Nat.le_max_left fuel fuel') h
  rw [seekTag_mono (Nat.le_max_right fuel fuel') h'] at hmax
  exact (Option.some.inj hmax).symm

/-- Where the block leads to a map, kinit comes to an end, and there is one way it does. -/
theorem kinit_iff (hseek : ∃ fuel, multiboot2SeekTag fuel m MultibootInfoTagType.memoryMap.value head =
      some (some memMap)) (hmap : MapAt m memMap n) (run : KinitRun) :
    (∃ fuel, kinit fuel frames m head ctx memmapLine = some run) ↔
      run = kinitRun frames m memMap n ctx memmapLine := by
  obtain ⟨seekFuel, hseekFuel⟩ := hseek
  have hhead := seekTag_head_ne_zero hseekFuel
  have hscan : Returns (scanTurn frames memMap)
      (scanAt frames m memMap { ctx with memoryMap := memMap } memmapLine 0) _ := scan_returns hmap
  constructor
  · intro h
    obtain ⟨fuel, hrun⟩ := h
    unfold kinit at hrun
    rw [if_neg hhead] at hrun
    cases hs : multiboot2SeekTag fuel m MultibootInfoTagType.memoryMap.value head with
    | none =>
      rw [hs] at hrun
      cases hrun
    | some found =>
      have hsame := seekTag_unique hs hseekFuel
      subst hsame
      rw [hs] at hrun
      simp only [walkMap_eq hmap] at hrun
      cases hl : loop (scanTurn frames memMap) fuel
          (scanAt frames m memMap { ctx with memoryMap := memMap } memmapLine 0) with
      | none =>
        rw [hl] at hrun
        cases hrun
      | some result =>
        have hresult := Returns.unique ⟨fuel, hl⟩ hscan
        subst hresult
        rw [hl] at hrun
        exact (Option.some.inj hrun).symm
  · intro h
    subst h
    obtain ⟨scanFuel, hscanFuel⟩ := hscan
    refine ⟨max seekFuel scanFuel, ?_⟩
    unfold kinit
    rw [if_neg hhead, seekTag_mono (Nat.le_max_left _ _) hseekFuel]
    simp only [walkMap_eq hmap, loop_mono (Nat.le_max_right seekFuel scanFuel) hscanFuel]
    rfl

end

end Crows.Kernel
