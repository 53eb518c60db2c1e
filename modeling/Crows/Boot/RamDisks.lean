/-
  Crows.Boot.RamDisks — several ramdisks registered side by side.

  RamDiskRegister may be called again and again through its protocol, and it compares a
  base and a size with nothing it has registered before. Here the requests to all the disks
  come in any order, with the callers' own stores in between. A write may take its buffer
  from another disk; a read has its buffer on none.

  To one disk a request to another is a store of a caller (`Event.seenBy`), as long as the
  two share no byte. So:
  - `next_seenBy`: what a step does to a disk is what the disk alone would do.
  - `ramdisks_conform`: apart from each other, each is a block device of its own.
  - `independent_iff_separate`: and they are in no other case.
-/

import Crows.Boot.RamDiskRuns
import Crows.Lib.Transition

namespace Crows.Boot.RamDisks

open Crows.Lib
open Crows.Boot.RamDisk
open Function (update update_self update_of_ne)

/-- A ramdisk as RamDiskRegister was called for it. -/
structure Disk where
  base : UInt64
  size : UInt64
  typ : EfiGuid

variable (L : EfiLib) {ι : Type} [DecidableEq ι] (disks : ι → Disk)

def Disk.privateData (d : Disk) : RamdiskPrivateData := ramDiskPrivateData L d.base d.size d.typ

/-- The byte is one of the disk's. -/
def Disk.Has (d : Disk) (a : Addr) : Prop := InRegion d.base d.size.toNat a

instance (d : Disk) (a : Addr) : Decidable (d.Has a) := inferInstanceAs (Decidable (InRegion d.base d.size.toNat a))

inductive Event (ι : Type) where
  | request (disk : ι) (r : Request)
  /-- The callers' own stores leave `mem`. -/
  | caller (mem : Mem)

/-- The memory, and of each disk the writes that went through. -/
structure State (ι : Type) where
  mem : Mem
  logs : ι → List (BlockWrite (List UInt8))

/-- A read leaves every disk alone, and a write is not from the disk itself. -/
def BufferOutside (disk : ι) : Request → Prop
  | .read _ _ _ n buf => ∀ i, Separate buf n.toNat (disks i).base (disks i).size.toNat
  | .write i id lba n buf => (Request.write i id lba n buf).BufferOutside (disks disk).base (disks disk).size
  | .flush _ => True

def enabled (s : State ι) : Event ι → Prop
  | .request disk r => BufferOutside disks disk r
  | .caller mem => ∀ i a, (disks i).Has a → mem a = s.mem a

def next (s : State ι) : Event ι → State ι
  | .request disk r =>
    { mem := (serve L ((disks disk).privateData L) s.mem r).mem
      logs := update s.logs disk (s.logs disk ++ written L ((disks disk).privateData L) s.mem (.request r)) }
  | .caller mem => { s with mem }

def system : System (State ι) (Event ι) := ⟨fun s => s.logs = fun _ => [], enabled disks, next L disks⟩

abbrev Reachable (m₀ : Mem) (s : State ι) : Prop :=
  ∃ as, Run (system L disks) (fun _ _ => True) ⟨m₀, fun _ => []⟩ as s

/-! ## What one disk sees -/

/-- The event as disk `i` sees it: a request to another disk stores bytes. -/
def Event.seenBy (i : ι) (s : State ι) (e : Event ι) : RamDisk.Event :=
  match e with
  | .request disk r => if disk = i then .request r else .caller (next L disks s e).mem
  | .caller mem => .caller mem

/-- The state of disk `i`. -/
def State.of (s : State ι) (i : ι) : St := ⟨s.mem, s.logs i⟩

variable {L disks}

omit [DecidableEq ι] in
theorem bufferOutside_own {disk : ι} {r : Request} (h : BufferOutside disks disk r) :
    r.BufferOutside (disks disk).base (disks disk).size := by
  cases r with
  | read i id lba n buf => exact h disk
  | write i id lba n buf => exact h
  | flush i => trivial

/-- The disks share no byte. -/
def Apart (disks : ι → Disk) : Prop :=
  ∀ i j, i ≠ j → Separate (disks i).base (disks i).size.toNat (disks j).base (disks j).size.toNat

/-- The checks of RamDiskRegister have let every disk through. -/
def Registered (disks : ι → Disk) : Prop := ∀ i, Accepted (disks i).base (disks i).size

omit [DecidableEq ι] in
/-- A request to one disk changes no byte of another. -/
theorem serve_elsewhere (hL : L.Documented) (hreg : Registered disks) (hapart : Apart disks) {m : Mem} {i j : ι}
    (hij : i ≠ j) {r : Request} (hr : BufferOutside disks i r) {a : Addr} (ha : (disks j).Has a) :
    (serve L ((disks i).privateData L) m r).mem a = m a := by
  rw [Disk.privateData, serve_eq (privateData_readOnly _ _ _), report_mem]
  cases r with
  | read iface id lba n buf => exact core_readFrame hL (hreg i) (hr i) fun hin => hr j a hin ha
  | write iface id lba n buf =>
    rcases core_settled (L := L) (ramDiskPrivateData L (disks i).base (disks i).size (disks i).typ) m
      (.write iface id lba n buf) with hok | ⟨-, hm⟩
    · rcases write_effect hL (hreg i) hr hok with ⟨-, hm⟩ | ⟨hn, hin, hm⟩
      · exact congrFun hm a
      · refine (congrFun hm a).trans (Mem.write_frame ?_)
        rw [Mem.length_read]
        exact fun hblock => hapart i j hij a (inside_region (hreg i) hin hn hblock) ha
    · exact congrFun hm a
  | flush iface => rfl

/-- A step is to each disk what the disk alone does with what it sees of the event. -/
theorem next_seenBy (hL : L.Documented) (hreg : Registered disks) (hapart : Apart disks) {s : State ι} {e : Event ι}
    (he : enabled disks s e) (i : ι) :
    (next L disks s e).of i = RamDisk.step L ((disks i).privateData L) (s.of i) (e.seenBy L disks i s) := by
  cases e with
  | request disk r =>
    by_cases heq : disk = i
    · subst heq
      simp [next, State.of, Event.seenBy, RamDisk.step, memAfter]
    · have hmem : (next L disks s (.request disk r)).mem =
          memAfter L ((disks i).privateData L) s.mem (.caller (next L disks s (.request disk r)).mem) := by
        funext a
        simp only [memAfter]
        split
        · rename_i ha
          exact serve_elsewhere hL hreg hapart heq he ha
        · rfl
      simp only [Event.seenBy, if_neg heq, RamDisk.step, State.of, written, List.append_nil]
      rw [← hmem]
      simp only [next, update_of_ne (Ne.symm heq)]
  | caller mem =>
    have hmem : mem = memAfter L ((disks i).privateData L) s.mem (.caller mem) := by
      funext a
      simp only [memAfter]
      split
      · rename_i ha
        exact he i a ha
      · rfl
    simp only [next, State.of, Event.seenBy, RamDisk.step, written, List.append_nil]
    rw [← hmem]

theorem seenBy_bufferOutside {s : State ι} {e : Event ι} (he : enabled disks s e) (i : ι) :
    (e.seenBy L disks i s).BufferOutside (disks i).base (disks i).size := by
  cases e with
  | request disk r =>
    unfold Event.seenBy
    dsimp only
    split
    · rename_i heq
      subst heq
      exact bufferOutside_own he
    · trivial
  | caller mem => trivial

/-! ## Independent disks -/

/-- Each block of disk `i` is as the last write through `i` left it. -/
def IsDevice (disks : ι → Disk) (m₀ : Mem) (i : ι) (s : State ι) : Prop :=
  ∀ b, OnDisk (disks i).size b → diskBlock (disks i).base s.mem b = device (disks i).base m₀ (s.logs i) b

variable (L disks) in
/-- In every run each disk's blocks are those of a device that only its own writes have changed. -/
def Independent : Prop := ∀ m₀ s, Reachable L disks m₀ s → ∀ i, IsDevice disks m₀ i s

theorem IsDevice.next (hL : L.Documented) (hreg : Registered disks) (hapart : Apart disks) {m₀ : Mem} {i : ι}
    {s : State ι} (h : IsDevice disks m₀ i s) {e : Event ι} (he : enabled disks s e) :
    IsDevice disks m₀ i (next L disks s e) := by
  have hstep := @step_device L (disks i).base (disks i).size (disks i).typ hL (hreg i) m₀ (s.of i) _
    (seenBy_bufferOutside (L := L) he i) h
  rw [← Disk.privateData, ← next_seenBy hL hreg hapart he i] at hstep
  exact hstep

theorem independent_of_apart (hL : L.Documented) (hreg : Registered disks) (hapart : Apart disks) :
    Independent L disks := by
  intro m₀ s hs i
  obtain ⟨as, hrun⟩ := hs
  have hinit : IsDevice disks m₀ i ⟨m₀, fun _ => []⟩ := by
    intro b _
    rw [device, latest_nil]
  have hstep : ∀ s e, IsDevice disks m₀ i s → enabled disks s e → IsDevice disks m₀ i (next L disks s e) :=
    fun s e h he => h.next hL hreg hapart he
  induction hrun with
  | nil => exact hinit
  | snoc e _ he _ ih => exact hstep _ e ih he

/-- A ramdisk of two blocks and one of one block, `gap` bytes behind its beginning. -/
def twoDisks (gap : UInt64) (second : Bool) : Disk :=
  if second then ⟨0x10000 + gap, 512, gEfiRamdiskVirtualDiskGuid⟩ else ⟨0x10000, 1024, gEfiRamdiskVirtualDiskGuid⟩

theorem twoDisks_registered (second : Bool) :
    ramDiskRegisterChecks (twoDisks 1024 second).base (twoDisks 1024 second).size
      (some (twoDisks 1024 second).typ) 1 = .success := by
  cases second <;> decide

theorem twoDisks_apart : Apart (twoDisks 1024) := by
  have hapart : Separate 0x10000 1024 0x10400 512 := separate_of_le (by decide) (by decide)
  intro i j hij
  cases i <;> cases j
  · exact absurd rfl hij
  · exact hapart
  · exact hapart.symm
  · exact absurd rfl hij

/-- The number of the block that a byte of a disk is in. -/
def blockOf (base a : UInt64) : Nat := (a.toNat - base.toNat) / 512

theorem blockOf_spec {d : Disk} (hd : Accepted d.base d.size) {a : Addr} (ha : d.Has a) :
    OnDisk d.size (blockOf d.base a) ∧ d.base.toNat + blockOf d.base a * 512 ≤ a.toNat ∧
      a.toNat < d.base.toNat + blockOf d.base a * 512 + 512 := by
  have ha' := (inRegion_iff hd.fits a).mp ha
  have hal := hd.aligned
  unfold OnDisk blockOf
  omega

/-- The byte is in the block. -/
theorem inRegion_blockOf {d : Disk} (hd : Accepted d.base d.size) {a : Addr} (ha : d.Has a) :
    InRegion (d.base + UInt64.ofNat (blockOf d.base a * 512)) 512 a := by
  obtain ⟨hon, hlow, hhigh⟩ := blockOf_spec hd ha
  have hend := hon.end_le
  have hfits := hd.fits
  have haddr : (d.base + UInt64.ofNat (blockOf d.base a * 512)).toNat = d.base.toNat + blockOf d.base a * 512 := by
    simp only [UInt64.toNat_add, UInt64.toNat_ofNat']
    omega
  exact (inRegion_iff (by omega) a).mpr (by omega)

/-- Memory in which a buffer of one block holds ones and everything else zeros. -/
def onesAt (buf : Addr) : Mem := fun a => if InRegion buf 512 a then 1 else 0

/-- The write of that buffer to the block of disk `i` that the byte is in. -/
def writeOver (disks : ι → Disk) (i : ι) (a : Addr) (buf : Addr) : Event ι :=
  .request i (.write .blkIo 0 (UInt64.ofNat (blockOf (disks i).base a)) 512 buf)

/-- A write of that buffer to the block that the byte is in puts a one there. -/
theorem write_ones (hL : L.Documented) {d : Disk} (hd : Accepted d.base d.size) {buf : Addr} (hbuf : buf ≠ 0)
    (hroom : Separate buf 512 d.base d.size.toNat) {a : Addr} (ha : d.Has a) :
    (serve L (d.privateData L) (onesAt buf) (.write .blkIo 0 (UInt64.ofNat (blockOf d.base a)) 512 buf)).mem a = 1 := by
  obtain ⟨hon, hlow, hhigh⟩ := blockOf_spec hd ha
  have hend := hon.end_le
  have hsize := d.size.toNat_lt
  have hlba : (UInt64.ofNat (blockOf d.base a)).toNat = blockOf d.base a := by
    rw [UInt64.toNat_ofNat']
    omega
  have h512 : (512 : UInt64).toNat = 512 := rfl
  have hin : Inside d.size (UInt64.ofNat (blockOf d.base a)) 512 := by
    unfold Inside
    rw [hlba, h512]
    omega
  have hok : (core L (ramDiskPrivateData L d.base d.size d.typ) (onesAt buf)
      (.write .blkIo 0 (UInt64.ofNat (blockOf d.base a)) 512 buf)).1 = .success :=
    (core_decision (m := onesAt buf) hL hd (Or.inr rfl) (by decide) hbuf).mpr hin
  have hout : (Request.write .blkIo 0 (UInt64.ofNat (blockOf d.base a)) 512 buf).BufferOutside d.base d.size := hroom
  have heffect := (core_writeEffect hL hd hout hok (by decide)).2 a
  rw [Disk.privateData, serve_eq (privateData_readOnly _ _ _), report_mem, heffect, hlba, h512,
    if_pos ⟨hlow, hhigh⟩]
  exact if_pos (inRegion_offset (by omega) (by omega))

theorem apart_of_independent (hL : L.Documented) (hreg : Registered disks) {buf : Addr} (hbuf : buf ≠ 0)
    (hroom : ∀ i, Separate buf 512 (disks i).base (disks i).size.toNat) (h : Independent L disks) : Apart disks := by
  intro i j hij a hi hj
  have he : (system L disks).enabled ⟨onesAt buf, fun _ => []⟩ (writeOver disks i a buf) := hroom i
  have hs : Reachable L disks (onesAt buf) (next L disks ⟨onesAt buf, fun _ => []⟩ (writeOver disks i a buf)) :=
    ⟨_, Run.nil.snoc _ he trivial⟩
  obtain ⟨hon, -⟩ := blockOf_spec (hreg j) hj
  have hdevice := h _ _ hs j _ hon
  have hlog : (next L disks ⟨onesAt buf, fun _ => []⟩ (writeOver disks i a buf)).logs j = [] := by
    simp only [writeOver, next, update_of_ne (Ne.symm hij)]
  rw [hlog, device, latest_nil] at hdevice
  -- disk `j` has not been written to, and yet the byte has changed
  have hsame := (Mem.read_eq_iff (by decide)).mp hdevice a (inRegion_blockOf (hreg j) hj)
  have hone : (next L disks ⟨onesAt buf, fun _ => []⟩ (writeOver disks i a buf)).mem a = 1 :=
    write_ones hL (hreg i) hbuf (hroom i) hi
  rw [hone] at hsame
  have hzero : onesAt buf a = 0 := if_neg fun hin => hroom j a hin hj
  rw [hzero] at hsame
  exact absurd hsame (by decide)

end Crows.Boot.RamDisks
