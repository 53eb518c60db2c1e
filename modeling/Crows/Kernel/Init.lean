/-
  Crows.Kernel.Init — the kernel's entry and its choice of a temporary memory hole.

  `kmain` checks what the boot loader has left in EAX and EBX and calls `kinit`, which
  finds the Multiboot2 memory map, prints its entries, takes the first one that is free,
  from 2 MiB on and at least 1 MiB long for a pool, marks it reserved in the map and
  clears it. `scanTurn` is one turn of the loop over the entries; it uses the context's
  `kmemBase` itself to know whether it has chosen already.

  Memory is what the map describes; the kernel's image and stack are not part of it, and
  the arrays on the stack and the context are values of their own.
-/
import Crows.Kernel.Multiboot
import Crows.Kernel.Uart

namespace Crows.Kernel

open Crows.Lib
open Crows.Kernel.Multiboot

/-! ## The memory map -/

/-- struct multiboot_memory_map_entry. -/
structure MemoryMapEntry where
  base : UInt64
  length : UInt64
  type : UInt32
  reserved : UInt32
  deriving DecidableEq

def memoryMapEntryAt (m : Mem) (p : Addr) : MemoryMapEntry where
  base := m.readU64 p
  length := m.readU64 (p + 8)
  type := m.readU32 (p + 16)
  reserved := m.readU32 (p + 20)

/-- The map's EntrySize. -/
def mapEntrySize (m : Mem) (memMap : Addr) : UInt32 := m.readU32 (memMap + 8)

/-- entry->Type = 2. -/
def markReserved (m : Mem) (p : Addr) : Mem := m.write (p + 16) [2, 0, 0, 0]

/-! ## The kernel's state -/

/-- struct crows_context. -/
structure CrowsContext where
  memoryMap : Addr
  kmemBase : Addr
  kmemLen : UInt64
  deriving DecidableEq

/-- The uninitialised locals of each snprintf call. -/
structure Frames where
  infoBlock : Locals
  summary : Locals
  entry : Nat → Locals
  hole : Locals

def infoBlockFormat : List UInt8 := ascii "Got Multiboot2 info block at physical address 0x%X.\r\n"

def summaryFormat : List UInt8 :=
  ascii "Iterating Memory Map provided by Multiboot2 (%u bytes, %u entries).\r\n"

def entryFormat : List UInt8 := ascii "   Base 0x%X -- Length 0x%X -- Type %d\r\n"

def holeFormat : List UInt8 := ascii "Using temporary memory hole at '0x%X'.\r\n"

/-! ## kinit -/

/-- What the loop over the entries works on; `index` counts the entries it has printed. -/
structure Scan where
  p : Addr
  index : Nat
  mem : Mem
  ctx : CrowsContext
  memmapLine : StackBuffer 256
  console : List Print

/-- The part of the loop's body behind the printing. -/
def chooseHole (entry : MemoryMapEntry) (s : Scan) : Scan :=
  if s.ctx.kmemBase ≠ 0 then s
  else if entry.base < 0x200000 ∨ entry.type ≠ 1 then s
  else if entry.length < 0x100000 then s
  else
    { s with
      ctx := { s.ctx with kmemBase := entry.base, kmemLen := entry.length },
      mem := markReserved s.mem s.p }

/-- One turn of the loop over the entries. The result is `none` where a print is undefined. -/
def scanTurn (frames : Frames) (memMap : Addr) (s : Scan) : Turn Scan (Option Scan) :=
  if s.p < memMap + (tagSize s.mem memMap).toUInt64 then
    let entry := memoryMapEntryAt s.mem s.p
    match printLine (frames.entry s.index) 256 entryFormat
        [.word entry.base, .word entry.length, .word entry.type.toUInt64] s.memmapLine.clear with
    | none => .done none
    | some (line, print) =>
      let s := chooseHole entry { s with memmapLine := line, console := s.console ++ [print], index := s.index + 1 }
      .again { s with p := s.p + (mapEntrySize s.mem memMap).toUInt64 }
  else .done (some s)

/-- The loop that clears the hole, after `n` turns. -/
def zeroed (m : Mem) (into : Addr) : Nat → Mem
  | 0 => m
  | i + 1 => (zeroed m into i).write (into + UInt64.ofNat i) [0x00]

structure KinitRun where
  ret : Int
  mem : Mem
  ctx : CrowsContext
  console : List Print

/-- `kmem_len` as the int that snprintf takes. -/
def holeLimit (kmemLen : UInt64) : Int := kmemLen.toUInt32.toInt32.toInt

def noHole : Print := .text "Cannot find a suitable temporary memory hole (>=2MiB @1MiB)."

/-- kinit behind the loop over the entries. -/
def settleHole (frames : Frames) (s : Scan) : Option KinitRun :=
  if s.ctx.kmemBase = 0 then
    some ⟨-1, s.mem, s.ctx, s.console ++ [noHole]⟩
  else
    let into := s.ctx.kmemBase
    match snprintf frames.hole (holeLimit s.ctx.kmemLen) holeFormat [.word into] with
    | none => none
    | some printed =>
      let m := s.mem.write into printed.bytes
      some ⟨0, zeroed m into s.ctx.kmemLen.toNat, s.ctx, s.console ++ [.line printed.bytes (memString m into)]⟩

/-- kinit behind the search for the map; `none` where it does not come to an end, as when an EntrySize of 0
    makes the count of the entries a division by zero. -/
def walkMap (fuel : Nat) (frames : Frames) (m : Mem) (memMap : Addr) (ctx : CrowsContext)
    (memmapLine : StackBuffer 256) : Option KinitRun :=
  let size := tagSize m memMap
  if mapEntrySize m memMap = 0 then none
  else
    match printLine frames.summary 256 summaryFormat
        [.word size.toUInt64, .word (size / mapEntrySize m memMap).toUInt64] memmapLine with
    | none => none
    | some (line, print) =>
      match loop (scanTurn frames memMap) fuel ⟨memMap + 16, 0, m, ctx, line, [print]⟩ with
      | some (some s) => settleHole frames s
      | _ => none

def kinit (fuel : Nat) (frames : Frames) (m : Mem) (infoTag : Addr) (ctx : CrowsContext)
    (memmapLine : StackBuffer 256) : Option KinitRun :=
  if infoTag = 0 then some ⟨-1, m, ctx, []⟩
  else
    match multiboot2SeekTag fuel m MultibootInfoTagType.memoryMap.value infoTag with
    | none => none
    | some none => some ⟨-1, m, ctx, [.text "Missing Multiboot2 Memory Map.\r\n"]⟩
    | some (some memMap) => walkMap fuel frames m memMap { ctx with memoryMap := memMap } memmapLine

/-! ## kmain -/

/-- MULTIBOOT_INFO_MAGIC. -/
def multibootInfoMagic : UInt64 := 0x36d76289

/-- `expected_minimum_multiboot_info_size`, the sizes of the headers and tags that are asked for. -/
def expectedMinimumMultibootInfoSize : UInt32 := 8 + 8 + 8 + 40 + 16 + 16

def initFailed : Print := .text "PANIC:  Unable to initialize the CrOwS kernel.\r\n"

structure KmainRun where
  mem : Mem
  ctx : CrowsContext
  console : List Print

def welcome : List Print :=
  [.text "\r\n\r\nWelcome to CrOwS.\r\n\t  CAW CAW CAW!!!\r\n\r\n",
    .text "Crude serial UART driver initialized (duh 😎).\r\n"]

/-- `rax` and `rbx` are what the loader has left in the registers; `message`, `ctx` and `memmapLine` are on
    the stack and hold anything. The serial port is up from `uart_init` on. -/
def kmain (fuel : Nat) (frames : Frames) (m : Mem) (rax rbx : UInt64) (message : StackBuffer 128)
    (ctx : CrowsContext) (memmapLine : StackBuffer 256) : Option KmainRun :=
  let rax := rax &&& 0xffffffff
  let rbx := rbx &&& 0xffffffff
  if rax ≠ multibootInfoMagic ∨ rbx = 0 then
    some ⟨m, ctx, welcome ++ [.text "PANIC:  Multiboot2 Info structure not found. Cannot boot.\r\n"]⟩
  else
    match printLine frames.infoBlock 128 infoBlockFormat [.word rbx] message with
    | none => none
    -- the message is not used again once it has been cleared
    | some (_, print) =>
      let console := welcome ++ [print]
      if totalSize m rbx < expectedMinimumMultibootInfoSize then
        some ⟨m, ctx, console ++ [.text "PANIC:  Invalid Multiboot2 Info structure size. Cannot boot.\r\n"]⟩
      else
        match kinit fuel frames m rbx ctx memmapLine with
        | none => none
        | some run =>
          let console := console ++ run.console
          if run.ret < 0 then some ⟨run.mem, run.ctx, console ++ [initFailed]⟩
          else some ⟨run.mem, run.ctx, console⟩

end Crows.Kernel
