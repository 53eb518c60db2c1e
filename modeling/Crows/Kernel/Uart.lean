/-
  Crows.Kernel.Uart — char arrays on the stack, and what uart_puts sends of them.

  A `StackBuffer` is an array together with what stands behind it on the stack: the
  string in it ends at the first NUL, in the array or behind it. `store` is what snprintf
  leaves in it, `clear` the kernel's clearing loop, whose bound `strlen` falls to 0 with
  the first byte it clears: `clear_eq`, it clears that byte and no other.

  Proved: `line_exact_iff`, a text stored in the array is sent as it was stored exactly
  when the byte behind it was NUL (`mem_line_exact_iff` of a text stored in memory).
-/
import Crows.Lib.Memory
import Crows.Kernel.Str

namespace Crows.Kernel

open Crows.Lib
open Function (update update_self update_of_ne)

/-- A char array of `size` bytes from cell 0 on, and the stack behind it, which holds a NUL somewhere. -/
structure StackBuffer (size : Nat) where
  cells : Nat → UInt8
  nulAt : Nat
  size_le : size ≤ nulAt
  nul : cells nulAt = 0

namespace StackBuffer

variable {size : Nat}

theorem ext_cells {b c : StackBuffer size} (hcells : b.cells = c.cells) (hnul : b.nulAt = c.nulAt) : b = c := by
  cases b
  cases c
  simp only at hcells hnul
  subst hcells
  subst hnul
  rfl

/-- An array of zeros. -/
def cleared (size : Nat) : StackBuffer size := ⟨fun _ => 0, size, Nat.le_refl size, rfl⟩

/-- What uart_puts sends of the array: it goes on until it meets a NUL. -/
def string (b : StackBuffer size) : List UInt8 := NulString.scan 0 b.cells b.nulAt 0

def strlen (b : StackBuffer size) : Nat := b.string.length

/-- snprintf has stored the bytes from cell 0 on, none of them behind the array. -/
def store (b : StackBuffer size) (bytes : List UInt8) : StackBuffer size where
  cells := NulString.overlay (bytes.take size) b.cells
  nulAt := b.nulAt
  size_le := b.size_le
  nul := by
    have hle := b.size_le
    rw [NulString.overlay_of_le (by simp only [List.length_take]; omega)]
    exact b.nul

def zero (b : StackBuffer size) (i : Nat) : StackBuffer size where
  cells := update b.cells i 0
  nulAt := b.nulAt
  size_le := b.size_le
  nul := by
    by_cases hi : b.nulAt = i
    · rw [hi, update_self]
    · rw [update_of_ne hi]
      exact b.nul

/-- `for (int i = 0; i < strlen(buffer); ++i) buffer[i] = 0x00;` -/
def clearFrom : Nat → Nat → StackBuffer size → StackBuffer size
  | 0, _, b => b
  | turns + 1, i, b => if i < b.strlen then clearFrom turns (i + 1) (b.zero i) else b

/-- The string never grows, so there are no more turns than it has bytes at first. -/
def clear (b : StackBuffer size) : StackBuffer size := b.clearFrom b.strlen 0

/-! ## What is left in the array -/

theorem string_eq (b : StackBuffer size) : b.string = (NulString.ofBuffer b.cells b.nulAt : CString).chars := by
  unfold string
  rw [NulString.scan_eq_ofBuffer]
  simp only [Nat.zero_add]

theorem string_eq_nil (b : StackBuffer size) : b.string = [] ↔ b.cells 0 = 0 := by
  rw [string_eq]
  refine NulString.ofBuffer_eq_nil ?_
  intro hzero
  have hnul := b.nul
  rw [hzero] at hnul
  exact hnul

theorem strlen_zero (b : StackBuffer size) : (b.zero 0).strlen = 0 := by
  have hnil : (b.zero 0).string = [] := (string_eq_nil _).mpr (update_self 0 0 b.cells)
  unfold strlen
  rw [hnil]
  rfl

/-- The clearing loop clears one byte. -/
theorem clear_eq (b : StackBuffer size) : b.clear = b.zero 0 := by
  unfold clear
  cases hlen : b.strlen with
  | zero =>
    have hnil : b.string = [] := List.length_eq_zero_iff.mp hlen
    have hcell := (string_eq_nil b).mp hnil
    refine ext_cells ?_ rfl
    show b.cells = update b.cells 0 0
    rw [← hcell, Function.update_eq_self]
  | succ turns =>
    rw [clearFrom, if_pos (by omega)]
    cases turns with
    | zero => rfl
    | succ turns =>
      rw [clearFrom, strlen_zero, if_neg (Nat.not_lt_zero _)]

theorem clear_cells (b : StackBuffer size) {i : Nat} (hi : i ≠ 0) : b.clear.cells i = b.cells i := by
  rw [clear_eq]
  exact update_of_ne hi 0 b.cells

theorem store_cells (b : StackBuffer size) {bytes : List UInt8} (h : bytes.length ≤ size) :
    (b.store bytes).cells = NulString.overlay bytes b.cells := by
  show NulString.overlay (bytes.take size) b.cells = _
  rw [List.take_of_length_le h]

/-- A text without NULs that fits into the array is sent as it was stored exactly when the byte behind it
    was NUL. -/
theorem line_exact_iff {b : StackBuffer size} {bytes : List UInt8} (hfits : bytes.length ≤ size)
    (hbytes : 0 ∉ bytes) : (b.store bytes).string = bytes ↔ b.cells bytes.length = 0 := by
  have hle := b.size_le
  rw [string_eq, store_cells b hfits]
  exact NulString.ofBuffer_overlay_eq_iff hbytes (Nat.le_trans hfits hle) fun _ => b.nul

end StackBuffer

/-- The string at an address, which is no longer than the address space. -/
def memString (m : Mem) (a : Addr) : List UInt8 := NulString.scan 0 (fun i => m (a + UInt64.ofNat i)) (2 ^ 64) 0

/-- The same of a text stored in memory. -/
theorem mem_line_exact_iff {m : Mem} {into : Addr} {bytes : List UInt8} (hfits : bytes.length < 2 ^ 64)
    (hbytes : 0 ∉ bytes) :
    memString (m.write into bytes) into = bytes ↔ m (into + UInt64.ofNat bytes.length) = 0 := by
  have hover : ∀ i < 2 ^ 64, m.write into bytes (into + UInt64.ofNat (0 + i)) =
      NulString.overlay bytes (fun k => m (into + UInt64.ofNat k)) i := by
    intro i hi
    rw [Nat.zero_add, Mem.write, toNat_offset hi]
    rfl
  unfold memString
  rw [NulString.scan_eq_ofBuffer, NulString.ofBuffer_congr hover]
  exact NulString.ofBuffer_overlay_eq_iff hbytes (Nat.le_of_lt hfits) fun heq => absurd heq (Nat.ne_of_lt hfits)

/-- What is handed to uart_puts: a literal, or what an snprintf call has left in a buffer. -/
inductive Print where
  | text (s : String)
  /-- The bytes that the snprintf call produced, and those that uart_puts sends. -/
  | line (produced sent : List UInt8)

/-- An snprintf call on an array and the uart_puts behind it. `none` where the call is undefined. -/
def printLine {size : Nat} (locals : Locals) (limit : Int) (fmt : List UInt8) (args : List Arg)
    (b : StackBuffer size) : Option (StackBuffer size × Print) :=
  match snprintf locals limit fmt args with
  | none => none
  | some printed => some (b.store printed.bytes, .line printed.bytes (b.store printed.bytes).string)

end Crows.Kernel
