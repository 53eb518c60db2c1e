/-
  Crows.Kernel.Scratch — the local arrays in which snprintf builds its numbers.

  Each numeric conversion clears a prefix of a char array on the stack, stores the digits
  backwards from a fixed index and hands on a pointer to the one stored last, so the text
  goes on behind the digits until it meets a NUL. `Scratch` keeps the array, the index that
  was assigned last and a log of the indices stored to.

  Proved, for whatever the stack held before:
  - `hexText_eq`, `uText_eq`, `dText_eq`: the texts are the strings of the numbers; that of a
    hexadecimal one ends in what stood at `hex_as_str[16]`, which is not cleared.
  - `hexScratch_inRange`, `uScratch_inRange`: these two arrays are stored to inside.
  - `dScratch_inRange_iff`: so is the third, exactly when the number is not negative.
-/
import Crows.Lib.Numerals
import Crows.Kernel.Uart

namespace Crows.Kernel

open Crows.Lib
open Function (update update_self update_of_ne)

namespace StackBuffer

variable {size : Nat}

/-- A store into the array. -/
def put (b : StackBuffer size) (i : Nat) (c : UInt8) : StackBuffer size where
  cells := if i < size then update b.cells i c else b.cells
  nulAt := b.nulAt
  size_le := b.size_le
  nul := by
    have hle := b.size_le
    by_cases hi : i < size
    · rw [if_pos hi, update_of_ne (by omega)]
      exact b.nul
    · rw [if_neg hi]
      exact b.nul

/-- What is read from cell `k` on up to a NUL. -/
def stringFrom (b : StackBuffer size) (k : Nat) : List UInt8 := NulString.scan 0 b.cells (b.nulAt - k) k

theorem put_self (b : StackBuffer size) {i : Nat} (hi : i < size) (c : UInt8) : (b.put i c).cells i = c := by
  show (if i < size then update b.cells i c else b.cells) i = c
  rw [if_pos hi, update_self]

theorem put_of_ne (b : StackBuffer size) {i k : Nat} (hk : k ≠ i) (c : UInt8) : (b.put i c).cells k = b.cells k := by
  show (if i < size then update b.cells i c else b.cells) k = b.cells k
  by_cases hi : i < size
  · rw [if_pos hi, update_of_ne hk]
  · rw [if_neg hi]

theorem zero_notMem_stringFrom (b : StackBuffer size) (k : Nat) : 0 ∉ b.stringFrom k := by
  unfold stringFrom
  rw [NulString.scan_eq_ofBuffer]
  exact (NulString.ofBuffer _ _ : CString).nul_notMem

theorem stringFrom_nul {b : StackBuffer size} {k : Nat} (h : b.cells k = 0) : b.stringFrom k = [] := by
  unfold stringFrom
  cases b.nulAt - k with
  | zero => rfl
  | succ n => exact if_pos h

theorem stringFrom_cons {b : StackBuffer size} {k : Nat} (hk : k < size) (h : b.cells k ≠ 0) :
    b.stringFrom k = b.cells k :: b.stringFrom (k + 1) := by
  have hle := b.size_le
  have hleft : b.nulAt - k = b.nulAt - (k + 1) + 1 := by omega
  unfold stringFrom
  rw [hleft, NulString.scan, if_neg h]

theorem stringFrom_eq_nil {b : StackBuffer size} {k : Nat} (hk : k < size) : b.stringFrom k = [] ↔ b.cells k = 0 := by
  constructor
  · intro h
    by_contra hne
    rw [stringFrom_cons hk hne] at h
    cases h
  · exact stringFrom_nul

/-- A store before the place read from does not show. -/
theorem stringFrom_put (b : StackBuffer size) {i k : Nat} (hi : i < k) (c : UInt8) :
    (b.put i c).stringFrom k = b.stringFrom k := by
  unfold stringFrom
  rw [NulString.scan_eq_ofBuffer, NulString.scan_eq_ofBuffer]
  refine congrArg NulString.chars (NulString.ofBuffer_congr ?_)
  intro j _
  exact b.put_of_ne (by omega) c

end StackBuffer

/-! ## The arrays -/

structure Scratch (size : Nat) where
  array : StackBuffer size
  /-- The index `str_to_print` points to. -/
  last : Option Int
  /-- The indices stored to; `none` is one computed from a variable that was not assigned. -/
  stores : List (Option Int)

namespace Scratch

variable {size : Nat}

def ofStack (b : StackBuffer size) : Scratch size := ⟨b, none, []⟩

/-- `for (int i = 0; i < n; ++i) array[i] = 0;` -/
def clear : Nat → Scratch size → Scratch size
  | 0, a => a
  | n + 1, a =>
    let a := clear n a
    { a with array := a.array.put n 0, stores := a.stores ++ [some (n : Int)] }

/-- A character is stored and pointed to. What a store outside the array destroys is not part of it. -/
def store (a : Scratch size) (i : Int) (c : UInt8) : Scratch size where
  array := if 0 ≤ i then a.array.put i.toNat c else a.array
  last := some i
  stores := a.stores ++ [some i]

/-- The loop over the digits of `x`, the `i`-th of which goes to index `top - 1 - i`. -/
def digitLoop (base : Nat) (digit : Nat → UInt8) (top : Int) : Nat → Nat → Nat → Scratch size → Scratch size
  | 0, _, _, a => a
  | fuel + 1, x, i, a =>
    if x > 0 then digitLoop base digit top fuel (x / base) (i + 1) (a.store (top - 1 - i) (digit (x % base)))
    else a

/-- What is printed: nothing where no pointer was assigned. -/
def text (a : Scratch size) : List UInt8 :=
  match a.last with
  | none => []
  | some k => a.array.stringFrom k.toNat

/-- Each index stored to was assigned and is one of the array's. -/
def InRange (a : Scratch size) : Prop := ∀ e ∈ a.stores, ∃ i : Int, e = some i ∧ 0 ≤ i ∧ i < size

end Scratch

/-- The local arrays as the stack holds them when a token is printed. -/
structure Arrays where
  hex : StackBuffer 17
  u : StackBuffer 11
  d : StackBuffer 12
  /-- What stands behind the '-' that is stored through a `d_at` that was not assigned. -/
  behindMinus : CString

/-- `hex_as_str`, of which 9 of the 17 cells are cleared. -/
def hexScratch (token : UInt8) (hex : Nat) (b : StackBuffer 17) : Scratch 17 :=
  Scratch.digitLoop 16 (hexDigit token) 16 32 hex 0 (Scratch.clear 9 (Scratch.ofStack b))

def uScratch (u : Nat) (b : StackBuffer 11) : Scratch 11 :=
  Scratch.digitLoop 10 decDigit 10 32 u 0 (Scratch.clear 11 (Scratch.ofStack b))

/-- `d_as_str`: the loop over the digits runs while `x > 0`, so for a negative number it leaves `d_at` as it
    was declared. -/
def dScratch (d : Int) (b : StackBuffer 12) : Scratch 12 :=
  let a := Scratch.digitLoop 10 decDigit (if d < 0 then 11 else 10) 32 d.toNat 0
    (Scratch.clear 11 (Scratch.ofStack b))
  if d < 0 then
    match a.last with
    | some dAt => a.store (dAt - 1) (chr '-')
    | none => { a with stores := a.stores ++ [none] }
  else a

/-- `str_to_print` of a %x or %X. -/
def hexText (token : UInt8) (value : UInt64) (b : StackBuffer 17) : List UInt8 :=
  let hex := value.toUInt32.toNat
  if hex = 0 then [chr '0'] else (hexScratch token hex b).text

def uText (value : UInt64) (b : StackBuffer 11) : List UInt8 :=
  let u := value.toUInt32.toNat
  if u = 0 then [chr '0'] else (uScratch u b).text

def dText (value : UInt64) (arrays : Arrays) : List UInt8 :=
  let d := value.toUInt32.toInt32.toInt
  if d = 0 then [chr '0']
  else if d < 0 then chr '-' :: arrays.behindMinus.chars
  else (dScratch d arrays.d).text

/-- What the stack holds from `hex_as_str[16]` on. -/
def Arrays.hexTail (arrays : Arrays) : CString :=
  ⟨arrays.hex.stringFrom 16, arrays.hex.zero_notMem_stringFrom 16⟩

/-! ## The loops -/

namespace Scratch

variable {size : Nat}

theorem clear_last (n : Nat) (a : Scratch size) : (clear n a).last = a.last := by
  induction n with
  | zero => rfl
  | succ n ih => exact ih

theorem clear_cells {n k : Nat} (a : Scratch size) (hk : k < n) (hsize : k < size) :
    (clear n a).array.cells k = 0 := by
  induction n with
  | zero => exact absurd hk (Nat.not_lt_zero k)
  | succ n ih =>
    show ((clear n a).array.put n 0).cells k = 0
    by_cases hlast : k = n
    · subst hlast
      exact (clear k a).array.put_self hsize 0
    · rw [StackBuffer.put_of_ne _ hlast]
      exact ih (by omega)

theorem clear_stringFrom {n k : Nat} (a : Scratch size) (hk : n ≤ k) :
    (clear n a).array.stringFrom k = a.array.stringFrom k := by
  induction n with
  | zero => rfl
  | succ n ih =>
    show ((clear n a).array.put n 0).stringFrom k = _
    rw [StackBuffer.stringFrom_put _ (by omega), ih (by omega)]

theorem clear_inRange {n : Nat} (hn : n ≤ size) (b : StackBuffer size) : (clear n (ofStack b)).InRange := by
  induction n with
  | zero =>
    intro e he
    cases he
  | succ n ih =>
    intro e he
    rcases List.mem_append.mp he with hbefore | hlast
    · exact ih (by omega) e hbefore
    · exact ⟨n, List.mem_singleton.mp hlast, by omega, by omega⟩

theorem store_text {a : Scratch size} {k : Nat} {c : UInt8} (hk : k < size) (hc : c ≠ 0) :
    (a.store k c).text = c :: a.array.stringFrom (k + 1) := by
  have hself := a.array.put_self hk c
  have hne : (a.array.put k c).cells k ≠ 0 := by
    rw [hself]
    exact hc
  show (if (0 : Int) ≤ k then a.array.put k c else a.array).stringFrom k = _
  rw [if_pos (Int.natCast_nonneg k), StackBuffer.stringFrom_cons hk hne, hself,
    StackBuffer.stringFrom_put _ (Nat.lt_succ_self k)]

theorem store_inRange {a : Scratch size} (ha : a.InRange) {i : Int} (hlow : 0 ≤ i) (hhigh : i < size) (c : UInt8) :
    (a.store i c).InRange := by
  intro e he
  rcases List.mem_append.mp he with hbefore | hlast
  · exact ha e hbefore
  · exact ⟨i, List.mem_singleton.mp hlast, hlow, hhigh⟩

/-- A number of at most `k` digits is stored in the `k` cells before the place reached. -/
theorem digitLoop_inRange {base : Nat} {digit : Nat → UInt8} (top k : Nat) {fuel x i : Nat} {a : Scratch size}
    (ha : a.InRange) (hx : x < base ^ k) (hroom : i + k ≤ top) (htop : top ≤ size) :
    (digitLoop base digit top fuel x i a).InRange := by
  induction fuel generalizing k x i a with
  | zero => exact ha
  | succ fuel ih =>
    by_cases hpos : x > 0
    · cases k with
      | zero =>
        rw [Nat.pow_zero] at hx
        omega
      | succ k =>
        rw [digitLoop, if_pos hpos]
        rw [Nat.pow_succ] at hx
        refine ih k (store_inRange ha ?_ ?_ _) (Nat.div_lt_of_lt_mul (by rwa [Nat.mul_comm])) (by omega)
        · omega
        · omega
    · rw [digitLoop, if_neg hpos]
      exact ha

section
variable {base : Nat} {digit : Nat → UInt8} (hbase : 2 ≤ base) (hdigit : ∀ r < base, digit r ≠ 0)
include hbase

include hdigit

/-- The digits are put before the text that the array holds from the place reached on. -/
theorem digitLoop_text {top fuel x i k : Nat} {a : Scratch size} (hfuel : x < 2 ^ fuel) (hx : x < base ^ k)
    (hroom : i + k ≤ top) (htop : top ≤ size) (hlast : x > 0 ∨ a.last = some ((top - i : Nat) : Int)) :
    (digitLoop base digit top fuel x i a).text = digits base digit fuel x (a.array.stringFrom (top - i)) := by
  -- where no digit is left, the last one stored is at the place reached
  have hend : ¬ x > 0 → a.text = a.array.stringFrom (top - i) := by
    intro hpos
    have hat := hlast.resolve_left hpos
    unfold text
    rw [hat]
    rfl
  induction fuel generalizing x i k a with
  | zero => exact hend (by omega)
  | succ fuel ih =>
    by_cases hpos : x > 0
    · cases k with
      | zero =>
        rw [Nat.pow_zero] at hx
        omega
      | succ k =>
        have hplace : (top : Int) - 1 - (i : Int) = ((top - (i + 1) : Nat) : Int) := by omega
        have hnext : top - (i + 1) + 1 = top - i := by omega
        have hless : x / base < 2 ^ fuel := by
          have hhalf : x / base ≤ x / 2 := Nat.div_le_div_left hbase (by omega)
          omega
        have htext := store_text (a := a) (k := top - (i + 1)) (by omega)
          (hdigit (x % base) (Nat.mod_lt x (by omega)))
        rw [hnext] at htext
        rw [Nat.pow_succ] at hx
        rw [digitLoop, digits, if_pos hpos, if_pos hpos, hplace, ← htext]
        exact ih hless (Nat.div_lt_of_lt_mul (by rwa [Nat.mul_comm])) (by omega) (Or.inr rfl) (fun _ => rfl)
    · rw [digitLoop, digits, if_neg hpos, if_neg hpos]
      exact hend hpos

end

end Scratch

/-! ## The numbers -/

/-- An array with the digits of a number before cell `top`, where the cells before `cleared` were cleared. -/
theorem digits_text {size base x : Nat} {digit : Nat → UInt8} (cleared top : Nat) (b : StackBuffer size)
    (hbase : 2 ≤ base) (hdigit : ∀ r < base, digit r ≠ 0) (hpos : x > 0) (hx : x < base ^ top) (hlt : x < 2 ^ 32) (htop : top ≤ size) :
    (Scratch.digitLoop base digit top 32 x 0 (Scratch.clear cleared (Scratch.ofStack b))).text =
      digits base digit 32 x ((Scratch.clear cleared (Scratch.ofStack b)).array.stringFrom top) :=
  Scratch.digitLoop_text hbase hdigit hlt hx (by omega) htop (Or.inl hpos)

theorem hexText_eq (token : UInt8) (value : UInt64) (arrays : Arrays) :
    hexText token value arrays.hex = hexString token value arrays.hexTail := by
  have hlt := value.toUInt32.toNat_lt
  unfold hexText hexString
  by_cases hzero : value.toUInt32.toNat = 0
  · rw [if_pos hzero, if_pos hzero]
  · have htext := digits_text 9 16 arrays.hex (by omega) (fun _ => hexDigit_ne_zero token)
      (Nat.pos_of_ne_zero hzero) (by omega) hlt (by omega)
    rw [Scratch.clear_stringFrom _ (by omega)] at htext
    rw [if_neg hzero, if_neg hzero]
    exact htext

theorem uText_eq (value : UInt64) (b : StackBuffer 11) : uText value b = uString value := by
  have hlt := value.toUInt32.toNat_lt
  unfold uText uString
  by_cases hzero : value.toUInt32.toNat = 0
  · rw [if_pos hzero, if_pos hzero]
  · have htext := digits_text 11 10 b (by omega) (fun _ => decDigit_ne_zero)
      (Nat.pos_of_ne_zero hzero) (by omega) hlt (by omega)
    rw [StackBuffer.stringFrom_nul (Scratch.clear_cells _ (by omega) (by omega))] at htext
    rw [if_neg hzero, if_neg hzero]
    exact htext

theorem dScratch_of_pos {d : Int} (hd : 0 < d) (b : StackBuffer 12) :
    dScratch d b =
      Scratch.digitLoop 10 decDigit 10 32 d.toNat 0 (Scratch.clear 11 (Scratch.ofStack b)) := by
  have hneg : ¬ d < 0 := by omega
  unfold dScratch
  rw [if_neg hneg, if_neg hneg]

theorem dScratch_of_neg {d : Int} (hd : d < 0) (b : StackBuffer 12) :
    none ∈ (dScratch d b).stores := by
  have hnat : d.toNat = 0 := by omega
  have hloop : Scratch.digitLoop 10 decDigit 11 32 0 0 (Scratch.clear 11 (Scratch.ofStack b)) =
      Scratch.clear 11 (Scratch.ofStack b) := rfl
  have hlast : (Scratch.clear 11 (Scratch.ofStack b)).last = none := Scratch.clear_last 11 _
  unfold dScratch
  rw [if_pos hd, if_pos hd, hnat, hloop, hlast]
  exact List.mem_append_right _ (List.mem_singleton_self none)

theorem dText_eq (value : UInt64) (arrays : Arrays) : dText value arrays = dString value arrays.behindMinus := by
  have hlt := value.toUInt32.toNat_lt
  have hint := toInt_toInt32 value.toUInt32
  unfold dText dString
  by_cases hzero : value.toUInt32.toInt32.toInt = 0
  · rw [if_pos hzero, if_pos hzero]
  · by_cases hneg : value.toUInt32.toInt32.toInt < 0
    · rw [if_neg hzero, if_neg hzero, if_pos hneg, if_pos hneg]
    · have hsmall : value.toUInt32.toInt32.toInt.toNat < 2 ^ 32 := by
        split at hint <;> omega
      have htext := digits_text 11 10 arrays.d (by omega) (fun _ => decDigit_ne_zero)
        (show value.toUInt32.toInt32.toInt.toNat > 0 by omega) (by omega) hsmall (by omega)
      rw [StackBuffer.stringFrom_nul (Scratch.clear_cells _ (by omega) (by omega))] at htext
      rw [if_neg hzero, if_neg hzero, if_neg hneg, if_neg hneg, dScratch_of_pos (by omega)]
      exact htext

theorem hexScratch_inRange (token : UInt8) {hex : Nat} (hlt : hex < 2 ^ 32) (b : StackBuffer 17) :
    (hexScratch token hex b).InRange :=
  Scratch.digitLoop_inRange 16 8 (Scratch.clear_inRange (by omega) b) (by omega) (by omega) (by omega)

theorem uScratch_inRange {u : Nat} (hlt : u < 2 ^ 32) (b : StackBuffer 11) : (uScratch u b).InRange :=
  Scratch.digitLoop_inRange 10 10 (Scratch.clear_inRange (by omega) b) (by omega) (by omega) (by omega)

/-- Every index into `d_as_str` was assigned and is in range exactly when the number is not negative. -/
theorem dScratch_inRange_iff {d : Int} (hlt : d < 2 ^ 31) (b : StackBuffer 12) :
    (dScratch d b).InRange ↔ 0 ≤ d := by
  constructor
  · intro h
    by_contra hneg
    obtain ⟨i, hi, -⟩ := h none (dScratch_of_neg (by omega) b)
    cases hi
  · intro hd
    have hneg : ¬ d < 0 := by omega
    unfold dScratch
    rw [if_neg hneg, if_neg hneg]
    exact Scratch.digitLoop_inRange 10 10 (Scratch.clear_inRange (by omega) b) (by omega) (by omega) (by omega)

end Crows.Kernel
