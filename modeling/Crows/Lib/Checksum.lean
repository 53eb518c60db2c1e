/-
  Crows.Lib.Checksum — tables that carry a byte for their bytes to sum to nothing.

  A table is right where its bytes sum to 0 modulo 256 (`Checks`). A register of one byte
  keeps the sum modulo 256 (`toNat_foldl_add`). Where the sum is taken with the checksum's
  own byte at 0, the table is right with the byte that makes up for the sum
  (`checks_set_iff`): with the negative of the sum, and not with the sum.
-/
import Crows.Lib.Memory

namespace Crows.Lib

def byteSum (bs : List UInt8) : Nat := (bs.map UInt8.toNat).sum

def Checks (bs : List UInt8) : Prop := byteSum bs % 256 = 0

@[simp] theorem byteSum_nil : byteSum [] = 0 := rfl

@[simp] theorem byteSum_cons (b : UInt8) (bs : List UInt8) : byteSum (b :: bs) = b.toNat + byteSum bs := rfl

@[simp] theorem byteSum_append (bs cs : List UInt8) : byteSum (bs ++ cs) = byteSum bs + byteSum cs := by
  simp [byteSum]

@[simp] theorem byteSum_leBytes_zero (n : Nat) : byteSum (leBytes n 0) = 0 := by
  induction n with
  | zero => rfl
  | succ n ih =>
    show 0 + byteSum (leBytes n (0 / 256)) = 0
    rw [Nat.zero_div, ih]

/-- A number of a single byte. -/
theorem byteSum_leBytes_small (n : Nat) {x : Nat} (hx : x < 256) : byteSum (leBytes (n + 1) x) = x := by
  show (UInt8.ofNat x).toNat + byteSum (leBytes n (x / 256)) = x
  rw [Nat.div_eq_of_lt hx, byteSum_leBytes_zero, Nat.add_zero, UInt8.toNat_ofNat_of_lt' hx]

/-- The sum that a register of one byte keeps. -/
theorem toNat_foldl_add (bs : List UInt8) (c : UInt8) :
    (bs.foldl (· + ·) c).toNat = (c.toNat + byteSum bs) % 256 := by
  induction bs generalizing c with
  | nil => exact (Nat.mod_eq_of_lt c.toNat_lt).symm
  | cons b bs ih =>
    rw [List.foldl_cons, ih, UInt8.toNat_add, byteSum_cons]
    omega

/-- A byte that was 0 is set. -/
theorem byteSum_set {bs : List UInt8} {i : Nat} (h : bs[i]? = some 0) (c : UInt8) :
    byteSum (bs.set i c) = byteSum bs + c.toNat := by
  induction bs generalizing i with
  | nil => simp at h
  | cons b bs ih =>
    cases i with
    | zero =>
      cases h
      simp [Nat.add_comm]
    | succ i =>
      rw [List.set_cons_succ, byteSum_cons, byteSum_cons, ih h, Nat.add_assoc]

/-- The checksum makes up for the sum that was taken without it. -/
theorem checks_set_iff {bs : List UInt8} {i : Nat} (h : bs[i]? = some 0) (c : UInt8) :
    Checks (bs.set i c) ↔ (byteSum bs + c.toNat) % 256 = 0 := by
  unfold Checks
  rw [byteSum_set h]

/-- With the sum itself for the checksum, the bytes sum to twice the sum. -/
theorem checks_set_sum_iff {bs : List UInt8} {i : Nat} (h : bs[i]? = some 0) {c : UInt8}
    (hc : c.toNat = byteSum bs % 256) : Checks (bs.set i c) ↔ byteSum bs % 128 = 0 := by
  rw [checks_set_iff h, hc]
  omega

end Crows.Lib
