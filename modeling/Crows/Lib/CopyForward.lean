/-
  Crows.Lib.CopyForward — bytes copied one after another, from the lowest on.

  Where the destination begins inside the source, the bytes read there are those copied
  before: byte `i` of the destination is byte `i - d` of it, with `d` the distance
  (`copyForward_dst`). So the copy is that of the source exactly when the source repeats
  itself at that distance (`read_copyForward_eq_iff`), which says nothing when the
  distance is not below the length.
-/
import Crows.Lib.Memory

namespace Crows.Lib

open Function (update update_self update_of_ne)

/-- The memory after `n` bytes. -/
def Mem.copyForward (m : Mem) (dst src : Addr) : Nat → Mem
  | 0 => m
  | n + 1 =>
    update (m.copyForward dst src n) (dst + UInt64.ofNat n) (m.copyForward dst src n (src + UInt64.ofNat n))

theorem Mem.write_byte (m : Mem) (a : Addr) (c : UInt8) : m.write a [c] = update m a c := by
  funext b
  by_cases hb : b = a
  · subst hb
    simp [Mem.write]
  · rw [update_of_ne hb]
    apply Mem.write_frame
    intro hin
    have hzero : (b - a).toNat = 0 := Nat.lt_one_iff.mp hin
    have hsub := UInt64.toNat_inj.mp (hzero.trans UInt64.toNat_zero.symm)
    exact hb (by simpa using UInt64.sub_eq_iff_eq_add.mp hsub)

variable {m : Mem} {dst src : Addr}

/-- The first byte copied first. -/
theorem Mem.copyForward_succ (m : Mem) (dst src : Addr) (n : Nat) :
    m.copyForward dst src (n + 1) = Mem.copyForward (update m dst (m src)) (dst + 1) (src + 1) n := by
  induction n with
  | zero => simp [Mem.copyForward]
  | succ n ih =>
    have hnext : ∀ a : Addr, a + UInt64.ofNat (n + 1) = a + 1 + UInt64.ofNat n := by
      intro a
      rw [UInt64.ofNat_add, UInt64.add_comm (UInt64.ofNat n), UInt64.add_assoc]
      rfl
    rw [Mem.copyForward, ih, hnext, hnext]
    rfl

theorem Mem.copyForward_frame {n : Nat} {a : Addr} (h : ¬ InRegion dst n a) : m.copyForward dst src n a = m a := by
  induction n with
  | zero => rfl
  | succ n ih =>
    have hne : a ≠ dst + UInt64.ofNat n := by
      intro heq
      subst heq
      refine h (Nat.lt_succ_of_le ?_)
      have hb := dst.toNat_lt
      simp only [UInt64.toNat_sub, UInt64.toNat_add, UInt64.toNat_ofNat']
      have hmod := Nat.mod_le n (2 ^ 64)
      omega
    rw [Mem.copyForward, update_of_ne hne]
    exact ih fun hin => h (hin.mono (Nat.le_succ n))

theorem offset_ne {i j : Nat} (hi : i < 2 ^ 64) (hj : j < 2 ^ 64) (h : i ≠ j) :
    dst + UInt64.ofNat i ≠ dst + UInt64.ofNat j := by
  intro heq
  have hsame := congrArg (fun a => (a - dst).toNat) heq
  simp only [toNat_offset hi, toNat_offset hj] at hsame
  exact h hsame

/-- A byte of the destination is that of the source, or from the distance on an earlier one of the destination. -/
theorem Mem.copyForward_dst {n i : Nat} (hn : n ≤ 2 ^ 64) (hi : i < n) :
    m.copyForward dst src n (dst + UInt64.ofNat i) =
      if i < (dst - src).toNat then m (src + UInt64.ofNat i)
      else m.copyForward dst src n (dst + UInt64.ofNat (i - (dst - src).toNat)) := by
  induction n with
  | zero => exact absurd hi (Nat.not_lt_zero i)
  | succ n ih =>
    rcases Nat.lt_succ_iff_lt_or_eq.mp hi with hlt | heq
    · -- written before, as what it goes back to
      rw [Mem.copyForward, update_of_ne (offset_ne (by omega) (by omega) (by omega)), ih (by omega) hlt,
        update_of_ne (offset_ne (by omega) (by omega) (by omega))]
    · subst heq
      rw [Mem.copyForward, update_self]
      have hd := (dst - src).toNat_lt
      split
      · rename_i hbelow
        apply Mem.copyForward_frame
        unfold InRegion
        have hoff : (src + UInt64.ofNat i - dst).toNat = 2 ^ 64 + i - (dst - src).toNat := by
          have hs := src.toNat_lt
          have ht := dst.toNat_lt
          simp only [UInt64.toNat_sub, UInt64.toNat_add, UInt64.toNat_ofNat'] at hbelow hd ⊢
          omega
        omega
      · rename_i hge
        have hsrc : src + UInt64.ofNat i = dst + UInt64.ofNat (i - (dst - src).toNat) := by
          apply UInt64.toNat_inj.mp
          have hs := src.toNat_lt
          have ht := dst.toNat_lt
          simp only [UInt64.toNat_sub, UInt64.toNat_add, UInt64.toNat_ofNat'] at hge hd ⊢
          omega
        rw [hsrc]
        by_cases hzero : (dst - src).toNat = 0
        · rw [hzero, Nat.sub_zero, update_self]
        · rw [update_of_ne (offset_ne (by omega) (by omega) (by omega))]

/-- Bytes copied onto themselves. -/
theorem Mem.copyForward_self (m : Mem) (a : Addr) (n : Nat) : m.copyForward a a n = m := by
  induction n with
  | zero => rfl
  | succ n ih => rw [Mem.copyForward, ih, Function.update_eq_self]

theorem Mem.read_eq_read_iff {m' : Mem} {n : Nat} :
    m'.read dst n = m.read src n ↔ ∀ i < n, m' (dst + UInt64.ofNat i) = m (src + UInt64.ofNat i) := by
  unfold Mem.read
  rw [List.map_inj_left]
  simp only [List.mem_range]

/-- The bytes are those of the source exactly when the source repeats itself at the distance. -/
theorem Mem.read_copyForward_eq_iff {n : Nat} (hn : n ≤ 2 ^ 64) :
    (m.copyForward dst src n).read dst n = m.read src n ↔
      ∀ i, i + (dst - src).toNat < n → m (src + UInt64.ofNat i) = m (src + UInt64.ofNat (i + (dst - src).toNat)) := by
  rw [Mem.read_eq_read_iff]
  rcases Nat.eq_zero_or_pos (dst - src).toNat with hzero | hpos
  · have hsame : dst = src := by
      have hsub := UInt64.toNat_inj.mp (hzero.trans UInt64.toNat_zero.symm)
      simpa using UInt64.sub_eq_iff_eq_add.mp hsub
    subst hsame
    refine iff_of_true ?_ ?_
    · intro i _
      rw [Mem.copyForward_self]
    · intro i _
      rw [hzero, Nat.add_zero]
  constructor
  · intro hcopied i hi
    have hback : m.copyForward dst src n (dst + UInt64.ofNat (i + (dst - src).toNat)) = _ := Mem.copyForward_dst hn hi
    rw [if_neg (by omega), Nat.add_sub_cancel, hcopied _ hi, hcopied i (by omega)] at hback
    exact hback.symm
  · intro hrepeats i
    induction i using Nat.strong_induction_on with
    | h i ih =>
      intro hi
      rw [Mem.copyForward_dst hn hi]
      split
      · rfl
      · rename_i hge
        have hback := hrepeats (i - (dst - src).toNat) (by omega)
        rw [Nat.sub_add_cancel (by omega)] at hback
        rw [ih (i - (dst - src).toNat) (by omega) (by omega), hback]

end Crows.Lib
