/-
  Crows.Lib.Memory — byte-addressed memory over 64-bit addresses.

  A region is a base and a length; an address lies in it when its offset from the
  base, taken modulo 2^64, is below the length, so a region may run over the top of
  the address space. `read` and `write` move whole byte lists; `write_frame` says what
  a write leaves alone, `write_in` and `read_write_part` what it leaves behind, and for
  a region that ends at or below 2^64 `inRegion_iff` gives the interval of exact integers.
  Numbers are stored least significant byte first: `leNat` reads one from its bytes, and
  `leBytes` are the bytes that it reads it from.
-/

import Mathlib

namespace Crows.Lib

abbrev Addr := UInt64

abbrev Mem := Addr → UInt8

/-- `a` is one of the `n` addresses from `base` on. -/
def InRegion (base : Addr) (n : Nat) (a : Addr) : Prop := (a - base).toNat < n

instance (base : Addr) (n : Nat) (a : Addr) : Decidable (InRegion base n a) :=
  inferInstanceAs (Decidable ((a - base).toNat < n))

/-- No address lies in both regions. -/
def Separate (b1 : Addr) (n1 : Nat) (b2 : Addr) (n2 : Nat) : Prop :=
  ∀ a, InRegion b1 n1 a → ¬ InRegion b2 n2 a

def Mem.read (m : Mem) (base : Addr) (n : Nat) : List UInt8 :=
  (List.range n).map fun i => m (base + UInt64.ofNat i)

def Mem.write (m : Mem) (base : Addr) (bs : List UInt8) : Mem :=
  fun a => bs[(a - base).toNat]?.getD (m a)

/-- A byte list read as a number, least significant byte first. -/
def leNat : List UInt8 → Nat
  | [] => 0
  | b :: bs => b.toNat + 256 * leNat bs

/-- A number as `n` bytes, least significant first. -/
def leBytes : Nat → Nat → List UInt8
  | 0, _ => []
  | n + 1, x => UInt8.ofNat x :: leBytes n (x / 256)

def Mem.readU32 (m : Mem) (a : Addr) : UInt32 := UInt32.ofNat (leNat (m.read a 4))

def Mem.readU64 (m : Mem) (a : Addr) : UInt64 := UInt64.ofNat (leNat (m.read a 8))

/-! ## Regions -/

theorem toNat_offset {base : Addr} {i : Nat} (h : i < 2 ^ 64) : (base + UInt64.ofNat i - base).toNat = i := by
  have hb := base.toNat_lt
  simp only [UInt64.toNat_sub, UInt64.toNat_add, UInt64.toNat_ofNat']
  omega

theorem inRegion_offset {base : Addr} {n i : Nat} (h : i < n) (hi : i < 2 ^ 64) :
    InRegion base n (base + UInt64.ofNat i) := by
  unfold InRegion
  rw [toNat_offset hi]
  exact h

/-- A region that ends at or below 2^64 is an interval of exact integers. -/
theorem inRegion_iff {base : Addr} {n : Nat} (h : base.toNat + n ≤ 2 ^ 64) (a : Addr) :
    InRegion base n a ↔ base.toNat ≤ a.toNat ∧ a.toNat < base.toNat + n := by
  have ha := a.toNat_lt
  have hb := base.toNat_lt
  unfold InRegion
  simp only [UInt64.toNat_sub]
  omega

theorem InRegion.mono {base : Addr} {n k : Nat} {a : Addr} (h : InRegion base n a) (hk : n ≤ k) :
    InRegion base k a := Nat.lt_of_lt_of_le h hk

theorem Separate.symm {b1 b2 : Addr} {n1 n2 : Nat} (h : Separate b1 n1 b2 n2) : Separate b2 n2 b1 n1 :=
  fun a h2 h1 => h a h1 h2

theorem separate_of_le {b1 b2 : Addr} {n1 n2 : Nat} (h : b1.toNat + n1 ≤ b2.toNat) (h2 : b2.toNat + n2 ≤ 2 ^ 64) :
    Separate b1 n1 b2 n2 := by
  intro a ha hb
  have ha' := (inRegion_iff (by omega) a).mp ha
  have hb' := (inRegion_iff h2 a).mp hb
  omega

/-! ## Reads and writes -/

@[simp] theorem Mem.length_read (m : Mem) (base : Addr) (n : Nat) : (m.read base n).length = n := by
  simp [Mem.read]

theorem Mem.getElem?_read (m : Mem) (base : Addr) {n i : Nat} (h : i < n) :
    (m.read base n)[i]? = some (m (base + UInt64.ofNat i)) := by
  simp [Mem.read, h]

/-- A read sees only the bytes of its own region. -/
theorem Mem.read_congr {m m' : Mem} {base : Addr} {n : Nat} (hn : n ≤ 2 ^ 64)
    (h : ∀ a, InRegion base n a → m a = m' a) : m.read base n = m'.read base n := by
  unfold Mem.read
  apply List.map_congr_left
  intro i hi
  have hi' := List.mem_range.mp hi
  exact h _ (inRegion_offset hi' (by omega))

theorem Mem.write_frame {m : Mem} {base : Addr} {bs : List UInt8} {a : Addr}
    (h : ¬ InRegion base bs.length a) : m.write base bs a = m a := by
  unfold InRegion at h
  simp [Mem.write, List.getElem?_eq_none (Nat.le_of_not_lt h)]

theorem Mem.write_in {m : Mem} {base : Addr} {bs : List UInt8} {a : Addr} (h : InRegion base bs.length a) :
    m.write base bs a = bs.get ⟨(a - base).toNat, h⟩ := by
  have hlt : (a - base).toNat < bs.length := h
  simp [Mem.write, hlt]

/-- Copying a region's own bytes over `base` puts the byte at each offset there. -/
theorem Mem.write_read {m m' : Mem} {dst src : Addr} {n : Nat} {a : Addr} (h : InRegion dst n a) :
    m.write dst (m'.read src n) a = m' (src + (a - dst)) := by
  have hlt : (a - dst).toNat < n := h
  simp only [Mem.write, Mem.getElem?_read m' src hlt, Option.getD_some, UInt64.ofNat_toNat]

/-- A part of a region just written holds the part of the bytes written there. -/
theorem Mem.read_write_part {m : Mem} {base : Addr} {bs : List UInt8} {off n : Nat} (h : off + n ≤ bs.length)
    (hl : bs.length ≤ 2 ^ 64) :
    (m.write base bs).read (base + UInt64.ofNat off) n = (bs.drop off).take n := by
  apply List.ext_getElem
  · simp only [Mem.length_read, List.length_take, List.length_drop]; omega
  · intro i h1 h2
    simp only [Mem.length_read] at h1
    have hb := base.toNat_lt
    have hidx : (base + UInt64.ofNat off + UInt64.ofNat i - base).toNat = off + i := by
      simp only [UInt64.toNat_sub, UInt64.toNat_add, UInt64.toNat_ofNat']
      omega
    have hin : off + i < bs.length := by omega
    simp [Mem.read, Mem.write, hidx, hin]

/-- A part of a read is the read of the part. -/
theorem Mem.read_part {m : Mem} {base : Addr} {n off k : Nat} (h : off + k ≤ n) :
    ((m.read base n).drop off).take k = m.read (base + UInt64.ofNat off) k := by
  apply List.ext_getElem
  · simp only [Mem.length_read, List.length_take, List.length_drop]; omega
  · intro i h1 h2
    simp only [Mem.read, List.getElem_take, List.getElem_drop, List.getElem_map, List.getElem_range]
    rw [UInt64.ofNat_add, UInt64.add_assoc]

theorem Mem.read_append (m : Mem) (base : Addr) (n k : Nat) :
    m.read base (n + k) = m.read base n ++ m.read (base + UInt64.ofNat n) k := by
  have htake : (m.read base (n + k)).take n = m.read base n := by
    have hpart : ((m.read base (n + k)).drop 0).take n = m.read (base + UInt64.ofNat 0) n := m.read_part (by omega)
    simpa using hpart
  have hdrop : (m.read base (n + k)).drop n = m.read (base + UInt64.ofNat n) k := by
    rw [← m.read_part (Nat.le_refl (n + k)), List.take_of_length_le]
    simp
  rw [← htake, ← hdrop, List.take_append_drop]

/-- A write elsewhere leaves a read as it was. -/
theorem Mem.read_write_separate {m : Mem} {base dst : Addr} {n : Nat} {bs : List UInt8} (hn : n ≤ 2 ^ 64)
    (h : Separate base n dst bs.length) : (m.write dst bs).read base n = m.read base n :=
  Mem.read_congr hn fun a ha => Mem.write_frame (h a ha)

/-- One region written behind another is the two written at once. -/
theorem Mem.write_append (m : Mem) (base : Addr) {bs cs : List UInt8} (h : bs.length + cs.length ≤ 2 ^ 64) :
    (m.write base bs).write (base + UInt64.ofNat bs.length) cs = m.write base (bs ++ cs) := by
  funext a
  have ha := a.toNat_lt
  have hb := base.toNat_lt
  have hoffset : (a - (base + UInt64.ofNat bs.length)).toNat =
      (2 ^ 64 + (a - base).toNat - bs.length) % 2 ^ 64 := by
    simp only [UInt64.toNat_sub, UInt64.toNat_add, UInt64.toNat_ofNat']
    omega
  have hlt := (a - base).toNat_lt
  simp only [Mem.write]
  rw [hoffset]
  by_cases hin : (a - base).toNat < bs.length
  · have hbehind : cs.length ≤ (2 ^ 64 + (a - base).toNat - bs.length) % 2 ^ 64 := by omega
    rw [List.getElem?_eq_none hbehind, List.getElem?_append_left hin]
    rfl
  · have hge := Nat.le_of_not_lt hin
    have hshift : (2 ^ 64 + (a - base).toNat - bs.length) % 2 ^ 64 = (a - base).toNat - bs.length := by omega
    rw [hshift, List.getElem?_append_right hge, List.getElem?_eq_none hge]
    rfl

@[simp] theorem Mem.write_nil (m : Mem) (base : Addr) : m.write base [] = m := by
  funext a
  rfl

/-- The next part of what is being written, at its place; there may be nothing left of it. -/
theorem Mem.write_take (m : Mem) (base : Addr) {bs : List UInt8} (h : bs.length ≤ 2 ^ 64) (k n : Nat) :
    (m.write base (bs.take k)).write (base + UInt64.ofNat k) ((bs.drop k).take n) = m.write base (bs.take (k + n)) := by
  rw [List.take_add]
  rcases Nat.le_total k bs.length with hle | hge
  · have hlength : (bs.take k).length = k := by
      rw [List.length_take, Nat.min_eq_left hle]
    have hfits : (bs.take k).length + ((bs.drop k).take n).length ≤ 2 ^ 64 := by
      simp only [List.length_take, List.length_drop]
      omega
    have hwrite := m.write_append base hfits
    rwa [hlength] at hwrite
  · simp [List.drop_of_length_le hge]

/-- A write over the whole of another. -/
theorem Mem.write_over (m : Mem) (base : Addr) {bs cs : List UInt8} (h : cs.length = bs.length) :
    (m.write base bs).write base cs = m.write base cs := by
  funext a
  by_cases ha : InRegion base cs.length a
  · rw [Mem.write_in ha, Mem.write_in ha]
  · rw [Mem.write_frame ha, Mem.write_frame ha, Mem.write_frame (h ▸ ha)]

/-- What is written is read back. -/
theorem Mem.read_write (m : Mem) (base : Addr) {bs : List UInt8} (h : bs.length ≤ 2 ^ 64) :
    (m.write base bs).read base bs.length = bs := by
  have hpart : (m.write base bs).read (base + UInt64.ofNat 0) bs.length = (bs.drop 0).take bs.length :=
    Mem.read_write_part (Nat.le_of_eq (Nat.zero_add bs.length)) h
  simpa using hpart

/-- One byte of a region written. -/
theorem Mem.read_write_byte (m : Mem) (base : Addr) {n i : Nat} (hi : i < n) (hn : n ≤ 2 ^ 64) (c : UInt8) :
    (m.write (base + UInt64.ofNat i) [c]).read base n = (m.read base n).set i c := by
  apply List.ext_getElem
  · simp
  · intro j hj _
    rw [Mem.length_read] at hj
    simp only [Mem.read, List.getElem_map, List.getElem_range, List.getElem_set]
    by_cases hij : i = j
    · subst hij
      simp [Mem.write]
    · rw [if_neg hij]
      apply Mem.write_frame
      intro hin
      have hzero : (base + UInt64.ofNat j - (base + UInt64.ofNat i)).toNat = 0 := Nat.lt_one_iff.mp hin
      have hsame : UInt64.ofNat j = UInt64.ofNat i := by
        have hsub := UInt64.toNat_inj.mp (hzero.trans UInt64.toNat_zero.symm)
        have heq := UInt64.sub_eq_iff_eq_add.mp hsub
        simpa using heq
      have hj' : (UInt64.ofNat j).toNat = j := UInt64.toNat_ofNat_of_lt' (Nat.lt_of_lt_of_le hj hn)
      have hi' : (UInt64.ofNat i).toNat = i := UInt64.toNat_ofNat_of_lt' (Nat.lt_of_lt_of_le hi hn)
      rw [hsame, hi'] at hj'
      exact hij hj'

/-- Two reads agree exactly when the memories do on the region. -/
theorem Mem.read_eq_iff {m m' : Mem} {base : Addr} {n : Nat} (hn : n ≤ 2 ^ 64) :
    m.read base n = m'.read base n ↔ ∀ a, InRegion base n a → m a = m' a := by
  constructor
  · intro h a ha
    have hlt : (a - base).toNat < n := ha
    have hcell := congrArg (fun bs => bs[(a - base).toNat]?) h
    simp only [Mem.getElem?_read _ base hlt, UInt64.ofNat_toNat] at hcell
    rw [UInt64.add_comm, UInt64.sub_add_cancel] at hcell
    exact Option.some.inj hcell
  · exact Mem.read_congr hn

/-! ## Numbers in memory -/

theorem leNat_lt (bs : List UInt8) : leNat bs < 256 ^ bs.length := by
  induction bs with
  | nil => exact Nat.one_pos
  | cons b bs ih =>
    have hb := b.toNat_lt
    rw [leNat, List.length_cons, Nat.pow_succ]
    omega

theorem leNat_map_le {ι : Type} {f g : ι → UInt8} (h : ∀ i, (f i).toNat ≤ (g i).toNat) (l : List ι) :
    leNat (l.map f) ≤ leNat (l.map g) := by
  induction l with
  | nil => exact Nat.le_refl _
  | cons i l ih =>
    have hi := h i
    simp only [List.map_cons, leNat]
    omega

theorem Mem.toNat_readU32 (m : Mem) (a : Addr) : (m.readU32 a).toNat = leNat (m.read a 4) := by
  have hlt := leNat_lt (m.read a 4)
  rw [Mem.length_read] at hlt
  rw [Mem.readU32, UInt32.toNat_ofNat']
  omega

theorem Mem.readU32_le {m m' : Mem} {p : Addr} (h : ∀ a, (m a).toNat ≤ (m' a).toNat) :
    (m.readU32 p).toNat ≤ (m'.readU32 p).toNat := by
  rw [Mem.toNat_readU32, Mem.toNat_readU32]
  exact leNat_map_le (fun i => h (p + UInt64.ofNat i)) _

@[simp] theorem length_leBytes (n x : Nat) : (leBytes n x).length = n := by
  induction n generalizing x with
  | zero => rfl
  | succ n ih => exact congrArg (· + 1) (ih _)

/-- A number is read back from its bytes, as far as they hold it. -/
theorem leNat_leBytes (n x : Nat) : leNat (leBytes n x) = x % 256 ^ n := by
  induction n generalizing x with
  | zero =>
    rw [pow_zero, Nat.mod_one]
    rfl
  | succ n ih =>
    show (UInt8.ofNat x).toNat + 256 * leNat (leBytes n (x / 256)) = x % 256 ^ (n + 1)
    rw [ih, UInt8.toNat_ofNat', pow_succ' 256 n]
    exact Nat.mod_mul.symm

theorem leNat_inj {bs cs : List UInt8} (hlen : bs.length = cs.length) (h : leNat bs = leNat cs) : bs = cs := by
  induction bs generalizing cs with
  | nil => exact (List.length_eq_zero_iff.mp hlen.symm).symm
  | cons b bs ih =>
    cases cs with
    | nil => cases hlen
    | cons c cs =>
      have hb := b.toNat_lt
      have hc := c.toNat_lt
      simp only [leNat] at h
      have hhead : b = c := UInt8.toNat.inj (by omega)
      have htail : bs = cs := ih (Nat.succ.inj hlen) (by omega)
      rw [hhead, htail]

theorem Mem.readU32_eq_iff {m m' : Mem} {a a' : Addr} : m.readU32 a = m'.readU32 a' ↔ m.read a 4 = m'.read a' 4 := by
  rw [← UInt32.toNat_inj, Mem.toNat_readU32, Mem.toNat_readU32]
  exact ⟨leNat_inj (by simp), congrArg leNat⟩

theorem Mem.readU64_eq_iff {m m' : Mem} {a a' : Addr} : m.readU64 a = m'.readU64 a' ↔ m.read a 8 = m'.read a' 8 := by
  constructor
  · intro h
    have hlt := leNat_lt (m.read a 8)
    have hlt' := leNat_lt (m'.read a' 8)
    have hnat := congrArg UInt64.toNat h
    simp only [Mem.readU64, UInt64.toNat_ofNat', Mem.length_read] at hnat hlt hlt'
    exact leNat_inj (by simp) (by omega)
  · intro h
    rw [Mem.readU64, Mem.readU64, h]

end Crows.Lib
