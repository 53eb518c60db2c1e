/-
  Crows.Boot.MemMove — the loader's memmove hook.

  EnvironmentInitialize registers MftahUefi__wrapper__MemMove as libmftah's memmove. It
  copies one byte after another from the lowest on, so that where the destination begins
  inside the source the bytes it reads there are its own:
  - `memMove_moves_iff`: it moves the bytes exactly when the destination does not begin
    inside the source, or the source repeats itself at their distance.
  - `memMove_overlap`: two bytes moved up by one.
-/
import Crows.Lib.CopyForward

namespace Crows.Boot.MemMove

open Crows.Lib

/-- The loop, with the bytes that are left: the pointer returned, behind the destination, and the memory. -/
def memMove (destination source : Addr) : Nat → Mem → Addr × Mem
  | 0, mem => (destination, mem)
  | length + 1, mem => memMove (destination + 1) (source + 1) length (mem.write destination [mem source])

theorem memMove_eq (destination source : Addr) (length : Nat) (mem : Mem) :
    memMove destination source length mem =
      (destination + UInt64.ofNat length, mem.copyForward destination source length) := by
  induction length generalizing destination source mem with
  | zero => simp [memMove, Mem.copyForward]
  | succ length ih =>
    have hnext : destination + 1 + UInt64.ofNat length = destination + UInt64.ofNat (length + 1) := by
      rw [UInt64.ofNat_add, UInt64.add_comm (UInt64.ofNat length), UInt64.add_assoc]
      rfl
    rw [memMove, ih, Mem.write_byte, ← Mem.copyForward_succ, hnext]

/-- What memmove promises: the bytes of the source are at the destination, and nothing else has changed. -/
def Moves (mem mem' : Mem) (destination source : Addr) (length : UInt64) : Prop :=
  mem'.read destination length.toNat = mem.read source length.toNat ∧
    ∀ a, ¬ InRegion destination length.toNat a → mem' a = mem a

/-- The destination begins behind the first byte of the source and before its end. -/
def BeginsInside (destination source : Addr) (length : UInt64) : Prop :=
  destination ≠ source ∧ InRegion source length.toNat destination

/-- Each byte of the source is the one `distance` before it. -/
def Repeats (mem : Mem) (source : Addr) (length : UInt64) (distance : Nat) : Prop :=
  ∀ i, i + distance < length.toNat → mem (source + UInt64.ofNat i) = mem (source + UInt64.ofNat (i + distance))

theorem repeats_of_not_beginsInside {mem : Mem} {destination source : Addr} {length : UInt64}
    (h : ¬ BeginsInside destination source length) :
    Repeats mem source length (destination - source).toNat := by
  intro i hi
  by_cases hsame : destination = source
  · rw [hsame, UInt64.sub_self, UInt64.toNat_zero, Nat.add_zero]
  · have hinside : (destination - source).toNat < length.toNat := by omega
    exact absurd ⟨hsame, hinside⟩ h

/-- For every two positions and every length: memmove's promise is kept exactly when the destination does not
    begin inside the source, or the source repeats itself at their distance. -/
theorem memMove_moves_iff (mem : Mem) (destination source : Addr) (length : UInt64) :
    Moves mem (memMove destination source length.toNat mem).2 destination source length ↔
      ¬ BeginsInside destination source length ∨ Repeats mem source length (destination - source).toNat := by
  have hlength : length.toNat ≤ 2 ^ 64 := Nat.le_of_lt length.toNat_lt
  rw [memMove_eq]
  constructor
  · intro hmoves
    exact Or.inr ((Mem.read_copyForward_eq_iff hlength).mp hmoves.1)
  · intro hcond
    have hrepeats : Repeats mem source length (destination - source).toNat := by
      rcases hcond with hapart | hrepeats
      · exact repeats_of_not_beginsInside hapart
      · exact hrepeats
    refine ⟨(Mem.read_copyForward_eq_iff hlength).mpr hrepeats, ?_⟩
    intro a ha
    exact Mem.copyForward_frame ha

/-- A one and zeros behind it. -/
def oneThenZeros : Mem := fun a => if a = 0x1000 then 1 else 0

/-- Two bytes moved up by one: the second is a copy of the first. -/
theorem memMove_overlap :
    (memMove 0x1001 0x1000 2 oneThenZeros).2.read 0x1001 2 = [1, 1] ∧
      ¬ Moves oneThenZeros (memMove 0x1001 0x1000 2 oneThenZeros).2 0x1001 0x1000 2 := by
  have hread : (memMove 0x1001 0x1000 2 oneThenZeros).2.read 0x1001 2 = [1, 1] := by decide +kernel
  refine ⟨hread, ?_⟩
  intro hmoves
  have hsource : oneThenZeros.read 0x1000 2 = [1, 0] := by decide +kernel
  have hmoved : (memMove 0x1001 0x1000 2 oneThenZeros).2.read 0x1001 2 = oneThenZeros.read 0x1000 2 := hmoves.1
  rw [hread, hsource] at hmoved
  cases hmoved

end Crows.Boot.MemMove
