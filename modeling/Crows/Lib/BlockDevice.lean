/-
  Crows.Lib.BlockDevice — an abstract device of numbered blocks, and its history.

  A device maps block numbers to contents of any type. A write replaces a run of
  consecutive blocks (`store`). `latest` reads a block off the log of writes alone: the
  last write that covers the block decides, else the initial contents; one more write in
  the log is one more `store` (`latest_snoc`).
-/

import Mathlib

namespace Crows.Lib

variable {β : Type}

/-- A write of `blocks` at the blocks from `lba` on. -/
structure BlockWrite (β : Type) where
  lba : Nat
  blocks : List β

/-- What the write puts in block `b`, if it covers it. -/
def BlockWrite.at? (w : BlockWrite β) (b : Nat) : Option β :=
  if w.lba ≤ b then w.blocks[b - w.lba]? else none

def store (dev : Nat → β) (w : BlockWrite β) : Nat → β := fun b => (w.at? b).getD (dev b)

/-- Block `b` after the writes of `log`, oldest first, over a device that held `init`. -/
def latest (init : Nat → β) (log : List (BlockWrite β)) (b : Nat) : β :=
  (log.reverse.findSome? (·.at? b)).getD (init b)

theorem BlockWrite.at?_of_covers {w : BlockWrite β} {b k : Nat} (hb : b = w.lba + k) (hk : k < w.blocks.length) :
    w.at? b = some w.blocks[k] := by
  subst hb
  simp [BlockWrite.at?, hk]

theorem BlockWrite.at?_outside {w : BlockWrite β} {b : Nat} (h : b < w.lba ∨ w.lba + w.blocks.length ≤ b) :
    w.at? b = none := by
  unfold BlockWrite.at?
  split
  · exact List.getElem?_eq_none (by omega)
  · rfl

@[simp] theorem latest_nil (init : Nat → β) : latest init [] = init := by
  funext b
  simp [latest]

theorem latest_snoc (init : Nat → β) (log : List (BlockWrite β)) (w : BlockWrite β) :
    latest init (log ++ [w]) = store (latest init log) w := by
  funext b
  cases h : w.at? b <;> simp [latest, store, h]

end Crows.Lib
