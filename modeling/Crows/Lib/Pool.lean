/-
  Crows.Lib.Pool — the blocks that a pool has handed out since some moment.

  A block is named by its place in the list. Freeing one leaves its contents
  (`free_write_alloc`), so that what was in a freed block can still be asked for.
  `AllFreed` pools hold nothing that is still allocated.
-/
import Mathlib

namespace Crows.Lib

structure Block (α : Type) where
  live : Bool
  contents : α
  deriving DecidableEq

abbrev Pool (α : Type) := List (Block α)

namespace Pool

variable {α : Type}

/-- The new block is number `p.length`. -/
def alloc (p : Pool α) (contents : α) : Pool α := p ++ [⟨true, contents⟩]

def free (p : Pool α) (b : Nat) : Pool α := p.modify b fun block => { block with live := false }

def write (p : Pool α) (b : Nat) (contents : α) : Pool α := p.modify b fun block => { block with contents := contents }

def AllFreed (p : Pool α) : Prop := ∀ block ∈ p, block.live = false

instance (p : Pool α) : Decidable p.AllFreed := inferInstanceAs (Decidable (∀ block ∈ p, _))

theorem modify_append_last (p : List α) (x : α) (f : α → α) : (p ++ [x]).modify p.length f = p ++ [f x] := by
  induction p with
  | nil => rfl
  | cons y p ih =>
    show y :: (p ++ [x]).modify p.length f = _
    rw [ih]
    rfl

/-- The block handed out last, filled and freed: what was in it is still there. -/
theorem free_write_alloc (p : Pool α) (c c' : α) :
    ((p.alloc c).write p.length c').free p.length = p ++ [⟨false, c'⟩] := by
  unfold alloc write free
  rw [modify_append_last, modify_append_last]

end Pool

end Crows.Lib
