/-
  Crows.Lib.Chaining — blocks chained through a cipher (CBC).

  `chainEnc x E iv ps` mixes each block with the block of output before it and puts it
  through `E`; `chainDec x D iv cs` puts each block through `D` and takes the block of
  input before it out again. The blocks are of any type and the mixing is any operation
  that is undone by doing it twice.
  - `chainDec_chainEnc`, `chainEnc_chainDec`: each undoes the other.
  - `chainDec_append`: a chain is taken up again behind its last block.
  - `getElem?_chainDec`: a decrypted block reads two blocks of its input and no others,
    so that what happens to one block of input shows in two blocks at most
    (`chainDec_congr`).
-/

import Mathlib

namespace Crows.Lib

variable {β : Type} (x : β → β → β) (E D : β → β)

def chainEnc : β → List β → List β
  | _, [] => []
  | iv, p :: ps => E (x p iv) :: chainEnc (E (x p iv)) ps

def chainDec : β → List β → List β
  | _, [] => []
  | iv, c :: cs => x (D c) iv :: chainDec c cs

/-- The block before block `i`. -/
def blockBefore (iv : β) (cs : List β) (i : Nat) : β := ((iv :: cs)[i]?).getD iv

/-- The last block of a chain, for the next one to begin with. -/
def lastBlock (iv : β) (cs : List β) : β := cs.getLastD iv

@[simp] theorem chainDec_nil (iv : β) : chainDec x D iv [] = [] := rfl

@[simp] theorem lastBlock_nil (iv : β) : lastBlock iv [] = iv := rfl

@[simp] theorem lastBlock_cons (iv c : β) (cs : List β) : lastBlock iv (c :: cs) = lastBlock c cs :=
  List.getLastD_cons ..

@[simp] theorem length_chainDec (iv : β) (cs : List β) : (chainDec x D iv cs).length = cs.length := by
  induction cs generalizing iv with
  | nil => rfl
  | cons c cs ih => exact congrArg (· + 1) (ih c)

@[simp] theorem length_chainEnc (iv : β) (ps : List β) : (chainEnc x E iv ps).length = ps.length := by
  induction ps generalizing iv with
  | nil => rfl
  | cons p ps ih => exact congrArg (· + 1) (ih _)

theorem chainDec_append (iv : β) (cs ds : List β) :
    chainDec x D iv (cs ++ ds) = chainDec x D iv cs ++ chainDec x D (lastBlock iv cs) ds := by
  induction cs generalizing iv with
  | nil => rfl
  | cons c cs ih =>
    rw [List.cons_append, chainDec, chainDec, ih, lastBlock_cons, List.cons_append]

theorem lastBlock_append (iv : β) (cs ds : List β) : lastBlock iv (cs ++ ds) = lastBlock (lastBlock iv cs) ds := by
  induction cs generalizing iv with
  | nil => rfl
  | cons c cs ih => rw [List.cons_append, lastBlock_cons, lastBlock_cons, ih]

section Inverse

variable {x E D} (hx : ∀ a b, x (x a b) b = a)

include hx in
theorem chainDec_chainEnc (hDE : ∀ b, D (E b) = b) (iv : β) (ps : List β) :
    chainDec x D iv (chainEnc x E iv ps) = ps := by
  induction ps generalizing iv with
  | nil => rfl
  | cons p ps ih => rw [chainEnc, chainDec, ih, hDE, hx]

include hx in
theorem chainEnc_chainDec (hED : ∀ b, E (D b) = b) (iv : β) (cs : List β) :
    chainEnc x E iv (chainDec x D iv cs) = cs := by
  induction cs generalizing iv with
  | nil => rfl
  | cons c cs ih => rw [chainDec, chainEnc, hx, hED, ih]

end Inverse

theorem getElem?_chainDec (iv : β) (cs : List β) (i : Nat) :
    (chainDec x D iv cs)[i]? = cs[i]?.map fun c => x (D c) (blockBefore iv cs i) := by
  induction cs generalizing iv i with
  | nil => rfl
  | cons c cs ih =>
    cases i with
    | zero => rfl
    | succ i =>
      rw [chainDec, List.getElem?_cons_succ, List.getElem?_cons_succ, ih]
      rcases Nat.lt_or_ge i cs.length with hlt | hge
      · have hbefore : ∀ b : β, blockBefore b (c :: cs) (i + 1) = ((c :: cs)[i]?).getD b := fun b => rfl
        have hin : i < (c :: cs).length := Nat.lt_succ_of_lt hlt
        rw [hbefore, blockBefore, List.getElem?_eq_getElem hin]
        rfl
      · rw [List.getElem?_eq_none hge]
        rfl

/-- A decrypted block reads its own block of input and the one before it. -/
theorem chainDec_congr {iv iv' : β} {cs cs' : List β} {i : Nat} (hown : cs[i]? = cs'[i]?)
    (hbefore : blockBefore iv cs i = blockBefore iv' cs' i) :
    (chainDec x D iv cs)[i]? = (chainDec x D iv' cs')[i]? := by
  rw [getElem?_chainDec, getElem?_chainDec, hown, hbefore]

end Crows.Lib
