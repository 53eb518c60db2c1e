/-
  Crows.Lib.Blocks — input taken in blocks of `n`.

  `absorb f n (s, rest) xs` takes `xs` behind the rest of a block, and puts every full
  block through `f`. It goes symbol by symbol, so that what is taken in two parts is taken
  as one (`absorb_append`). `absorb_partial` and `absorb_block` are the two ways to take
  several symbols at once, up to the end of a block, and `absorb_eq_chunks` takes whole
  blocks one after the other.
-/
import Mathlib

namespace Crows.Lib

variable {σ α : Type}

/-- One symbol more. -/
def absorbOne (f : σ → List α → σ) (n : Nat) (s : σ × List α) (x : α) : σ × List α :=
  if s.2.length + 1 = n then (f s.1 (s.2 ++ [x]), []) else (s.1, s.2 ++ [x])

def absorb (f : σ → List α → σ) (n : Nat) (s : σ × List α) (xs : List α) : σ × List α := xs.foldl (absorbOne f n) s

variable {f : σ → List α → σ} {n : Nat}

@[simp] theorem absorb_nil (s : σ × List α) : absorb f n s [] = s := rfl

theorem absorb_append (s : σ × List α) (xs ys : List α) :
    absorb f n s (xs ++ ys) = absorb f n (absorb f n s xs) ys :=
  List.foldl_append

/-- What does not fill the block stays behind the rest. -/
theorem absorb_partial {s : σ × List α} {xs : List α} (h : s.2.length + xs.length < n) :
    absorb f n s xs = (s.1, s.2 ++ xs) := by
  induction xs using List.reverseRecOn with
  | nil => simp
  | append_singleton xs x ih =>
    rw [List.length_append, List.length_singleton] at h
    rw [absorb_append, ih (by omega)]
    have hroom : (s.2 ++ xs).length + 1 ≠ n := by
      rw [List.length_append]
      omega
    show absorbOne f n (s.1, s.2 ++ xs) x = _
    rw [absorbOne, if_neg hroom, List.append_assoc]

/-- What fills the block puts it through `f`. -/
theorem absorb_block {s : σ × List α} {xs : List α} (hrest : s.2.length < n) (h : s.2.length + xs.length = n) :
    absorb f n s xs = (f s.1 (s.2 ++ xs), []) := by
  obtain ⟨ys, x, rfl⟩ : ∃ ys x, xs = ys ++ [x] := by
    refine List.eq_nil_or_concat' xs |>.resolve_left ?_
    intro hnil
    rw [hnil, List.length_nil] at h
    omega
  rw [List.length_append, List.length_singleton] at h
  have hpartial : absorb f n s ys = (s.1, s.2 ++ ys) := absorb_partial (by omega)
  rw [absorb_append, hpartial]
  have hfull : (s.2 ++ ys).length + 1 = n := by
    rw [List.length_append]
    omega
  show absorbOne f n (s.1, s.2 ++ ys) x = _
  rw [absorbOne, if_pos hfull, List.append_assoc]

/-- The full blocks of an input. -/
def chunks (n : Nat) (xs : List α) : List (List α) :=
  (List.range (xs.length / n)).map fun i => (xs.drop (n * i)).take n

theorem absorb_eq_chunks (hn : 0 < n) (s : σ) (xs : List α) :
    absorb f n (s, []) xs = ((chunks n xs).foldl f s, xs.drop (n * (xs.length / n))) := by
  have hupto : ∀ k, n * k ≤ xs.length → absorb f n (s, []) (xs.take (n * k)) =
      (((List.range k).map fun i => (xs.drop (n * i)).take n).foldl f s, []) := by
    intro k
    induction k with
    | zero =>
      intro _
      rw [Nat.mul_zero, List.take_zero]
      rfl
    | succ k ih =>
      intro hk
      rw [Nat.mul_succ] at hk
      have hblock : ((xs.drop (n * k)).take n).length = n := by
        rw [List.length_take, List.length_drop]
        omega
      rw [Nat.mul_succ, List.take_add, absorb_append, ih (by omega), List.range_succ, List.map_append, List.foldl_append]
      exact absorb_block hn (by rw [hblock, List.length_nil, Nat.zero_add])
  have hdiv := Nat.mul_div_le xs.length n
  have hrest : (xs.drop (n * (xs.length / n))).length < n := by
    have hmod := Nat.mod_lt xs.length hn
    have hsum := Nat.div_add_mod xs.length n
    rw [List.length_drop]
    omega
  conv_lhs => rw [← List.take_append_drop (n * (xs.length / n)) xs, absorb_append, hupto _ hdiv]
  exact absorb_partial (by rw [List.length_nil, Nat.zero_add]; exact hrest)

end Crows.Lib
