/-
  Crows.Lib.Numerals — numerals in a base, most significant digit first.

  `numeral base digit n` is the canonical numeral of `n`, its digits rendered by `digit`:
  no leading zero, and one digit for 0. `valueOf base val` reads a text back, `val` reading
  one digit. Under the reading of digits that undoes their rendering a numeral is read
  back as its number (`valueOf_numeral`), so numerals tell numbers apart
  (`numeral_inj`). `numeral_append_iff` says when a text behind a numeral makes it the
  numeral of another number, and `numeral_toDigits` that the digits are Lean's own.
-/

import Mathlib

namespace Crows.Lib

variable {α : Type}

def numeral (base : Nat) (digit : Nat → α) (n : Nat) : List α :=
  if n = 0 then [digit 0] else (Nat.digits base n).reverse.map digit

/-- The number that a text of digits denotes, read from the front; `none` where a place holds no digit. -/
def valueOf (base : Nat) (val : α → Option Nat) (text : List α) : Option Nat :=
  text.foldl (fun acc c => acc.bind fun n => (val c).map (base * n + ·)) (some 0)

/-- The last `k` digits of a number, with the zeros in front. -/
def lastDigits (base : Nat) (digit : Nat → α) : Nat → Nat → List α
  | 0, _ => []
  | k + 1, n => lastDigits base digit k (n / base) ++ [digit (n % base)]

section
variable {base : Nat} {digit : Nat → α}

theorem valueOf_append_one (val : α → Option Nat) (text : List α) (c : α) :
    valueOf base val (text ++ [c]) =
      (valueOf base val text).bind fun n => (val c).map (base * n + ·) := by
  simp [valueOf, List.foldl_append]

theorem numeral_of_lt {n : Nat} (h : n < base) : numeral base digit n = [digit n] := by
  by_cases hn : n = 0
  · subst hn
    exact if_pos rfl
  · rw [numeral, if_neg hn, Nat.digits_of_lt base n hn h]
    rfl

variable (hbase : 2 ≤ base)
include hbase

theorem numeral_of_ge {n : Nat} (h : base ≤ n) :
    numeral base digit n = numeral base digit (n / base) ++ [digit (n % base)] := by
  have hn : n ≠ 0 := by omega
  have hq : n / base ≠ 0 := by
    have hpos : 0 < n / base := Nat.div_pos h (by omega)
    omega
  rw [numeral, numeral, if_neg hn, if_neg hq, Nat.digits_def' (by omega) (by omega), List.reverse_cons,
    List.map_append]
  rfl

theorem numeral_ne_nil (n : Nat) : numeral base digit n ≠ [] := by
  by_cases h : n < base
  · rw [numeral_of_lt h]
    exact List.cons_ne_nil _ _
  · rw [numeral_of_ge hbase (by omega)]
    simp

/-- The digits are those that Lean prints. -/
theorem numeral_toDigits (n : Nat) : numeral base Nat.digitChar n = Nat.toDigits base n := by
  induction n using Nat.strong_induction_on with
  | h n ih =>
    by_cases h : n < base
    · rw [numeral_of_lt h, Nat.toDigits_of_lt_base h]
    · have hle : base ≤ n := by omega
      have hless : n / base < n := Nat.div_lt_self (by omega) (by omega)
      rw [numeral_of_ge hbase hle, Nat.toDigits_of_base_le (by omega) hle, ih _ hless]

/-- A numeral has nothing but digits. -/
theorem mem_numeral {n : Nat} {c : α} (h : c ∈ numeral base digit n) : ∃ r < base, c = digit r := by
  induction n using Nat.strong_induction_on with
  | h n ih =>
    by_cases hlt : n < base
    · rw [numeral_of_lt hlt, List.mem_singleton] at h
      exact ⟨n, hlt, h⟩
    · have hless : n / base < n := Nat.div_lt_self (by omega) (by omega)
      rw [numeral_of_ge hbase (by omega), List.mem_append, List.mem_singleton] at h
      rcases h with hfront | hlast
      · exact ih _ hless hfront
      · exact ⟨n % base, Nat.mod_lt n (by omega), hlast⟩

omit hbase in
theorem numeral_map {β : Type} (f : α → β) (n : Nat) :
    (numeral base digit n).map f = numeral base (f ∘ digit) n := by
  unfold numeral
  by_cases hn : n = 0
  · rw [if_pos hn, if_pos hn]
    rfl
  · rw [if_neg hn, if_neg hn, List.map_map]

theorem numeral_congr {digit' : Nat → α} (h : ∀ r < base, digit r = digit' r) (n : Nat) :
    numeral base digit n = numeral base digit' n := by
  induction n using Nat.strong_induction_on with
  | h n ih =>
    by_cases hlt : n < base
    · rw [numeral_of_lt hlt, numeral_of_lt hlt, h n hlt]
    · have hless : n / base < n := Nat.div_lt_self (by omega) (by omega)
      rw [numeral_of_ge (n := n) hbase (by omega), numeral_of_ge (n := n) hbase (by omega), ih _ hless,
        h _ (Nat.mod_lt n (by omega))]

/-- A number with a digit before its last `k` ones is what they stand behind. -/
theorem numeral_split {k n : Nat} (h : 0 < n / base ^ k) :
    numeral base digit n = numeral base digit (n / base ^ k) ++ lastDigits base digit k n := by
  induction k generalizing n with
  | zero => simp [lastDigits]
  | succ k ih =>
    have hshift : n / base ^ (k + 1) = n / base / base ^ k := by
      rw [Nat.pow_succ, Nat.mul_comm, Nat.div_div_eq_div_mul]
    rw [hshift] at h ⊢
    have hge : base ≤ n := by
      by_contra hlt
      have hzero : n / base = 0 := Nat.div_eq_of_lt (by omega)
      rw [hzero, Nat.zero_div] at h
      omega
    rw [numeral_of_ge hbase hge, ih h, lastDigits, List.append_assoc]

variable {val : α → Option Nat} (hval : ∀ r < base, val (digit r) = some r)
include hval

theorem valueOf_numeral (n : Nat) : valueOf base val (numeral base digit n) = some n := by
  induction n using Nat.strong_induction_on with
  | h n ih =>
    by_cases h : n < base
    · rw [numeral_of_lt h]
      simp [valueOf, hval n h]
    · have hless : n / base < n := Nat.div_lt_self (by omega) (by omega)
      rw [numeral_of_ge hbase (by omega), valueOf_append_one, ih _ hless, hval _ (Nat.mod_lt n (by omega))]
      show some (base * (n / base) + n % base) = some n
      rw [Nat.div_add_mod]

theorem numeral_inj {n k : Nat} (h : numeral base digit n = numeral base digit k) : n = k := by
  have hn := valueOf_numeral hbase hval n
  rw [h, valueOf_numeral hbase hval k] at hn
  exact (Option.some.inj hn).symm

/-- What has to stand behind the numeral of `low` to make it that of `n`: the digits of `n` that `low` lacks. -/
theorem numeral_append_iff {n low : Nat} {tail : List α} (hlow : 0 < low) :
    numeral base digit n = numeral base digit low ++ tail ↔
      n / base ^ tail.length = low ∧ tail = lastDigits base digit tail.length n := by
  constructor
  · intro h
    induction tail using List.reverseRecOn generalizing n with
    | nil =>
      rw [List.append_nil] at h
      have hsame := numeral_inj hbase hval h
      subst hsame
      exact ⟨by simp, rfl⟩
    | append_singleton tail c ih =>
      have hge : base ≤ n := by
        by_contra hlt
        have hlength := congrArg List.length h
        rw [numeral_of_lt (by omega)] at hlength
        have hne : numeral base digit low ≠ [] := numeral_ne_nil hbase low
        have hpos := List.length_pos_iff.mpr hne
        simp only [List.length_append, List.length_cons, List.length_nil] at hlength
        omega
      rw [numeral_of_ge hbase hge, ← List.append_assoc] at h
      obtain ⟨hfront, hlast⟩ := List.append_inj' h rfl
      obtain ⟨hquot, htail⟩ := ih hfront
      have hshift : n / base ^ (tail.length + 1) = n / base / base ^ tail.length := by
        rw [Nat.pow_succ, Nat.mul_comm, Nat.div_div_eq_div_mul]
      rw [List.length_append, List.length_singleton, hshift, lastDigits, ← hlast, ← htail]
      exact ⟨hquot, rfl⟩
  · intro h
    obtain ⟨hquot, htail⟩ := h
    have hsplit : numeral base digit n = _ := numeral_split hbase (k := tail.length) (by omega)
    rw [hsplit, hquot, ← htail]

end

end Crows.Lib
