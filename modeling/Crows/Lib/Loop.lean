/-
  Crows.Lib.Loop — loops given by one turn of their body.

  `body s` says whether the turn that begins in `s` leaves the loop with a result or
  goes round again. `loop` runs at most `fuel` turns and is `none` when they are used
  up, so `Returns body s r`, that some number of turns gives `r`, says both that the
  loop ends and what it ends with. `returns_done` and `returns_again` are the two
  ways to take one turn, `Returns.turns` is the induction on the turns of a loop that
  returns, and `Returns.unique` says that a loop has at most one result.

  `Visits body s s'` says that one of the loop's turns begins in `s'`. What holds at
  the entry and is kept by every turn holds there (`Visits.invariant`); a loop whose
  turns lower a measure under such an invariant ends (`returns_of_measure`), one that
  comes to a state that a turn leaves as it is does not (`Visits.not_returns`). Of two
  states that a loop comes to one comes after the other (`Visits.linear`). `EndsWithin` is
  both that the loop ends and where its turns begin, with the two ways to take one turn.
  `foldl_finRange` is the rule of a loop over `j < n`.
-/

import Mathlib

namespace Crows.Lib

inductive Turn (σ ρ : Type) where
  | again (s : σ)
  | done (r : ρ)

variable {σ ρ : Type} {body : σ → Turn σ ρ}

def loop (body : σ → Turn σ ρ) : Nat → σ → Option ρ
  | 0, _ => none
  | fuel + 1, s =>
    match body s with
    | .done r => some r
    | .again s' => loop body fuel s'

/-- The loop entered in `s` ends, with the result `r`. -/
def Returns (body : σ → Turn σ ρ) (s : σ) (r : ρ) : Prop := ∃ fuel, loop body fuel s = some r

theorem loop_succ_again {s s' : σ} (h : body s = .again s') (fuel : Nat) :
    loop body (fuel + 1) s = loop body fuel s' := by
  simp only [loop, h]

theorem loop_succ_done {s : σ} {r : ρ} (h : body s = .done r) (fuel : Nat) :
    loop body (fuel + 1) s = some r := by
  simp only [loop, h]

theorem returns_done {s : σ} {r r' : ρ} (h : body s = .done r) : Returns body s r' ↔ r' = r := by
  constructor
  · intro hr
    obtain ⟨fuel, hf⟩ := hr
    cases fuel with
    | zero => cases hf
    | succ fuel =>
      rw [loop_succ_done h] at hf
      exact (Option.some.inj hf).symm
  · intro hr
    subst hr
    exact ⟨1, loop_succ_done h 0⟩

theorem returns_again {s s' : σ} {r : ρ} (h : body s = .again s') : Returns body s r ↔ Returns body s' r := by
  constructor
  · intro hr
    obtain ⟨fuel, hf⟩ := hr
    cases fuel with
    | zero => cases hf
    | succ fuel =>
      rw [loop_succ_again h] at hf
      exact ⟨fuel, hf⟩
  · intro hr
    obtain ⟨fuel, hf⟩ := hr
    exact ⟨fuel + 1, (loop_succ_again h fuel).trans hf⟩

/-- Induction on the turns of a loop that returns, from its last turn back. -/
theorem Returns.turns {r : ρ} {P : σ → Prop} (last : ∀ s, body s = .done r → P s)
    (turn : ∀ s s', body s = .again s' → P s' → P s) {s : σ} (h : Returns body s r) : P s := by
  obtain ⟨fuel, hf⟩ := h
  induction fuel generalizing s with
  | zero => cases hf
  | succ fuel ih =>
    cases hb : body s with
    | done r' =>
      rw [loop_succ_done hb] at hf
      exact last s (hb.trans (congrArg Turn.done (Option.some.inj hf)))
    | again s' =>
      rw [loop_succ_again hb] at hf
      exact turn s s' hb (ih hf)

theorem Returns.unique {s : σ} {r r' : ρ} (h : Returns body s r) (h' : Returns body s r') : r = r' := by
  revert h'
  refine Returns.turns (P := fun s => Returns body s r' → r = r') ?_ ?_ h
  · intro s hs h'
    exact ((returns_done hs).mp h').symm
  · intro s s' hs ih h'
    exact ih ((returns_again hs).mp h')

/-- The last turn of a loop that returns begins where the invariant of its turns holds. -/
theorem Returns.last_turn {I : σ → Prop} {r : ρ} (turn : ∀ a b, I a → body a = .again b → I b) {s : σ} (hs : I s)
    (h : Returns body s r) : ∃ a, I a ∧ body a = .done r := by
  revert hs
  refine Returns.turns (P := fun s => I s → ∃ a, I a ∧ body a = .done r) ?_ ?_ h
  · intro s hdone hs
    exact ⟨s, hs, hdone⟩
  · intro s s' hturn ih hs
    exact ih (turn s s' hs hturn)

theorem loop_mono {fuel fuel' : Nat} (hle : fuel ≤ fuel') {s : σ} {r : ρ} (h : loop body fuel s = some r) :
    loop body fuel' s = some r := by
  induction fuel generalizing fuel' s with
  | zero => cases h
  | succ fuel ih =>
    obtain ⟨more, hmore⟩ := Nat.exists_eq_add_of_le hle
    have hfuel : fuel' = (fuel + more) + 1 := by omega
    subst hfuel
    cases hb : body s with
    | done r' =>
      rw [loop_succ_done hb] at h ⊢
      exact h
    | again s' =>
      rw [loop_succ_again hb] at h ⊢
      exact ih (Nat.le_add_right fuel more) h

/-- A loop whose turns are known one by one. -/
theorem loop_of_turns {f : Nat → σ} {n : Nat} {r : ρ} (turn : ∀ j < n, body (f j) = .again (f (j + 1)))
    (last : body (f n) = .done r) : Returns body (f 0) r := by
  have hfrom : ∀ k j, j + k = n → Returns body (f j) r := by
    intro k
    induction k with
    | zero =>
      intro j hj
      have hjn : j = n := hj
      subst hjn
      exact (returns_done last).mpr rfl
    | succ k ih =>
      intro j hj
      exact (returns_again (turn j (by omega))).mpr (ih (j + 1) (by omega))
  exact hfrom n 0 (Nat.zero_add n)

/-! ## The states a loop comes to -/

/-- One of the turns of the loop entered in `s` begins in the given state. -/
inductive Visits (body : σ → Turn σ ρ) (s : σ) : σ → Prop where
  | entry : Visits body s s
  | turn {a b : σ} : Visits body s a → body a = .again b → Visits body s b

theorem Visits.invariant {I : σ → Prop} {s s' : σ} (entry : I s)
    (turn : ∀ a b, I a → body a = .again b → I b) (h : Visits body s s') : I s' := by
  induction h with
  | entry => exact entry
  | turn _ hab ih => exact turn _ _ ih hab

theorem Visits.trans {s a b : σ} (h : Visits body s a) (h' : Visits body a b) : Visits body s b := by
  induction h' with
  | entry => exact h
  | turn _ hab ih => exact Visits.turn ih hab

theorem Visits.head {s a b : σ} (h : body s = .again a) (h' : Visits body a b) : Visits body s b :=
  (Visits.turn Visits.entry h).trans h'

/-- A state that the loop comes to is the one it is in, or comes after the next one. -/
theorem Visits.eq_or_next {s b : σ} (h : Visits body s b) : s = b ∨ ∃ a, body s = .again a ∧ Visits body a b := by
  induction h with
  | entry => exact Or.inl rfl
  | turn _ hcd ih =>
    rcases ih with heq | ⟨a, hsa, hac⟩
    · subst heq
      exact Or.inr ⟨_, hcd, Visits.entry⟩
    · exact Or.inr ⟨a, hsa, Visits.turn hac hcd⟩

/-- Of two states that a loop comes to, one comes after the other. -/
theorem Visits.linear {s a b : σ} (ha : Visits body s a) (hb : Visits body s b) :
    Visits body a b ∨ Visits body b a := by
  induction ha with
  | entry => exact Or.inl hb
  | turn _ hcd ih =>
    rcases ih with hafter | hbefore
    · rcases hafter.eq_or_next with heq | ⟨d, hcd', hdb⟩
      · subst heq
        exact Or.inr (Visits.head hcd Visits.entry)
      · rw [hcd] at hcd'
        exact Or.inl (Turn.again.inj hcd' ▸ hdb)
    · exact Or.inr (Visits.turn hbefore hcd)

theorem Visits.returns {s s' : σ} {r : ρ} (h : Visits body s s') : Returns body s r ↔ Returns body s' r := by
  induction h with
  | entry => exact Iff.rfl
  | turn _ hab ih => exact ih.trans (returns_again hab)

/-- A loop whose turns keep `I` and lower `μ` ends within `μ` turns and one. -/
theorem loop_of_measure {I : σ → Prop} (μ : σ → Nat)
    (turn : ∀ a b, I a → body a = .again b → I b ∧ μ b < μ a) {fuel : Nat} {s : σ} (h : I s) (hfuel : μ s < fuel) :
    ∃ r, loop body fuel s = some r := by
  induction fuel generalizing s with
  | zero => exact absurd hfuel (Nat.not_lt_zero _)
  | succ fuel ih =>
    cases hb : body s with
    | done r => exact ⟨r, loop_succ_done hb fuel⟩
    | again s' =>
      obtain ⟨hs', hlt⟩ := turn s s' h hb
      rw [loop_succ_again hb]
      exact ih hs' (Nat.lt_of_lt_of_le hlt (Nat.le_of_lt_succ hfuel))

/-- A loop whose turns keep `I` and lower `μ` ends. -/
theorem returns_of_measure {I : σ → Prop} (μ : σ → Nat)
    (turn : ∀ a b, I a → body a = .again b → I b ∧ μ b < μ a) {s : σ} (h : I s) : ∃ r, Returns body s r := by
  obtain ⟨r, hr⟩ := loop_of_measure μ turn h (Nat.lt_succ_self (μ s))
  exact ⟨r, _, hr⟩

/-- A state that a turn leaves as it is holds the loop for good. -/
theorem not_returns_of_again_self {s : σ} {r : ρ} (h : body s = .again s) : ¬ Returns body s r := by
  intro hr
  refine Returns.turns (P := fun a => a ≠ s) ?_ ?_ hr rfl
  · intro a hdone hne
    rw [hne, h] at hdone
    cases hdone
  · intro a b hab hb hne
    rw [hne, h] at hab
    exact hb (Turn.again.inj hab).symm

theorem Visits.not_returns {s s' : σ} {r : ρ} (h : Visits body s s') (hself : body s' = .again s') :
    ¬ Returns body s r :=
  fun hr => not_returns_of_again_self hself (h.returns.mp hr)

/-! ## Loops that count -/

/-- What holds before the first turn of a loop over `j < n` and is taken from `j` to
    `j + 1` by each holds behind the last one, for `n`. -/
theorem foldl_finRange {α : Type} {n : Nat} {P : Nat → α → Prop} {f : α → Fin n → α} {a : α} (entry : P 0 a)
    (turn : ∀ (j : Fin n) b, P j b → P (j + 1) (f b j)) : P n ((List.finRange n).foldl f a) := by
  induction n with
  | zero => exact entry
  | succ n ih =>
    rw [List.finRange_succ_last, List.foldl_append, List.foldl_map]
    refine turn (Fin.last n) _ (ih (f := fun b j => f b j.castSucc) ?_)
    intro j b hb
    exact turn j.castSucc b hb

/-! ## Loops that end and keep to some states -/

/-- The loop entered in `s` ends, and each of its turns begins in a state of `P`. -/
structure EndsWithin (body : σ → Turn σ ρ) (P : σ → Prop) (s : σ) : Prop where
  ends : ∃ r, Returns body s r
  within : ∀ s', Visits body s s' → P s'

theorem EndsWithin.done {P : σ → Prop} {s : σ} {r : ρ} (h : body s = .done r) (hs : P s) : EndsWithin body P s := by
  refine ⟨⟨r, (returns_done h).mpr rfl⟩, ?_⟩
  intro s' hvisit
  rcases hvisit.eq_or_next with heq | ⟨a, hturn, -⟩
  · exact heq ▸ hs
  · rw [h] at hturn
    cases hturn

theorem EndsWithin.again {P : σ → Prop} {s a : σ} (h : body s = .again a) (hs : P s)
    (ha : EndsWithin body P a) : EndsWithin body P s := by
  obtain ⟨r, hr⟩ := ha.ends
  refine ⟨⟨r, (returns_again h).mpr hr⟩, ?_⟩
  intro s' hvisit
  rcases hvisit.eq_or_next with heq | ⟨b, hturn, hafter⟩
  · exact heq ▸ hs
  · rw [h] at hturn
    exact ha.within s' (Turn.again.inj hturn ▸ hafter)

end Crows.Lib
