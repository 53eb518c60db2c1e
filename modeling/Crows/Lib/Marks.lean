/-
  Crows.Lib.Marks — a table of marks for resources that slots hold one by one.

  `Marks holds marked`: the marked resources are those that some slot holds, and no two
  slots hold one. What one slot does to it:
  - `Marks.take`: a slot that held nothing takes an unmarked resource, which is marked.
  - `Marks.give`: a slot gives up what it held, whose mark goes.
  - `Marks.same`: nothing is taken and nothing given up.
-/
import Mathlib

namespace Crows.Lib

variable {σ ρ : Type} {holds holds' : σ → Option ρ} {marked marked' : ρ → Bool} {s : σ} {r : ρ}

structure Marks (holds : σ → Option ρ) (marked : ρ → Bool) : Prop where
  iff_held : ∀ r, marked r = true ↔ ∃ s, holds s = some r
  alone : ∀ a b r, holds a = some r → holds b = some r → a = b

theorem Marks.same (h : Marks holds marked) (hholds : ∀ a, holds' a = holds a) (hmarked : ∀ r, marked' r = marked r) :
    Marks holds' marked' := by
  have hh : holds' = holds := funext hholds
  have hm : marked' = marked := funext hmarked
  rw [hh, hm]
  exact h

variable [DecidableEq ρ]

theorem Marks.take (h : Marks holds marked) (hfree : marked r = false) (hbefore : holds s = none)
    (hhere : holds' s = some r) (hother : ∀ a, a ≠ s → holds' a = holds a)
    (hmarked : ∀ q, marked' q = if q = r then true else marked q) : Marks holds' marked' := by
  have hnone : ∀ a, holds a ≠ some r := by
    intro a ha
    have hmark := (h.iff_held r).mpr ⟨a, ha⟩
    rw [hfree] at hmark
    cases hmark
  constructor
  · intro q
    rw [hmarked]
    by_cases hq : q = r
    · rw [if_pos hq, hq]
      exact iff_of_true rfl ⟨s, hhere⟩
    · rw [if_neg hq, h.iff_held q]
      constructor
      · rintro ⟨a, ha⟩
        have hne : a ≠ s := by
          intro heq
          rw [heq, hbefore] at ha
          cases ha
        exact ⟨a, (hother a hne).trans ha⟩
      · rintro ⟨a, ha⟩
        have hne : a ≠ s := by
          intro heq
          rw [heq, hhere] at ha
          exact hq (Option.some.inj ha).symm
        exact ⟨a, (hother a hne).symm.trans ha⟩
  · intro a b q ha hb
    by_cases has : a = s <;> by_cases hbs : b = s
    · rw [has, hbs]
    · rw [has, hhere] at ha
      rw [hother b hbs, ← Option.some.inj ha] at hb
      exact absurd hb (hnone b)
    · rw [hbs, hhere] at hb
      rw [hother a has, ← Option.some.inj hb] at ha
      exact absurd ha (hnone a)
    · rw [hother a has] at ha
      rw [hother b hbs] at hb
      exact h.alone a b q ha hb

theorem Marks.give (h : Marks holds marked) (hheld : holds s = some r) (hhere : holds' s = none)
    (hother : ∀ a, a ≠ s → holds' a = holds a)
    (hmarked : ∀ q, marked' q = if q = r then false else marked q) : Marks holds' marked' := by
  have hholder : ∀ a q, holds' a = some q → a ≠ s ∧ holds a = some q := by
    intro a q ha
    have hne : a ≠ s := by
      intro heq
      rw [heq, hhere] at ha
      cases ha
    exact ⟨hne, (hother a hne).symm.trans ha⟩
  constructor
  · intro q
    rw [hmarked]
    by_cases hq : q = r
    · rw [if_pos hq, hq]
      refine iff_of_false Bool.false_ne_true ?_
      rintro ⟨a, ha⟩
      obtain ⟨hne, hbefore⟩ := hholder a r ha
      exact hne (h.alone a s r hbefore hheld)
    · rw [if_neg hq, h.iff_held q]
      constructor
      · rintro ⟨a, ha⟩
        have hne : a ≠ s := by
          intro heq
          rw [heq, hheld] at ha
          exact hq (Option.some.inj ha).symm
        exact ⟨a, (hother a hne).trans ha⟩
      · rintro ⟨a, ha⟩
        exact ⟨a, (hholder a q ha).2⟩
  · intro a b q ha hb
    exact h.alone a b q (hholder a q ha).2 (hholder b q hb).2

end Crows.Lib
