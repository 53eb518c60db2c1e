/-
  Crows.Lib.Transition — guarded transition systems and their runs.

  An event is taken in a state where it is `enabled`, and `next` is then the state
  after it. `Run S C s as s'` is a run over the events `as` each of which meets the
  side condition `C` in the state it is taken in; with `C` true everywhere it is any
  run. `Reach S C` are the states of such runs from an initial state. An invariant is
  shown once for one step: `Run.invariant` and `Reach.invariant` carry it over a run.
  `Run.of_valid` makes a run of a list whose events are checked one by one. `Leads` says
  that some run goes from one state to another; a goal is led to when a measure in a
  well-founded order can always be lowered (`leads_of_measure`). An `Execution` is an
  endless run; it comes to a goal when a measure that never grows falls until it has
  (`Execution.comes_to`).
-/

import Mathlib

namespace Crows.Lib

structure System (σ α : Type) where
  init : σ → Prop
  enabled : σ → α → Prop
  next : σ → α → σ

variable {σ α : Type} {S : System σ α} {C D : σ → α → Prop}

inductive Run (S : System σ α) (C : σ → α → Prop) (s : σ) : List α → σ → Prop where
  | nil : Run S C s [] s
  | snoc {as : List α} {t : σ} (a : α) : Run S C s as t → S.enabled t a → C t a →
      Run S C s (as ++ [a]) (S.next t a)

/-- The states of the runs from an initial state whose steps all meet `C`. -/
def Reach (S : System σ α) (C : σ → α → Prop) (s : σ) : Prop := ∃ s₀ as, S.init s₀ ∧ Run S C s₀ as s

/-! ## Invariants -/

theorem Run.mono (h : ∀ s a, C s a → D s a) {s t : σ} {as : List α} (hr : Run S C s as t) : Run S D s as t := by
  induction hr with
  | nil => exact Run.nil
  | snoc a _ ha hc ih => exact Run.snoc a ih ha (h _ _ hc)

theorem Run.invariant {I : σ → Prop} (hstep : ∀ s a, I s → S.enabled s a → C s a → I (S.next s a))
    {s t : σ} {as : List α} (hs : I s) (hr : Run S C s as t) : I t := by
  induction hr with
  | nil => exact hs
  | snoc a _ ha hc ih => exact hstep _ a ih ha hc

theorem Reach.mono (h : ∀ s a, C s a → D s a) {s : σ} (hr : Reach S C s) : Reach S D s := by
  obtain ⟨s₀, as, hinit, hrun⟩ := hr
  exact ⟨s₀, as, hinit, hrun.mono h⟩

theorem Reach.init {s : σ} (h : S.init s) : Reach S C s := ⟨s, [], h, Run.nil⟩

theorem Reach.step {s : σ} {a : α} (h : Reach S C s) (ha : S.enabled s a) (hc : C s a) :
    Reach S C (S.next s a) := by
  obtain ⟨s₀, as, hinit, hrun⟩ := h
  exact ⟨s₀, as ++ [a], hinit, hrun.snoc a ha hc⟩

theorem Reach.run {s t : σ} {as : List α} (h : Reach S C s) (hr : Run S C s as t) : Reach S C t := by
  induction hr with
  | nil => exact h
  | snoc a _ ha hc ih => exact ih.step ha hc

/-- What holds at the start and is kept by every step taken from a reachable state holds in every
    reachable state. -/
theorem Reach.invariant {I : σ → Prop} (hinit : ∀ s, S.init s → I s)
    (hstep : ∀ s a, Reach S C s → I s → S.enabled s a → C s a → I (S.next s a))
    {s : σ} (h : Reach S C s) : I s := by
  obtain ⟨s₀, as, hs₀, hrun⟩ := h
  induction hrun with
  | nil => exact hinit s₀ hs₀
  | snoc a hrun ha hc ih => exact hstep _ a ⟨s₀, _, hs₀, hrun⟩ ih ha hc

theorem Run.trans {s t u : σ} {as bs : List α} (h : Run S C s as t) (h' : Run S C t bs u) :
    Run S C s (as ++ bs) u := by
  induction h' with
  | nil =>
    rw [List.append_nil]
    exact h
  | snoc a _ ha hc ih =>
    rw [← List.append_assoc]
    exact ih.snoc a ha hc

/-! ## States that a run can come to -/

/-- Some run whose steps meet `C` goes from `s` to `t`. -/
def Leads (S : System σ α) (C : σ → α → Prop) (s t : σ) : Prop := ∃ as, Run S C s as t

theorem Leads.refl (s : σ) : Leads S C s s := ⟨[], Run.nil⟩

theorem Leads.trans {s t u : σ} (h : Leads S C s t) (h' : Leads S C t u) : Leads S C s u := by
  obtain ⟨as, has⟩ := h
  obtain ⟨bs, hbs⟩ := h'
  exact ⟨as ++ bs, has.trans hbs⟩

theorem Leads.head {s u : σ} {a : α} (ha : S.enabled s a) (hc : C s a) (h : Leads S C (S.next s a) u) :
    Leads S C s u := Leads.trans ⟨[] ++ [a], Run.nil.snoc a ha hc⟩ h

/-- A goal is come to when every state of `I` that is not in it leads to one of `I` with a smaller `μ`. -/
theorem leads_of_measure {I G : σ → Prop} {τ : Type} [Preorder τ] [WellFoundedLT τ] (μ : σ → τ)
    (step : ∀ s, I s → ¬ G s → ∃ t, Leads S C s t ∧ I t ∧ μ t < μ s) {s : σ} (hs : I s) :
    ∃ t, Leads S C s t ∧ I t ∧ G t := by
  induction hm : μ s using WellFoundedLT.induction generalizing s with
  | ind m ih =>
    by_cases hg : G s
    · exact ⟨s, Leads.refl s, hs, hg⟩
    · obtain ⟨t, hlead, hnext, hless⟩ := step s hs hg
      obtain ⟨u, hlead', hu⟩ := ih _ (hm ▸ hless) hnext rfl
      exact ⟨u, hlead.trans hlead', hu⟩

/-! ## Endless runs -/

structure Execution (S : System σ α) where
  state : Nat → σ
  event : Nat → α
  taken : ∀ n, S.enabled (state n) (event n)
  follows : ∀ n, state (n + 1) = S.next (state n) (event n)

namespace Execution

variable (E : Execution S)

/-- Up to each moment it is a run. -/
theorem run (n : Nat) : Run S (fun _ _ => True) (E.state 0) ((List.range n).map E.event) (E.state n) := by
  induction n with
  | zero => exact Run.nil
  | succ n ih =>
    rw [List.range_succ, List.map_append, E.follows]
    exact ih.snoc _ (E.taken n) trivial

/-- What every step keeps holds from then on. -/
theorem forever {G : σ → Prop} (hkeep : ∀ s a, G s → S.enabled s a → G (S.next s a)) {n : Nat}
    (h : G (E.state n)) {m : Nat} (hm : n ≤ m) : G (E.state m) := by
  induction m, hm using Nat.le_induction with
  | base => exact h
  | succ m _ ih =>
    rw [E.follows]
    exact hkeep _ _ ih (E.taken m)

/-- What the other events keep still holds when the next event of a kind comes. -/
theorem holds_at_next {A : α → Prop} {Q : σ → Prop} (hcomes : ∀ n, ∃ m, n ≤ m ∧ A (E.event m))
    (hkeep : ∀ s a, Q s → S.enabled s a → ¬ A a → Q (S.next s a)) {n : Nat} (h : Q (E.state n)) :
    ∃ m, n ≤ m ∧ A (E.event m) ∧ Q (E.state m) := by
  obtain ⟨m, hm, hA⟩ := hcomes n
  obtain ⟨d, rfl⟩ := Nat.exists_eq_add_of_le hm
  clear hm
  induction d generalizing n with
  | zero => exact ⟨n, Nat.le_refl n, hA, h⟩
  | succ d ih =>
    by_cases hnow : A (E.event n)
    · exact ⟨n, Nat.le_refl n, hnow, h⟩
    · have hnext : Q (E.state (n + 1)) := by
        rw [E.follows]
        exact hkeep _ _ h (E.taken n) hnow
      obtain ⟨m, hle, hm⟩ := ih hnext (by rwa [Nat.add_right_comm])
      exact ⟨m, Nat.le_of_succ_le hle, hm⟩

/-- A goal is come to when a measure that never grows falls again and again until it is. -/
theorem comes_to {G : σ → Prop} (μ : σ → Nat) (hle : ∀ n, μ (E.state (n + 1)) ≤ μ (E.state n))
    (hfalls : ∀ n, ∃ m, n ≤ m ∧ (G (E.state m) ∨ μ (E.state (m + 1)) < μ (E.state m))) :
    ∃ n, G (E.state n) := by
  have hanti : Antitone fun n => μ (E.state n) := antitone_nat_of_succ_le hle
  suffices h : ∀ k n, μ (E.state n) = k → ∃ m, G (E.state m) from h _ 0 rfl
  intro k
  induction k using Nat.strong_induction_on with
  | _ k ih =>
    intro n hn
    obtain ⟨m, hm, hgoal | hless⟩ := hfalls n
    · exact ⟨m, hgoal⟩
    · exact ih _ (lt_of_lt_of_le hless (hn ▸ hanti hm)) (m + 1) rfl

end Execution

/-- The states when the event is chosen by the time and the state. -/
def statesBy (S : System σ α) (pick : Nat → σ → α) (s : σ) : Nat → σ
  | 0 => s
  | n + 1 => S.next (statesBy S pick s n) (pick n (statesBy S pick s n))

/-- The endless run that a choice of an enabled event makes. -/
def Execution.choosing (pick : Nat → σ → α) (henabled : ∀ n s, S.enabled s (pick n s)) (s : σ) : Execution S where
  state := statesBy S pick s
  event n := pick n (statesBy S pick s n)
  taken _ := henabled _ _
  follows _ := rfl

/-! ## Runs of a given list -/

/-- Each event of the list is enabled and meets `C` in its turn. -/
def valid (S : System σ α) (C : σ → α → Prop) : σ → List α → Prop
  | _, [] => True
  | s, a :: as => S.enabled s a ∧ C s a ∧ valid S C (S.next s a) as

instance decidableValid [∀ s a, Decidable (S.enabled s a)] [∀ s a, Decidable (C s a)] :
    ∀ (s : σ) (as : List α), Decidable (valid S C s as)
  | _, [] => isTrue trivial
  | s, a :: as =>
    have : Decidable (valid S C (S.next s a) as) := decidableValid (S.next s a) as
    inferInstanceAs (Decidable (S.enabled s a ∧ C s a ∧ valid S C (S.next s a) as))

theorem Run.append_valid {s t : σ} {as : List α} (hr : Run S C s as t) {bs : List α} (hv : valid S C t bs) :
    Run S C s (as ++ bs) (bs.foldl S.next t) := by
  induction bs generalizing as t with
  | nil => simpa using hr
  | cons b bs ih =>
    obtain ⟨hb, hc, hrest⟩ := hv
    have hstep := ih (hr.snoc b hb hc) hrest
    simpa using hstep

theorem Run.of_valid {s : σ} {as : List α} (hv : valid S C s as) : Run S C s as (as.foldl S.next s) := by
  simpa using Run.append_valid (Run.nil (S := S) (C := C) (s := s)) hv

theorem Reach.of_valid {s : σ} {as : List α} (hs : S.init s) (hv : valid S C s as) :
    Reach S C (as.foldl S.next s) := ⟨s, as, hs, Run.of_valid hv⟩

end Crows.Lib
