/-
  Crows.Lib.RegionJobs — jobs that each rewrite one region of memory from its own bytes.

  `runAll` does jobs one after the other. `Underway n job m₀ m phase` is what holds in the
  middle of doing `n` jobs at once from the memory `m₀`: a job that waits has not been
  begun, a running one has read its region, and may have written anything to it since, a
  done one has left there what it makes of the bytes it read. On regions that are apart
  from each other every step keeps it (`add`, `begin`, `scribble`, `finish`), and when all
  are done the memory is the one `runAll` gives (`eq_runAll`), in whatever order they ran.
-/
import Crows.Lib.Memory

namespace Crows.Lib

open Function (update update_self update_of_ne)

structure RegionJob where
  base : Addr
  length : Nat
  transform : List UInt8 → List UInt8
  length_le : length ≤ 2 ^ 64
  length_transform : ∀ bs, (transform bs).length = bs.length

namespace RegionJob

def In (j : RegionJob) (a : Addr) : Prop := InRegion j.base j.length a

def input (j : RegionJob) (m : Mem) : List UInt8 := m.read j.base j.length

def run (j : RegionJob) (m : Mem) : Mem := m.write j.base (j.transform (j.input m))

/-- No address lies in both regions. -/
def Apart (i j : RegionJob) : Prop := Separate i.base i.length j.base j.length

theorem length_input (j : RegionJob) (m : Mem) : (j.transform (j.input m)).length = j.length := by
  rw [j.length_transform, input, Mem.length_read]

theorem input_congr {j : RegionJob} {m m' : Mem} (h : ∀ a, j.In a → m a = m' a) : j.input m = j.input m' :=
  Mem.read_congr j.length_le h

/-- Writing a region's worth of bytes is seen in the region alone. -/
theorem write_outside {j : RegionJob} {m : Mem} {bs : List UInt8} (hbs : bs.length = j.length) {a : Addr}
    (h : ¬ j.In a) : m.write j.base bs a = m a := by
  refine Mem.write_frame ?_
  rw [hbs]
  exact h

theorem write_inside {j : RegionJob} {m m' : Mem} {bs : List UInt8} (hbs : bs.length = j.length) {a : Addr}
    (h : j.In a) : m.write j.base bs a = m'.write j.base bs a := by
  have hlt : InRegion j.base bs.length a := by
    rw [hbs]
    exact h
  rw [Mem.write_in hlt, Mem.write_in hlt]

theorem run_outside {j : RegionJob} {m : Mem} {a : Addr} (h : ¬ j.In a) : j.run m a = m a :=
  write_outside (j.length_input m) h

theorem run_inside {j : RegionJob} {m m' : Mem} (hm : ∀ a, j.In a → m a = m' a) {a : Addr} (h : j.In a) :
    j.run m a = j.run m' a := by
  unfold run
  rw [input_congr hm]
  exact write_inside (j.length_input m') h

end RegionJob

/-! ## One after the other -/

/-- The first `n` jobs in order. -/
def runAll (job : Nat → RegionJob) (m : Mem) : Nat → Mem
  | 0 => m
  | n + 1 => (job n).run (runAll job m n)

theorem runAll_congr {job job' : Nat → RegionJob} {n : Nat} (h : ∀ i, i < n → job i = job' i) (m : Mem) :
    runAll job m n = runAll job' m n := by
  induction n with
  | zero => rfl
  | succ n ih => rw [runAll, runAll, h n (Nat.lt_succ_self n), ih fun i hi => h i (Nat.lt_succ_of_lt hi)]

theorem runAll_outside {job : Nat → RegionJob} {m : Mem} {n : Nat} {a : Addr} (h : ∀ i, i < n → ¬ (job i).In a) :
    runAll job m n a = m a := by
  induction n with
  | zero => rfl
  | succ n ih =>
    rw [runAll, RegionJob.run_outside (h n (Nat.lt_succ_self n))]
    exact ih fun i hi => h i (Nat.lt_succ_of_lt hi)

/-- A job among others on separate regions does to its region what it does alone. -/
theorem runAll_inside {job : Nat → RegionJob} {m : Mem} {n : Nat}
    (hapart : ∀ i j, i < n → j < n → i ≠ j → (job i).Apart (job j)) {i : Nat} (hi : i < n) {a : Addr}
    (ha : (job i).In a) : runAll job m n a = (job i).run m a := by
  induction n with
  | zero => exact absurd hi (Nat.not_lt_zero i)
  | succ n ih =>
    have hbefore : ∀ j, j < n → (job j).Apart (job n) := by
      intro j hj
      exact hapart j n (Nat.lt_succ_of_lt hj) (Nat.lt_succ_self n) (Nat.ne_of_lt hj)
    rw [runAll]
    rcases Nat.lt_succ_iff_lt_or_eq.mp hi with hlt | heq
    · rw [RegionJob.run_outside (hbefore i hlt a ha)]
      exact ih (fun j k hj hk => hapart j k (Nat.lt_succ_of_lt hj) (Nat.lt_succ_of_lt hk)) hlt
    · subst heq
      refine RegionJob.run_inside ?_ ha
      intro b hb
      refine runAll_outside ?_
      intro j hj hbj
      exact hbefore j hj b hbj hb

/-! ## At once -/

inductive JobPhase where
  | waiting
  | running (input : List UInt8)
  | done

structure Underway (n : Nat) (job : Nat → RegionJob) (m₀ m : Mem) (phase : Nat → JobPhase) : Prop where
  outside : ∀ a, (∀ i, i < n → ¬ (job i).In a) → m a = m₀ a
  waiting : ∀ i, i < n → phase i = .waiting → ∀ a, (job i).In a → m a = m₀ a
  running : ∀ i, i < n → ∀ input, phase i = .running input → input = (job i).input m₀
  done : ∀ i, i < n → phase i = .done → ∀ a, (job i).In a → m a = (job i).run m₀ a

namespace Underway

variable {n : Nat} {job : Nat → RegionJob} {m₀ m : Mem} {phase : Nat → JobPhase}

theorem start (job : Nat → RegionJob) (m : Mem) (phase : Nat → JobPhase) : Underway 0 job m m phase :=
  ⟨fun _ _ => rfl, fun i hi => absurd hi (Nat.not_lt_zero i), fun i hi => absurd hi (Nat.not_lt_zero i),
    fun i hi => absurd hi (Nat.not_lt_zero i)⟩

theorem congr {job' : Nat → RegionJob} {phase' : Nat → JobPhase} (h : Underway n job m₀ m phase)
    (hjob : ∀ i, i < n → job' i = job i) (hphase : ∀ i, i < n → phase' i = phase i) :
    Underway n job' m₀ m phase' := by
  refine ⟨?_, ?_, ?_, ?_⟩
  · intro a ha
    refine h.outside a ?_
    intro i hi
    rw [← hjob i hi]
    exact ha i hi
  · intro i hi hp a ha
    rw [hphase i hi] at hp
    rw [hjob i hi] at ha
    exact h.waiting i hi hp a ha
  · intro i hi input hp
    rw [hphase i hi] at hp
    rw [hjob i hi]
    exact h.running i hi input hp
  · intro i hi hp a ha
    rw [hphase i hi] at hp
    rw [hjob i hi] at ha ⊢
    exact h.done i hi hp a ha

/-- A new job on a region apart from all others finds its region untouched. -/
theorem add (h : Underway n job m₀ m phase) (hapart : ∀ i, i < n → (job i).Apart (job n))
    (hnew : phase n = .waiting) : Underway (n + 1) job m₀ m phase := by
  refine ⟨?_, ?_, ?_, ?_⟩
  · intro a ha
    exact h.outside a fun i hi => ha i (Nat.lt_succ_of_lt hi)
  · intro i hi hp a ha
    rcases Nat.lt_succ_iff_lt_or_eq.mp hi with hlt | heq
    · exact h.waiting i hlt hp a ha
    · subst heq
      refine h.outside a ?_
      intro j hj haj
      exact hapart j hj a haj ha
  · intro i hi input hp
    rcases Nat.lt_succ_iff_lt_or_eq.mp hi with hlt | heq
    · exact h.running i hlt input hp
    · subst heq
      rw [hnew] at hp
      cases hp
  · intro i hi hp
    rcases Nat.lt_succ_iff_lt_or_eq.mp hi with hlt | heq
    · exact h.done i hlt hp
    · subst heq
      rw [hnew] at hp
      cases hp

/-- A job that begins reads the bytes its region had at first. -/
theorem begin (h : Underway n job m₀ m phase) {i : Nat} (hi : i < n) (hwait : phase i = .waiting) :
    Underway n job m₀ m (update phase i (.running ((job i).input m))) := by
  refine ⟨h.outside, ?_, ?_, ?_⟩
  · intro j hj hp
    by_cases hji : j = i
    · rw [hji, update_self] at hp
      cases hp
    · rw [update_of_ne hji] at hp
      exact h.waiting j hj hp
  · intro j hj input hp
    by_cases hji : j = i
    · subst hji
      rw [update_self] at hp
      rw [← JobPhase.running.inj hp]
      exact RegionJob.input_congr (h.waiting j hj hwait)
    · rw [update_of_ne hji] at hp
      exact h.running j hj input hp
  · intro j hj hp
    by_cases hji : j = i
    · rw [hji, update_self] at hp
      cases hp
    · rw [update_of_ne hji] at hp
      exact h.done j hj hp

/-- What one job writes to its region the others do not see. -/
theorem write_other (hapart : ∀ i j, i < n → j < n → i ≠ j → (job i).Apart (job j)) {i : Nat} (hi : i < n)
    {bs : List UInt8} (hbs : bs.length = (job i).length) {j : Nat} (hj : j < n) (hne : j ≠ i) {a : Addr}
    (ha : (job j).In a) : m.write (job i).base bs a = m a :=
  RegionJob.write_outside hbs (hapart j i hj hi hne a ha)

theorem scribble (h : Underway n job m₀ m phase)
    (hapart : ∀ i j, i < n → j < n → i ≠ j → (job i).Apart (job j)) {i : Nat} (hi : i < n) {input : List UInt8}
    (hrun : phase i = .running input) {bs : List UInt8} (hbs : bs.length = (job i).length) :
    Underway n job m₀ (m.write (job i).base bs) phase := by
  refine ⟨?_, ?_, h.running, ?_⟩
  · intro a ha
    rw [RegionJob.write_outside hbs (ha i hi)]
    exact h.outside a ha
  · intro j hj hp a ha
    have hne : j ≠ i := by
      intro heq
      rw [heq, hrun] at hp
      cases hp
    rw [write_other hapart hi hbs hj hne ha]
    exact h.waiting j hj hp a ha
  · intro j hj hp a ha
    have hne : j ≠ i := by
      intro heq
      rw [heq, hrun] at hp
      cases hp
    rw [write_other hapart hi hbs hj hne ha]
    exact h.done j hj hp a ha

theorem finish (h : Underway n job m₀ m phase)
    (hapart : ∀ i j, i < n → j < n → i ≠ j → (job i).Apart (job j)) {i : Nat} (hi : i < n) {input : List UInt8}
    (hrun : phase i = .running input) :
    Underway n job m₀ (m.write (job i).base ((job i).transform input)) (update phase i .done) := by
  have hinput := h.running i hi input hrun
  have hlen : ((job i).transform input).length = (job i).length := by
    rw [hinput]
    exact (job i).length_input m₀
  refine ⟨?_, ?_, ?_, ?_⟩
  · intro a ha
    rw [RegionJob.write_outside hlen (ha i hi)]
    exact h.outside a ha
  · intro j hj hp a ha
    by_cases hji : j = i
    · rw [hji, update_self] at hp
      cases hp
    · rw [update_of_ne hji] at hp
      rw [write_other hapart hi hlen hj hji ha]
      exact h.waiting j hj hp a ha
  · intro j hj input' hp
    by_cases hji : j = i
    · rw [hji, update_self] at hp
      cases hp
    · rw [update_of_ne hji] at hp
      exact h.running j hj input' hp
  · intro j hj hp a ha
    by_cases hji : j = i
    · subst hji
      rw [hinput]
      exact RegionJob.write_inside ((job j).length_input m₀) ha
    · rw [update_of_ne hji] at hp
      rw [write_other hapart hi hlen hj hji ha]
      exact h.done j hj hp a ha

/-- When all are done, the memory is what the jobs leave one after the other. -/
theorem eq_runAll (h : Underway n job m₀ m phase)
    (hapart : ∀ i j, i < n → j < n → i ≠ j → (job i).Apart (job j)) (hdone : ∀ i, i < n → phase i = .done) :
    m = runAll job m₀ n := by
  funext a
  by_cases hin : ∃ i, i < n ∧ (job i).In a
  · obtain ⟨i, hi, ha⟩ := hin
    rw [h.done i hi (hdone i hi) a ha, runAll_inside hapart hi ha]
  · have hnot : ∀ i, i < n → ¬ (job i).In a := fun i hi ha => hin ⟨i, hi, ha⟩
    rw [h.outside a hnot, runAll_outside hnot]

end Underway

end Crows.Lib
