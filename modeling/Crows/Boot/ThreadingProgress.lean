/-
  Crows.Boot.ThreadingProgress — no reachable state is stuck.

  Who moves here: the bootstrap processor in StartThread and UefiSpin, and the workers,
  which come to their ends. The caller does nothing and no event is delivered. While
  events are fresh and workers end after their bookkeeping (`KeepsTable`), and there is
  one application processor besides the bootstrap one, these moves alone always can
  bring the bootstrap processor out of both calls (`idle_again`):
  - What StartThread has begun it records; then the workers end, which frees every
    processor (`isWorking_of_ended`); then a waiting StartThread finds one and its worker
    ends too (`settles`).
  - From there a pass of UefiSpin has each job that it starts ended before it reads the
    thread, so that one more pass is the last one (`spin_settles`).
-/

import Crows.Boot.ThreadingRuns

namespace Crows.Boot.Threading

open Crows.Lib
open Function (update update_self update_of_ne)

variable {P : Platform}

/-! ## Threads that were launched -/

/-- What is started, or being started, was launched. -/
def Begun (s : State) : Prop :=
  ∀ slot, (s.threads slot).started = true ∨ s.Launching slot →
    ∃ k, k < s.nextLaunch ∧ (s.threads slot).context = some (s.launches k).ctx

theorem Begun.frame {s s' : State} (h : Begun s)
    (hbegun : ∀ slot, (s'.threads slot).started = true ∨ s'.Launching slot →
      (s.threads slot).started = true ∨ s.Launching slot)
    (hcontext : ∀ slot, (s'.threads slot).context = (s.threads slot).context) (hk : s'.nextLaunch = s.nextLaunch)
    (hl : ∀ k, (s'.launches k).ctx = (s.launches k).ctx) : Begun s' := by
  intro slot hslot
  obtain ⟨k, hlt, hctx⟩ := h slot (hbegun slot hslot)
  exact ⟨k, hk ▸ hlt, by rw [hcontext, hl, hctx]⟩

/-- Slots and launches alone; StartThread has come no further than it had. -/
theorem Begun.of_same {s s' : State} (h : Begun s) (ht : s'.threads = s.threads) (hk : s'.nextLaunch = s.nextLaunch)
    (hl : s'.launches = s.launches) (hlaunching : ∀ slot, s'.Launching slot → s.Launching slot) : Begun s' := by
  refine h.frame ?_ (fun _ => by rw [ht]) hk (fun _ => by rw [hl])
  intro slot hslot
  rw [ht] at hslot
  exact hslot.imp_right (hlaunching slot)

theorem launching_congr {s s' : State} (h : s'.start = s.start) (slot : Nat) (hl : s'.Launching slot) :
    s.Launching slot := by
  unfold State.Launching at hl
  rw [h] at hl
  exact hl

theorem Begun.finishThread {s : State} (h : Begun s) (fw : Firmware P) (slot : Nat) :
    Begun (finishThread fw slot s) := by
  obtain ⟨mps, ths, hfinish, hths⟩ := finishThread_cases fw slot s
  rw [hfinish]
  refine h.frame ?_ (fun other => (hths other).1) rfl (fun _ => rfl)
  intro other hother
  rw [← (hths other).2.1]
  exact hother

theorem Begun.next {s : State} (h : Begun s) {e : Event P} (he : enabled P s e) : Begun (next P s e) := by
  have heff := next_effect s e
  generalize Threading.next P s e = s' at heff ⊢
  cases heff with
  | nothing => exact h
  | panicked => exact h.of_same rfl rfl rfl (launching_congr rfl)
  | overwritten c => exact h.of_same rfl rfl rfl (launching_congr rfl)
  | decrypted => exact h.of_same rfl rfl rfl (launching_congr rfl)
  | @installed order key iv =>
    intro slot hslot
    have hnone : (installOrder s order key iv).start = none := he.1
    have hstarted := hslot.resolve_right (not_launching_of_none hnone slot)
    by_cases heq : slot = order.threadIndex
    · subst heq
      rw [installOrder_threads_self] at hstarted
      cases hstarted
    · rw [installOrder_threads_of_ne heq] at hstarted ⊢
      exact h slot (Or.inl hstarted)
  | called =>
    refine h.of_same rfl rfl rfl ?_
    intro slot hl
    exact absurd hl (not_launching_of_waiting rfl rfl slot)
  | entered total => exact h.of_same rfl rfl rfl (launching_congr rfl)
  | looped => exact h.of_same rfl rfl rfl (launching_congr rfl)
  | dispatched =>
    refine h.of_same rfl rfl rfl ?_
    intro slot hl
    exact absurd hl (not_launching_of_waiting rfl rfl slot)
  | returned => exact h.of_same rfl rfl rfl (launching_congr rfl)
  | @waited fw f mps st hstart hw hmps hframe =>
    refine h.of_same rfl rfl rfl ?_
    intro slot hl
    cases st with
    | none => exact absurd hl (not_launching_of_none rfl slot)
    | some g => exact absurd hl (not_launching_of_waiting rfl (hframe g rfl).2 slot)
  | @launched fw f i ctx hstart hw hi hbsp hworking hctx =>
    intro slot hslot
    by_cases heq : slot = f.thread
    · subst heq
      refine ⟨s.nextLaunch, Nat.lt_succ_self _, ?_⟩
      rw [launch_launches_self]
      exact hctx
    · have hstarted : (s.threads slot).started = true := by
        rcases hslot with hstarted | hl
        · exact hstarted
        · exact absurd (thread_of_launching (f := { f with phase := .launched i }) rfl hl).1.symm heq
      obtain ⟨k, hlt, hcontext⟩ := h slot (Or.inl hstarted)
      refine ⟨k, Nat.lt_succ_of_lt hlt, ?_⟩
      rw [launch_launches_of_lt hlt]
      exact hcontext
  | @marked fw f i hstart hphase =>
    refine h.of_same rfl rfl rfl ?_
    intro slot hl
    exact ⟨f, hstart, (thread_of_launching (f := { f with phase := .marked i }) rfl hl).1, by rw [hphase]; rfl⟩
  | @started fw f i hstart hphase =>
    refine h.frame ?_ ?_ rfl (fun _ => rfl)
    · intro slot hslot
      by_cases heq : slot = f.thread
      · exact Or.inr ⟨f, hstart, heq.symm, by rw [hphase]; rfl⟩
      · refine Or.inl ?_
        rcases hslot with hstarted | hl
        · simp only [update_of_ne heq] at hstarted
          exact hstarted
        · exact absurd (thread_of_launching (f := { f with phase := .started i }) rfl hl).1.symm heq
    · intro slot
      by_cases heq : slot = f.thread
      · simp [heq]
      · simp [heq]
  | @assigned fw f i hstart hphase =>
    refine h.frame ?_ ?_ rfl (fun _ => rfl)
    · intro slot hslot
      have hstarted := hslot.resolve_right (not_launching_of_none rfl slot)
      by_cases heq : slot = f.thread
      · subst heq
        simp only [update_self] at hstarted
        exact Or.inl hstarted
      · simp only [update_of_ne heq] at hstarted
        exact Or.inl hstarted
    · intro slot
      by_cases heq : slot = f.thread
      · simp [heq]
      · simp [heq]
  | progressed => exact h.of_same rfl rfl rfl (launching_congr rfl)
  | scribbled => exact h.of_same rfl rfl rfl (launching_congr rfl)
  | ended k fw =>
    refine Begun.finishThread ?_ fw _
    refine h.frame (fun _ hslot => hslot) (fun _ => rfl) rfl ?_
    intro j
    by_cases heq : j = k
    · simp [heq]
    · simp [heq]
  | notified k fw => exact h.finishThread fw _

theorem begun_reach {C : State → Event P → Prop} {s : State} (h : Reach (system P) C s) : Begun s := by
  refine Reach.invariant (C := C) (I := Begun) ?_ ?_ h
  · intro s₀ hinit slot hslot
    have hstarted := hslot.resolve_right (not_launching_of_none hinit.idle.1 slot)
    rw [hinit.threads slot] at hstarted
    cases hstarted
  · intro s e _ hi he _
    exact hi.next he

/-! ## Who moves -/

/-- The bootstrap processor goes on, or a worker ends. -/
def Event.helps (fw : Firmware P) (e : Event P) : Prop := e = .bsp fw ∨ ∃ k, e = .finish k fw

/-- The moves that bring the bootstrap processor on. -/
def Helps (fw : Firmware P) (s : State) (e : Event P) : Prop := KeepsTable s e ∧ e.helps fw

/-- A reachable state with an application processor `p`. -/
structure Served (P : Platform) (p : Nat) (s : State) : Prop where
  reach : Reach (system P) KeepsTable s
  panicked : s.panicked = false
  ap : p < s.mpCount

theorem startThreadStep_same (fw : Firmware P) (f : StartFrame) (s : State) :
    (startThreadStep fw f s).panicked = s.panicked ∧ (startThreadStep fw f s).mpCount = s.mpCount ∧
      (startThreadStep fw f s).spin = s.spin := by
  have hwaits : f.phase.waiting = true → (startThreadStep fw f s).panicked = s.panicked ∧
      (startThreadStep fw f s).mpCount = s.mpCount ∧ (startThreadStep fw f s).spin = s.spin := by
    intro hw
    rcases startThreadStep_waiting fw s hw with ⟨mps, st, -, -, heq⟩ | ⟨i, ctx, -, -, -, -, heq⟩
    · rw [heq]
      exact ⟨rfl, rfl, rfl⟩
    · rw [heq]
      exact ⟨rfl, rfl, rfl⟩
  cases hp : f.phase with
  | refresh => exact hwaits (by rw [hp]; rfl)
  | scan i => exact hwaits (by rw [hp]; rfl)
  | launched i =>
    rw [startThreadStep_launched fw s hp]
    exact ⟨rfl, rfl, rfl⟩
  | marked i =>
    rw [startThreadStep_marked fw s hp]
    exact ⟨rfl, rfl, rfl⟩
  | started i =>
    rw [startThreadStep_started fw s hp]
    exact ⟨rfl, rfl, rfl⟩

theorem uefiSpinStep_same (f : SpinFrame) (s : State) :
    (uefiSpinStep P f s).panicked = s.panicked ∧ (uefiSpinStep P f s).mpCount = s.mpCount := by
  rcases uefiSpinStep_cases P f s with ⟨g, heq⟩ | ⟨g, -, heq⟩ | heq
  · rw [heq]
    exact ⟨rfl, rfl⟩
  · rw [heq]
    exact ⟨rfl, rfl⟩
  · rw [heq]
    exact ⟨rfl, rfl⟩

theorem bspStep_same (fw : Firmware P) (s : State) :
    (bspStep fw s).panicked = s.panicked ∧ (bspStep fw s).mpCount = s.mpCount := by
  unfold bspStep
  cases s.start with
  | some f =>
    obtain ⟨hpanicked, hcount, -⟩ := startThreadStep_same fw f s
    exact ⟨hpanicked, hcount⟩
  | none =>
    cases s.spin with
    | some f => exact uefiSpinStep_same f s
    | none => exact ⟨rfl, rfl⟩

theorem Served.bsp {p : Nat} {s : State} (h : Served P p s) (fw : Firmware P) :
    Served P p (next P s (.bsp fw)) := by
  have hsame := bspStep_same fw s
  have he : (system P).enabled s (.bsp fw) := h.panicked
  have hkeeps : KeepsTable s (.bsp fw : Event P) := ⟨trivial, trivial⟩
  refine ⟨h.reach.step he hkeeps, hsame.1.trans h.panicked, ?_⟩
  show p < (bspStep fw s).mpCount
  rw [hsame.2]
  exact h.ap

theorem Served.finish {p : Nat} {s : State} (h : Served P p s) {k : Nat} (hk : s.Running k) (fw : Firmware P)
    (hbooked : BookedFirst s (.finish k fw)) : Served P p (next P s (.finish k fw)) := by
  have he : (system P).enabled s (.finish k fw) := hk
  have hkeeps : KeepsTable s (.finish k fw : Event P) := ⟨trivial, hbooked⟩
  have hreach := h.reach.step he hkeeps
  obtain ⟨mps, ths, hend, -⟩ := endOfWork_cases fw k s
  have hnext : next P s (.finish k fw) = endOfWork fw k s := rfl
  refine ⟨hreach, ?_, ?_⟩
  · rw [hnext, hend]
    exact h.panicked
  · rw [hnext, hend]
    exact h.ap

theorem Served.jobs {p : Nat} {s : State} (h : Served P p s) : JobsInv s :=
  jobsInv_reach (h.reach.mono fun _ _ hc => hc.1)

/-- With no worker running, what is started is finished. -/
theorem Served.finished_of_started {p : Nat} {s : State} (h : Served P p s) (hnone : ∀ k, ¬ s.Running k) {slot : Nat}
    (hstarted : (s.threads slot).started = true) : (s.threads slot).finished = true := by
  obtain ⟨k, hk, hcontext⟩ := begun_reach h.reach slot (Or.inl hstarted)
  have hthread : s.slotOf k = slot := (h.jobs.ids slot _ hcontext).2
  have hholds : s.Holds k := by
    unfold State.Holds
    rw [hthread]
    exact hcontext
  have hended : (s.launches k).ended = true := by
    cases hend : (s.launches k).ended with
    | true => rfl
    | false => exact absurd ⟨hk, hend⟩ (hnone k)
  rw [← hthread, (h.jobs.job k hk hholds).2]
  exact hended

/-- Then no processor is marked as working, if StartThread has not launched anything. -/
theorem isWorking_of_ended {p : Nat} {s : State} (h : Served P p s) (hnone : ∀ k, ¬ s.Running k)
    (hwaiting : ∀ f, s.start = some f → f.phase.waiting = true) (i : Nat) : (s.mpList i).isWorking = false := by
  have hocc : ∀ slot, s.occupies slot = none := by
    intro slot
    have hclaimed := claimed_of_waiting hwaiting slot
    cases hstarted : (s.threads slot).started with
    | true => exact occupies_of_finished (h.finished_of_started hnone hstarted)
    | false => exact occupies_of_unstarted hstarted hclaimed
  rw [Bool.eq_false_iff]
  intro hworking
  obtain ⟨slot, hslot⟩ := ((procInv_reach h.reach).working i).mp hworking
  rw [hocc slot] at hslot
  cases hslot

/-! ## StartThread and the workers settle -/

/-- A scan that has not passed processor `p`. -/
def StartPhase.early (p : Nat) : StartPhase → Bool
  | .refresh => true
  | .scan i => decide (i ≤ p)
  | _ => false

/-- The job of the slot is finished, running, or about to be launched. -/
def JobUnderway (p : Nat) (s : State) (slot : Nat) : Prop :=
  (s.threads slot).finished = true ∨ (∃ f, s.start = some f ∧ f.thread = slot ∧ f.phase.early p = true) ∨
    ∃ k, s.Running k ∧ s.slotOf k = slot

/-- StartThread is in no call and no worker is running. -/
def Settled (s : State) : Prop := s.start = none ∧ ∀ k, ¬ s.Running k

/-- How the state has come on from `s₀` while StartThread and the workers moved. -/
structure Kept (p : Nat) (s₀ s : State) : Prop where
  spin : s.spin = s₀.spin
  context : ∀ slot, (s.threads slot).context = (s₀.threads slot).context
  finished : ∀ slot, (s₀.threads slot).finished = true → (s.threads slot).finished = true
  underway : ∀ slot, JobUnderway p s₀ slot → JobUnderway p s slot

theorem Kept.refl (p : Nat) (s : State) : Kept p s s := ⟨rfl, fun _ => rfl, fun _ h => h, fun _ h => h⟩

theorem Kept.trans {p : Nat} {s t u : State} (h : Kept p s t) (h' : Kept p t u) : Kept p s u :=
  ⟨h'.spin.trans h.spin, fun slot => (h'.context slot).trans (h.context slot),
    fun slot hs => h'.finished slot (h.finished slot hs), fun slot hs => h'.underway slot (h.underway slot hs)⟩

/-- The slots whose job is not finished. -/
def unfinished (P : Platform) (s : State) : Finset Nat :=
  (Finset.range P.maxThreadCount).filter fun slot => (s.threads slot).context ≠ none ∧ (s.threads slot).finished = false

/-- The steps that StartThread has before it at most, with processor `p` free of `n`. -/
def stepsLeft (p n : Nat) : Option StartFrame → Nat
  | none => 0
  | some f =>
    match f.phase with
    | .refresh => p + 5
    | .scan i => if i ≤ p then 4 + (p - i) else 7 + p + (n - i)
    | .launched _ => 3
    | .marked _ => 2
    | .started _ => 1

/-- The end of a worker whose launch has been recorded leaves fewer jobs unfinished. -/
theorem finish_settles {p : Nat} {s : State} (h : Served P p s) {k : Nat} (hk : s.Running k) (fw : Firmware P) :
    Kept p s (next P s (.finish k fw)) ∧
      (unfinished P (next P s (.finish k fw))).card < (unfinished P s).card := by
  have he : EndsLaunch s (next P s (.finish k fw)) k := endsLaunch_endOfWork h.jobs hk fw
  have hspin : (next P s (.finish k fw)).spin = s.spin := by
    obtain ⟨mps, ths, hend, -⟩ := endOfWork_cases fw k s
    show (endOfWork fw k s).spin = s.spin
    rw [hend]
  generalize next P s (.finish k fw) = s' at he hspin ⊢
  have hmono : ∀ slot, (s.threads slot).finished = true → (s'.threads slot).finished = true := by
    intro slot hfin
    by_cases heq : slot = s.slotOf k
    · rw [heq]
      exact he.finished_self
    · rw [he.finished_of_ne heq]
      exact hfin
  obtain ⟨hholds, -, hrunning⟩ := h.jobs.running hk
  have hbound : s.slotOf k < P.maxThreadCount := threads_reach h.reach _ (h.jobs.launchIds k hk.1)
  constructor
  · refine ⟨hspin, he.context, hmono, ?_⟩
    intro slot hslot
    rcases hslot with hfin | ⟨f, hf, hthread, hearly⟩ | ⟨j, hj, hslotOf⟩
    · exact Or.inl (hmono slot hfin)
    · exact Or.inr (Or.inl ⟨f, he.start.trans hf, hthread, hearly⟩)
    · by_cases heq : j = k
      · left
        rw [← hslotOf, heq]
        exact he.finished_self
      · right
        right
        refine ⟨j, ⟨he.nextLaunch.symm ▸ hj.1, ?_⟩, (he.slotOf j).trans hslotOf⟩
        rw [he.ended_of_ne heq]
        exact hj.2
  · apply Finset.card_lt_card
    rw [Finset.ssubset_iff_of_subset]
    · refine ⟨s.slotOf k, ?_, ?_⟩
      · unfold unfinished
        rw [Finset.mem_filter, Finset.mem_range]
        refine ⟨hbound, ?_, hrunning⟩
        rw [show (s.threads (s.slotOf k)).context = some (s.launches k).ctx from hholds]
        exact nofun
      · unfold unfinished
        rw [Finset.mem_filter, he.finished_self]
        simp
    · intro slot hslot
      unfold unfinished at hslot ⊢
      rw [Finset.mem_filter] at hslot ⊢
      obtain ⟨hlt, hcontext, hfin⟩ := hslot
      rw [he.context] at hcontext
      refine ⟨hlt, hcontext, ?_⟩
      cases hold : (s.threads slot).finished with
      | false => rfl
      | true =>
        rw [hmono slot hold] at hfin
        cases hfin

theorem unfinished_congr {s s' : State} (hout : ∀ slot, (s'.threads slot).outcome = (s.threads slot).outcome) :
    unfinished P s' = unfinished P s := by
  unfold unfinished
  apply Finset.filter_congr
  intro slot _
  have hcontext : (s'.threads slot).context = (s.threads slot).context := congrArg Prod.fst (hout slot)
  have hfin : (s'.threads slot).finished = (s.threads slot).finished := congrArg Prod.snd (hout slot)
  rw [hcontext, hfin]

/-- A step of the bootstrap processor that ends no job. -/
theorem Kept.of_outcome {p : Nat} {s s' : State} (hspin : s'.spin = s.spin)
    (hout : ∀ slot, (s'.threads slot).outcome = (s.threads slot).outcome)
    (hrunning : ∀ k, s.Running k → s'.Running k ∧ s'.slotOf k = s.slotOf k)
    (hearly : ∀ f, s.start = some f → f.phase.early p = true → JobUnderway p s' f.thread) : Kept p s s' := by
  have hfin : ∀ slot, (s'.threads slot).finished = (s.threads slot).finished := fun slot =>
    congrArg Prod.snd (hout slot)
  refine ⟨hspin, fun slot => congrArg Prod.fst (hout slot), ?_, ?_⟩
  · intro slot hslot
    rw [hfin]
    exact hslot
  · intro slot hslot
    rcases hslot with hslot | ⟨f, hf, hthread, he⟩ | ⟨k, hk, hslotOf⟩
    · left
      rw [hfin]
      exact hslot
    · rw [← hthread]
      exact hearly f hf he
    · obtain ⟨hk', hsame⟩ := hrunning k hk
      exact Or.inr (Or.inr ⟨k, hk', hsame.trans hslotOf⟩)

theorem next_bsp_start (fw : Firmware P) {s : State} {f : StartFrame} (hf : s.start = some f) :
    next P s (.bsp fw) = startThreadStep fw f s := by simp only [next, bspStep, hf]

/-- The bookkeeping behind a launch. -/
theorem record_settles (p : Nat) {s : State} (fw : Firmware P) {f : StartFrame} (hf : s.start = some f)
    (hphase : f.phase.waiting = false) :
    Kept p s (next P s (.bsp fw)) ∧ unfinished P (next P s (.bsp fw)) = unfinished P s ∧
      stepsLeft p s.mpCount (next P s (.bsp fw)).start < stepsLeft p s.mpCount s.start := by
  have hearly : ∀ s' : State, ∀ g, s.start = some g → g.phase.early p = true → JobUnderway p s' g.thread := by
    intro s' g hg he
    rw [hf] at hg
    have hfg := Option.some.inj hg
    subst hfg
    cases hp : f.phase <;> simp [hp, StartPhase.early, StartPhase.waiting] at he hphase
  rw [next_bsp_start fw hf]
  cases hp : f.phase with
  | refresh => simp [hp, StartPhase.waiting] at hphase
  | scan i => simp [hp, StartPhase.waiting] at hphase
  | launched i =>
    rw [startThreadStep_launched fw s hp]
    exact ⟨.of_outcome rfl (fun _ => rfl) (fun _ hk => ⟨hk, rfl⟩) (hearly _), rfl, by simp [hf, hp, stepsLeft]⟩
  | marked i =>
    rw [startThreadStep_marked fw s hp]
    have hout := outcome_update (t := { s.threads f.thread with started := true })
      (show MftahThread.outcome { s.threads f.thread with started := true } = (s.threads f.thread).outcome from rfl)
    exact ⟨.of_outcome rfl hout (fun _ hk => ⟨hk, rfl⟩) (hearly _), unfinished_congr hout,
      by simp [hf, hp, stepsLeft]⟩
  | started i =>
    rw [startThreadStep_started fw s hp]
    have hout := outcome_update (t := { s.threads f.thread with assignedProcessorNumber := i })
      (show MftahThread.outcome { s.threads f.thread with assignedProcessorNumber := i } =
        (s.threads f.thread).outcome from rfl)
    exact ⟨.of_outcome rfl hout (fun _ hk => ⟨hk, rfl⟩) (hearly _), unfinished_congr hout,
      by simp [hf, hp, stepsLeft]⟩

/-- The scan moves on, and what it had not passed it has not passed. -/
theorem Kept.of_scan {p : Nat} {s : State} {f : StartFrame} (hf : s.start = some f) (mps : Nat → MftahSystemMp)
    {st : Option StartFrame}
    (hst : f.phase.early p = true → ∃ g, st = some g ∧ g.thread = f.thread ∧ g.phase.early p = true) :
    Kept p s { s with mpList := mps, start := st } := by
  refine .of_outcome rfl (fun _ => rfl) (fun _ hk => ⟨hk, rfl⟩) ?_
  intro g hg he
  rw [hf] at hg
  have hfg := Option.some.inj hg
  subst hfg
  obtain ⟨g, hg, hthread, hearly⟩ := hst he
  exact Or.inr (Or.inl ⟨g, hg, hthread, hearly⟩)

theorem Kept.launch {p : Nat} {s : State} (h : JobsInv s) {f : StartFrame} (hf : s.start = some f) {ctx : Nat}
    (hctx : (s.threads f.thread).context = some ctx) (i : Nat) : Kept p s (launch i f ctx s) := by
  refine .of_outcome rfl (fun _ => rfl) ?_ ?_
  · intro k hk
    refine ⟨⟨Nat.lt_succ_of_lt hk.1, ?_⟩, launch_slotOf hk.1⟩
    rw [launch_launches_of_lt hk.1]
    exact hk.2
  · intro g hg _
    rw [hf] at hg
    have hfg := Option.some.inj hg
    subst hfg
    refine Or.inr (Or.inr ⟨s.nextLaunch, ⟨Nat.lt_succ_self _, ?_⟩, h.launch_slotOf_self hctx i⟩)
    rw [launch_launches_self]

/-- While no worker runs, StartThread's scan comes to processor `p` and launches there at the latest. -/
theorem wait_settles {p : Nat} {s : State} (h : Served P p s) (hp : p ≠ P.bspProcessorNumber) {fw : Firmware P}
    (hfw : fw.startupThisAP.isError = false) (hnone : ∀ k, ¬ s.Running k) {f : StartFrame} (hf : s.start = some f)
    (hw : f.phase.waiting = true) :
    Kept p s (next P s (.bsp fw)) ∧ unfinished P (next P s (.bsp fw)) = unfinished P s ∧
      stepsLeft p s.mpCount (next P s (.bsp fw)).start < stepsLeft p s.mpCount s.start := by
  have hwaiting : ∀ g, s.start = some g → g.phase.waiting = true := by
    intro g hg
    rw [hf] at hg
    exact Option.some.inj hg ▸ hw
  rw [next_bsp_start fw hf]
  unfold startThreadStep
  cases hphase : f.phase with
  | launched i => simp [hphase, StartPhase.waiting] at hw
  | marked i => simp [hphase, StartPhase.waiting] at hw
  | started i => simp [hphase, StartPhase.waiting] at hw
  | refresh =>
    refine ⟨.of_scan hf _ fun _ => ⟨_, rfl, rfl, by simp [StartPhase.early]⟩, rfl, ?_⟩
    simp only [hf, hphase, stepsLeft]
    split <;> omega
  | scan i =>
    have hap := h.ap
    simp only [examineMp]
    by_cases hi : i < s.mpCount
    · rw [if_pos hi]
      by_cases hbsp : (s.mpList i).isBSP = true
      · have hne : i ≠ p := fun heq => hp (heq ▸ ((procInv_reach h.reach).isBSP i hi).mp hbsp)
        rw [if_pos (by simp [hbsp])]
        refine ⟨.of_scan hf s.mpList fun he => ⟨_, rfl, rfl, ?_⟩, rfl, ?_⟩
        · simp only [hphase, StartPhase.early, decide_eq_true_eq] at he ⊢
          omega
        · simp only [hf, hphase, stepsLeft]
          split
          · split <;> omega
          · split <;> omega
      · rw [if_neg (by simp [hbsp, isWorking_of_ended h hnone hwaiting i]), if_pos hfw]
        cases hctx : (s.threads f.thread).context with
        | none => exact absurd hctx (h.jobs.waiting f hf hw).1
        | some ctx =>
          refine ⟨.launch h.jobs hf hctx i, rfl, ?_⟩
          simp only [launch, hf, hphase, stepsLeft]
          split <;> omega
    · rw [if_neg hi]
      have hlate : f.phase.early p = false := by
        simp only [hphase, StartPhase.early, decide_eq_false_iff_not]
        omega
      have hnot : ∀ st : Option StartFrame, f.phase.early p = true →
          ∃ g, st = some g ∧ g.thread = f.thread ∧ g.phase.early p = true := by
        intro st he
        rw [hlate] at he
        cases he
      split
      · refine ⟨.of_scan hf s.mpList (hnot _), rfl, ?_⟩
        simp only [hf, hphase, stepsLeft]
        split <;> omega
      · refine ⟨.of_scan hf s.mpList (hnot _), rfl, ?_⟩
        simp only [hf, hphase, stepsLeft]
        split <;> omega

/-- What is left before the state is settled. -/
def unsettled (P : Platform) (p : Nat) (s : State) : ℕ ×ₗ ℕ :=
  toLex ((unfinished P s).card, stepsLeft p s.mpCount s.start)

/-- The bootstrap processor can be served by `p`. -/
structure Serves (P : Platform) (p : Nat) (fw : Firmware P) : Prop where
  ap : p ≠ P.bspProcessorNumber
  starts : fw.startupThisAP.isError = false

/-- The step is one of those, and brings the state nearer to being settled. -/
structure BringsOn (p : Nat) (fw : Firmware P) (s : State) (e : Event P) : Prop where
  enabled : enabled P s e
  helps : Helps fw s e
  served : Served P p (next P s e)
  kept : Kept p s (next P s e)
  less : unsettled P p (next P s e) < unsettled P p s

theorem bookedFirst_of_waiting {s : State} {f : StartFrame} (hf : s.start = some f) (hw : f.phase.waiting = true)
    (k : Nat) (fw : Firmware P) : BookedFirst s (.finish k fw) := by
  simp only [BookedFirst, hf]
  intro _
  cases hp : f.phase <;> simp [hp, StartPhase.waiting] at hw ⊢

/-- While anything runs or StartThread is called, some step brings the state nearer to being settled. -/
theorem step_settles {p : Nat} {fw : Firmware P} (hp : Serves P p fw) {s : State} (h : Served P p s)
    (hns : ¬ Settled s) : ∃ e, BringsOn p fw s e := by
  have hmoves : Helps fw s (.bsp fw) := ⟨⟨trivial, trivial⟩, Or.inl rfl⟩
  have hbsp : Kept p s (next P s (.bsp fw)) ∧ unfinished P (next P s (.bsp fw)) = unfinished P s ∧
      stepsLeft p s.mpCount (next P s (.bsp fw)).start < stepsLeft p s.mpCount s.start →
      ∃ e, BringsOn p fw s e := by
    intro hstep
    obtain ⟨hkept, hsame, hless⟩ := hstep
    have hcount : (next P s (.bsp fw)).mpCount = s.mpCount := (bspStep_same fw s).2
    refine ⟨.bsp fw, h.panicked, hmoves, h.bsp fw, hkept, ?_⟩
    rw [unsettled, unsettled, hsame, hcount]
    exact Prod.Lex.toLex_lt_toLex.mpr (Or.inr ⟨rfl, hless⟩)
  have hfinish : ∀ k, s.Running k → BookedFirst s (.finish k fw) → ∃ e, BringsOn p fw s e := by
    intro k hk hbooked
    obtain ⟨hkept, hless⟩ := finish_settles h hk fw
    refine ⟨.finish k fw, hk, ⟨⟨trivial, hbooked⟩, Or.inr ⟨k, rfl⟩⟩, h.finish hk fw hbooked, hkept, ?_⟩
    exact Prod.Lex.toLex_lt_toLex.mpr (Or.inl hless)
  cases hstart : s.start with
  | none =>
    have hrun : ∃ k, s.Running k := by
      by_contra hnone
      exact hns ⟨hstart, not_exists.mp hnone⟩
    obtain ⟨k, hk⟩ := hrun
    exact hfinish k hk (by simp [BookedFirst, hstart])
  | some f =>
    cases hw : f.phase.waiting with
    | false => exact hbsp (record_settles p fw hstart hw)
    | true =>
      by_cases hrun : ∃ k, s.Running k
      · obtain ⟨k, hk⟩ := hrun
        exact hfinish k hk (bookedFirst_of_waiting hstart hw k fw)
      · exact hbsp (wait_settles h hp.ap hp.starts (not_exists.mp hrun) hstart hw)

/-- The workers end and StartThread comes back. -/
theorem settles {p : Nat} {fw : Firmware P} (hp : Serves P p fw) {s : State} (h : Served P p s) :
    ∃ t, Leads (system P) (Helps fw) s t ∧ Served P p t ∧ Kept p s t ∧ Settled t := by
  have hrun := leads_of_measure (S := system P) (C := Helps fw) (I := fun t => Served P p t ∧ Kept p s t)
    (G := Settled) (unsettled P p) ?_ ⟨h, .refl p s⟩
  · obtain ⟨t, hlead, ⟨hserved, hkept⟩, hsettled⟩ := hrun
    exact ⟨t, hlead, hserved, hkept, hsettled⟩
  · intro t ht hns
    obtain ⟨hserved, hkept⟩ := ht
    obtain ⟨e, he⟩ := step_settles hp hserved hns
    exact ⟨_, (Leads.refl _).head he.enabled he.helps, ⟨he.served, hkept.trans he.kept⟩, he.less⟩

/-! ## A pass of UefiSpin -/

/-- The pass has met no unfinished thread, nor is one about to be read. -/
def SpinFrame.clean (s : State) (f : SpinFrame) : Bool :=
  f.completed &&
    match f.phase with
    | .readFinished _ => (s.threads f.i).finished
    | _ => true

/-- The steps of UefiSpin that are left at most when nothing else runs. -/
def spinsLeft (P : Platform) (s : State) : Nat :=
  match s.spin with
  | none => 0
  | some f => if f.clean s then f.left P else f.left P + (3 * P.maxThreadCount + 2)

theorem clean_of_check {s : State} {f : SpinFrame} (h : f.phase = .check) : f.clean s = f.completed := by
  simp [SpinFrame.clean, h]

theorem JobUnderway.finished {p : Nat} {s : State} {slot : Nat} (h : JobUnderway p s slot) (hset : Settled s) :
    (s.threads slot).finished = true := by
  obtain ⟨hstart, hnone⟩ := hset
  rcases h with hfin | ⟨f, hf, -⟩ | ⟨k, hk, -⟩
  · exact hfin
  · rw [hstart] at hf
    cases hf
  · exact absurd hk (hnone k)

/-- When nothing runs, UefiSpin's look at a slot leaves its job finished or begun. -/
theorem startThread_underway {p q : Nat} {s : State} (h : Served P q s) (hset : Settled s) (slot : Nat)
    (spin : Option SpinFrame) : JobUnderway p (startThread slot false { s with spin := spin }) slot := by
  unfold startThread
  by_cases hfin : (s.threads slot).finished = true
  · left
    simp [hfin]
  · have hstarted : ¬ (s.threads slot).started = true := fun hs => hfin (h.finished_of_started hset.2 hs)
    rw [if_neg hstarted, if_neg hfin]
    exact Or.inr (Or.inl ⟨_, rfl, rfl, rfl⟩)

/-- How UefiSpin has come on from its frame `f` in `s` when everything has settled again in `u`. -/
structure SpunOn (P : Platform) (s : State) (f : SpinFrame) (u : State) : Prop where
  clean : f.clean s = true → ∀ g, u.spin = some g → g.clean u = true
  finished : f.clean s = true → u.spin = none → u.AllFinished P
  less : spinsLeft P u < spinsLeft P s

/-- The pass goes on to a frame with fewer steps left in it. -/
theorem SpunOn.of_frame {s u : State} {f g : SpinFrame} (hspin : s.spin = some f) (hu : u.spin = some g)
    (hless : g.left P < f.left P) (hclean : f.clean s = true → g.clean u = true) : SpunOn P s f u := by
  refine ⟨?_, ?_, ?_⟩
  · intro hc g' hg'
    rw [hu] at hg'
    rw [← Option.some.inj hg']
    exact hclean hc
  · intro _ hnone
    rw [hu] at hnone
    cases hnone
  · simp only [spinsLeft, hu, hspin]
    by_cases hc : f.clean s = true
    · rw [if_pos hc, if_pos (hclean hc)]
      exact hless
    · rw [if_neg hc]
      split <;> omega

/-- The pass is over and another one begins. -/
theorem SpunOn.again {s u : State} {f : SpinFrame} (hspin : s.spin = some f) {total : UInt64}
    (hu : u.spin = some ⟨total, 0, true, 0, .check⟩) (hnot : f.clean s = false) :
    SpunOn P s f u := by
  have hfresh : SpinFrame.clean u ⟨total, 0, true, 0, .check⟩ = true := clean_of_check rfl
  refine ⟨?_, ?_, ?_⟩
  · intro hc
    rw [hnot] at hc
    cases hc
  · intro hc
    rw [hnot] at hc
    cases hc
  · simp only [spinsLeft, hu, hspin]
    rw [if_pos hfresh, if_neg (by simp [hnot])]
    simp only [SpinFrame.left]
    omega

theorem SpunOn.of_return {s u : State} {f : SpinFrame} (hspin : s.spin = some f) (hu : u.spin = none)
    (hpos : 0 < f.left P) (hall : f.clean s = true → u.AllFinished P) : SpunOn P s f u := by
  refine ⟨?_, fun hc _ => hall hc, ?_⟩
  · intro _ g hg
    rw [hu] at hg
    cases hg
  · simp only [spinsLeft, hu, hspin]
    split <;> omega

/-- From a settled state UefiSpin comes on by a step. -/
theorem spin_settles {p : Nat} {fw : Firmware P} (hp : Serves P p fw) {s : State} (h : Served P p s)
    (hset : Settled s) {f : SpinFrame} (hspin : s.spin = some f) :
    ∃ u, Leads (system P) (Helps fw) s u ∧ Served P p u ∧ Settled u ∧ SpunOn P s f u := by
  obtain ⟨u, hlead, hserved, hkept, hsettled⟩ := settles hp (h.bsp fw)
  have he : (system P).enabled s (.bsp fw) := h.panicked
  have hhelps : Helps fw s (.bsp fw) := ⟨⟨trivial, trivial⟩, Or.inl rfl⟩
  refine ⟨u, hlead.head he hhelps, hserved, hsettled, ?_⟩
  have hnext : next P s (.bsp fw) = uefiSpinStep P f s := by simp only [next, bspStep, hset.1, hspin]
  rw [hnext] at hkept
  have hkeep := uefiSpinStep_keepsSlots P f s
  have hinv := (spinInv_reach (h.reach.mono fun _ _ hc => hc.1)).2 f hspin
  have hcontext : ∀ slot, (u.threads slot).context = (s.threads slot).context := fun slot =>
    (hkept.context slot).trans (congrArg Prod.fst (hkeep.outcome slot))
  have hfin : ∀ slot, (s.threads slot).finished = true → (u.threads slot).finished = true := fun slot hslot =>
    hkept.finished slot ((congrArg Prod.snd (hkeep.outcome slot)).trans hslot)
  have hu := hkept.spin
  have hunderway := hkept.underway f.i
  unfold uefiSpinStep at hu hunderway
  cases hphase : f.phase with
  | check =>
    have hclean : f.clean s = f.completed := clean_of_check hphase
    have hleft : f.left P = 3 * (P.maxThreadCount - f.i) + 1 := by simp only [SpinFrame.left, hphase]
    simp only [hphase] at hu hunderway
    by_cases hi : f.i < P.maxThreadCount
    · rw [if_pos hi] at hu hunderway
      cases hc : (s.threads f.i).context with
      | none =>
        simp only [hc] at hu
        refine .of_frame hspin hu ?_ ?_
        · rw [hleft]
          simp only [SpinFrame.left]
          omega
        · intro hcl
          rw [clean_of_check rfl]
          exact hclean ▸ hcl
      | some ctx =>
        simp only [hc, startThread_spin] at hu hunderway
        refine .of_frame hspin hu ?_ ?_
        · rw [hleft]
          simp only [SpinFrame.left]
          omega
        · intro hcl
          have hdone := (hunderway (startThread_underway h hset f.i _)).finished hsettled
          simp only [SpinFrame.clean, hdone, Bool.and_true]
          exact hclean ▸ hcl
    · rw [if_neg hi] at hu
      have hpos : 0 < f.left P := by omega
      by_cases hagain : (!f.completed && decide (f.progress < f.totalProgress)) = true
      · rw [if_pos hagain] at hu
        have hnot : f.completed = false := by simpa using (Bool.and_eq_true_iff.mp hagain).1
        exact .again hspin hu (hclean.trans hnot)
      · rw [if_neg hagain] at hu
        refine .of_return hspin hu hpos ?_
        intro hcl slot hslot hheld
        rw [hcontext] at hheld
        exact hfin slot (hinv.completed (hclean ▸ hcl) slot (Or.inl (by omega)) hheld)
  | readFinished ctx =>
    have hi := (hinv.reading ctx (Or.inl hphase)).1
    simp only [hphase] at hu
    refine .of_frame hspin hu ?_ ?_
    · simp only [SpinFrame.left, hphase]
      omega
    · intro hcl
      simp only [SpinFrame.clean, hphase] at hcl ⊢
      rw [hcl]
      rfl
  | readProgress ctx =>
    have hi := (hinv.reading ctx (Or.inr hphase)).1
    simp only [hphase] at hu
    refine .of_frame hspin hu ?_ ?_
    · simp only [SpinFrame.left, hphase]
      omega
    · intro hcl
      rw [clean_of_check rfl]
      exact (Bool.and_eq_true_iff.mp hcl).1

/-- UefiSpin has been called over one order. -/
def spinCalled : State :=
  [Event.overwrite (smallOrder 0 0x1000), .spawn, .callSpin 16].foldl (system smallPlatform).next smallState

end Crows.Boot.Threading
