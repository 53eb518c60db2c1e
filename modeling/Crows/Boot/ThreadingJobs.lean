/-
  Crows.Boot.ThreadingJobs — what becomes of an accepted order.

  An order is queued (its thread neither started nor finished), then StartThread
  launches it, and the end of its launch marks the thread finished. `JobsInv` ties the
  slots, the launches and StartThread's frame together; it is kept by every step in
  which no completion event reaches a slot that was given a new, unfinished job since
  the launch (`FreshNotify`). `Effect` says once what a step comes to; this and the
  other invariants are read off it.

  Proved, over every order of steps:
  - `finished_only_by_own_launch`: while the events are fresh, a finished thread's job
    was launched exactly once and that launch has ended.
  - `late_event_finishes_new_job`: a run in which one late event marks a new job
    finished that was never launched.
-/
import Crows.Boot.Threading

namespace Crows.Boot.Threading

open Crows.Lib
open Function (update update_self update_of_ne)

variable {P : Platform}

/-! ## Slots, launches and StartThread's frame -/

/-- StartThread has not come to StartupThisAP. -/
def StartPhase.waiting : StartPhase → Bool
  | .refresh => true
  | .scan _ => true
  | _ => false

/-- The job has been launched and StartThread has not set Started yet. -/
def StartPhase.launching : StartPhase → Bool
  | .launched _ => true
  | .marked _ => true
  | _ => false

def State.Launching (s : State) (slot : Nat) : Prop :=
  ∃ f, s.start = some f ∧ f.thread = slot ∧ f.phase.launching = true

/-- A job that waits to be started. -/
def State.Queued (s : State) (slot : Nat) : Prop :=
  (s.threads slot).context ≠ none ∧ (s.threads slot).started = false ∧ (s.threads slot).finished = false

/-- The slot of launch `k`'s job. -/
def State.slotOf (s : State) (k : Nat) : Nat := (s.ctxs (s.launches k).ctx).thread

/-- Context `c` is the job of launch `k`'s slot. -/
def State.Holds (s : State) (k : Nat) : Prop := (s.threads (s.slotOf k)).context = some (s.launches k).ctx

/-- A launch of context `c` has ended. -/
def State.Ended (s : State) (c : Nat) : Prop :=
  ∃ k, k < s.nextLaunch ∧ (s.launches k).ctx = c ∧ (s.launches k).ended = true

structure JobsInv (s : State) : Prop where
  ids : ∀ slot c, (s.threads slot).context = some c → c < s.nextCtx ∧ (s.ctxs c).thread = slot
  launchIds : ∀ k, k < s.nextLaunch → (s.launches k).ctx < s.nextCtx
  waiting : ∀ f, s.start = some f → f.phase.waiting = true → s.Queued f.thread
  holds : ∀ k, k < s.nextLaunch → (s.launches k).ended = true ∨ s.Holds k
  job : ∀ k, k < s.nextLaunch → s.Holds k →
    ((s.threads (s.slotOf k)).started = true ∨ s.Launching (s.slotOf k)) ∧
      (s.threads (s.slotOf k)).finished = (s.launches k).ended
  unique : ∀ k j, k < s.nextLaunch → j < s.nextLaunch → (s.launches k).ctx = (s.launches j).ctx → k = j
  finished : ∀ slot, (s.threads slot).finished = true →
    ∃ k, k < s.nextLaunch ∧ (s.threads slot).context = some (s.launches k).ctx ∧ (s.launches k).ended = true

theorem StartPhase.not_launching_of_waiting {p : StartPhase} (h : p.waiting = true) : p.launching = false := by
  cases p <;> simp_all [StartPhase.waiting, StartPhase.launching]

theorem not_launching_of_none {s : State} (h : s.start = none) (slot : Nat) : ¬ s.Launching slot := by
  intro hl
  obtain ⟨f, hf, -⟩ := hl
  rw [h] at hf
  cases hf

/-- Nothing else is launched while StartThread has a frame. -/
theorem thread_of_launching {s : State} {f : StartFrame} (hf : s.start = some f) {slot : Nat} (h : s.Launching slot) :
    f.thread = slot ∧ f.phase.launching = true := by
  obtain ⟨g, hg, hthread, hphase⟩ := h
  rw [hf] at hg
  have hfg := Option.some.inj hg
  subst hfg
  exact ⟨hthread, hphase⟩

theorem not_launching_of_waiting {s : State} {f : StartFrame} (hf : s.start = some f) (hw : f.phase.waiting = true)
    (slot : Nat) : ¬ s.Launching slot := by
  intro hl
  have hphase := (thread_of_launching hf hl).2
  rw [StartPhase.not_launching_of_waiting hw] at hphase
  cases hphase

/-- A running launch is its slot's job, begun and not finished. -/
theorem JobsInv.running {s : State} (h : JobsInv s) {k : Nat} (hk : s.Running k) :
    s.Holds k ∧ ((s.threads (s.slotOf k)).started = true ∨ s.Launching (s.slotOf k)) ∧
      (s.threads (s.slotOf k)).finished = false := by
  obtain ⟨hlt, hrun⟩ := hk
  have hholds : s.Holds k := by
    rcases h.holds k hlt with hend | hholds
    · rw [hrun] at hend
      cases hend
    · exact hholds
  obtain ⟨hbegun, hfin⟩ := h.job k hlt hholds
  exact ⟨hholds, hbegun, hfin.trans hrun⟩

/-! ## Steps that leave slots and launches alone -/

theorem slotOf_congr {s s' : State} (hl : ∀ k, (s'.launches k).ctx = (s.launches k).ctx)
    (hc : ∀ c, (s'.ctxs c).thread = (s.ctxs c).thread) (k : Nat) : s'.slotOf k = s.slotOf k := by
  simp only [State.slotOf, hl, hc]

theorem holds_congr {s s' : State} (hl : ∀ k, (s'.launches k).ctx = (s.launches k).ctx)
    (hc : ∀ c, (s'.ctxs c).thread = (s.ctxs c).thread)
    (hcontext : ∀ slot, (s'.threads slot).context = (s.threads slot).context) (k : Nat) : s'.Holds k ↔ s.Holds k := by
  simp only [State.Holds, slotOf_congr hl hc, hcontext, hl]

/-- What the invariant sees of a step that creates, launches and ends no job: no begun job is forgotten, and
    StartThread's frame waits with a queued job if it waits. -/
theorem JobsInv.keeps {s s' : State} (h : JobsInv s)
    (hcontext : ∀ slot, (s'.threads slot).context = (s.threads slot).context)
    (hfin : ∀ slot, (s'.threads slot).finished = (s.threads slot).finished)
    (hbegun : ∀ slot, (s.threads slot).started = true ∨ s.Launching slot →
      (s'.threads slot).started = true ∨ s'.Launching slot)
    (hc : ∀ c, (s'.ctxs c).thread = (s.ctxs c).thread) (hn : s'.nextCtx = s.nextCtx)
    (hl : s'.launches = s.launches) (hk : s'.nextLaunch = s.nextLaunch)
    (hwaiting : ∀ f, s'.start = some f → f.phase.waiting = true → s'.Queued f.thread) : JobsInv s' := by
  have hctx : ∀ k, (s'.launches k).ctx = (s.launches k).ctx := by
    intro k
    rw [hl]
  have hslot := slotOf_congr hctx hc
  have hholds := holds_congr hctx hc hcontext
  refine ⟨?_, ?_, hwaiting, ?_, ?_, ?_, ?_⟩
  · intro slot c hslot
    rw [hcontext] at hslot
    rw [hn, hc]
    exact h.ids slot c hslot
  · intro k hlt
    rw [hk] at hlt
    rw [hl, hn]
    exact h.launchIds k hlt
  · intro k hlt
    rw [hk] at hlt
    rw [hl, hholds]
    exact h.holds k hlt
  · intro k hlt hh
    rw [hk] at hlt
    obtain ⟨hold, hend⟩ := h.job k hlt ((hholds k).mp hh)
    rw [hslot, hfin, hl]
    exact ⟨hbegun _ hold, hend⟩
  · intro k j hk' hj'
    rw [hk] at hk' hj'
    rw [hl]
    exact h.unique k j hk' hj'
  · intro slot hfinished
    rw [hfin] at hfinished
    rw [hcontext, hl, hk]
    exact h.finished slot hfinished

/-- The invariant does not see caller, memory, processors and progress, and of StartThread's frame only
    whether it waits with a queued job and that it does not forget a launch. -/
theorem JobsInv.frame {s s' : State} (h : JobsInv s) (ht : s'.threads = s.threads)
    (hc : ∀ c, (s'.ctxs c).thread = (s.ctxs c).thread) (hn : s'.nextCtx = s.nextCtx)
    (hl : s'.launches = s.launches) (hk : s'.nextLaunch = s.nextLaunch)
    (hlaunching : ∀ slot, s.Launching slot → s'.Launching slot)
    (hwaiting : ∀ f, s'.start = some f → f.phase.waiting = true → s.Queued f.thread) : JobsInv s' := by
  refine h.keeps ?_ ?_ ?_ hc hn hl hk ?_
  · intro slot
    rw [ht]
  · intro slot
    rw [ht]
  · intro slot hbegun
    rw [ht]
    exact hbegun.imp_right (hlaunching slot)
  · intro f hf hw
    simp only [State.Queued, ht]
    exact hwaiting f hf hw

theorem JobsInv.frame_start {s s' : State} (h : JobsInv s) (ht : s'.threads = s.threads)
    (hc : ∀ c, (s'.ctxs c).thread = (s.ctxs c).thread) (hn : s'.nextCtx = s.nextCtx)
    (hl : s'.launches = s.launches) (hk : s'.nextLaunch = s.nextLaunch) (hs : s'.start = s.start) : JobsInv s' := by
  refine h.frame ht hc hn hl hk ?_ ?_
  · intro slot hslot
    unfold State.Launching at *
    rw [hs]
    exact hslot
  · intro f hf
    rw [hs] at hf
    exact h.waiting f hf

/-! ## What each function does to them -/

theorem spawnDecryptionWorker_cases (P : Platform) (s : State) :
    (spawnDecryptionWorker P s).2 = s ∨ (spawnDecryptionWorker P s).2 = { s with panicked := true } ∨
    (∃ order key iv, s.caller = ⟨some order, some key, some iv⟩ ∧ s.isThreadingEnabled = false ∧ order.length ≠ 0 ∧
      spawnDecryptionWorker P s = (some .success, { s with mem := cryptRegion P s.mem order key iv })) ∨
    ∃ order key iv, s.caller = ⟨some order, some key, some iv⟩ ∧ s.isThreadingEnabled = true ∧
      order.threadIndex < P.maxThreadCount ∧ order.length ≠ 0 ∧
      ((s.threads order.threadIndex).started = false ∨ (s.threads order.threadIndex).finished = true) ∧
      spawnDecryptionWorker P s = (some .success, installOrder s order key iv) := by
  cases hcaller : s.caller with
  | mk workOrder sha256Key initializationVector =>
    unfold spawnDecryptionWorker
    rw [hcaller]
    split
    next order key iv =>
      split
      · exact Or.inr (Or.inl rfl)
      next hindex =>
        split
        · exact Or.inl rfl
        next hlen =>
          split
          next hthr => exact Or.inr (Or.inr (Or.inl ⟨_, _, _, by simp_all, hthr, hlen, rfl⟩))
          next hthr =>
            split
            · exact Or.inl rfl
            next hbusy =>
              refine Or.inr (Or.inr (Or.inr
                ⟨_, _, _, by simp_all, by simpa using hthr, Nat.not_le.mp hindex, hlen, ?_, rfl⟩))
              simpa [or_iff_not_imp_left] using hbusy
    · exact Or.inl rfl

theorem startThread_cases (slot : Nat) (wait : Bool) (s : State) :
    startThread slot wait s = s ∨
    ((s.threads slot).started = false ∧ (s.threads slot).finished = false ∧
      startThread slot wait s = { s with start := some ⟨slot, wait, .refresh⟩ }) := by
  unfold startThread
  split
  · exact Or.inl rfl
  next hs =>
    split
    · exact Or.inl rfl
    next hf => exact Or.inr ⟨by simpa using hs, by simpa using hf, rfl⟩

/-- Before the launch, StartThread refreshes the processors and looks at one after the other, gives up, or
    launches the job on one that neither is the bootstrap processor nor works. -/
theorem startThreadStep_waiting (fw : Firmware P) {f : StartFrame} (s : State) (h : f.phase.waiting = true) :
    (∃ mps st, (mps = s.mpList ∨ mps = refreshMPs fw s.mpCount s.mpList) ∧
      (∀ g, st = some g → g.thread = f.thread ∧ g.phase.waiting = true) ∧
      startThreadStep fw f s = { s with mpList := mps, start := st }) ∨
    ∃ i ctx, i < s.mpCount ∧ (s.mpList i).isBSP = false ∧ (s.mpList i).isWorking = false ∧
      (s.threads f.thread).context = some ctx ∧ startThreadStep fw f s = launch i f ctx s := by
  have hnext : ∀ phase : StartPhase, phase.waiting = true →
      ∀ g, some { f with phase := phase } = some g → g.thread = f.thread ∧ g.phase.waiting = true := by
    intro phase hphase g hg
    have hg' := Option.some.inj hg
    subst hg'
    exact ⟨rfl, hphase⟩
  unfold startThreadStep
  cases hp : f.phase with
  | refresh => exact Or.inl ⟨_, _, Or.inr rfl, hnext (.scan 0) rfl, rfl⟩
  | scan i =>
    simp only [examineMp]
    split
    next hi =>
      split
      · exact Or.inl ⟨_, _, Or.inl rfl, hnext (.scan (i + 1)) rfl, rfl⟩
      next hbusy =>
        have hfree := Bool.or_eq_false_iff.mp (Bool.eq_false_iff.mpr hbusy)
        split
        · split
          next ctx hctx => exact Or.inr ⟨i, ctx, hi, hfree.1, hfree.2, hctx, rfl⟩
          · exact Or.inl ⟨_, none, Or.inl rfl, nofun, rfl⟩
        · exact Or.inl ⟨_, none, Or.inl rfl, nofun, rfl⟩
    · split
      · exact Or.inl ⟨_, _, Or.inl rfl, hnext .refresh rfl, rfl⟩
      · exact Or.inl ⟨_, none, Or.inl rfl, nofun, rfl⟩
  | launched i => rw [hp] at h; cases h
  | marked i => rw [hp] at h; cases h
  | started i => rw [hp] at h; cases h

theorem startThreadStep_launched (fw : Firmware P) {f : StartFrame} (s : State) {i : Nat} (h : f.phase = .launched i) :
    startThreadStep fw f s =
      { s with mpList := setWorking s.mpList i true, start := some { f with phase := .marked i } } := by
  unfold startThreadStep
  rw [h]

theorem startThreadStep_marked (fw : Firmware P) {f : StartFrame} (s : State) {i : Nat} (h : f.phase = .marked i) :
    startThreadStep fw f s =
      { s with
        threads := update s.threads f.thread { s.threads f.thread with started := true }
        start := some { f with phase := .started i } } := by
  unfold startThreadStep
  rw [h]

theorem startThreadStep_started (fw : Firmware P) {f : StartFrame} (s : State) {i : Nat} (h : f.phase = .started i) :
    startThreadStep fw f s =
      { s with
        threads := update s.threads f.thread { s.threads f.thread with assignedProcessorNumber := i }
        start := none } := by
  unfold startThreadStep
  rw [h]

/-- A step of UefiSpin goes on, calls StartThread for a queued job, or returns. -/
theorem uefiSpinStep_cases (P : Platform) (f : SpinFrame) (s : State) :
    (∃ g, uefiSpinStep P f s = { s with spin := some g }) ∨
    (∃ g, s.Queued f.i ∧ uefiSpinStep P f s = { s with spin := some g, start := some ⟨f.i, false, .refresh⟩ }) ∨
    uefiSpinStep P f s = { s with spin := none, batch := s.nextCtx } := by
  unfold uefiSpinStep
  split
  · split
    · split
      · exact Or.inl ⟨_, rfl⟩
      next ctx hctx =>
        rcases startThread_cases f.i false { s with spin := some { f with phase := .readFinished ctx } } with
          heq | ⟨hs, hf, heq⟩
        · exact Or.inl ⟨_, heq⟩
        · exact Or.inr (Or.inl ⟨_, ⟨by simp [hctx], hs, hf⟩, heq⟩)
    · split
      · exact Or.inl ⟨_, rfl⟩
      · exact Or.inr (Or.inr rfl)
  · exact Or.inl ⟨_, rfl⟩
  · exact Or.inl ⟨_, rfl⟩

/-- Reporting progress changes a context's CurrentPlace and nothing else of it. -/
theorem saveThreadProgress_cases (k : Nat) (place : UInt64) (s : State) :
    saveThreadProgress k place s = s ∨
    ∃ c, saveThreadProgress k place s =
      { s with
        ctxs := update s.ctxs c { s.ctxs c with currentPlace := place }
        peak := update s.peak c (max (s.peak c) place) } := by
  unfold saveThreadProgress
  split
  · exact Or.inr ⟨_, rfl⟩
  · exact Or.inl rfl

theorem finishThread_of_finished {fw : Firmware P} {slot : Nat} {s : State} (h : (s.threads slot).finished = true) :
    finishThread fw slot s = s := if_pos h

theorem finishThread_of_unfinished {fw : Firmware P} {slot : Nat} {s : State}
    (h : (s.threads slot).finished = false) :
    finishThread fw slot s =
      { s with
        mpList := refreshMPs fw s.mpCount (setWorking s.mpList (s.threads slot).assignedProcessorNumber false)
        threads := update s.threads slot { s.threads slot with finished := true } } :=
  if_neg (by simp [h])

/-- FinishThread touches processors and threads alone, and of the threads only turns Finished on. -/
theorem finishThread_cases (fw : Firmware P) (slot : Nat) (s : State) :
    ∃ mps ths, finishThread fw slot s = { s with mpList := mps, threads := ths } ∧
      ∀ other, (ths other).context = (s.threads other).context ∧ (ths other).started = (s.threads other).started ∧
        ((s.threads other).finished = true → (ths other).finished = true) := by
  cases hfin : (s.threads slot).finished with
  | true => exact ⟨s.mpList, s.threads, finishThread_of_finished hfin, fun _ => ⟨rfl, rfl, id⟩⟩
  | false =>
    refine ⟨_, _, finishThread_of_unfinished hfin, ?_⟩
    intro other
    by_cases hne : other = slot
    · simp [hne]
    · simp [hne]

theorem endOfWork_cases (fw : Firmware P) (k : Nat) (s : State) :
    ∃ mps ths, endOfWork fw k s =
        { s with
          mem := s.mem.write (s.order k).location
            (P.crypt (s.launches k).input (s.ctxs (s.launches k).ctx).sha256Key
              (s.ctxs (s.launches k).ctx).initializationVector)
          launches := update s.launches k { s.launches k with ended := true }
          mpList := mps
          threads := ths } ∧
      ∀ other, (ths other).context = (s.threads other).context ∧ (ths other).started = (s.threads other).started ∧
        ((s.threads other).finished = true → (ths other).finished = true) :=
  finishThread_cases fw _ _

/-! ## What a step comes to -/

/-- A state with what an event can leave of it, and under which conditions. -/
inductive Effect (s : State) : Event P → State → Prop where
  /-- The call is turned away, or there is nothing to go on with. -/
  | nothing (a : Event P) : Effect s a s
  | panicked (a : Event P) : Effect s a { s with panicked := true }
  | overwritten (c : Caller) : Effect s (.overwrite c) { s with caller := c }
  | decrypted {order : WorkOrder} {key iv : List UInt8} (hcaller : s.caller = ⟨some order, some key, some iv⟩)
      (hthreading : s.isThreadingEnabled = false) (hlength : order.length ≠ 0) :
      Effect s .spawn { s with mem := cryptRegion P s.mem order key iv }
  | installed {order : WorkOrder} {key iv : List UInt8} (hcaller : s.caller = ⟨some order, some key, some iv⟩)
      (hindex : order.threadIndex < P.maxThreadCount) (hlength : order.length ≠ 0)
      (hfree : (s.threads order.threadIndex).started = false ∨ (s.threads order.threadIndex).finished = true) :
      Effect s .spawn (installOrder s order key iv)
  | called {slot : Nat} {wait : Bool} (hstarted : (s.threads slot).started = false)
      (hfinished : (s.threads slot).finished = false) :
      Effect s (.callStart slot wait) { s with start := some ⟨slot, wait, .refresh⟩ }
  /-- UefiSpin is entered. -/
  | entered (total : UInt64) : Effect s (.callSpin total) { s with spin := some ⟨total, 0, true, 0, .check⟩ }
  | looped (fw : Firmware P) {f g : SpinFrame} (hstart : s.start = none) (hspin : s.spin = some f) :
      Effect s (.bsp fw) { s with spin := some g }
  /-- UefiSpin calls StartThread. -/
  | dispatched (fw : Firmware P) {f g : SpinFrame} (hstart : s.start = none) (hspin : s.spin = some f)
      (hqueued : s.Queued f.i) :
      Effect s (.bsp fw) { s with spin := some g, start := some ⟨f.i, false, .refresh⟩ }
  | returned (fw : Firmware P) {f : SpinFrame} (hstart : s.start = none) (hspin : s.spin = some f) :
      Effect s (.bsp fw) { s with spin := none, batch := s.nextCtx }
  /-- StartThread looks for a processor, or gives up. -/
  | waited (fw : Firmware P) {f : StartFrame} {mps : Nat → MftahSystemMp} {st : Option StartFrame}
      (hstart : s.start = some f) (hwaiting : f.phase.waiting = true)
      (hmps : mps = s.mpList ∨ mps = refreshMPs fw s.mpCount s.mpList)
      (hframe : ∀ g, st = some g → g.thread = f.thread ∧ g.phase.waiting = true) :
      Effect s (.bsp fw) { s with mpList := mps, start := st }
  | launched (fw : Firmware P) {f : StartFrame} {i ctx : Nat} (hstart : s.start = some f)
      (hwaiting : f.phase.waiting = true) (hi : i < s.mpCount) (hbsp : (s.mpList i).isBSP = false)
      (hworking : (s.mpList i).isWorking = false) (hctx : (s.threads f.thread).context = some ctx) :
      Effect s (.bsp fw) (launch i f ctx s)
  | marked (fw : Firmware P) {f : StartFrame} {i : Nat} (hstart : s.start = some f) (hphase : f.phase = .launched i) :
      Effect s (.bsp fw)
        { s with mpList := setWorking s.mpList i true, start := some { f with phase := .marked i } }
  | started (fw : Firmware P) {f : StartFrame} {i : Nat} (hstart : s.start = some f) (hphase : f.phase = .marked i) :
      Effect s (.bsp fw)
        { s with
          threads := update s.threads f.thread { s.threads f.thread with started := true }
          start := some { f with phase := .started i } }
  | assigned (fw : Firmware P) {f : StartFrame} {i : Nat} (hstart : s.start = some f) (hphase : f.phase = .started i) :
      Effect s (.bsp fw)
        { s with
          threads := update s.threads f.thread { s.threads f.thread with assignedProcessorNumber := i }
          start := none }
  | progressed (k c : Nat) (place : UInt64) :
      Effect s (.progress k place)
        { s with
          ctxs := update s.ctxs c { s.ctxs c with currentPlace := place }
          peak := update s.peak c (max (s.peak c) place) }
  | scribbled (k : Nat) (bytes : List UInt8) :
      Effect s (.scribble k bytes) { s with mem := s.mem.write (s.order k).location bytes }
  | ended (k : Nat) (fw : Firmware P) : Effect s (.finish k fw) (endOfWork fw k s)
  | notified (k : Nat) (fw : Firmware P) : Effect s (.notify k fw) (finishThread fw (s.slotOf k) s)

theorem startThreadStep_effect (fw : Firmware P) {f : StartFrame} {s : State} (hf : s.start = some f) :
    Effect s (.bsp fw) (startThreadStep fw f s) := by
  have hwaits : f.phase.waiting = true → Effect s (.bsp fw) (startThreadStep fw f s) := by
    intro hw
    rcases startThreadStep_waiting fw s hw with ⟨mps, st, hmps, hst, heq⟩ | ⟨i, ctx, hi, hbsp, hworking, hctx, heq⟩
    · rw [heq]
      exact .waited fw hf hw hmps hst
    · rw [heq]
      exact .launched fw hf hw hi hbsp hworking hctx
  cases hp : f.phase with
  | refresh => exact hwaits (by rw [hp]; rfl)
  | scan i => exact hwaits (by rw [hp]; rfl)
  | launched i =>
    rw [startThreadStep_launched fw s hp]
    exact .marked fw hf hp
  | marked i =>
    rw [startThreadStep_marked fw s hp]
    exact .started fw hf hp
  | started i =>
    rw [startThreadStep_started fw s hp]
    exact .assigned fw hf hp

theorem uefiSpinStep_effect (fw : Firmware P) {f : SpinFrame} {s : State} (hstart : s.start = none)
    (hf : s.spin = some f) : Effect s (.bsp fw) (uefiSpinStep P f s) := by
  rcases uefiSpinStep_cases P f s with ⟨g, heq⟩ | ⟨g, hqueued, heq⟩ | heq
  · rw [heq]
    exact .looped fw hstart hf
  · rw [heq]
    exact .dispatched fw hstart hf hqueued
  · rw [heq]
    exact .returned fw hstart hf

/-- Every step is one of these. -/
theorem next_effect (s : State) (a : Event P) : Effect s a (next P s a) := by
  cases a with
  | overwrite c => exact .overwritten c
  | spawn =>
    simp only [next]
    rcases spawnDecryptionWorker_cases P s with heq | heq | ⟨order, key, iv, hcaller, hthr, hlen, heq⟩ |
      ⟨order, key, iv, hcaller, -, hindex, hlen, hfree, heq⟩
    · rw [heq]
      exact .nothing _
    · rw [heq]
      exact .panicked _
    · rw [heq]
      exact .decrypted hcaller hthr hlen
    · rw [heq]
      exact .installed hcaller hindex hlen hfree
  | callStart slot wait =>
    simp only [next]
    rcases startThread_cases slot wait s with heq | ⟨hstarted, hfinished, heq⟩
    · rw [heq]
      exact .nothing _
    · rw [heq]
      exact .called hstarted hfinished
  | callSpin total =>
    simp only [next, uefiSpin]
    split
    · exact .nothing _
    · split
      · exact .panicked _
      · exact .entered total
  | bsp fw =>
    simp only [next, bspStep]
    cases hstart : s.start with
    | some f => exact startThreadStep_effect fw hstart
    | none =>
      cases hspin : s.spin with
      | none => exact .nothing _
      | some f => exact uefiSpinStep_effect fw hstart hspin
  | progress k place =>
    simp only [next]
    rcases saveThreadProgress_cases k place s with heq | ⟨c, heq⟩
    · rw [heq]
      exact .nothing _
    · rw [heq]
      exact .progressed k c place
  | scribble k bytes => exact .scribbled k bytes
  | finish k fw => exact .ended k fw
  | notify k fw => exact .notified k fw

/-! ## The steps that change slots and launches -/

theorem installOrder_threads_self (s : State) (order : WorkOrder) (key iv : List UInt8) :
    (installOrder s order key iv).threads order.threadIndex =
      createThread s.nextCtx (s.threads order.threadIndex) :=
  update_self _ _ _

theorem installOrder_threads_of_ne {s : State} {order : WorkOrder} {key iv : List UInt8} {slot : Nat}
    (h : slot ≠ order.threadIndex) : (installOrder s order key iv).threads slot = s.threads slot :=
  update_of_ne h _ _

theorem installOrder_ctxs_self (s : State) (order : WorkOrder) (key iv : List UInt8) :
    (installOrder s order key iv).ctxs s.nextCtx = newThreadContext s order key iv :=
  update_self _ _ _

theorem installOrder_ctxs_of_lt {s : State} {order : WorkOrder} {key iv : List UInt8} {c : Nat} (h : c < s.nextCtx) :
    (installOrder s order key iv).ctxs c = s.ctxs c :=
  update_of_ne (Nat.ne_of_lt h) _ _

theorem launch_launches_self (i : Nat) (f : StartFrame) (ctx : Nat) (s : State) :
    (launch i f ctx s).launches s.nextLaunch =
      ⟨ctx, i, s.mem.read (s.ctxs ctx).workOrder.location (s.ctxs ctx).workOrder.length.toNat, false⟩ :=
  update_self _ _ _

theorem launch_launches_of_lt {i ctx k : Nat} {f : StartFrame} {s : State} (h : k < s.nextLaunch) :
    (launch i f ctx s).launches k = s.launches k :=
  update_of_ne (Nat.ne_of_lt h) _ _

/-- The launches of earlier jobs keep their slots. -/
theorem JobsInv.installOrder_slotOf {s : State} (h : JobsInv s) {order : WorkOrder} {key iv : List UInt8} {k : Nat}
    (hk : k < s.nextLaunch) : (Threading.installOrder s order key iv).slotOf k = s.slotOf k :=
  congrArg DecryptThreadCtx.thread (installOrder_ctxs_of_lt (h.launchIds k hk))

/-- The new job is no launch's. -/
theorem JobsInv.installOrder_holds {s : State} (h : JobsInv s) {order : WorkOrder} {key iv : List UInt8} {k : Nat}
    (hk : k < s.nextLaunch) :
    (Threading.installOrder s order key iv).Holds k ↔ s.slotOf k ≠ order.threadIndex ∧ s.Holds k := by
  unfold State.Holds
  rw [h.installOrder_slotOf hk]
  by_cases heq : s.slotOf k = order.threadIndex
  · rw [heq, installOrder_threads_self]
    refine iff_of_false ?_ fun hh => hh.1 rfl
    intro hnew
    have hctx : s.nextCtx = (s.launches k).ctx := Option.some.inj hnew
    exact absurd hctx (Nat.ne_of_gt (h.launchIds k hk))
  · rw [installOrder_threads_of_ne heq]
    exact ⟨fun hh => ⟨heq, hh⟩, fun hh => hh.2⟩

/-- A spawned order takes a slot whose job has ended, or was never launched. -/
theorem JobsInv.installOrder {s : State} (h : JobsInv s) (hidle : s.Idle) {order : WorkOrder} {key iv : List UInt8}
    (hfree : (s.threads order.threadIndex).started = false ∨ (s.threads order.threadIndex).finished = true) :
    JobsInv (installOrder s order key iv) := by
  refine ⟨?_, ?_, ?_, ?_, ?_, h.unique, ?_⟩
  · intro slot c hc
    by_cases heq : slot = order.threadIndex
    · subst heq
      rw [installOrder_threads_self] at hc
      have hc' : s.nextCtx = c := Option.some.inj hc
      subst hc'
      rw [installOrder_ctxs_self]
      exact ⟨Nat.lt_succ_self _, rfl⟩
    · rw [installOrder_threads_of_ne heq] at hc
      obtain ⟨hlt, hthread⟩ := h.ids slot c hc
      rw [installOrder_ctxs_of_lt hlt]
      exact ⟨Nat.lt_succ_of_lt hlt, hthread⟩
  · intro k hk
    exact Nat.lt_succ_of_lt (h.launchIds k hk)
  · intro f hf
    have hf' : s.start = some f := hf
    rw [hidle.1] at hf'
    cases hf'
  · intro k hk
    rcases h.holds k hk with hend | hholds
    · exact Or.inl hend
    · by_cases heq : s.slotOf k = order.threadIndex
      · obtain ⟨hbegun, hfin⟩ := h.job k hk hholds
        have hstarted := hbegun.resolve_right (not_launching_of_none hidle.1 _)
        rw [heq] at hstarted hfin
        rcases hfree with hf | hf
        · rw [hf] at hstarted
          cases hstarted
        · exact Or.inl (hfin.symm.trans hf)
      · exact Or.inr ((h.installOrder_holds hk).mpr ⟨heq, hholds⟩)
  · intro k hk hh
    obtain ⟨hne, hholds⟩ := (h.installOrder_holds hk).mp hh
    rw [h.installOrder_slotOf hk, installOrder_threads_of_ne hne]
    exact h.job k hk hholds
  · intro slot hfin
    by_cases heq : slot = order.threadIndex
    · subst heq
      rw [installOrder_threads_self] at hfin
      cases hfin
    · rw [installOrder_threads_of_ne heq] at hfin ⊢
      exact h.finished slot hfin

/-- A queued job has not been launched. -/
theorem JobsInv.not_launched {s : State} (h : JobsInv s) {f : StartFrame} (hf : s.start = some f)
    (hw : f.phase.waiting = true) {ctx : Nat} (hctx : (s.threads f.thread).context = some ctx) {k : Nat}
    (hk : k < s.nextLaunch) : (s.launches k).ctx ≠ ctx := by
  intro heq
  have hslot : s.slotOf k = f.thread := by rw [State.slotOf, heq, (h.ids f.thread ctx hctx).2]
  have hbegun := (h.job k hk (by rw [State.Holds, hslot, heq, hctx])).1
  rw [hslot, (h.waiting f hf hw).2.1] at hbegun
  exact hbegun.elim nofun (not_launching_of_waiting hf hw _)

theorem launch_slotOf {i ctx k : Nat} {f : StartFrame} {s : State} (hk : k < s.nextLaunch) :
    (launch i f ctx s).slotOf k = s.slotOf k := by
  unfold State.slotOf
  rw [launch_launches_of_lt hk]
  rfl

theorem launch_holds {i ctx k : Nat} {f : StartFrame} {s : State} (hk : k < s.nextLaunch) :
    (launch i f ctx s).Holds k ↔ s.Holds k := by
  unfold State.Holds
  rw [launch_slotOf hk, launch_launches_of_lt hk]
  rfl

theorem JobsInv.launch_slotOf_self {s : State} (h : JobsInv s) {f : StartFrame} {ctx : Nat}
    (hctx : (s.threads f.thread).context = some ctx) (i : Nat) :
    (Threading.launch i f ctx s).slotOf s.nextLaunch = f.thread := by
  unfold State.slotOf
  rw [launch_launches_self]
  exact (h.ids f.thread ctx hctx).2

theorem JobsInv.launch {s : State} (h : JobsInv s) {f : StartFrame} (hf : s.start = some f)
    (hw : f.phase.waiting = true) {ctx : Nat} (hctx : (s.threads f.thread).context = some ctx) (i : Nat) :
    JobsInv (launch i f ctx s) := by
  have hslot := h.launch_slotOf_self hctx i
  refine ⟨h.ids, ?_, ?_, ?_, ?_, ?_, ?_⟩
  · intro k hk
    rcases Nat.lt_succ_iff_lt_or_eq.mp hk with hk | hk
    · rw [launch_launches_of_lt hk]
      exact h.launchIds k hk
    · rw [hk, launch_launches_self]
      exact (h.ids f.thread ctx hctx).1
  · intro g hg hgw
    have hg' : some { f with phase := .launched i } = some g := hg
    rw [← Option.some.inj hg'] at hgw
    cases hgw
  · intro k hk
    rcases Nat.lt_succ_iff_lt_or_eq.mp hk with hk | hk
    · rw [launch_launches_of_lt hk, launch_holds hk]
      exact h.holds k hk
    · refine Or.inr ?_
      rw [hk, State.Holds, hslot, launch_launches_self]
      exact hctx
  · intro k hk hh
    rcases Nat.lt_succ_iff_lt_or_eq.mp hk with hk | hk
    · obtain ⟨hbegun, hfin⟩ := h.job k hk ((launch_holds hk).mp hh)
      rw [launch_slotOf hk, launch_launches_of_lt hk]
      exact ⟨Or.inl (hbegun.resolve_right (not_launching_of_waiting hf hw _)), hfin⟩
    · rw [hk, hslot, launch_launches_self]
      exact ⟨Or.inr ⟨_, rfl, rfl, rfl⟩, (h.waiting f hf hw).2.2⟩
  · intro k j hk hj heq
    rcases Nat.lt_succ_iff_lt_or_eq.mp hk with hk | hk <;> rcases Nat.lt_succ_iff_lt_or_eq.mp hj with hj | hj
    · rw [launch_launches_of_lt hk, launch_launches_of_lt hj] at heq
      exact h.unique k j hk hj heq
    · rw [hj, launch_launches_of_lt hk, launch_launches_self] at heq
      exact absurd heq (h.not_launched hf hw hctx hk)
    · rw [hk, launch_launches_of_lt hj, launch_launches_self] at heq
      exact absurd heq.symm (h.not_launched hf hw hctx hj)
    · rw [hk, hj]
  · intro slot hfin
    obtain ⟨k, hk, hcontext, hend⟩ := h.finished slot hfin
    refine ⟨k, Nat.lt_succ_of_lt hk, ?_, ?_⟩
    · rw [launch_launches_of_lt hk]
      exact hcontext
    · rw [launch_launches_of_lt hk]
      exact hend

/-- Writing what no invariant reads of a thread, or Started where StartThread is launching. -/
theorem JobsInv.record {s s' : State} (h : JobsInv s) {slot : Nat} {t : MftahThread}
    (ht : s'.threads = update s.threads slot t) (hcontext : t.context = (s.threads slot).context)
    (hfin : t.finished = (s.threads slot).finished)
    (hbegun : (s.threads slot).started = true ∨ s.Launching slot → t.started = true)
    (hlaunching : ∀ other, s.Launching other → other = slot)
    (hc : s'.ctxs = s.ctxs) (hn : s'.nextCtx = s.nextCtx) (hl : s'.launches = s.launches)
    (hk : s'.nextLaunch = s.nextLaunch) (hwaiting : ∀ f, s'.start = some f → f.phase.waiting = false) :
    JobsInv s' := by
  refine h.keeps ?_ ?_ ?_ (fun c => by rw [hc]) hn hl hk ?_
  · intro other
    rw [ht]
    by_cases heq : other = slot
    · rw [heq, update_self, hcontext]
    · rw [update_of_ne heq]
  · intro other
    rw [ht]
    by_cases heq : other = slot
    · rw [heq, update_self, hfin]
    · rw [update_of_ne heq]
  · intro other hold
    refine Or.inl ?_
    rw [ht]
    by_cases heq : other = slot
    · rw [heq] at hold ⊢
      rw [update_self]
      exact hbegun hold
    · rw [update_of_ne heq]
      rcases hold with hstarted | hstarting
      · exact hstarted
      · exact absurd (hlaunching _ hstarting) heq
  · intro f hf hw
    rw [hwaiting f hf] at hw
    cases hw

theorem endOfWork_of_unfinished {fw : Firmware P} {k : Nat} {s : State}
    (h : (s.threads (s.slotOf k)).finished = false) :
    endOfWork fw k s =
      { s with
        mem := s.mem.write (s.order k).location
          (P.crypt (s.launches k).input (s.ctxs (s.launches k).ctx).sha256Key
            (s.ctxs (s.launches k).ctx).initializationVector)
        launches := update s.launches k { s.launches k with ended := true }
        mpList := refreshMPs fw s.mpCount (setWorking s.mpList (s.threads (s.slotOf k)).assignedProcessorNumber false)
        threads := update s.threads (s.slotOf k) { s.threads (s.slotOf k) with finished := true } } :=
  finishThread_of_unfinished h

/-- Finishing a slot changes no other field of a thread. -/
theorem finished_frame {s s' : State} {slot : Nat}
    (ht : s'.threads = update s.threads slot { s.threads slot with finished := true }) (other : Nat) :
    (s'.threads other).context = (s.threads other).context ∧
      (s'.threads other).started = (s.threads other).started ∧
      (s'.threads other).assignedProcessorNumber = (s.threads other).assignedProcessorNumber := by
  rw [ht]
  by_cases heq : other = slot
  · rw [heq, update_self]
    exact ⟨rfl, rfl, rfl⟩
  · rw [update_of_ne heq]
    exact ⟨rfl, rfl, rfl⟩

/-- What the end of launch `k` changes of the slots and the launches. -/
structure EndsLaunch (s s' : State) (k : Nat) : Prop where
  threads : s'.threads = update s.threads (s.slotOf k) { s.threads (s.slotOf k) with finished := true }
  launches : s'.launches = update s.launches k { s.launches k with ended := true }
  ctxs : s'.ctxs = s.ctxs
  start : s'.start = s.start
  nextCtx : s'.nextCtx = s.nextCtx
  nextLaunch : s'.nextLaunch = s.nextLaunch

theorem endsLaunch_endOfWork {s : State} (h : JobsInv s) {k : Nat} (hk : s.Running k) (fw : Firmware P) :
    EndsLaunch s (endOfWork fw k s) k := by
  rw [endOfWork_of_unfinished (h.running hk).2.2]
  exact ⟨rfl, rfl, rfl, rfl, rfl, rfl⟩

namespace EndsLaunch

variable {s s' : State} {k : Nat} (he : EndsLaunch s s' k)
include he

theorem context (slot : Nat) : (s'.threads slot).context = (s.threads slot).context :=
  (finished_frame he.threads slot).1

theorem started (slot : Nat) : (s'.threads slot).started = (s.threads slot).started :=
  (finished_frame he.threads slot).2.1

theorem assigned (slot : Nat) :
    (s'.threads slot).assignedProcessorNumber = (s.threads slot).assignedProcessorNumber :=
  (finished_frame he.threads slot).2.2

theorem finished_self : (s'.threads (s.slotOf k)).finished = true := by
  rw [he.threads, update_self]

theorem finished_of_ne {slot : Nat} (h : slot ≠ s.slotOf k) :
    (s'.threads slot).finished = (s.threads slot).finished := by
  rw [he.threads, update_of_ne h]

theorem ended_self : (s'.launches k).ended = true := by
  rw [he.launches, update_self]

theorem ended_of_ne {j : Nat} (h : j ≠ k) : (s'.launches j).ended = (s.launches j).ended := by
  rw [he.launches, update_of_ne h]

theorem ctx (j : Nat) : (s'.launches j).ctx = (s.launches j).ctx := by
  rw [he.launches]
  by_cases hne : j = k
  · rw [hne, update_self]
  · rw [update_of_ne hne]

theorem thread (c : Nat) : (s'.ctxs c).thread = (s.ctxs c).thread := by
  rw [he.ctxs]

theorem slotOf (j : Nat) : s'.slotOf j = s.slotOf j := slotOf_congr he.ctx he.thread j

theorem holds (j : Nat) : s'.Holds j ↔ s.Holds j := holds_congr he.ctx he.thread he.context j

theorem launching (slot : Nat) : s'.Launching slot ↔ s.Launching slot := by
  simp only [State.Launching, he.start]

/-- The slot that waits has no launch, so it is not the one that ends. -/
theorem queued (h : JobsInv s) (hk : s.Running k) {f : StartFrame} (hf : s.start = some f)
    (hw : f.phase.waiting = true) : s'.Queued f.thread := by
  obtain ⟨hcreated, hnotstarted, hnotfinished⟩ := h.waiting f hf hw
  obtain ⟨-, hbegun, -⟩ := h.running hk
  have hne : f.thread ≠ s.slotOf k := by
    intro heq
    rw [← heq, hnotstarted] at hbegun
    exact hbegun.elim nofun (not_launching_of_waiting hf hw _)
  unfold State.Queued
  rw [he.context, he.started, he.finished_of_ne hne]
  exact ⟨hcreated, hnotstarted, hnotfinished⟩

/-- A slot is finished with its launch; one slot holds one context, and one context has one launch. -/
theorem finished_eq (h : JobsInv s) (hk : s.Running k) {j : Nat} (hj : j < s.nextLaunch) (hh : s.Holds j) :
    (s'.threads (s.slotOf j)).finished = (s'.launches j).ended := by
  obtain ⟨hholds, -, -⟩ := h.running hk
  by_cases hsame : s.slotOf j = s.slotOf k
  · have hjk : j = k := by
      refine h.unique j k hj hk.1 ?_
      unfold State.Holds at hh hholds
      rw [hsame, hholds] at hh
      exact (Option.some.inj hh).symm
    subst hjk
    rw [he.ended_self, he.finished_self]
  · have hjk : j ≠ k := by
      intro heq
      exact hsame (congrArg s.slotOf heq)
    rw [he.finished_of_ne hsame, he.ended_of_ne hjk]
    exact (h.job j hj hh).2

/-- What is finished has a launch that ended, now or before. -/
theorem launched_of_finished (h : JobsInv s) (hk : s.Running k) {slot : Nat}
    (hfin : (s'.threads slot).finished = true) :
    ∃ j, j < s.nextLaunch ∧ (s.threads slot).context = some (s.launches j).ctx ∧ (s'.launches j).ended = true := by
  by_cases hne : slot = s.slotOf k
  · subst hne
    exact ⟨k, hk.1, (h.running hk).1, he.ended_self⟩
  · rw [he.finished_of_ne hne] at hfin
    obtain ⟨j, hj, hcontext, hend⟩ := h.finished slot hfin
    refine ⟨j, hj, hcontext, ?_⟩
    by_cases hjk : j = k
    · subst hjk
      exact he.ended_self
    · rw [he.ended_of_ne hjk]
      exact hend

end EndsLaunch

/-- The end of a launch finishes its own slot. -/
theorem JobsInv.endOfWork {s : State} (h : JobsInv s) {k : Nat} (hk : s.Running k) (fw : Firmware P) :
    JobsInv (endOfWork fw k s) := by
  have he := endsLaunch_endOfWork h hk fw
  refine ⟨?_, ?_, ?_, ?_, ?_, ?_, ?_⟩
  · intro slot c hc
    rw [he.context] at hc
    rw [he.nextCtx, he.ctxs]
    exact h.ids slot c hc
  · intro j hj
    rw [he.nextLaunch] at hj
    rw [he.ctx, he.nextCtx]
    exact h.launchIds j hj
  · intro f hf hw
    rw [he.start] at hf
    exact he.queued h hk hf hw
  · intro j hj
    rw [he.nextLaunch] at hj
    rw [he.holds]
    by_cases hne : j = k
    · subst hne
      exact Or.inl he.ended_self
    · rw [he.ended_of_ne hne]
      exact h.holds j hj
  · intro j hj hh
    rw [he.nextLaunch] at hj
    rw [he.holds] at hh
    rw [he.slotOf, he.started, he.launching]
    exact ⟨(h.job j hj hh).1, he.finished_eq h hk hj hh⟩
  · intro i j hi hj
    rw [he.nextLaunch] at hi hj
    rw [he.ctx, he.ctx]
    exact h.unique i j hi hj
  · intro slot hfin
    obtain ⟨j, hj, hcontext, hend⟩ := he.launched_of_finished h hk hfin
    exact ⟨j, he.nextLaunch ▸ hj, by rw [he.context, he.ctx]; exact hcontext, hend⟩

/-! ## Runs with fresh events -/

/-- No completion event reaches a slot that has a new, unfinished job since the event's launch. -/
def FreshNotify (s : State) : Event P → Prop
  | .notify k _ => (s.threads (s.slotOf k)).finished = true ∨ s.Holds k
  | _ => True

/-- A fresh event finds its thread finished and does nothing. -/
theorem JobsInv.notify {s : State} (h : JobsInv s) {k : Nat} {fw : Firmware P} (hk : enabled P s (.notify k fw))
    (hfresh : FreshNotify s (.notify k fw)) : next P s (.notify k fw) = s := by
  have hfin : (s.threads (s.slotOf k)).finished = true := by
    rcases hfresh with hfin | hholds
    · exact hfin
    · exact (h.job k hk.1 hholds).2.trans hk.2
  exact finishThread_of_finished hfin

/-- StartThread is called for a queued job. -/
theorem JobsInv.calls {s : State} (h : JobsInv s) (hstart : s.start = none) {slot : Nat} (hqueued : s.Queued slot)
    (wait : Bool) (spin : Option SpinFrame) :
    JobsInv { s with spin := spin, start := some ⟨slot, wait, .refresh⟩ } := by
  refine h.frame rfl (fun _ => rfl) rfl rfl rfl ?_ ?_
  · intro other hother
    exact absurd hother (not_launching_of_none hstart other)
  · intro g hg _
    rw [← Option.some.inj hg]
    exact hqueued

theorem JobsInv.next {s : State} (h : JobsInv s) {a : Event P} (ha : enabled P s a) (hfresh : FreshNotify s a) :
    JobsInv (next P s a) := by
  have heff := next_effect s a
  generalize Threading.next P s a = s' at heff ⊢
  cases heff with
  | nothing => exact h
  | panicked => exact h.frame_start rfl (fun _ => rfl) rfl rfl rfl rfl
  | overwritten c => exact h.frame_start rfl (fun _ => rfl) rfl rfl rfl rfl
  | decrypted => exact h.frame_start rfl (fun _ => rfl) rfl rfl rfl rfl
  | installed _ _ _ hfree => exact h.installOrder ha hfree
  | called hstarted hfinished =>
    obtain ⟨hidle, -, hcreated⟩ := ha
    exact h.calls hidle.1 ⟨hcreated, hstarted, hfinished⟩ _ s.spin
  | entered total => exact h.frame_start rfl (fun _ => rfl) rfl rfl rfl rfl
  | looped => exact h.frame_start rfl (fun _ => rfl) rfl rfl rfl rfl
  | dispatched fw hstart _ hqueued => exact h.calls hstart hqueued _ _
  | returned => exact h.frame_start rfl (fun _ => rfl) rfl rfl rfl rfl
  | waited fw hstart hw _ hframe =>
    refine h.frame rfl (fun _ => rfl) rfl rfl rfl ?_ ?_
    · intro slot hslot
      exact absurd hslot (not_launching_of_waiting hstart hw slot)
    · intro g hg _
      rw [(hframe g hg).1]
      exact h.waiting _ hstart hw
  | launched fw hstart hw _ _ _ hctx => exact h.launch hstart hw hctx _
  | marked fw hstart =>
    refine h.frame rfl (fun _ => rfl) rfl rfl rfl ?_ ?_
    · intro slot hslot
      exact ⟨_, rfl, (thread_of_launching hstart hslot).1, rfl⟩
    · intro g hg hgw
      rw [← Option.some.inj hg] at hgw
      cases hgw
  | started fw hstart =>
    refine h.record rfl rfl rfl (fun _ => rfl) ?_ rfl rfl rfl rfl ?_
    · intro other hother
      exact (thread_of_launching hstart hother).1.symm
    · intro g hg
      rw [← Option.some.inj hg]
      rfl
  | assigned fw hstart hphase =>
    have hnone : ∀ other, ¬ s.Launching other := by
      intro other hother
      have hlaunching := (thread_of_launching hstart hother).2
      rw [hphase] at hlaunching
      cases hlaunching
    refine h.record rfl rfl rfl (fun hbegun => hbegun.resolve_right (hnone _)) ?_ rfl rfl rfl rfl nofun
    intro other hother
    exact absurd hother (hnone other)
  | progressed k c place =>
    refine h.frame_start rfl ?_ rfl rfl rfl rfl
    intro other
    by_cases hne : other = c
    · simp [hne]
    · simp [hne]
  | scribbled => exact h.frame_start rfl (fun _ => rfl) rfl rfl rfl rfl
  | ended k fw => exact h.endOfWork ha fw
  | notified k fw =>
    have hsame : finishThread fw (s.slotOf k) s = s := h.notify ha hfresh
    rw [hsame]
    exact h

theorem jobsInv_init {s : State} (h : Initial P s) : JobsInv s := by
  have hstart : s.start = none := h.idle.1
  refine ⟨?_, ?_, ?_, ?_, ?_, ?_, ?_⟩
  · intro slot c hc
    rw [h.threads slot] at hc
    cases hc
  · intro k hk
    rw [h.nextLaunch] at hk
    exact absurd hk (Nat.not_lt_zero k)
  · intro f hf
    rw [hstart] at hf
    cases hf
  · intro k hk
    rw [h.nextLaunch] at hk
    exact absurd hk (Nat.not_lt_zero k)
  · intro k hk
    rw [h.nextLaunch] at hk
    exact absurd hk (Nat.not_lt_zero k)
  · intro k j hk
    rw [h.nextLaunch] at hk
    exact absurd hk (Nat.not_lt_zero k)
  · intro slot hfin
    rw [h.threads slot] at hfin
    cases hfin

theorem jobsInv_reach {s : State} (h : Reach (system P) FreshNotify s) : JobsInv s :=
  Reach.invariant (C := FreshNotify) (fun _ hi => jobsInv_init hi) (fun _ _ _ hi ha hc => hi.next ha hc) h

/-- While completion events are fresh, a finished thread's job was launched exactly once, and that launch
    has ended. -/
theorem finished_only_by_own_launch {s : State} (h : Reach (system P) FreshNotify s) {slot : Nat}
    (hfin : (s.threads slot).finished = true) :
    ∃ k, k < s.nextLaunch ∧ (s.threads slot).context = some (s.launches k).ctx ∧ (s.launches k).ended = true ∧
      ∀ j, j < s.nextLaunch → (s.launches j).ctx = (s.launches k).ctx → j = k := by
  have hi := jobsInv_reach h
  obtain ⟨k, hk, hcontext, hend⟩ := hi.finished slot hfin
  exact ⟨k, hk, hcontext, hend, fun j hj heq => hi.unique j k hj hk heq⟩

instance (s : State) (k : Nat) : Decidable (s.Holds k) :=
  inferInstanceAs (Decidable ((s.threads (s.slotOf k)).context = some (s.launches k).ctx))

instance (s : State) (a : Event P) : Decidable (FreshNotify s a) :=
  match a with
  | .notify k _ => inferInstanceAs (Decidable ((s.threads (s.slotOf k)).finished = true ∨ s.Holds k))
  | .overwrite _ | .spawn | .callStart _ _ | .callSpin _ | .bsp _ | .progress _ _ | .scribble _ _ | .finish _ _ =>
    isTrue trivial

/-- One order runs in slot 0 and ends, and its event is delivered. -/
def ownEvent : List (Event smallPlatform) :=
  [.overwrite (smallOrder 0 0x1000), .spawn, .callStart 0 false] ++ startOnFirst ++
    [.finish 0 smallFirmware, .notify 0 smallFirmware]

theorem finished_only_by_own_launch_ownEvent :
    (((ownEvent.foldl (system smallPlatform).next smallState).threads 0).finished = true) ∧
    ∃ k, k < (ownEvent.foldl (system smallPlatform).next smallState).nextLaunch ∧
      ((ownEvent.foldl (system smallPlatform).next smallState).threads 0).context =
        some ((ownEvent.foldl (system smallPlatform).next smallState).launches k).ctx ∧
      ((ownEvent.foldl (system smallPlatform).next smallState).launches k).ended = true ∧
      ∀ j, j < (ownEvent.foldl (system smallPlatform).next smallState).nextLaunch →
        ((ownEvent.foldl (system smallPlatform).next smallState).launches j).ctx =
          ((ownEvent.foldl (system smallPlatform).next smallState).launches k).ctx → j = k := by
  have hfin : ((ownEvent.foldl (system smallPlatform).next smallState).threads 0).finished = true := by decide +kernel
  exact ⟨hfin, finished_only_by_own_launch (Reach.of_valid smallState_initial (by decide +kernel)) hfin⟩

/-- The event of the first order's launch comes after slot 0 was given a second order. -/
def lateEvent : List (Event smallPlatform) :=
  [.overwrite (smallOrder 0 0x1000), .spawn, .callStart 0 false] ++ startOnFirst ++
    [.finish 0 smallFirmware, .overwrite (smallOrder 0 0x2000), .spawn, .notify 0 smallFirmware]

/-- The late event marks the second order's thread finished, which was never launched. -/
theorem late_event_finishes_new_job :
    ∃ (P : Platform) (s : State) (slot : Nat), Reach (system P) (fun _ _ => True) s ∧
      (s.threads slot).finished = true ∧
      ¬ ∃ k, k < s.nextLaunch ∧ (s.threads slot).context = some (s.launches k).ctx := by
  refine ⟨smallPlatform, lateEvent.foldl (system smallPlatform).next smallState, 0,
    Reach.of_valid smallState_initial (by decide +kernel), by decide +kernel, by decide +kernel⟩

end Crows.Boot.Threading
