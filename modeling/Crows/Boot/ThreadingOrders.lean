/-
  Crows.Boot.ThreadingOrders — no accepted order is lost.

  SpawnDecryptionWorker turns an order away while its slot's thread is started and not
  finished. A queued job is neither, so an order handed in before the job is started
  takes its place. `KeepsQueued` is the call that does not do so.

  Proved, over every order of steps in which completion events are fresh and no order is
  handed in for a slot with a queued job:
  - `accepted_order_kept`: an accepted order is its slot's job until its own launch has
    ended, and an order for a slot whose job is pending gets MFTAH_THREAD_BUSY and
    changes nothing.
  - `queued_order_replaced`: a run without the second condition, in which the first of
    two accepted orders is gone before it was launched.
-/
import Crows.Boot.ThreadingJobs

namespace Crows.Boot.Threading

open Crows.Lib
open Function (update update_self update_of_ne)

variable {P : Platform}

/-! ## What a step leaves of contexts, slots and launches -/

/-- A thread context without its progress: what SpawnDecryptionWorker copied into it. -/
def DecryptThreadCtx.job (x : DecryptThreadCtx) : DecryptThreadCtx := { x with currentPlace := 0 }

/-- A slot's context, and whether its thread is finished. -/
def MftahThread.outcome (t : MftahThread) : Option Nat × Bool := (t.context, t.finished)

/-- No context has got further than the largest place it has reported. -/
def State.PlacesSaved (s : State) : Prop := ∀ c, c < s.nextCtx → (s.ctxs c).currentPlace ≤ s.peak c

/-- The slots keep their jobs and outcomes, no launch is forgotten, and no reported place is. -/
structure KeepsSlots (s s' : State) : Prop where
  outcome : ∀ slot, (s'.threads slot).outcome = (s.threads slot).outcome
  nextCtx : s'.nextCtx = s.nextCtx
  job : ∀ c, (s'.ctxs c).job = (s.ctxs c).job
  nextLaunch : s.nextLaunch ≤ s'.nextLaunch
  launches : ∀ k, k < s.nextLaunch → s'.launches k = s.launches k
  peak : ∀ c, s.peak c ≤ s'.peak c
  placesSaved : s.PlacesSaved → s'.PlacesSaved

theorem KeepsSlots.of_ctxs {s s' : State} (ht : ∀ slot, (s'.threads slot).outcome = (s.threads slot).outcome)
    (hn : s'.nextCtx = s.nextCtx) (hc : s'.ctxs = s.ctxs) (hk : s.nextLaunch ≤ s'.nextLaunch)
    (hl : ∀ k, k < s.nextLaunch → s'.launches k = s.launches k) (hp : s'.peak = s.peak) : KeepsSlots s s' := by
  refine ⟨ht, hn, ?_, hk, hl, ?_, ?_⟩
  · intro c
    rw [hc]
  · intro c
    rw [hp]
    exact UInt64.le_refl _
  · intro hsaved c hlt
    rw [hn] at hlt
    rw [hc, hp]
    exact hsaved c hlt

theorem KeepsSlots.of_threads {s s' : State} (ht : s'.threads = s.threads) (hn : s'.nextCtx = s.nextCtx)
    (hc : s'.ctxs = s.ctxs) (hk : s'.nextLaunch = s.nextLaunch) (hl : s'.launches = s.launches)
    (hp : s'.peak = s.peak) : KeepsSlots s s' := by
  refine KeepsSlots.of_ctxs ?_ hn hc (Nat.le_of_eq hk.symm) ?_ hp
  · intro slot
    rw [ht]
  · intro k _
    rw [hl]

theorem outcome_update {ths : Nat → MftahThread} {slot : Nat} {t : MftahThread}
    (h : t.outcome = (ths slot).outcome) (other : Nat) : (update ths slot t other).outcome = (ths other).outcome := by
  by_cases heq : other = slot
  · rw [heq, update_self, h]
  · rw [update_of_ne heq]

theorem uefiSpinStep_keepsSlots (P : Platform) (f : SpinFrame) (s : State) : KeepsSlots s (uefiSpinStep P f s) := by
  rcases uefiSpinStep_cases P f s with ⟨g, heq⟩ | ⟨g, -, heq⟩ | heq
  · rw [heq]
    exact KeepsSlots.of_threads rfl rfl rfl rfl rfl rfl
  · rw [heq]
    exact KeepsSlots.of_threads rfl rfl rfl rfl rfl rfl
  · rw [heq]
    exact KeepsSlots.of_threads rfl rfl rfl rfl rfl rfl

theorem le_peak (peak place : UInt64) : peak ≤ max peak place ∧ place ≤ max peak place := by
  have hmax : max peak place = if peak ≤ place then place else peak := rfl
  rw [hmax]
  split
  next hle => exact ⟨hle, UInt64.le_refl _⟩
  next hle => exact ⟨UInt64.le_refl _, UInt64.le_of_lt (UInt64.not_le.mp hle)⟩

/-- A context that reports a place. -/
theorem KeepsSlots.reports (s : State) (c : Nat) (place : UInt64) :
    KeepsSlots s
      { s with
        ctxs := update s.ctxs c { s.ctxs c with currentPlace := place }
        peak := update s.peak c (max (s.peak c) place) } := by
  refine ⟨fun _ => rfl, rfl, ?_, Nat.le_refl _, fun _ _ => rfl, ?_, ?_⟩
  · intro other
    by_cases hne : other = c
    · simp [hne, DecryptThreadCtx.job]
    · simp [hne]
  · intro other
    by_cases hne : other = c
    · simp only [hne, update_self]
      exact (le_peak _ _).1
    · simp only [update_of_ne hne]
      exact UInt64.le_refl _
  · intro hsaved other hlt
    by_cases hne : other = c
    · simp only [hne, update_self]
      exact (le_peak _ _).2
    · simp only [update_of_ne hne]
      exact hsaved other hlt

/-- A step installs an order, calls FinishThread, or keeps the slots. -/
theorem next_slots (s : State) (a : Event P) :
    (∃ order key iv, s.caller = ⟨some order, some key, some iv⟩ ∧ order.threadIndex < P.maxThreadCount ∧
      order.length ≠ 0 ∧
      ((s.threads order.threadIndex).started = false ∨ (s.threads order.threadIndex).finished = true) ∧
      a = .spawn ∧ next P s a = installOrder s order key iv) ∨
    (∃ k fw, a = .finish k fw ∨ a = .notify k fw) ∨ KeepsSlots s (next P s a) := by
  have heff := next_effect s a
  generalize next P s a = s' at heff ⊢
  cases heff with
  | nothing => exact Or.inr (Or.inr (KeepsSlots.of_threads rfl rfl rfl rfl rfl rfl))
  | panicked => exact Or.inr (Or.inr (KeepsSlots.of_threads rfl rfl rfl rfl rfl rfl))
  | overwritten c => exact Or.inr (Or.inr (KeepsSlots.of_threads rfl rfl rfl rfl rfl rfl))
  | decrypted => exact Or.inr (Or.inr (KeepsSlots.of_threads rfl rfl rfl rfl rfl rfl))
  | installed hcaller hindex hlength hfree => exact Or.inl ⟨_, _, _, hcaller, hindex, hlength, hfree, rfl, rfl⟩
  | called => exact Or.inr (Or.inr (KeepsSlots.of_threads rfl rfl rfl rfl rfl rfl))
  | entered total => exact Or.inr (Or.inr (KeepsSlots.of_threads rfl rfl rfl rfl rfl rfl))
  | looped => exact Or.inr (Or.inr (KeepsSlots.of_threads rfl rfl rfl rfl rfl rfl))
  | dispatched => exact Or.inr (Or.inr (KeepsSlots.of_threads rfl rfl rfl rfl rfl rfl))
  | returned => exact Or.inr (Or.inr (KeepsSlots.of_threads rfl rfl rfl rfl rfl rfl))
  | waited => exact Or.inr (Or.inr (KeepsSlots.of_threads rfl rfl rfl rfl rfl rfl))
  | launched =>
    refine Or.inr (Or.inr (KeepsSlots.of_ctxs (fun _ => rfl) rfl rfl (Nat.le_succ _) ?_ rfl))
    intro k hk
    exact launch_launches_of_lt hk
  | marked => exact Or.inr (Or.inr (KeepsSlots.of_threads rfl rfl rfl rfl rfl rfl))
  | started =>
    exact Or.inr (Or.inr (KeepsSlots.of_ctxs (outcome_update rfl) rfl rfl (Nat.le_refl _) (fun _ _ => rfl) rfl))
  | assigned =>
    exact Or.inr (Or.inr (KeepsSlots.of_ctxs (outcome_update rfl) rfl rfl (Nat.le_refl _) (fun _ _ => rfl) rfl))
  | progressed k c place => exact Or.inr (Or.inr (KeepsSlots.reports s c place))
  | scribbled => exact Or.inr (Or.inr (KeepsSlots.of_threads rfl rfl rfl rfl rfl rfl))
  | ended k fw => exact Or.inr (Or.inl ⟨k, fw, Or.inl rfl⟩)
  | notified k fw => exact Or.inr (Or.inl ⟨k, fw, Or.inr rfl⟩)

theorem KeepsSlots.ended {s s' : State} (h : KeepsSlots s s') {c : Nat} (hc : s.Ended c) : s'.Ended c := by
  obtain ⟨k, hk, hctx, hend⟩ := hc
  have hl := h.launches k hk
  exact ⟨k, Nat.lt_of_lt_of_le hk h.nextLaunch, by rw [hl]; exact hctx, by rw [hl]; exact hend⟩

/-! ## Orders stay installed -/

/-- Context `c` is its slot's job, and the thread is not finished. -/
def State.Pending (s : State) (c : Nat) : Prop :=
  (s.threads (s.ctxs c).thread).context = some c ∧ (s.threads (s.ctxs c).thread).finished = false

/-- No order with bytes to decrypt is handed in for a slot that holds a queued one. -/
def KeepsQueued (s : State) : Event P → Prop
  | .spawn =>
    match s.caller with
    | ⟨some order, some _, some _⟩ => order.length ≠ 0 → ¬ s.Queued order.threadIndex
    | _ => True
  | _ => True

def KeepsOrders (s : State) (a : Event P) : Prop := FreshNotify s a ∧ KeepsQueued s a

theorem KeepsQueued.not_queued {s : State} (h : KeepsQueued s (.spawn : Event P)) {order : WorkOrder}
    {key iv : List UInt8} (hcaller : s.caller = ⟨some order, some key, some iv⟩) (hlen : order.length ≠ 0) :
    ¬ s.Queued order.threadIndex := by
  simp only [KeepsQueued, hcaller] at h
  exact h hlen

theorem ctx_thread_of_job {x y : DecryptThreadCtx} (h : x.job = y.job) : x.thread = y.thread := by
  have hthread := congrArg DecryptThreadCtx.thread h
  exact hthread

theorem KeepsSlots.pending {s s' : State} (h : KeepsSlots s s') {c : Nat} (hc : s.Pending c) : s'.Pending c := by
  have hthread := ctx_thread_of_job (h.job c)
  have hout := h.outcome (s.ctxs c).thread
  obtain ⟨hcontext, hfin⟩ := hc
  unfold State.Pending
  rw [hthread]
  exact ⟨(congrArg Prod.fst hout).trans hcontext, (congrArg Prod.snd hout).trans hfin⟩

theorem installOrder_pending {s : State} {order : WorkOrder} {key iv : List UInt8}
    (hfree : (s.threads order.threadIndex).started = false ∨ (s.threads order.threadIndex).finished = true)
    (hqueued : ¬ s.Queued order.threadIndex) (hold : ∀ c, c < s.nextCtx → s.Ended c ∨ s.Pending c) {c : Nat}
    (hc : c < s.nextCtx + 1) : (installOrder s order key iv).Ended c ∨ (installOrder s order key iv).Pending c := by
  by_cases hnew : c = s.nextCtx
  · refine Or.inr ?_
    subst hnew
    simp [State.Pending, installOrder, newThreadContext, createThread]
  · have hlt : c < s.nextCtx := by omega
    refine (hold c hlt).imp id ?_
    intro hpending
    obtain ⟨hcontext, hfin⟩ := hpending
    have hne : (s.ctxs c).thread ≠ order.threadIndex := by
      intro heq
      rw [heq] at hcontext hfin
      refine hqueued ⟨by rw [hcontext]; exact Option.some_ne_none _, ?_, hfin⟩
      rcases hfree with hs | hf
      · exact hs
      · rw [hfin] at hf
        cases hf
    unfold State.Pending
    rw [installOrder_ctxs_of_lt hlt, installOrder_threads_of_ne hne]
    exact ⟨hcontext, hfin⟩

theorem endOfWork_pending {s : State} (h : JobsInv s) {k : Nat} (hk : s.Running k) (fw : Firmware P) {c : Nat}
    (hc : s.Ended c ∨ s.Pending c) : (endOfWork fw k s).Ended c ∨ (endOfWork fw k s).Pending c := by
  obtain ⟨hholds, -, hfin⟩ := h.running hk
  rw [endOfWork_of_unfinished hfin]
  by_cases hck : c = (s.launches k).ctx
  · refine Or.inl ⟨k, hk.1, ?_, ?_⟩
    · simp [hck]
    · simp
  · rcases hc with hend | hpending
    · obtain ⟨j, hj, hctx, hend⟩ := hend
      have hjk : j ≠ k := by
        intro heq
        subst heq
        exact hck hctx.symm
      exact Or.inl ⟨j, hj, by simp [update_of_ne hjk, hctx], by simp [update_of_ne hjk, hend]⟩
    · obtain ⟨hcontext, hpfin⟩ := hpending
      -- the slot of the launch that ends holds that launch's job, not `c`
      have hne : (s.ctxs c).thread ≠ s.slotOf k := by
        intro heq
        rw [heq] at hcontext
        exact hck (Option.some.inj (hcontext.symm.trans hholds))
      refine Or.inr ?_
      simp only [State.Pending, update_of_ne hne]
      exact ⟨hcontext, hpfin⟩

theorem orders_next {s : State} (h : JobsInv s) (hold : ∀ c, c < s.nextCtx → s.Ended c ∨ s.Pending c) {a : Event P}
    (ha : enabled P s a) (hc : KeepsOrders s a) :
    ∀ c, c < (next P s a).nextCtx → (next P s a).Ended c ∨ (next P s a).Pending c := by
  rcases next_slots s a with ⟨order, key, iv, hcaller, -, hlen, hfree, heq, hnext⟩ | ⟨k, fw, heq⟩ | hkeep
  · subst heq
    rw [hnext]
    intro c hlt
    exact installOrder_pending hfree (hc.2.not_queued hcaller hlen) hold hlt
  · rcases heq with heq | heq
    · subst heq
      obtain ⟨-, -, hfin⟩ := h.running ha
      intro c hlt
      refine endOfWork_pending h ha fw (hold c ?_)
      have hsame : (next P s (.finish k fw)).nextCtx = s.nextCtx := by
        simp only [next, endOfWork_of_unfinished hfin]
      rwa [hsame] at hlt
    · subst heq
      rw [h.notify ha hc.1]
      exact hold
  · intro c hlt
    rw [hkeep.nextCtx] at hlt
    exact (hold c hlt).imp hkeep.ended hkeep.pending

/-- Every accepted order's launch has ended, or the order is its slot's pending job. -/
theorem orders_reach {s : State} (h : Reach (system P) KeepsOrders s) :
    JobsInv s ∧ ∀ c, c < s.nextCtx → s.Ended c ∨ s.Pending c := by
  refine Reach.invariant (C := KeepsOrders)
    (I := fun s => JobsInv s ∧ ∀ c, c < s.nextCtx → s.Ended c ∨ s.Pending c) ?_ ?_ h
  · intro s₀ hinit
    refine ⟨jobsInv_init hinit, ?_⟩
    intro c hc
    rw [hinit.nextCtx] at hc
    exact absurd hc (Nat.not_lt_zero c)
  · intro s a _ hi ha hc
    exact ⟨hi.1.next ha hc.1, orders_next hi.1 hi.2 ha hc⟩

/-! ## Contexts keep what was copied into them -/

theorem next_job {s : State} {a : Event P} {c : Nat} (hc : c < s.nextCtx) :
    c < (next P s a).nextCtx ∧ ((next P s a).ctxs c).job = (s.ctxs c).job := by
  rcases next_slots s a with ⟨order, key, iv, -, -, -, -, -, hnext⟩ | ⟨k, fw, heq⟩ | hkeep
  · rw [hnext]
    exact ⟨Nat.lt_succ_of_lt hc, by rw [installOrder_ctxs_of_lt hc]⟩
  · rcases heq with heq | heq
    · subst heq
      obtain ⟨mps, ths, hend, -⟩ := endOfWork_cases fw k s
      simp only [next, hend]
      exact ⟨hc, trivial⟩
    · subst heq
      obtain ⟨mps, ths, hfinish, -⟩ := finishThread_cases fw (s.ctxs (s.launches k).ctx).thread s
      simp only [next, hfinish]
      exact ⟨hc, trivial⟩
  · exact ⟨Nat.lt_of_lt_of_eq hc hkeep.nextCtx.symm, hkeep.job c⟩

theorem run_job {C : State → Event P → Prop} {s t : State} {as : List (Event P)} (hr : Run (system P) C s as t)
    {c : Nat} (hc : c < s.nextCtx) : c < t.nextCtx ∧ (t.ctxs c).job = (s.ctxs c).job := by
  refine Run.invariant (I := fun u => c < u.nextCtx ∧ (u.ctxs c).job = (s.ctxs c).job) ?_ ⟨hc, rfl⟩ hr
  intro u a hu _ _
  obtain ⟨hlt, hjob⟩ := next_job (a := a) hu.1
  exact ⟨hlt, hjob.trans hu.2⟩

/-! ## The accepted order -/

/-- Context `c` is the slot's job, its thread not finished, and Started once its launch is recorded. -/
def State.Installed (s : State) (slot c : Nat) : Prop :=
  (s.threads slot).context = some c ∧ (s.threads slot).finished = false ∧
    ∀ k, k < s.nextLaunch → (s.launches k).ctx = c → (s.threads slot).started = true ∨ s.Launching slot

/-- A slot's job that no launch has finished. -/
def State.PendingJob (s : State) (slot : Nat) : Prop :=
  ∃ c, (s.threads slot).context = some c ∧ ¬ s.Ended c

theorem installed_of_pending {s : State} (h : JobsInv s) {c : Nat} (hc : s.Pending c) :
    s.Installed (s.ctxs c).thread c := by
  obtain ⟨hcontext, hfin⟩ := hc
  refine ⟨hcontext, hfin, ?_⟩
  intro k hk hctx
  have hslot : s.slotOf k = (s.ctxs c).thread := by rw [State.slotOf, hctx]
  rw [← hslot]
  refine (h.job k hk ?_).1
  rw [State.Holds, hslot, hctx]
  exact hcontext

/-- A pending job that is not queued makes its slot busy. -/
theorem spawn_busy {s : State} (h : JobsInv s) {order : WorkOrder} {key iv : List UInt8}
    (hcaller : s.caller = ⟨some order, some key, some iv⟩) (hlen : order.length ≠ 0)
    (hindex : order.threadIndex < P.maxThreadCount) (hthr : s.isThreadingEnabled = true)
    (hpending : s.PendingJob order.threadIndex) (hqueued : ¬ s.Queued order.threadIndex) :
    spawnDecryptionWorker P s = (some .threadBusy, s) := by
  obtain ⟨c, hcontext, hnotended⟩ := hpending
  have hfin : (s.threads order.threadIndex).finished = false := by
    cases hf : (s.threads order.threadIndex).finished with
    | false => rfl
    | true =>
      obtain ⟨k, hk, hctx, hend⟩ := h.finished order.threadIndex hf
      have hkc : (s.launches k).ctx = c := Option.some.inj (hctx.symm.trans hcontext)
      exact absurd ⟨k, hk, hkc, hend⟩ hnotended
  have hstarted : (s.threads order.threadIndex).started = true := by
    cases hs : (s.threads order.threadIndex).started with
    | true => rfl
    | false => exact absurd ⟨by rw [hcontext]; exact Option.some_ne_none _, hs, hfin⟩ hqueued
  simp [spawnDecryptionWorker, hcaller, Nat.not_le.mpr hindex, hlen, hthr, hstarted, hfin]

/-- An order with bytes that is accepted becomes its slot's job. -/
theorem spawn_installs {s : State} {order : WorkOrder} {key iv : List UInt8}
    (hcaller : s.caller = ⟨some order, some key, some iv⟩) (hlen : order.length ≠ 0)
    (hthr : s.isThreadingEnabled = true) (hsuccess : (spawnDecryptionWorker P s).1 = some .success) :
    order.threadIndex < P.maxThreadCount ∧
      spawnDecryptionWorker P s = (some .success, installOrder s order key iv) := by
  simp only [spawnDecryptionWorker, hcaller, hlen, hthr, if_false, Bool.true_eq_false] at hsuccess ⊢
  split at hsuccess
  · cases hsuccess
  next hindex =>
    rw [if_neg hindex]
    split at hsuccess
    · cases hsuccess
    next hbusy =>
      rw [if_neg hbusy]
      exact ⟨Nat.not_le.mp hindex, rfl⟩

/-- In a run whose steps all keep the orders: an order that was accepted is its slot's job until its own launch
    has ended, and one handed in for a slot with a pending job is refused and changes nothing. -/
theorem accepted_order_kept {s : State} (hs : Reach (system P) KeepsOrders s) (hidle : s.Idle)
    (hspawn : KeepsOrders s (.spawn : Event P)) {order : WorkOrder} {key iv : List UInt8}
    (hcaller : s.caller = ⟨some order, some key, some iv⟩) (hlen : order.length ≠ 0)
    (hthr : s.isThreadingEnabled = true) :
    ((spawnDecryptionWorker P s).1 = some .success → ∀ as t, Run (system P) KeepsOrders (next P s .spawn) as t →
      (t.ctxs s.nextCtx).workOrder = order ∧
        (t.Ended s.nextCtx ∨ t.Installed order.threadIndex s.nextCtx)) ∧
    (order.threadIndex < P.maxThreadCount → s.PendingJob order.threadIndex →
      spawnDecryptionWorker P s = (some .threadBusy, s)) := by
  have hqueued := hspawn.2.not_queued hcaller hlen
  constructor
  · intro hsuccess as t hrun
    have hinstall : next P s (.spawn : Event P) = installOrder s order key iv :=
      congrArg Prod.snd (spawn_installs hcaller hlen hthr hsuccess).2
    have hstep : Reach (system P) KeepsOrders (next P s .spawn) := hs.step (a := Event.spawn) hidle hspawn
    have hreach := hstep.run hrun
    rw [hinstall] at hrun
    obtain ⟨hlt, hjob⟩ := run_job (c := s.nextCtx) hrun (Nat.lt_succ_self _)
    rw [installOrder_ctxs_self] at hjob
    have hthread : (t.ctxs s.nextCtx).thread = order.threadIndex := ctx_thread_of_job hjob
    obtain ⟨hjobs, horders⟩ := orders_reach hreach
    refine ⟨?_, (horders _ hlt).imp_right ?_⟩
    · have horder := congrArg DecryptThreadCtx.workOrder hjob
      exact horder
    · intro hpending
      rw [← hthread]
      exact installed_of_pending hjobs hpending
  · intro hindex hpending
    exact spawn_busy (orders_reach hs).1 hcaller hlen hindex hthr hpending hqueued

instance (s : State) (slot : Nat) : Decidable (s.Queued slot) :=
  inferInstanceAs (Decidable ((s.threads slot).context ≠ none ∧ (s.threads slot).started = false ∧
    (s.threads slot).finished = false))

instance (s : State) (a : Event P) : Decidable (KeepsQueued s a) :=
  match a with
  | .spawn =>
    match hcaller : s.caller with
    | ⟨some order, some _, some _⟩ =>
      decidable_of_iff (order.length ≠ 0 → ¬ s.Queued order.threadIndex) (by simp only [KeepsQueued, hcaller])
    | ⟨none, _, _⟩ | ⟨some _, none, _⟩ | ⟨some _, some _, none⟩ => isTrue (by simp only [KeepsQueued, hcaller])
  | .overwrite _ | .callStart _ _ | .callSpin _ | .bsp _ | .progress _ _ | .scribble _ _ | .finish _ _
  | .notify _ _ => isTrue trivial

instance (s : State) (a : Event P) : Decidable (KeepsOrders s a) :=
  inferInstanceAs (Decidable (FreshNotify s a ∧ KeepsQueued s a))

/-- The state in which the caller has an order for slot 0. -/
def firstOrder : State := { smallState with caller := smallOrder 0 0x1000 }

theorem firstOrder_reach {C : State → Event smallPlatform → Prop}
    (h : C smallState (.overwrite (smallOrder 0 0x1000))) : Reach (system smallPlatform) C firstOrder :=
  (Reach.init smallState_initial).step (a := Event.overwrite (smallOrder 0 0x1000)) trivial h

theorem accepted_order_kept_firstOrder :
    ((spawnDecryptionWorker smallPlatform firstOrder).1 = some .success → ∀ as t,
      Run (system smallPlatform) KeepsOrders (next smallPlatform firstOrder .spawn) as t →
        (t.ctxs firstOrder.nextCtx).workOrder = ⟨0, 0x1000, 16, false⟩ ∧
          (t.Ended firstOrder.nextCtx ∨ t.Installed 0 firstOrder.nextCtx)) ∧
    (0 < smallPlatform.maxThreadCount → firstOrder.PendingJob 0 →
      spawnDecryptionWorker smallPlatform firstOrder = (some .threadBusy, firstOrder)) := by
  have hcaller : firstOrder.caller =
      ⟨some ⟨0, 0x1000, 16, false⟩, some (List.replicate 32 1), some (List.replicate 16 2)⟩ := rfl
  exact accepted_order_kept (firstOrder_reach (by decide +kernel)) ⟨rfl, rfl, rfl⟩ (by decide +kernel) hcaller
    (by decide) rfl

/-- Two orders for one slot, both accepted before the first is started: the first is gone. -/
theorem queued_order_replaced :
    ∃ (P : Platform) (s t : State) (order : WorkOrder) (key iv : List UInt8) (as : List (Event P)),
      Reach (system P) (fun _ _ => True) s ∧ s.Idle ∧ s.isThreadingEnabled = true ∧
      s.caller = ⟨some order, some key, some iv⟩ ∧ order.length ≠ 0 ∧
      (spawnDecryptionWorker P s).1 = some .success ∧
      Run (system P) (fun _ _ => True) (next P s .spawn) as t ∧
      ¬ (t.Ended s.nextCtx ∨ t.Installed order.threadIndex s.nextCtx) := by
  have hrun : Run (system smallPlatform) (fun _ _ => True) (next smallPlatform firstOrder .spawn)
      [Event.overwrite (smallOrder 0 0x2000), Event.spawn] _ := Run.of_valid (by decide +kernel)
  refine ⟨smallPlatform, firstOrder, _, ⟨0, 0x1000, 16, false⟩, _, _, _, firstOrder_reach trivial,
    ⟨rfl, rfl, rfl⟩, rfl, rfl, by decide, by decide +kernel, hrun, ?_⟩
  intro h
  rcases h with hended | hinstalled
  · obtain ⟨k, hk, -⟩ := hended
    exact absurd hk (Nat.not_lt_zero k)
  · exact absurd hinstalled.1 (by decide +kernel)

end Crows.Boot.Threading
