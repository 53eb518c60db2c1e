/-
  Crows.Boot.ThreadingSync — threaded decryption gives the memory of the synchronous one.

  Without threading, SpawnDecryptionWorker runs the hook over an order's region before it
  returns. With threading, it copies the order, the key and the vector into a context, and
  some processor runs the hook later. The two are compared on one system: `synchronous` is
  the same state without threading, and a synchronous run takes the caller's events of the
  threaded one (its buffers reused, its orders handed in) and nothing else.

  Proved, from any state in which nothing is queued or running, over every order of steps
  in which the caller's orders are accepted:
  - `threaded_eq_synchronous`: if the regions of the batch's orders are apart from each
    other and each order was launched once and has ended, the whole memory is what the
    synchronous run of the caller's events leaves.
-/
import Crows.Lib.RegionJobs
import Crows.Boot.ThreadingSpin

namespace Crows.Boot.Threading

open Crows.Lib
open Function (update update_self update_of_ne)

variable {P : Platform}

/-! ## The two runs -/

/-- The same state with threading not available. -/
def State.synchronous (s : State) : State := { s with mpServices := false, mpCount := 0 }

/-- What the caller does: it reuses its buffers and hands in orders. -/
def Event.caller : Event P → Bool
  | .overwrite _ => true
  | .spawn => true
  | _ => false

/-- Nothing is queued or running, and the bootstrap processor is in neither call. -/
structure Quiet (s : State) : Prop where
  idle : s.Idle
  launched : ∀ k, k < s.nextLaunch → (s.launches k).ctx < s.nextCtx ∧ (s.launches k).ended = true
  queued : ∀ slot, ¬ s.Queued slot

/-- Every order handed in has bytes and is accepted. -/
def Accepts (s : State) : Event P → Prop
  | .spawn => (spawnDecryptionWorker P s).1 = some .success ∧
      ∃ order, s.caller.workOrder = some order ∧ order.length ≠ 0
  | _ => True

/-- What the worker of a context does to memory. -/
def regionJob (P : Platform) (x : DecryptThreadCtx) : RegionJob where
  base := x.workOrder.location
  length := x.workOrder.length.toNat
  transform bs := P.crypt bs x.sha256Key x.initializationVector
  length_le := Nat.le_of_lt x.workOrder.length.toNat_lt
  length_transform bs := P.length_crypt bs x.sha256Key x.initializationVector

/-- The jobs of the contexts from `n₀` on. -/
def batchJob (P : Platform) (n₀ : Nat) (s : State) (i : Nat) : RegionJob := regionJob P (s.ctxs (n₀ + i))

/-- The regions of the batch are apart from each other. -/
def RegionsApart (P : Platform) (n₀ : Nat) (s : State) : Prop :=
  ∀ i j, i < s.nextCtx - n₀ → j < s.nextCtx - n₀ → i ≠ j → (batchJob P n₀ s i).Apart (batchJob P n₀ s j)

/-- No order of the batch was launched twice. -/
def LaunchedOnce (n₀ : Nat) (s : State) : Prop :=
  ∀ j k, j < s.nextLaunch → k < s.nextLaunch → (s.launches j).ctx = (s.launches k).ctx →
    n₀ ≤ (s.launches k).ctx → j = k

theorem regionJob_congr {x y : DecryptThreadCtx} (h : x.job = y.job) : regionJob P x = regionJob P y := by
  have hx : regionJob P x = regionJob P x.job := rfl
  have hy : regionJob P y = regionJob P y.job := rfl
  rw [hx, hy, h]

/-! ## Only the batch's own contexts are launched -/

structure BatchJobs (n₀ : Nat) (s : State) : Prop where
  ge : n₀ ≤ s.nextCtx
  queued : ∀ slot c, s.Queued slot → (s.threads slot).context = some c → n₀ ≤ c ∧ c < s.nextCtx
  waiting : ∀ f c, s.start = some f → f.phase.waiting = true → (s.threads f.thread).context = some c →
    n₀ ≤ c ∧ c < s.nextCtx
  launched : ∀ k, k < s.nextLaunch → (s.launches k).ctx < s.nextCtx ∧
    ((s.launches k).ended = true ∨ n₀ ≤ (s.launches k).ctx)

theorem batchJobs_of_quiet {s : State} (h : Quiet s) : BatchJobs s.nextCtx s := by
  refine ⟨Nat.le_refl _, ?_, ?_, ?_⟩
  · intro slot c hq
    exact absurd hq (h.queued slot)
  · intro f c hf
    rw [h.idle.1] at hf
    cases hf
  · intro k hk
    obtain ⟨hctx, hend⟩ := h.launched k hk
    exact ⟨hctx, Or.inl hend⟩

/-- StartThread waits with the job it waited with before, or with a queued one. -/
theorem BatchJobs.frame {n₀ : Nat} {s s' : State} (h : BatchJobs n₀ s)
    (hcontext : ∀ slot, (s'.threads slot).context = (s.threads slot).context)
    (hqueued : ∀ slot, s'.Queued slot → s.Queued slot) (hn : s'.nextCtx = s.nextCtx)
    (hk : s'.nextLaunch = s.nextLaunch) (hl : s'.launches = s.launches)
    (hwaiting : ∀ f, s'.start = some f → f.phase.waiting = true → s.Queued f.thread ∨
      ∃ g, s.start = some g ∧ g.phase.waiting = true ∧ g.thread = f.thread) : BatchJobs n₀ s' := by
  refine ⟨?_, ?_, ?_, ?_⟩
  · rw [hn]
    exact h.ge
  · intro slot c hq hc
    rw [hcontext] at hc
    rw [hn]
    exact h.queued slot c (hqueued slot hq) hc
  · intro f c hf hw hc
    rw [hcontext] at hc
    rw [hn]
    rcases hwaiting f hf hw with hq | ⟨g, hg, hgw, hthread⟩
    · exact h.queued f.thread c hq hc
    · rw [← hthread] at hc
      exact h.waiting g c hg hgw hc
  · intro k hk'
    rw [hk] at hk'
    rw [hl, hn]
    exact h.launched k hk'

theorem BatchJobs.of_same {n₀ : Nat} {s s' : State} (h : BatchJobs n₀ s) (ht : s'.threads = s.threads)
    (hn : s'.nextCtx = s.nextCtx) (hk : s'.nextLaunch = s.nextLaunch) (hl : s'.launches = s.launches)
    (hs : s'.start = s.start) : BatchJobs n₀ s' := by
  refine h.frame ?_ ?_ hn hk hl ?_
  · intro slot
    rw [ht]
  · intro slot hq
    unfold State.Queued at *
    rw [ht] at hq
    exact hq
  · intro f hf hw
    rw [hs] at hf
    exact Or.inr ⟨f, hf, hw, rfl⟩

/-! ## Where each job of the batch is -/

/-- The launches of context `c` say that its job is in the phase. -/
def Tracks (s : State) (c : Nat) : JobPhase → Prop
  | .waiting => ∀ k, k < s.nextLaunch → (s.launches k).ctx ≠ c
  | .running input => ∃ k, k < s.nextLaunch ∧ (s.launches k).ctx = c ∧ (s.launches k).ended = false ∧
      (s.launches k).input = input
  | .done => ∃ k, k < s.nextLaunch ∧ (s.launches k).ctx = c ∧ (s.launches k).ended = true

/-- The batch is under way in `s`, begun from the memory `m₀`. -/
def BatchUnderway (P : Platform) (n₀ : Nat) (m₀ : Mem) (s : State) : Prop :=
  ∃ phase, Underway (s.nextCtx - n₀) (batchJob P n₀ s) m₀ s.mem phase ∧
    ∀ i, i < s.nextCtx - n₀ → Tracks s (n₀ + i) (phase i)

/-- What is known of a running launch of the batch. -/
theorem Tracks.running {n₀ : Nat} {s : State} (honce : LaunchedOnce n₀ s) {k : Nat} (hk : s.Running k)
    (hctx : n₀ ≤ (s.launches k).ctx) {phase : JobPhase} (h : Tracks s (s.launches k).ctx phase) :
    phase = .running (s.launches k).input := by
  obtain ⟨hlt, hrun⟩ := hk
  cases phase with
  | waiting => exact absurd rfl (h k hlt)
  | running input =>
    obtain ⟨j, hj, hjctx, -, hinput⟩ := h
    rw [← hinput, honce j k hj hlt hjctx hctx]
  | done =>
    obtain ⟨j, hj, hjctx, hend⟩ := h
    rw [honce j k hj hlt hjctx hctx, hrun] at hend
    cases hend

theorem Tracks.of_same {s s' : State} (hk : s'.nextLaunch = s.nextLaunch) (hl : s'.launches = s.launches) {c : Nat}
    {phase : JobPhase} (h : Tracks s c phase) : Tracks s' c phase := by
  cases phase with
  | waiting =>
    intro k hk'
    rw [hk] at hk'
    rw [hl]
    exact h k hk'
  | running input =>
    simp only [Tracks, hk, hl]
    exact h
  | done =>
    simp only [Tracks, hk, hl]
    exact h

theorem BatchUnderway.of_same {n₀ : Nat} {m₀ : Mem} {s s' : State} (h : BatchUnderway P n₀ m₀ s)
    (hge : n₀ ≤ s.nextCtx) (hn : s'.nextCtx = s.nextCtx)
    (hc : ∀ c, c < s.nextCtx → (s'.ctxs c).job = (s.ctxs c).job) (hk : s'.nextLaunch = s.nextLaunch)
    (hl : s'.launches = s.launches) (hm : s'.mem = s.mem) : BatchUnderway P n₀ m₀ s' := by
  obtain ⟨phase, hunder, htracks⟩ := h
  refine ⟨phase, ?_, ?_⟩
  · rw [hn, hm]
    refine hunder.congr ?_ (fun _ _ => rfl)
    intro i hi
    exact regionJob_congr (hc _ (by omega))
  · intro i hi
    rw [hn] at hi
    exact (htracks i hi).of_same hk hl

/-! ## The steps of the batch -/

theorem BatchUnderway.installOrder {n₀ : Nat} {m₀ : Mem} {s : State} (h : BatchUnderway P n₀ m₀ s)
    (hjobs : BatchJobs n₀ s) {order : WorkOrder} {key iv : List UInt8}
    (hapart : RegionsApart P n₀ (installOrder s order key iv)) :
    BatchUnderway P n₀ m₀ (installOrder s order key iv) := by
  obtain ⟨phase, hunder, htracks⟩ := h
  have hge := hjobs.ge
  have hcount : (Threading.installOrder s order key iv).nextCtx - n₀ = s.nextCtx - n₀ + 1 := by
    have hsucc : (Threading.installOrder s order key iv).nextCtx = s.nextCtx + 1 := rfl
    omega
  have hsame : ∀ i, i < s.nextCtx - n₀ →
      batchJob P n₀ (Threading.installOrder s order key iv) i = batchJob P n₀ s i := by
    intro i hi
    exact congrArg (regionJob P) (installOrder_ctxs_of_lt (by omega))
  have hlast : n₀ + (s.nextCtx - n₀) = s.nextCtx := by omega
  refine ⟨update phase (s.nextCtx - n₀) .waiting, ?_, ?_⟩
  · rw [hcount]
    refine Underway.add ?_ ?_ (update_self _ _ _)
    · refine hunder.congr hsame ?_
      intro i hi
      exact update_of_ne (Nat.ne_of_lt hi) _ _
    · intro i hi
      exact hapart i (s.nextCtx - n₀) (by omega) (by omega) (Nat.ne_of_lt hi)
  · intro i hi
    rw [hcount] at hi
    rcases Nat.lt_succ_iff_lt_or_eq.mp hi with hlt | heq
    · rw [update_of_ne (Nat.ne_of_lt hlt)]
      exact (htracks i hlt).of_same rfl rfl
    · rw [heq, update_self, hlast]
      intro k hk
      exact Nat.ne_of_lt (hjobs.launched k hk).1

theorem BatchUnderway.launch {n₀ : Nat} {m₀ : Mem} {s : State} (h : BatchUnderway P n₀ m₀ s) {i ctx : Nat}
    {f : StartFrame} (hctx : n₀ ≤ ctx ∧ ctx < s.nextCtx) (honce : LaunchedOnce n₀ (launch i f ctx s)) :
    BatchUnderway P n₀ m₀ (launch i f ctx s) := by
  obtain ⟨phase, hunder, htracks⟩ := h
  have hnew : (Threading.launch i f ctx s).launches s.nextLaunch =
      ⟨ctx, i, (regionJob P (s.ctxs ctx)).input s.mem, false⟩ := launch_launches_self i f ctx s
  have hnone : ∀ k, k < s.nextLaunch → (s.launches k).ctx ≠ ctx := by
    intro k hk heq
    have hsame := honce k s.nextLaunch (Nat.lt_succ_of_lt hk) (Nat.lt_succ_self _)
      (by rw [launch_launches_of_lt hk, hnew, heq]) (by rw [hnew]; exact hctx.1)
    omega
  have hindex : n₀ + (ctx - n₀) = ctx := by omega
  have hlt : ctx - n₀ < s.nextCtx - n₀ := by omega
  have hwaiting : phase (ctx - n₀) = .waiting := by
    have htrack := htracks (ctx - n₀) hlt
    rw [hindex] at htrack
    cases hp : phase (ctx - n₀) with
    | waiting => rfl
    | running input =>
      rw [hp] at htrack
      obtain ⟨k, hk, hkctx, -⟩ := htrack
      exact absurd hkctx (hnone k hk)
    | done =>
      rw [hp] at htrack
      obtain ⟨k, hk, hkctx, -⟩ := htrack
      exact absurd hkctx (hnone k hk)
  refine ⟨_, hunder.begin hlt hwaiting, ?_⟩
  intro j hj
  by_cases hjc : j = ctx - n₀
  · subst hjc
    rw [update_self, hindex]
    refine ⟨s.nextLaunch, Nat.lt_succ_self _, by rw [hnew], by rw [hnew], ?_⟩
    rw [hnew, batchJob, hindex]
  · rw [update_of_ne hjc]
    have hne : ctx ≠ n₀ + j := by omega
    have htrack := htracks j hj
    cases hp : phase j with
    | waiting =>
      rw [hp] at htrack
      intro k hk
      rcases Nat.lt_succ_iff_lt_or_eq.mp hk with hk | hk
      · rw [launch_launches_of_lt hk]
        exact htrack k hk
      · rw [hk, hnew]
        exact hne
    | running input =>
      rw [hp] at htrack
      obtain ⟨k, hk, hrest⟩ := htrack
      exact ⟨k, Nat.lt_succ_of_lt hk, by rw [launch_launches_of_lt hk]; exact hrest⟩
    | done =>
      rw [hp] at htrack
      obtain ⟨k, hk, hrest⟩ := htrack
      exact ⟨k, Nat.lt_succ_of_lt hk, by rw [launch_launches_of_lt hk]; exact hrest⟩

theorem BatchUnderway.scribble {n₀ : Nat} {m₀ : Mem} {s : State} (h : BatchUnderway P n₀ m₀ s)
    (hjobs : BatchJobs n₀ s) (hapart : RegionsApart P n₀ s) (honce : LaunchedOnce n₀ s) {k : Nat}
    (hk : s.Running k) {bytes : List UInt8} (hbytes : bytes.length = (s.order k).length.toNat) :
    BatchUnderway P n₀ m₀ { s with mem := s.mem.write (s.order k).location bytes } := by
  obtain ⟨phase, hunder, htracks⟩ := h
  obtain ⟨hctx, hbatch⟩ := hjobs.launched k hk.1
  have hge : n₀ ≤ (s.launches k).ctx := by
    refine hbatch.resolve_left ?_
    rw [hk.2]
    exact nofun
  have hindex : n₀ + ((s.launches k).ctx - n₀) = (s.launches k).ctx := by omega
  have hlt : (s.launches k).ctx - n₀ < s.nextCtx - n₀ := by omega
  have hphase : phase ((s.launches k).ctx - n₀) = .running (s.launches k).input := by
    have htrack := htracks _ hlt
    rw [hindex] at htrack
    exact htrack.running honce hk hge
  have hjob : batchJob P n₀ s ((s.launches k).ctx - n₀) = regionJob P (s.ctxs (s.launches k).ctx) := by
    rw [batchJob, hindex]
  have hlength : bytes.length = (batchJob P n₀ s ((s.launches k).ctx - n₀)).length := by
    rw [hjob]
    exact hbytes
  have hscribble := hunder.scribble hapart hlt hphase hlength
  rw [hjob] at hscribble
  exact ⟨phase, hscribble, htracks⟩

theorem BatchUnderway.endOfWork {n₀ : Nat} {m₀ : Mem} {s : State} (h : BatchUnderway P n₀ m₀ s)
    (hjobs : BatchJobs n₀ s) (hapart : RegionsApart P n₀ s) (honce : LaunchedOnce n₀ s) {k : Nat}
    (hk : s.Running k) (fw : Firmware P) : BatchUnderway P n₀ m₀ (endOfWork fw k s) := by
  obtain ⟨phase, hunder, htracks⟩ := h
  obtain ⟨hctx, hbatch⟩ := hjobs.launched k hk.1
  have hge : n₀ ≤ (s.launches k).ctx := by
    refine hbatch.resolve_left ?_
    rw [hk.2]
    exact nofun
  have hindex : n₀ + ((s.launches k).ctx - n₀) = (s.launches k).ctx := by omega
  have hlt : (s.launches k).ctx - n₀ < s.nextCtx - n₀ := by omega
  have hphase : phase ((s.launches k).ctx - n₀) = .running (s.launches k).input := by
    have htrack := htracks _ hlt
    rw [hindex] at htrack
    exact htrack.running honce hk hge
  have hjob : batchJob P n₀ s ((s.launches k).ctx - n₀) = regionJob P (s.ctxs (s.launches k).ctx) := by
    rw [batchJob, hindex]
  have hfinish := hunder.finish hapart hlt hphase
  rw [hjob] at hfinish
  obtain ⟨mps, ths, hend, -⟩ := endOfWork_cases fw k s
  rw [hend]
  refine ⟨_, hfinish, ?_⟩
  intro i hi
  by_cases hik : i = (s.launches k).ctx - n₀
  · subst hik
    rw [update_self, hindex]
    exact ⟨k, hk.1, by simp, by simp⟩
  · rw [update_of_ne hik]
    have hother : ∀ j, (s.launches j).ctx = n₀ + i → j ≠ k := by
      intro j hj heq
      subst heq
      omega
    have htrack := htracks i hi
    cases hp : phase i with
    | waiting =>
      rw [hp] at htrack
      intro j hj
      by_cases hjk : j = k
      · subst hjk
        simpa using htrack j hj
      · simpa [update_of_ne hjk] using htrack j hj
    | running input =>
      rw [hp] at htrack
      obtain ⟨j, hj, hjctx, hrest⟩ := htrack
      refine ⟨j, hj, ?_⟩
      simp only [update_of_ne (hother j hjctx)]
      exact ⟨hjctx, hrest⟩
    | done =>
      rw [hp] at htrack
      obtain ⟨j, hj, hjctx, hrest⟩ := htrack
      refine ⟨j, hj, ?_⟩
      simp only [update_of_ne (hother j hjctx)]
      exact ⟨hjctx, hrest⟩

/-! ## What every step keeps -/

/-- Threading does not come or go. -/
theorem next_threading (s : State) (a : Event P) : (next P s a).isThreadingEnabled = s.isThreadingEnabled := by
  have heff := next_effect s a
  generalize next P s a = s' at heff ⊢
  cases heff with
  | nothing => rfl
  | panicked => rfl
  | overwritten c => rfl
  | decrypted => rfl
  | installed => rfl
  | called => rfl
  | entered total => rfl
  | looped => rfl
  | dispatched => rfl
  | returned => rfl
  | waited => rfl
  | launched => rfl
  | marked => rfl
  | started => rfl
  | assigned => rfl
  | progressed => rfl
  | scribbled => rfl
  | ended k fw =>
    obtain ⟨mps, ths, hend, -⟩ := endOfWork_cases fw k s
    rw [hend]
    rfl
  | notified k fw =>
    obtain ⟨mps, ths, hfinish, -⟩ := finishThread_cases fw (s.slotOf k) s
    rw [hfinish]
    rfl

theorem BatchJobs.installOrder {n₀ : Nat} {s : State} (h : BatchJobs n₀ s) (hidle : s.Idle) (order : WorkOrder)
    (key iv : List UInt8) : BatchJobs n₀ (installOrder s order key iv) := by
  refine ⟨Nat.le_succ_of_le h.ge, ?_, ?_, ?_⟩
  · intro slot c hq hc
    by_cases heq : slot = order.threadIndex
    · subst heq
      rw [installOrder_threads_self] at hc
      rw [← Option.some.inj hc]
      exact ⟨h.ge, Nat.lt_succ_self _⟩
    · unfold State.Queued at hq
      rw [installOrder_threads_of_ne heq] at hq hc
      obtain ⟨hge, hlt⟩ := h.queued slot c hq hc
      exact ⟨hge, Nat.lt_succ_of_lt hlt⟩
  · intro f c hf
    have hf' : s.start = some f := hf
    rw [hidle.1] at hf'
    cases hf'
  · intro k hk
    obtain ⟨hlt, hbatch⟩ := h.launched k hk
    exact ⟨Nat.lt_succ_of_lt hlt, hbatch⟩

theorem BatchJobs.launch {n₀ : Nat} {s : State} (h : BatchJobs n₀ s) {f : StartFrame} {ctx : Nat} (i : Nat)
    (hctx : n₀ ≤ ctx ∧ ctx < s.nextCtx) : BatchJobs n₀ (launch i f ctx s) := by
  refine ⟨h.ge, h.queued, ?_, ?_⟩
  · intro g c hg hw
    have hg' : some { f with phase := .launched i } = some g := hg
    rw [← Option.some.inj hg'] at hw
    cases hw
  · intro k hk
    rcases Nat.lt_succ_iff_lt_or_eq.mp hk with hlt | heq
    · rw [launch_launches_of_lt hlt]
      exact h.launched k hlt
    · rw [heq, launch_launches_self]
      exact ⟨hctx.2, Or.inr hctx.1⟩

/-- Threads that are only turned Finished queue nothing. -/
theorem BatchJobs.of_finished {n₀ : Nat} {s : State} (h : BatchJobs n₀ s) (mps : Nat → MftahSystemMp)
    {ths : Nat → MftahThread}
    (hths : ∀ slot, (ths slot).context = (s.threads slot).context ∧ (ths slot).started = (s.threads slot).started ∧
      ((s.threads slot).finished = true → (ths slot).finished = true)) :
    BatchJobs n₀ { s with mpList := mps, threads := ths } := by
  refine h.frame (fun slot => (hths slot).1) ?_ rfl rfl rfl ?_
  · intro slot hq
    obtain ⟨hcreated, hnotstarted, hnotfinished⟩ := hq
    refine ⟨by rw [← (hths slot).1]; exact hcreated, (hths slot).2.1.symm.trans hnotstarted, ?_⟩
    cases hf : (s.threads slot).finished with
    | false => rfl
    | true =>
      have hfin := (hths slot).2.2 hf
      rw [hnotfinished] at hfin
      cases hfin
  · intro f hf hw
    exact Or.inr ⟨f, hf, hw, rfl⟩

theorem BatchJobs.endOfWork {n₀ : Nat} {s : State} (h : BatchJobs n₀ s) (k : Nat) (fw : Firmware P) :
    BatchJobs n₀ (endOfWork fw k s) := by
  obtain ⟨mps, ths, hend, hths⟩ := endOfWork_cases fw k s
  rw [hend]
  -- first the threads, then the ended launch
  have hframe := h.of_finished mps hths
  refine ⟨hframe.ge, hframe.queued, hframe.waiting, ?_⟩
  intro j hj
  obtain ⟨hlt, hbatch⟩ := h.launched j hj
  by_cases hjk : j = k
  · subst hjk
    simp only [update_self]
    exact ⟨hlt, Or.inl trivial⟩
  · simp only [update_of_ne hjk]
    exact ⟨hlt, hbatch⟩

theorem BatchJobs.finishThread {n₀ : Nat} {s : State} (h : BatchJobs n₀ s) (slot : Nat) (fw : Firmware P) :
    BatchJobs n₀ (finishThread fw slot s) := by
  obtain ⟨mps, ths, hfinish, hths⟩ := finishThread_cases fw slot s
  rw [hfinish]
  exact h.of_finished mps hths

/-- The batch, its launches, the memory and the caller are as they were. -/
structure SameBatch (s s' : State) : Prop where
  nextCtx : s'.nextCtx = s.nextCtx
  job : ∀ c, (s'.ctxs c).job = (s.ctxs c).job
  nextLaunch : s'.nextLaunch = s.nextLaunch
  launches : s'.launches = s.launches
  mem : s'.mem = s.mem
  caller : s'.caller = s.caller

theorem SameBatch.refl (s : State) : SameBatch s s := ⟨rfl, fun _ => rfl, rfl, rfl, rfl, rfl⟩

/-- StartThread is called for a queued job. -/
theorem BatchJobs.calls {n₀ : Nat} {s : State} (h : BatchJobs n₀ s) {slot : Nat} (hqueued : s.Queued slot)
    (wait : Bool) (spin : Option SpinFrame) :
    BatchJobs n₀ { s with spin := spin, start := some ⟨slot, wait, .refresh⟩ } := by
  refine h.frame (fun _ => rfl) (fun _ hq => hq) rfl rfl rfl ?_
  intro g hg _
  rw [← Option.some.inj hg]
  exact Or.inl hqueued

/-- Setting Started or AssignedProcessorNumber queues no job. -/
theorem BatchJobs.record {n₀ : Nat} {s : State} (h : BatchJobs n₀ s) {slot : Nat} {t : MftahThread}
    (hcontext : t.context = (s.threads slot).context)
    (hstarted : t.started = true ∨ t.started = (s.threads slot).started)
    (hfinished : t.finished = (s.threads slot).finished) {st : Option StartFrame}
    (hwaiting : ∀ f, st = some f → f.phase.waiting = false) :
    BatchJobs n₀ { s with threads := update s.threads slot t, start := st } := by
  refine h.frame ?_ ?_ rfl rfl rfl ?_
  · intro other
    by_cases heq : other = slot
    · simp [heq, hcontext]
    · simp [heq]
  · intro other hq
    unfold State.Queued at hq ⊢
    by_cases heq : other = slot
    · simp only [heq, update_self] at hq ⊢
      obtain ⟨hcreated, hnot, hfin⟩ := hq
      refine ⟨by rw [← hcontext]; exact hcreated, ?_, hfinished.symm.trans hfin⟩
      rcases hstarted with hs | hs
      · rw [hnot] at hs
        cases hs
      · exact hs.symm.trans hnot
    · simpa only [update_of_ne heq] using hq
  · intro f hf hw
    rw [hwaiting f hf] at hw
    cases hw

/-- A step that is none of the caller's and that ends no launch and scribbles nothing launches a job of the
    batch, or leaves the batch as it is. -/
theorem next_batch {n₀ : Nat} {s : State} (h : BatchJobs n₀ s) {a : Event P} (ha : enabled P s a) :
    a.caller = true ∨ (∃ k bytes, a = .scribble k bytes) ∨ (∃ k fw, a = .finish k fw) ∨
    (a.caller = false ∧ ∃ i f ctx, (n₀ ≤ ctx ∧ ctx < s.nextCtx) ∧ next P s a = launch i f ctx s) ∨
    (a.caller = false ∧ SameBatch s (next P s a) ∧ BatchJobs n₀ (next P s a)) := by
  have heff := next_effect s a
  generalize next P s a = s' at heff ⊢
  have hkeeps : SameBatch s s' → BatchJobs n₀ s' → a.caller = true ∨ (∃ k bytes, a = .scribble k bytes) ∨
      (∃ k fw, a = .finish k fw) ∨
      (a.caller = false ∧ ∃ i f ctx, (n₀ ≤ ctx ∧ ctx < s.nextCtx) ∧ s' = launch i f ctx s) ∨
      (a.caller = false ∧ SameBatch s s' ∧ BatchJobs n₀ s') := by
    intro hsame hjobs
    cases hcaller : a.caller with
    | true => exact Or.inl rfl
    | false => exact Or.inr (Or.inr (Or.inr (Or.inr ⟨rfl, hsame, hjobs⟩)))
  cases heff with
  | nothing => exact hkeeps (SameBatch.refl s) h
  | panicked => exact hkeeps ⟨rfl, fun _ => rfl, rfl, rfl, rfl, rfl⟩ (h.of_same rfl rfl rfl rfl rfl)
  | overwritten c => exact Or.inl rfl
  | decrypted => exact Or.inl rfl
  | installed => exact Or.inl rfl
  | called hstarted hfinished =>
    exact hkeeps ⟨rfl, fun _ => rfl, rfl, rfl, rfl, rfl⟩ (h.calls ⟨ha.2.2, hstarted, hfinished⟩ _ s.spin)
  | entered total => exact hkeeps ⟨rfl, fun _ => rfl, rfl, rfl, rfl, rfl⟩ (h.of_same rfl rfl rfl rfl rfl)
  | looped => exact hkeeps ⟨rfl, fun _ => rfl, rfl, rfl, rfl, rfl⟩ (h.of_same rfl rfl rfl rfl rfl)
  | dispatched fw _ _ hqueued => exact hkeeps ⟨rfl, fun _ => rfl, rfl, rfl, rfl, rfl⟩ (h.calls hqueued _ _)
  | returned => exact hkeeps ⟨rfl, fun _ => rfl, rfl, rfl, rfl, rfl⟩ (h.of_same rfl rfl rfl rfl rfl)
  | waited fw hstart hw _ hframe =>
    refine hkeeps ⟨rfl, fun _ => rfl, rfl, rfl, rfl, rfl⟩ (h.frame (fun _ => rfl) (fun _ hq => hq) rfl rfl rfl ?_)
    intro g hg hgw
    exact Or.inr ⟨_, hstart, hw, (hframe g hg).1.symm⟩
  | launched fw hstart hw _ _ _ hctx =>
    exact Or.inr (Or.inr (Or.inr (Or.inl ⟨rfl, _, _, _, h.waiting _ _ hstart hw hctx, rfl⟩)))
  | marked =>
    refine hkeeps ⟨rfl, fun _ => rfl, rfl, rfl, rfl, rfl⟩ (h.frame (fun _ => rfl) (fun _ hq => hq) rfl rfl rfl ?_)
    intro g hg hgw
    rw [← Option.some.inj hg] at hgw
    cases hgw
  | started =>
    refine hkeeps ⟨rfl, fun _ => rfl, rfl, rfl, rfl, rfl⟩ (h.record ?_ (Or.inl ?_) ?_ ?_)
    · rfl
    · rfl
    · rfl
    · intro g hg
      rw [← Option.some.inj hg]
      rfl
  | assigned =>
    refine hkeeps ⟨rfl, fun _ => rfl, rfl, rfl, rfl, rfl⟩ (h.record ?_ (Or.inr ?_) ?_ nofun)
    · rfl
    · rfl
    · rfl
  | progressed k c place =>
    exact hkeeps ⟨rfl, (KeepsSlots.reports s c place).job, rfl, rfl, rfl, rfl⟩ (h.of_same rfl rfl rfl rfl rfl)
  | scribbled k bytes => exact Or.inr (Or.inl ⟨k, bytes, rfl⟩)
  | ended k fw => exact Or.inr (Or.inr (Or.inl ⟨k, fw, rfl⟩))
  | notified k fw =>
    refine hkeeps ?_ (h.finishThread _ fw)
    obtain ⟨mps, ths, hfinish, -⟩ := finishThread_cases fw (s.slotOf k) s
    rw [hfinish]
    exact ⟨rfl, fun _ => rfl, rfl, rfl, rfl, rfl⟩

/-! ## Beside the synchronous run -/

/-- The synchronous run of the caller's events has done the jobs of the batch one after the other. -/
def SynchronousTwin (P : Platform) (s₀ : State) (as : List (Event P)) (s : State) : Prop :=
  ∃ u, Run (system P) (fun _ _ => True) s₀.synchronous (as.filter Event.caller) u ∧ u.Idle ∧
    u.isThreadingEnabled = false ∧ u.caller = s.caller ∧
    u.mem = runAll (batchJob P s₀.nextCtx s) s₀.mem (s.nextCtx - s₀.nextCtx)

structure Beside (P : Platform) (s₀ : State) (as : List (Event P)) (s : State) : Prop where
  threading : s.isThreadingEnabled = true
  jobs : BatchJobs s₀.nextCtx s
  twin : SynchronousTwin P s₀ as s
  underway : RegionsApart P s₀.nextCtx s → LaunchedOnce s₀.nextCtx s → BatchUnderway P s₀.nextCtx s₀.mem s

theorem beside_start {s₀ : State} (hquiet : Quiet s₀) (hthr : s₀.isThreadingEnabled = true) : Beside P s₀ [] s₀ := by
  have hzero : s₀.nextCtx - s₀.nextCtx = 0 := Nat.sub_self _
  refine ⟨hthr, batchJobs_of_quiet hquiet, ⟨s₀.synchronous, Run.nil, hquiet.idle, rfl, rfl, ?_⟩, ?_⟩
  · rw [hzero]
    rfl
  · intro _ _
    refine ⟨fun _ => .waiting, ?_, ?_⟩
    · rw [hzero]
      exact Underway.start _ _ _
    · intro i hi
      rw [hzero] at hi
      exact absurd hi (Nat.not_lt_zero i)

theorem batchJob_next {n₀ : Nat} {s : State} (hge : n₀ ≤ s.nextCtx) (a : Event P) {i : Nat} (hi : i < s.nextCtx - n₀) :
    batchJob P n₀ (next P s a) i = batchJob P n₀ s i :=
  regionJob_congr (next_job (by omega)).2

theorem nextCtx_le_next (s : State) (a : Event P) : s.nextCtx ≤ (next P s a).nextCtx := by
  cases hn : s.nextCtx with
  | zero => exact Nat.zero_le _
  | succ n => exact (next_job (a := a) (by rw [hn]; exact Nat.lt_succ_self n)).1

theorem RegionsApart.of_next {n₀ : Nat} {s : State} {a : Event P} (h : RegionsApart P n₀ (next P s a))
    (hge : n₀ ≤ s.nextCtx) : RegionsApart P n₀ s := by
  intro i j hi hj hne
  have hle := nextCtx_le_next s a
  have happly := h i j (by omega) (by omega) hne
  rw [batchJob_next hge a hi, batchJob_next hge a hj] at happly
  exact happly

theorem LaunchedOnce.of_later {n₀ : Nat} {s s' : State} (h : LaunchedOnce n₀ s')
    (hk : s.nextLaunch ≤ s'.nextLaunch) (hl : ∀ k, k < s.nextLaunch → (s'.launches k).ctx = (s.launches k).ctx) :
    LaunchedOnce n₀ s := by
  intro i j hi hj heq hge
  refine h i j (Nat.lt_of_lt_of_le hi hk) (Nat.lt_of_lt_of_le hj hk) ?_ ?_
  · rw [hl i hi, hl j hj]
    exact heq
  · rw [hl j hj]
    exact hge

/-- A step that is not the caller's and makes no context leaves the synchronous run where it is. -/
theorem SynchronousTwin.skip {s₀ s : State} {as : List (Event P)} (h : SynchronousTwin P s₀ as s)
    (hge : s₀.nextCtx ≤ s.nextCtx) {a : Event P} (ha : a.caller = false) (hn : (next P s a).nextCtx = s.nextCtx)
    (hc : (next P s a).caller = s.caller) : SynchronousTwin P s₀ (as ++ [a]) (next P s a) := by
  obtain ⟨u, hrun, hidle, hthr, hcaller, hmem⟩ := h
  refine ⟨u, ?_, hidle, hthr, hcaller.trans hc.symm, ?_⟩
  · simpa [List.filter_append, List.filter_cons, ha] using hrun
  · rw [hmem, hn]
    exact runAll_congr (fun i hi => (batchJob_next hge a hi).symm) _

/-- With threading, an accepted order with bytes is installed. -/
theorem spawn_accepted {s : State} (hthr : s.isThreadingEnabled = true) (h : Accepts s (.spawn : Event P)) :
    ∃ order key iv, s.caller = ⟨some order, some key, some iv⟩ ∧ order.length ≠ 0 ∧
      order.threadIndex < P.maxThreadCount ∧
      spawnDecryptionWorker P s = (some .success, installOrder s order key iv) := by
  obtain ⟨hsuccess, order, horder, hlen⟩ := h
  cases hkey : s.caller.sha256Key with
  | none => simp [spawnDecryptionWorker, horder, hkey] at hsuccess
  | some key =>
    cases hiv : s.caller.initializationVector with
    | none => simp [spawnDecryptionWorker, horder, hkey, hiv] at hsuccess
    | some iv =>
      have hcaller : s.caller = ⟨some order, some key, some iv⟩ := by
        rw [← horder, ← hkey, ← hiv]
      obtain ⟨hindex, hspawn⟩ := spawn_installs hcaller hlen hthr hsuccess
      exact ⟨order, key, iv, hcaller, hlen, hindex, hspawn⟩

/-- Without threading, the order is done at once. -/
theorem spawn_synchronous {s : State} {order : WorkOrder} {key iv : List UInt8}
    (hcaller : s.caller = ⟨some order, some key, some iv⟩) (hindex : order.threadIndex < P.maxThreadCount)
    (hlen : order.length ≠ 0) (hthr : s.isThreadingEnabled = false) :
    spawnDecryptionWorker P s = (some .success, { s with mem := cryptRegion P s.mem order key iv }) := by
  simp only [spawnDecryptionWorker, hcaller, hlen, hthr, if_neg (Nat.not_le.mpr hindex), if_false, if_true]

/-- The synchronous run does an order at the end of what it has done. -/
theorem SynchronousTwin.spawn {s₀ s : State} {as : List (Event P)} (h : SynchronousTwin P s₀ as s)
    (hge : s₀.nextCtx ≤ s.nextCtx) {order : WorkOrder} {key iv : List UInt8}
    (hcaller : s.caller = ⟨some order, some key, some iv⟩) (hlen : order.length ≠ 0)
    (hindex : order.threadIndex < P.maxThreadCount)
    (hnext : next P s .spawn = installOrder s order key iv) :
    SynchronousTwin P s₀ (as ++ [.spawn]) (next P s .spawn) := by
  obtain ⟨u, hrun, hidle, hthr, hsame, hmem⟩ := h
  have hspawn := spawn_synchronous (hsame.trans hcaller) hindex hlen hthr
  have hstep : next P u .spawn = { u with mem := cryptRegion P u.mem order key iv } := by
    rw [next, hspawn]
  have hlater : Run (system P) (fun _ _ => True) s₀.synchronous (as.filter Event.caller ++ [.spawn])
      (next P u .spawn) := hrun.snoc Event.spawn hidle trivial
  refine ⟨next P u .spawn, ?_, ?_, ?_, ?_, ?_⟩
  · simpa [List.filter_append, List.filter_cons, Event.caller] using hlater
  · rw [hstep]
    exact hidle
  · rw [hstep]
    exact hthr
  · rw [hstep, hnext]
    exact hsame
  · have hcount : (next P s .spawn).nextCtx - s₀.nextCtx = s.nextCtx - s₀.nextCtx + 1 := by
      have hsucc : (next P s .spawn).nextCtx = s.nextCtx + 1 := by
        rw [hnext]
        rfl
      omega
    have hlast : batchJob P s₀.nextCtx (next P s .spawn) (s.nextCtx - s₀.nextCtx) =
        regionJob P (newThreadContext s order key iv) := by
      have hindexed : s₀.nextCtx + (s.nextCtx - s₀.nextCtx) = s.nextCtx := by omega
      rw [batchJob, hindexed, hnext]
      exact congrArg (regionJob P) (installOrder_ctxs_self s order key iv)
    have hbefore : runAll (batchJob P s₀.nextCtx (next P s .spawn)) s₀.mem (s.nextCtx - s₀.nextCtx) = u.mem := by
      rw [hmem]
      exact runAll_congr (fun i hi => batchJob_next hge .spawn hi) _
    rw [hcount, runAll, hlast, hbefore, hstep]
    rfl

theorem SynchronousTwin.overwrite {s₀ s : State} {as : List (Event P)} (h : SynchronousTwin P s₀ as s) (c : Caller) :
    SynchronousTwin P s₀ (as ++ [.overwrite c]) (next P s (.overwrite c)) := by
  obtain ⟨u, hrun, hidle, hthr, -, hmem⟩ := h
  have hlater : Run (system P) (fun _ _ => True) s₀.synchronous (as.filter Event.caller ++ [.overwrite c])
      (next P u (.overwrite c)) := hrun.snoc (Event.overwrite c) trivial trivial
  refine ⟨next P u (.overwrite c), ?_, hidle, hthr, rfl, hmem⟩
  simpa [List.filter_append, List.filter_cons, Event.caller] using hlater

theorem Beside.spawn {s₀ s : State} {as : List (Event P)} (h : Beside P s₀ as s) (ha : enabled P s .spawn)
    (hc : Accepts s (.spawn : Event P)) : Beside P s₀ (as ++ [.spawn]) (next P s .spawn) := by
  obtain ⟨order, key, iv, hcaller, hlen, hindex, hspawn⟩ := spawn_accepted h.threading hc
  have hnext : next P s .spawn = installOrder s order key iv := by
    rw [next, hspawn]
  refine ⟨?_, ?_, h.twin.spawn h.jobs.ge hcaller hlen hindex hnext, ?_⟩
  · rw [next_threading]
    exact h.threading
  · rw [hnext]
    exact h.jobs.installOrder ha order key iv
  · intro hapart honce
    have hbefore := hapart.of_next h.jobs.ge
    rw [hnext] at hapart honce ⊢
    exact (h.underway hbefore honce).installOrder h.jobs hapart

/-- Every step keeps the two runs side by side. -/
theorem beside_next {s₀ s : State} {as : List (Event P)} (h : Beside P s₀ as s) {a : Event P} (ha : enabled P s a)
    (hc : Accepts s a) : Beside P s₀ (as ++ [a]) (next P s a) := by
  have hthreading : (next P s a).isThreadingEnabled = true := (next_threading s a).trans h.threading
  have hge := h.jobs.ge
  rcases next_batch h.jobs ha with hcall | ⟨k, bytes, heq⟩ | ⟨k, fw, heq⟩ | ⟨hcall, i, f, ctx, hctx, hnext⟩ |
    ⟨hcall, hsame, hjobs⟩
  · cases a with
    | overwrite c =>
      refine ⟨hthreading, h.jobs.of_same rfl rfl rfl rfl rfl, h.twin.overwrite c, ?_⟩
      intro hapart honce
      exact (h.underway hapart honce).of_same hge rfl (fun _ _ => rfl) rfl rfl rfl
    | spawn => exact h.spawn ha hc
    | callStart slot wait => cases hcall
    | callSpin total => cases hcall
    | bsp fw => cases hcall
    | progress k place => cases hcall
    | scribble k bytes => cases hcall
    | finish k fw => cases hcall
    | notify k fw => cases hcall
  · subst heq
    refine ⟨hthreading, h.jobs.of_same rfl rfl rfl rfl rfl, h.twin.skip hge rfl rfl rfl, ?_⟩
    intro hapart honce
    exact (h.underway hapart honce).scribble h.jobs hapart honce ha.1 ha.2
  · subst heq
    have hbatch : BatchJobs s₀.nextCtx (next P s (.finish k fw)) := h.jobs.endOfWork k fw
    obtain ⟨mps, ths, hend, -⟩ := endOfWork_cases fw k s
    have hnext : next P s (.finish k fw) = endOfWork fw k s := rfl
    refine ⟨hthreading, hbatch, h.twin.skip hge rfl (by rw [hnext, hend]) (by rw [hnext, hend]), ?_⟩
    intro hapart honce
    have hbefore : LaunchedOnce s₀.nextCtx s := by
      rw [hnext, hend] at honce
      refine honce.of_later (Nat.le_refl _) ?_
      intro j _
      by_cases hjk : j = k
      · simp [hjk]
      · simp [update_of_ne hjk]
    have hapartBefore := hapart.of_next hge
    exact (h.underway hapartBefore hbefore).endOfWork h.jobs hapartBefore hbefore ha fw
  · have hbatch : BatchJobs s₀.nextCtx (next P s a) := by
      rw [hnext]
      exact h.jobs.launch i hctx
    refine ⟨hthreading, hbatch, h.twin.skip hge hcall (by rw [hnext]; rfl) (by rw [hnext]; rfl), ?_⟩
    intro hapart honce
    have hapartBefore := hapart.of_next hge
    rw [hnext] at honce ⊢
    have hbefore : LaunchedOnce s₀.nextCtx s := by
      refine honce.of_later (Nat.le_succ _) ?_
      intro k hk
      rw [launch_launches_of_lt hk]
    exact (h.underway hapartBefore hbefore).launch hctx honce
  · refine ⟨hthreading, hjobs, h.twin.skip hge hcall hsame.nextCtx hsame.caller, ?_⟩
    intro hapart honce
    have hbefore : LaunchedOnce s₀.nextCtx s := by
      refine honce.of_later (Nat.le_of_eq hsame.nextLaunch.symm) ?_
      intro k _
      rw [hsame.launches]
    exact (h.underway (hapart.of_next hge) hbefore).of_same hge hsame.nextCtx (fun c _ => hsame.job c)
      hsame.nextLaunch hsame.launches hsame.mem

theorem beside_run {s₀ s : State} {as : List (Event P)} (hquiet : Quiet s₀) (hthr : s₀.isThreadingEnabled = true)
    (hrun : Run (system P) Accepts s₀ as s) : Beside P s₀ as s := by
  induction hrun with
  | nil => exact beside_start hquiet hthr
  | snoc a _ ha hc ih => exact beside_next ih ha hc

/-! ## The theorem -/

/-- Over every order of steps, a batch on regions that are apart, each of whose orders was launched once and
    has ended, leaves the memory of the synchronous run of the caller's events. -/
theorem threaded_eq_synchronous {s₀ s : State} {as : List (Event P)} (hquiet : Quiet s₀)
    (hthr : s₀.isThreadingEnabled = true) (hrun : Run (system P) Accepts s₀ as s)
    (hapart : RegionsApart P s₀.nextCtx s)
    (honce : ∀ c, s₀.nextCtx ≤ c → c < s.nextCtx →
      ∃ k, k < s.nextLaunch ∧ (s.launches k).ctx = c ∧ (s.launches k).ended = true ∧
        ∀ j, j < s.nextLaunch → (s.launches j).ctx = c → j = k) :
    ∃ u, Run (system P) (fun _ _ => True) s₀.synchronous (as.filter Event.caller) u ∧ u.mem = s.mem := by
  have hbeside := beside_run hquiet hthr hrun
  have hge := hbeside.jobs.ge
  have hlaunched : LaunchedOnce s₀.nextCtx s := by
    intro i j hi hj heq hctx
    obtain ⟨k, -, -, -, hunique⟩ := honce (s.launches j).ctx hctx (hbeside.jobs.launched j hj).1
    rw [hunique i hi heq, hunique j hj rfl]
  obtain ⟨phase, hunder, htracks⟩ := hbeside.underway hapart hlaunched
  have hdone : ∀ i, i < s.nextCtx - s₀.nextCtx → phase i = .done := by
    intro i hi
    obtain ⟨k, hk, hctx, hend, -⟩ := honce (s₀.nextCtx + i) (by omega) (by omega)
    have htrack := htracks i hi
    cases hp : phase i with
    | waiting =>
      rw [hp] at htrack
      exact absurd hctx (htrack k hk)
    | running input =>
      rw [hp] at htrack
      obtain ⟨j, hj, hjctx, hrunning, -⟩ := htrack
      have hjk : j = k := hlaunched j k hj hk (hjctx.trans hctx.symm) (by omega)
      rw [hjk, hend] at hrunning
      cases hrunning
    | done => rfl
  obtain ⟨u, htwin, -, -, -, hmem⟩ := hbeside.twin
  refine ⟨u, htwin, ?_⟩
  rw [hmem, hunder.eq_runAll hapart hdone]

theorem quiet_of_initial {s : State} (h : Initial P s) : Quiet s := by
  refine ⟨h.idle, ?_, ?_⟩
  · intro k hk
    rw [h.nextLaunch] at hk
    exact absurd hk (Nat.not_lt_zero k)
  · intro slot hq
    exact absurd (by rw [h.threads]) hq.1

/-! ## Two orders -/

instance (s : State) (a : Event P) : Decidable (Accepts s a) :=
  match a with
  | .spawn =>
    match horder : s.caller.workOrder with
    | some order =>
      decidable_of_iff ((spawnDecryptionWorker P s).1 = some .success ∧ order.length ≠ 0)
        (by simp [Accepts, horder])
    | none => isFalse (by simp [Accepts, horder])
  | .overwrite _ | .callStart _ _ | .callSpin _ | .bsp _ | .progress _ _ | .scribble _ _ | .finish _ _
  | .notify _ _ => isTrue trivial

/-- Two orders from reused buffers, which are cleared before either is started; the second worker ends first. -/
def twoOrders : List (Event smallPlatform) :=
  [.overwrite (smallOrder 0 0x1000), .spawn, .overwrite (smallOrder 1 0x2000), .spawn, .overwrite ⟨none, none, none⟩,
    .callStart 0 true] ++ startOnFirst ++
  [.callStart 1 true] ++ List.replicate 7 (.bsp smallFirmware) ++
  [.finish 1 smallFirmware, .scribble 0 (List.replicate 16 0), .finish 0 smallFirmware]

theorem threaded_eq_synchronous_twoOrders :
    ∃ u, Run (system smallPlatform) (fun _ _ => True) smallState.synchronous (twoOrders.filter Event.caller) u ∧
      u.mem = (twoOrders.foldl (next smallPlatform) smallState).mem := by
  have hrun : Run (system smallPlatform) Accepts smallState twoOrders
      (twoOrders.foldl (next smallPlatform) smallState) :=
    Run.of_valid (by decide +kernel)
  have hcount : (twoOrders.foldl (next smallPlatform) smallState).nextCtx = 2 := by decide +kernel
  have hapart : ∀ a, InRegion 0x1000 16 a → ¬ InRegion 0x2000 16 a := by
    intro a hfirst hsecond
    simp only [InRegion, UInt64.toNat_sub] at hfirst hsecond
    have hlt := a.toNat_lt
    simp at hfirst hsecond
    omega
  refine threaded_eq_synchronous (quiet_of_initial smallState_initial) rfl hrun ?_ ?_
  · intro i j hi hj hne
    have hi' : i < 2 := by rw [hcount] at hi; exact hi
    have hj' : j < 2 := by rw [hcount] at hj; exact hj
    rcases (by omega : i = 0 ∧ j = 1 ∨ i = 1 ∧ j = 0) with ⟨rfl, rfl⟩ | ⟨rfl, rfl⟩
    · exact hapart
    · exact fun a hsecond hfirst => hapart a hfirst hsecond
  · intro c _ hc
    rw [hcount] at hc
    rcases (by omega : c = 0 ∨ c = 1) with rfl | rfl
    · exact ⟨0, by decide +kernel, by decide +kernel, by decide +kernel, by decide +kernel⟩
    · exact ⟨1, by decide +kernel, by decide +kernel, by decide +kernel, by decide +kernel⟩

end Crows.Boot.Threading
