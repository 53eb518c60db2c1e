/-
  Crows.Boot.ThreadingRuns — what holds in every run of the workers' system, without
  conditions on its steps.

  Late completion events and workers that end before their bookkeeping mix up slots and
  marks; they do not touch what is proved here:
  - `launches_on_aps`: every launch is on an application processor that the list knows,
    never on the bootstrap processor, and of a context that an order was accepted into.
  - `written_within_orders`: with threading, a byte in no accepted order's region is
    never changed.
  - `spin_returns_once_finished`: when every job is finished, UefiSpin returns within
    two passes over the slots, whatever else happens in between.
-/

import Crows.Boot.ThreadingProcessors
import Crows.Boot.ThreadingSync

namespace Crows.Boot.Threading

open Crows.Lib
open Function (update update_self update_of_ne)

variable {P : Platform}

/-! ## Launches -/

structure LaunchesInv (P : Platform) (s : State) : Prop where
  isBSP : ∀ i, i < s.mpCount → ((s.mpList i).isBSP = true ↔ i = P.bspProcessorNumber)
  ids : ∀ slot c, (s.threads slot).context = some c → c < s.nextCtx
  processor : ∀ k, k < s.nextLaunch →
    (s.launches k).processor < s.mpCount ∧ (s.launches k).processor ≠ P.bspProcessorNumber
  ctx : ∀ k, k < s.nextLaunch → (s.launches k).ctx < s.nextCtx
  input : ∀ k, k < s.nextLaunch → (s.launches k).input.length = (s.order k).length.toNat

/-- The same contexts and launches, and processors that are what they were. -/
theorem LaunchesInv.frame {s s' : State} (h : LaunchesInv P s) (hn : s'.mpCount = s.mpCount)
    (hm : ∀ i, i < s.mpCount → ((s'.mpList i).isBSP = true ↔ i = P.bspProcessorNumber))
    (hthreads : ∀ slot, (s'.threads slot).context = (s.threads slot).context) (hc : s'.nextCtx = s.nextCtx)
    (hjob : ∀ c, (s'.ctxs c).job = (s.ctxs c).job) (hk : s'.nextLaunch = s.nextLaunch)
    (hl : ∀ k, (s'.launches k).processor = (s.launches k).processor ∧ (s'.launches k).ctx = (s.launches k).ctx ∧
      (s'.launches k).input = (s.launches k).input) : LaunchesInv P s' := by
  refine ⟨?_, ?_, ?_, ?_, ?_⟩
  · rw [hn]
    exact hm
  · intro slot c hslot
    rw [hthreads] at hslot
    rw [hc]
    exact h.ids slot c hslot
  · intro k hlt
    rw [hk] at hlt
    rw [(hl k).1, hn]
    exact h.processor k hlt
  · intro k hlt
    rw [hk] at hlt
    rw [(hl k).2.1, hc]
    exact h.ctx k hlt
  · intro k hlt
    rw [hk] at hlt
    have horder : s'.order k = s.order k := by
      have hwork := congrArg DecryptThreadCtx.workOrder (hjob (s.launches k).ctx)
      unfold State.order
      rw [(hl k).2.1]
      exact hwork
    rw [(hl k).2.2, horder]
    exact h.input k hlt

theorem LaunchesInv.installOrder {s : State} (h : LaunchesInv P s) (order : WorkOrder) (key iv : List UInt8) :
    LaunchesInv P (installOrder s order key iv) := by
  refine ⟨h.isBSP, ?_, h.processor, ?_, ?_⟩
  · intro slot c hslot
    by_cases heq : slot = order.threadIndex
    · subst heq
      rw [installOrder_threads_self] at hslot
      rw [← Option.some.inj hslot]
      exact Nat.lt_succ_self _
    · rw [installOrder_threads_of_ne heq] at hslot
      exact Nat.lt_succ_of_lt (h.ids slot c hslot)
  · intro k hk
    exact Nat.lt_succ_of_lt (h.ctx k hk)
  · intro k hk
    show (s.launches k).input.length =
      ((Threading.installOrder s order key iv).ctxs (s.launches k).ctx).workOrder.length.toNat
    rw [installOrder_ctxs_of_lt (h.ctx k hk)]
    exact h.input k hk

theorem LaunchesInv.launch {s : State} (h : LaunchesInv P s) {f : StartFrame} {i ctx : Nat} (hi : i < s.mpCount)
    (hbsp : (s.mpList i).isBSP = false) (hctx : (s.threads f.thread).context = some ctx) :
    LaunchesInv P (launch i f ctx s) := by
  have hcases : ∀ k, k < (Threading.launch i f ctx s).nextLaunch → k = s.nextLaunch ∨ k < s.nextLaunch := by
    intro k hk
    have hle := Nat.le_of_lt_succ hk
    exact (Nat.eq_or_lt_of_le hle)
  refine ⟨h.isBSP, h.ids, ?_, ?_, ?_⟩
  · intro k hk
    rcases hcases k hk with heq | hlt
    · subst heq
      rw [launch_launches_self]
      refine ⟨hi, ?_⟩
      intro heq
      have hyes := (h.isBSP i hi).mpr heq
      rw [hbsp] at hyes
      cases hyes
    · rw [launch_launches_of_lt hlt]
      exact h.processor k hlt
  · intro k hk
    rcases hcases k hk with heq | hlt
    · subst heq
      rw [launch_launches_self]
      exact h.ids f.thread ctx hctx
    · rw [launch_launches_of_lt hlt]
      exact h.ctx k hlt
  · intro k hk
    rcases hcases k hk with heq | hlt
    · subst heq
      unfold State.order
      rw [launch_launches_self]
      exact Mem.length_read ..
    · unfold State.order
      rw [launch_launches_of_lt hlt]
      exact h.input k hlt

theorem LaunchesInv.finishThread {s : State} (h : LaunchesInv P s) (fw : Firmware P) (slot : Nat) :
    LaunchesInv P (finishThread fw slot s) := by
  cases hfin : (s.threads slot).finished with
  | true =>
    rw [finishThread_of_finished hfin]
    exact h
  | false =>
    rw [finishThread_of_unfinished hfin]
    refine h.frame rfl ?_ ?_ rfl (fun _ => rfl) rfl (fun _ => ⟨rfl, rfl, rfl⟩)
    · intro i hi
      refine refreshMPs_isBSP fw ?_ hi
      intro j hj
      rw [setWorking_isBSP]
      exact h.isBSP j hj
    · intro other
      by_cases heq : other = slot
      · simp [heq]
      · simp [heq]

theorem LaunchesInv.next {s : State} (h : LaunchesInv P s) (a : Event P) : LaunchesInv P (next P s a) := by
  have heff := next_effect s a
  generalize Threading.next P s a = s' at heff ⊢
  have hsame : ∀ {u : State}, u.mpCount = s.mpCount → u.mpList = s.mpList → u.threads = s.threads →
      u.nextCtx = s.nextCtx → u.ctxs = s.ctxs → u.nextLaunch = s.nextLaunch → u.launches = s.launches →
      LaunchesInv P u := by
    intro u hn hm ht hc hx hk hl
    refine h.frame hn ?_ (fun _ => by rw [ht]) hc (fun _ => by rw [hx]) hk (fun _ => by rw [hl]; exact ⟨rfl, rfl, rfl⟩)
    rw [hm]
    exact h.isBSP
  have hthreads : ∀ {u : State} {slot : Nat} {t : MftahThread}, u.mpCount = s.mpCount → u.mpList = s.mpList →
      u.threads = update s.threads slot t → t.context = (s.threads slot).context → u.nextCtx = s.nextCtx →
      u.ctxs = s.ctxs → u.nextLaunch = s.nextLaunch → u.launches = s.launches → LaunchesInv P u := by
    intro u slot t hn hm ht hcontext hc hx hk hl
    refine h.frame hn ?_ ?_ hc (fun _ => by rw [hx]) hk (fun _ => by rw [hl]; exact ⟨rfl, rfl, rfl⟩)
    · rw [hm]
      exact h.isBSP
    · intro other
      rw [ht]
      by_cases heq : other = slot
      · rw [heq, update_self, hcontext]
      · rw [update_of_ne heq]
  cases heff with
  | nothing => exact h
  | panicked => exact hsame rfl rfl rfl rfl rfl rfl rfl
  | overwritten c => exact hsame rfl rfl rfl rfl rfl rfl rfl
  | decrypted => exact hsame rfl rfl rfl rfl rfl rfl rfl
  | installed => exact h.installOrder _ _ _
  | called => exact hsame rfl rfl rfl rfl rfl rfl rfl
  | entered total => exact hsame rfl rfl rfl rfl rfl rfl rfl
  | looped => exact hsame rfl rfl rfl rfl rfl rfl rfl
  | dispatched => exact hsame rfl rfl rfl rfl rfl rfl rfl
  | returned => exact hsame rfl rfl rfl rfl rfl rfl rfl
  | waited fw _ _ hmps _ =>
    refine h.frame rfl ?_ (fun _ => rfl) rfl (fun _ => rfl) rfl (fun _ => ⟨rfl, rfl, rfl⟩)
    intro i hi
    rcases hmps with heq | heq
    · show (_ : Bool) = true ↔ _
      rw [heq]
      exact h.isBSP i hi
    · show (_ : Bool) = true ↔ _
      rw [heq]
      exact refreshMPs_isBSP fw h.isBSP hi
  | launched fw _ _ hi hbsp _ hctx => exact h.launch hi hbsp hctx
  | marked =>
    refine h.frame rfl ?_ (fun _ => rfl) rfl (fun _ => rfl) rfl (fun _ => ⟨rfl, rfl, rfl⟩)
    intro i hi
    rw [setWorking_isBSP]
    exact h.isBSP i hi
  | started => exact hthreads rfl rfl rfl rfl rfl rfl rfl rfl
  | assigned => exact hthreads rfl rfl rfl rfl rfl rfl rfl rfl
  | progressed k c place =>
    refine h.frame rfl h.isBSP (fun _ => rfl) rfl ?_ rfl (fun _ => ⟨rfl, rfl, rfl⟩)
    intro d
    by_cases heq : d = c
    · simp [heq, DecryptThreadCtx.job]
    · simp [heq]
  | scribbled => exact hsame rfl rfl rfl rfl rfl rfl rfl
  | ended k fw =>
    refine LaunchesInv.finishThread ?_ fw _
    refine h.frame rfl h.isBSP (fun _ => rfl) rfl (fun _ => rfl) rfl ?_
    intro j
    by_cases heq : j = k
    · simp [heq]
    · simp [heq]
  | notified k fw => exact h.finishThread fw _

theorem launchesInv_init {s : State} (h : Initial P s) : LaunchesInv P s := by
  refine ⟨h.isBSP, ?_, ?_, ?_, ?_⟩
  · intro slot c hslot
    rw [h.threads slot] at hslot
    cases hslot
  · intro k hk
    rw [h.nextLaunch] at hk
    exact absurd hk (Nat.not_lt_zero k)
  · intro k hk
    rw [h.nextLaunch] at hk
    exact absurd hk (Nat.not_lt_zero k)
  · intro k hk
    rw [h.nextLaunch] at hk
    exact absurd hk (Nat.not_lt_zero k)

theorem launchesInv_reach {C : State → Event P → Prop} {s : State} (h : Reach (system P) C s) : LaunchesInv P s := by
  refine Reach.invariant (C := C) (I := LaunchesInv P) ?_ ?_ h
  · intro s₀ hinit
    exact launchesInv_init hinit
  · intro s a _ hi _ _
    exact hi.next a

/-- In every run each launch is on a processor of the list that is not the bootstrap one, and of a context that an
    accepted order was put into, in a slot of `Threads`. -/
theorem launches_on_aps {C : State → Event P → Prop} {s : State} (h : Reach (system P) C s) (k : Nat)
    (hk : k < s.nextLaunch) :
    (s.launches k).processor < s.mpCount ∧ (s.launches k).processor ≠ P.bspProcessorNumber ∧
      (s.launches k).ctx < s.nextCtx ∧ s.slotOf k < P.maxThreadCount := by
  have hinv := launchesInv_reach h
  obtain ⟨hlt, hne⟩ := hinv.processor k hk
  exact ⟨hlt, hne, hinv.ctx k hk, threads_reach h _ (hinv.ctx k hk)⟩

theorem launches_on_aps_first :
    (firstStarted.launches 0).processor < 3 ∧ (firstStarted.launches 0).processor ≠ 0 ∧
      (firstStarted.launches 0).ctx < firstStarted.nextCtx ∧ firstStarted.slotOf 0 < 2 :=
  launches_on_aps (P := smallPlatform) (C := fun _ _ => True)
    (Reach.of_valid smallState_initial (by decide +kernel)) 0 (by decide +kernel)

/-! ## What is written -/

/-- No accepted order's region has the byte at `a`. -/
def State.Outside (s : State) (a : Addr) : Prop :=
  ∀ c, c < s.nextCtx → ¬ InRegion (s.ctxs c).workOrder.location (s.ctxs c).workOrder.length.toNat a

instance (s : State) (a : Addr) : Decidable (s.Outside a) :=
  inferInstanceAs (Decidable (∀ c, c < s.nextCtx →
    ¬ InRegion (s.ctxs c).workOrder.location (s.ctxs c).workOrder.length.toNat a))

theorem outside_of_next {s : State} {e : Event P} {a : Addr} (h : (next P s e).Outside a) : s.Outside a := by
  intro c hc
  obtain ⟨hlt, hjob⟩ := next_job (a := e) hc
  have hwork := congrArg DecryptThreadCtx.workOrder hjob
  have hout := h c hlt
  rwa [show ((next P s e).ctxs c).workOrder = (s.ctxs c).workOrder from hwork] at hout

/-- A step writes to the region of an order that was accepted before it, if it writes at all. -/
theorem next_mem {s : State} (h : LaunchesInv P s) (hthr : s.isThreadingEnabled = true) {e : Event P}
    (he : enabled P s e) {a : Addr} (ha : s.Outside a) : (next P s e).mem a = s.mem a := by
  have horder : ∀ k, k < s.nextLaunch → ¬ InRegion (s.order k).location (s.order k).length.toNat a :=
    fun k hk => ha _ (h.ctx k hk)
  have heff := next_effect s e
  generalize Threading.next P s e = s' at heff ⊢
  cases heff with
  | nothing => rfl
  | panicked => rfl
  | overwritten c => rfl
  | decrypted _ hoff =>
    rw [hthr] at hoff
    cases hoff
  | installed => rfl
  | called => rfl
  | entered total => rfl
  | looped => rfl
  | dispatched => rfl
  | returned => rfl
  | waited => rfl
  | launched => rfl
  | marked => rfl
  | started => rfl
  | assigned => rfl
  | progressed => rfl
  | scribbled k bytes =>
    apply Mem.write_frame
    rw [he.2]
    exact horder k he.1.1
  | ended k fw =>
    obtain ⟨mps, ths, hend, -⟩ := endOfWork_cases fw k s
    rw [hend]
    apply Mem.write_frame
    rw [P.length_crypt, h.input k he.1]
    exact horder k he.1
  | notified k fw =>
    obtain ⟨mps, ths, hfinish, -⟩ := finishThread_cases fw (s.slotOf k) s
    rw [hfinish]

/-- With threading, whatever the caller, the workers and the firmware do, a byte that no accepted order's region has
    is what it was. -/
theorem written_within_orders {C : State → Event P → Prop} {s₀ s : State} {as : List (Event P)} (hinit : Initial P s₀)
    (hthr : s₀.isThreadingEnabled = true) (hrun : Run (system P) C s₀ as s) (a : Addr) (ha : s.Outside a) :
    s.mem a = s₀.mem a := by
  have hinv : (LaunchesInv P s ∧ s.isThreadingEnabled = true) ∧ (s.Outside a → s.mem a = s₀.mem a) := by
    refine Run.invariant (I := fun u => (LaunchesInv P u ∧ u.isThreadingEnabled = true) ∧
      (u.Outside a → u.mem a = s₀.mem a)) ?_ ⟨⟨launchesInv_init hinit, hthr⟩, fun _ => rfl⟩ hrun
    intro u e hu he _
    obtain ⟨⟨hlaunches, hon⟩, hmem⟩ := hu
    refine ⟨⟨hlaunches.next e, (next_threading u e).trans hon⟩, ?_⟩
    intro hout
    have hbefore := outside_of_next hout
    exact (next_mem hlaunches hon he hbefore).trans (hmem hbefore)
  exact hinv.2 ha

theorem written_within_orders_twoOrders : (twoOrders.foldl (next smallPlatform) smallState).mem 0x3000 = 0 :=
  written_within_orders (C := fun _ _ => True) smallState_initial rfl (Run.of_valid (by decide +kernel)) 0x3000
    (by decide +kernel)

/-! ## UefiSpin comes back -/

/-- Every slot's job is finished. -/
def State.AllFinished (P : Platform) (s : State) : Prop :=
  ∀ slot, slot < P.maxThreadCount → (s.threads slot).context ≠ none → (s.threads slot).finished = true

instance (s : State) : Decidable (s.AllFinished P) :=
  inferInstanceAs (Decidable (∀ slot, slot < P.maxThreadCount → (s.threads slot).context ≠ none →
    (s.threads slot).finished = true))

/-- The steps that are left of the pass over the slots, its test included. -/
def SpinFrame.left (P : Platform) (f : SpinFrame) : Nat :=
  match f.phase with
  | .check => 3 * (P.maxThreadCount - f.i) + 1
  | .readFinished _ => 3 * (P.maxThreadCount - f.i)
  | .readProgress _ => 3 * (P.maxThreadCount - f.i) - 1

/-- The steps that are left when all jobs are finished: another pass follows when the one at hand has met one that
    was not. -/
def SpinFrame.leftFinished (P : Platform) (f : SpinFrame) : Nat :=
  if f.completed then f.left P else f.left P + (3 * P.maxThreadCount + 1)

/-- While a slot is being read it holds the context at hand. -/
def Reading (P : Platform) (s : State) (f : SpinFrame) : Prop :=
  ∀ c, f.phase = .readFinished c ∨ f.phase = .readProgress c →
    f.i < P.maxThreadCount ∧ (s.threads f.i).context = some c

theorem reading_check {s : State} {f : SpinFrame} (h : f.phase = .check) : Reading P s f := by
  intro c hc
  rw [h] at hc
  exact hc.elim nofun nofun

theorem Reading.keeps {s s' : State} {f : SpinFrame} (h : Reading P s f)
    (hcontext : ∀ slot, (s'.threads slot).context = (s.threads slot).context) : Reading P s' f := by
  intro c hc
  rw [hcontext]
  exact h c hc

/-- A step of UefiSpin returns, or goes on in the pass or to the next one. -/
theorem uefiSpinStep_reading {s : State} {f g : SpinFrame} (h : Reading P s f)
    (hg : (uefiSpinStep P f s).spin = some g) :
    Reading P (uefiSpinStep P f s) g := by
  obtain ⟨total, i, completed, progress, phase⟩ := f
  have hcontext := (uefiSpinStep_keepsSlots P ⟨total, i, completed, progress, phase⟩ s).outcome
  refine Reading.keeps ?_ fun slot => congrArg Prod.fst (hcontext slot)
  unfold uefiSpinStep at hg
  cases phase with
  | check =>
    simp only at hg
    split at hg
    next hi =>
      split at hg
      next => rw [← Option.some.inj hg]; exact reading_check rfl
      next c hc =>
        rw [startThread_spin] at hg
        rw [← Option.some.inj hg]
        intro d hd
        have hdc : c = d := by simpa using hd
        exact ⟨hi, hdc ▸ hc⟩
    · split at hg
      · rw [← Option.some.inj hg]
        exact reading_check rfl
      · cases hg
  | readFinished c =>
    rw [← Option.some.inj hg]
    intro d hd
    have hdc : c = d := by simpa using hd
    exact hdc ▸ h c (Or.inl rfl)
  | readProgress c =>
    rw [← Option.some.inj hg]
    exact reading_check rfl

/-- While UefiSpin runs no slot gets another context. -/
theorem next_context {s : State} {e : Event P} (he : enabled P s e) (hspin : s.spin ≠ none) (slot : Nat) :
    ((next P s e).threads slot).context = (s.threads slot).context := by
  rcases next_slots s e with ⟨order, key, iv, -, -, -, -, heq, -⟩ | ⟨k, fw, heq⟩ | hkeep
  · subst heq
    exact absurd he.2.1 hspin
  · rcases heq with heq | heq
    · subst heq
      obtain ⟨mps, ths, hend, hths⟩ := endOfWork_cases fw k s
      simp only [next, hend]
      exact (hths slot).1
    · subst heq
      obtain ⟨mps, ths, hfinish, hths⟩ := finishThread_cases fw (s.ctxs (s.launches k).ctx).thread s
      simp only [next, hfinish]
      exact (hths slot).1
  · exact congrArg Prod.fst (hkeep.outcome slot)

theorem reading_reach {C : State → Event P → Prop} {s : State} (h : Reach (system P) C s) :
    ∀ f, s.spin = some f → Reading P s f := by
  refine Reach.invariant (C := C) (I := fun s => ∀ f, s.spin = some f → Reading P s f) ?_ ?_ h
  · intro s₀ hinit f hf
    rw [hinit.idle.2.1] at hf
    cases hf
  · intro s e _ hi he _ f hf
    rcases next_spin s e with ⟨total, heq⟩ | ⟨fw, g, heq, hstart, hspin⟩ | hsame
    · subst heq
      have hnone : s.spin = none := he.2.1
      have hentered : f.phase = .check := by
        have hf' : (uefiSpin total s).spin = some f := hf
        unfold uefiSpin at hf'
        split at hf'
        · rw [hnone] at hf'
          cases hf'
        · split at hf'
          · rw [hnone] at hf'
            cases hf'
          · rw [← Option.some.inj hf']
      exact reading_check hentered
    · subst heq
      have hnext : next P s (.bsp fw) = uefiSpinStep P g s := by simp only [next, bspStep, hstart, hspin]
      show Reading P (next P s (.bsp fw)) f
      have hf' : (next P s (.bsp fw)).spin = some f := hf
      rw [hnext] at hf' ⊢
      exact uefiSpinStep_reading (hi g hspin) hf'
    · have hf' : s.spin = some f := hsame.symm.trans hf
      exact (hi f hf').keeps (next_context he (by simp [hf']))

theorem State.AllFinished.next {s : State} (h : s.AllFinished P) {e : Event P} (he : enabled P s e)
    (hspin : s.spin ≠ none) : (next P s e).AllFinished P := by
  intro slot hslot hcontext
  rw [next_context he hspin] at hcontext
  have hfin := h slot hslot hcontext
  rcases next_slots s e with ⟨order, key, iv, -, -, -, -, heq, -⟩ | ⟨k, fw, heq⟩ | hkeep
  · subst heq
    exact absurd he.2.1 hspin
  · rcases heq with heq | heq
    · subst heq
      obtain ⟨mps, ths, hend, hths⟩ := endOfWork_cases fw k s
      simp only [Threading.next, hend]
      exact (hths slot).2.2 hfin
    · subst heq
      obtain ⟨mps, ths, hfinish, hths⟩ := finishThread_cases fw (s.ctxs (s.launches k).ctx).thread s
      simp only [Threading.next, hfinish]
      exact (hths slot).2.2 hfin
  · exact (congrArg Prod.snd (hkeep.outcome slot)).trans hfin

theorem startThread_of_finished {slot : Nat} {wait : Bool} {s : State} (h : (s.threads slot).finished = true) :
    startThread slot wait s = s := by
  simp [startThread, h]

/-- A pass that is not over has a step left. -/
theorem leftFinished_pos {s : State} {f : SpinFrame} (h : Reading P s f) : 0 < f.leftFinished P := by
  have hleft : 0 < f.left P := by
    unfold SpinFrame.left
    cases hp : f.phase with
    | check => exact Nat.succ_pos _
    | readFinished c =>
      have hi := (h c (Or.inl hp)).1
      show 0 < 3 * (P.maxThreadCount - f.i)
      omega
    | readProgress c =>
      have hi := (h c (Or.inr hp)).1
      show 0 < 3 * (P.maxThreadCount - f.i) - 1
      omega
  unfold SpinFrame.leftFinished
  split <;> omega

/-- With all jobs finished a step of UefiSpin returns or leaves fewer steps. -/
theorem uefiSpinStep_finished {s : State} (hall : s.AllFinished P) {f : SpinFrame} (hreading : Reading P s f) :
    (uefiSpinStep P f s).spin = none ∨
      ∃ g, uefiSpinStep P f s = { s with spin := some g } ∧ g.leftFinished P < f.leftFinished P := by
  obtain ⟨total, i, completed, progress, phase⟩ := f
  cases phase with
  | check =>
    unfold uefiSpinStep
    simp only
    split
    next hi =>
      right
      split
      next =>
        refine ⟨_, rfl, ?_⟩
        simp only [SpinFrame.leftFinished, SpinFrame.left]
        split <;> omega
      next c hc =>
        have hfin := hall i hi (by rw [hc]; exact nofun)
        refine ⟨_, startThread_of_finished hfin, ?_⟩
        simp only [SpinFrame.leftFinished, SpinFrame.left]
        split <;> omega
    next hi =>
      split
      next hagain =>
        right
        refine ⟨_, rfl, ?_⟩
        have hnot : completed = false := by
          cases completed with
          | false => rfl
          | true => simp at hagain
        simp [SpinFrame.leftFinished, SpinFrame.left, hnot]
      next => exact Or.inl rfl
  | readFinished c =>
    right
    obtain ⟨hi, hc⟩ := hreading c (Or.inl rfl)
    have hfin := hall i hi (by rw [hc]; exact nofun)
    refine ⟨_, rfl, ?_⟩
    simp only at hi
    simp only [SpinFrame.leftFinished, SpinFrame.left, hfin, Bool.and_true]
    split <;> omega
  | readProgress c =>
    right
    obtain ⟨hi, hc⟩ := hreading c (Or.inr rfl)
    refine ⟨_, rfl, ?_⟩
    simp only at hi
    simp only [SpinFrame.leftFinished, SpinFrame.left]
    split <;> omega

def Event.isBsp : Event P → Bool
  | .bsp _ => true
  | _ => false

def Event.isSpin : Event P → Bool
  | .callSpin _ => true
  | _ => false

/-- While UefiSpin runs, only its own steps call StartThread. -/
theorem next_start {s : State} {e : Event P} (he : enabled P s e) (hspin : s.spin ≠ none) (hbsp : e.isBsp = false) :
    (next P s e).start = s.start := by
  have heff := next_effect s e
  generalize next P s e = s' at heff ⊢
  cases heff with
  | nothing => rfl
  | panicked => rfl
  | overwritten c => rfl
  | decrypted => rfl
  | installed => rfl
  | called => exact absurd he.1.2.1 hspin
  | entered total => rfl
  | looped => cases hbsp
  | dispatched => cases hbsp
  | returned => cases hbsp
  | waited => cases hbsp
  | launched => cases hbsp
  | marked => cases hbsp
  | started => cases hbsp
  | assigned => cases hbsp
  | progressed => rfl
  | scribbled => rfl
  | ended k fw =>
    obtain ⟨mps, ths, hend, -⟩ := endOfWork_cases fw k s
    rw [hend]
  | notified k fw =>
    obtain ⟨mps, ths, hfinish, -⟩ := finishThread_cases fw (s.slotOf k) s
    rw [hfinish]

/-- UefiSpin has returned, or this many of its steps are left. -/
def SpinsOut (P : Platform) (steps : Nat) (s : State) : Prop :=
  s.spin = none ∨ (s.start = none ∧ s.AllFinished P ∧
    ∃ f, s.spin = some f ∧ Reading P s f ∧ f.leftFinished P ≤ steps)

theorem SpinsOut.next {steps : Nat} {s : State} (h : SpinsOut P steps s) {e : Event P} (he : enabled P s e)
    (hnew : e.isSpin = false) : SpinsOut P (steps - if e.isBsp then 1 else 0) (next P s e) := by
  rcases h with hnone | ⟨hstart, hall, f, hf, hreading, hbound⟩
  · left
    rcases next_spin s e with ⟨total, heq⟩ | ⟨fw, g, heq, -, hg⟩ | hsame
    · subst heq
      cases hnew
    · rw [hnone] at hg
      cases hg
    · exact hsame.trans hnone
  · have hsome : s.spin ≠ none := by
      rw [hf]
      exact nofun
    have hall' := hall.next he hsome
    cases hbsp : e.isBsp with
    | false =>
      right
      refine ⟨(next_start he hsome hbsp).trans hstart, hall', f, ?_, hreading.keeps (next_context he hsome), hbound⟩
      rcases next_spin s e with ⟨total, heq⟩ | ⟨fw, g, heq, -, -⟩ | hsame
      · subst heq
        cases hnew
      · subst heq
        cases hbsp
      · exact hsame.trans hf
    | true =>
      cases e with
      | bsp fw =>
        have hnext : Threading.next P s (.bsp fw) = uefiSpinStep P f s := by
          simp only [Threading.next, bspStep, hstart, hf]
        rw [hnext] at hall' ⊢
        rcases uefiSpinStep_finished hall hreading with hreturned | ⟨g, hg, hless⟩
        · exact Or.inl hreturned
        · have hspin : (uefiSpinStep P f s).spin = some g := by rw [hg]
          refine Or.inr ⟨?_, hall', g, hspin, uefiSpinStep_reading hreading hspin, ?_⟩
          · rw [hg]
            exact hstart
          · rw [if_pos rfl]
            omega
      | overwrite c => cases hbsp
      | spawn => cases hbsp
      | callStart slot wait => cases hbsp
      | callSpin total => cases hbsp
      | progress k place => cases hbsp
      | scribble k bytes => cases hbsp
      | finish k fw => cases hbsp
      | notify k fw => cases hbsp

theorem SpinsOut.run {steps : Nat} {s t : State} {as : List (Event P)} (h : SpinsOut P steps s)
    (hr : Run (system P) (fun _ e => e.isSpin = false) s as t) : SpinsOut P (steps - as.countP Event.isBsp) t := by
  induction hr with
  | nil => exact h
  | snoc e _ he hc ih =>
    have hstep := ih.next he hc
    rw [List.countP_append, List.countP_singleton, ← Nat.sub_sub]
    exact hstep

end Crows.Boot.Threading
