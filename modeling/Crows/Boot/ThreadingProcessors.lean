/-
  Crows.Boot.ThreadingProcessors — the processor table and what runs.

  StartThread marks a processor as working after the launch, and only then records it in
  the thread; FinishThread frees the processor that the thread records. A worker that
  ends in between frees the processor of the slot's last job, and its own stays marked.
  `BookedFirst` is the end of a worker that comes after that bookkeeping, or in it when
  the slot ran on the same processor before.

  Proved, over every number of processors and every order of steps in which completion
  events are fresh and workers end after their bookkeeping:
  - `processor_table`: while no StartThread is in progress, a processor is marked as
    working exactly when a started, unfinished thread is assigned to it, no two such
    threads share one, and no started thread is assigned to the bootstrap processor.
  - `processor_stays_working`: a run in which a worker ends right after its launch and
    its processor stays marked with no thread on it.
-/
import Crows.Lib.Marks
import Crows.Boot.ThreadingSpin

namespace Crows.Boot.Threading

open Crows.Lib
open Function (update update_self update_of_ne)

variable {P : Platform}

/-! ## Which slot keeps which processor marked -/

/-- What StartThread's phase says of its thread's processor: not marked yet, or marked. -/
def StartPhase.claims : StartPhase → Option (Option Nat)
  | .launched _ => some none
  | .marked i => some (some i)
  | .started i => some (some i)
  | _ => none

/-- The processor of a launch that StartThread is recording. -/
def StartPhase.processor : StartPhase → Option Nat
  | .launched i => some i
  | .marked i => some i
  | .started i => some i
  | _ => none

def State.claimed (s : State) (slot : Nat) : Option (Option Nat) :=
  match s.start with
  | some f => if f.thread = slot then f.phase.claims else none
  | none => none

/-- The processor marked as working for a slot: while StartThread records the launch the one it launched on,
    and then the one the thread is assigned to. -/
def State.occupies (s : State) (slot : Nat) : Option Nat :=
  if (s.threads slot).finished then none
  else
    match s.claimed slot with
    | some p => p
    | none => if (s.threads slot).started then some (s.threads slot).assignedProcessorNumber else none

structure ProcInv (P : Platform) (s : State) : Prop where
  isBSP : ∀ i, i < s.mpCount → ((s.mpList i).isBSP = true ↔ i = P.bspProcessorNumber)
  working : ∀ i, (s.mpList i).isWorking = true ↔ ∃ slot, s.occupies slot = some i
  alone : ∀ a b i, s.occupies a = some i → s.occupies b = some i → a = b
  assigned : ∀ slot, (s.threads slot).started = true → s.claimed slot = none →
    (s.threads slot).assignedProcessorNumber ≠ P.bspProcessorNumber
  onAp : ∀ f i, s.start = some f → f.phase.processor = some i → i ≠ P.bspProcessorNumber
  launched : ∀ f i, s.start = some f → f.phase = .launched i →
    (s.mpList i).isWorking = false ∧ (s.threads f.thread).finished = false
  begun : ∀ f i, s.start = some f → f.phase = .started i → (s.threads f.thread).started = true
  created : ∀ slot, (s.threads slot).started = true ∨ (∃ f, s.start = some f ∧ f.thread = slot) →
    (s.threads slot).context ≠ none

theorem StartPhase.claims_of_waiting {p : StartPhase} (h : p.waiting = true) :
    p.claims = none ∧ p.processor = none := by
  cases p <;> simp_all [StartPhase.waiting, StartPhase.claims, StartPhase.processor]

theorem claimed_of_waiting {s : State} (h : ∀ f, s.start = some f → f.phase.waiting = true) (slot : Nat) :
    s.claimed slot = none := by
  unfold State.claimed
  cases hs : s.start with
  | none => rfl
  | some f => simp [(StartPhase.claims_of_waiting (h f hs)).1]

theorem claimed_of_frame {s : State} {f : StartFrame} (h : s.start = some f) (slot : Nat) :
    s.claimed slot = if f.thread = slot then f.phase.claims else none := by
  unfold State.claimed
  rw [h]

theorem occupies_congr {s s' : State} {slot : Nat} (ht : s'.threads slot = s.threads slot)
    (hc : s'.claimed slot = s.claimed slot) : s'.occupies slot = s.occupies slot := by
  unfold State.occupies
  rw [ht, hc]

theorem occupies_of_finished {s : State} {slot : Nat} (h : (s.threads slot).finished = true) :
    s.occupies slot = none := by
  unfold State.occupies
  rw [if_pos h]

/-- A thread that is neither started nor claimed marks no processor. -/
theorem occupies_of_unstarted {s : State} {slot : Nat} (h : (s.threads slot).started = false)
    (hc : s.claimed slot = none) : s.occupies slot = none := by
  unfold State.occupies
  rw [hc, h]
  split <;> rfl

/-! ## RefreshMPs keeps the marks -/

theorem refreshMPs_isWorking (fw : Firmware P) (n : Nat) (mps : Nat → MftahSystemMp) (i : Nat) :
    (refreshMPs fw n mps i).isWorking = (mps i).isWorking := by
  unfold refreshMPs
  split
  · by_cases hi : i < n
    · simp only [if_pos hi]
      unfold refreshedMp
      split
      · rfl
      · rfl
    · simp only [if_neg hi]
  · rfl

theorem refreshMPs_isBSP (fw : Firmware P) {n : Nat} {mps : Nat → MftahSystemMp}
    (h : ∀ i, i < n → ((mps i).isBSP = true ↔ i = P.bspProcessorNumber)) {i : Nat} (hi : i < n) :
    (refreshMPs fw n mps i).isBSP = true ↔ i = P.bspProcessorNumber := by
  unfold refreshMPs
  split
  · simp only [if_pos hi]
    unfold refreshedMp
    split
    next info hinfo => exact fw.asBsp_iff i info hinfo
    · exact h i hi
  · exact h i hi

theorem setWorking_isBSP (mps : Nat → MftahSystemMp) (j : Nat) (w : Bool) (i : Nat) :
    (setWorking mps j w i).isBSP = (mps i).isBSP := by
  unfold setWorking
  by_cases hij : i = j
  · simp [hij]
  · simp [hij]

theorem setWorking_isWorking (mps : Nat → MftahSystemMp) (j : Nat) (w : Bool) (i : Nat) :
    (setWorking mps j w i).isWorking = if i = j then w else (mps i).isWorking := by
  unfold setWorking
  by_cases hij : i = j
  · simp [hij]
  · simp [hij]

/-! ## Steps that leave the marks alone -/

theorem ProcInv.marks {s : State} (h : ProcInv P s) : Marks s.occupies fun i => (s.mpList i).isWorking :=
  ⟨h.working, h.alone⟩

/-- What the invariant says of processors, given that each slot marks what it did. -/
theorem ProcInv.frame {s s' : State} (h : ProcInv P s) (hocc : ∀ slot, s'.occupies slot = s.occupies slot)
    (hbsp : ∀ i, i < s'.mpCount → ((s'.mpList i).isBSP = true ↔ i = P.bspProcessorNumber))
    (hwork : ∀ i, (s'.mpList i).isWorking = (s.mpList i).isWorking)
    (hassigned : ∀ slot, (s'.threads slot).started = true → s'.claimed slot = none →
      (s'.threads slot).assignedProcessorNumber ≠ P.bspProcessorNumber)
    (honAp : ∀ f i, s'.start = some f → f.phase.processor = some i → i ≠ P.bspProcessorNumber)
    (hlaunched : ∀ f i, s'.start = some f → f.phase = .launched i →
      (s'.mpList i).isWorking = false ∧ (s'.threads f.thread).finished = false)
    (hbegun : ∀ f i, s'.start = some f → f.phase = .started i → (s'.threads f.thread).started = true)
    (hcreated : ∀ slot, (s'.threads slot).started = true ∨ (∃ f, s'.start = some f ∧ f.thread = slot) →
      (s'.threads slot).context ≠ none) : ProcInv P s' := by
  have hmarks : Marks s'.occupies fun i => (s'.mpList i).isWorking := h.marks.same hocc hwork
  exact ⟨hbsp, hmarks.iff_held, hmarks.alone, hassigned, honAp, hlaunched, hbegun, hcreated⟩

theorem ProcInv.of_same {s s' : State} (h : ProcInv P s) (hn : s'.mpCount = s.mpCount) (hm : s'.mpList = s.mpList)
    (ht : s'.threads = s.threads) (hs : s'.start = s.start) : ProcInv P s' := by
  have hclaimed : ∀ slot, s'.claimed slot = s.claimed slot := by
    intro slot
    unfold State.claimed
    rw [hs]
  refine h.frame (fun slot => occupies_congr (by rw [ht]) (hclaimed slot)) ?_ ?_ ?_ ?_ ?_ ?_ ?_
  · rw [hn, hm]
    exact h.isBSP
  · intro i
    rw [hm]
  · intro slot
    rw [ht, hclaimed]
    exact h.assigned slot
  · rw [hs]
    exact h.onAp
  · rw [hs, hm, ht]
    exact h.launched
  · rw [hs, ht]
    exact h.begun
  · rw [hs, ht]
    exact h.created

/-- StartThread's frame changes before a launch, and the processors' bits are read again. -/
theorem ProcInv.waits {s s' : State} (h : ProcInv P s) (hold : ∀ f, s.start = some f → f.phase.waiting = true)
    (hnew : ∀ f, s'.start = some f → f.phase.waiting = true ∧ (s.threads f.thread).context ≠ none)
    (hn : s'.mpCount = s.mpCount)
    (hm : s'.mpList = s.mpList ∨ ∃ fw : Firmware P, s'.mpList = refreshMPs fw s.mpCount s.mpList)
    (ht : s'.threads = s.threads) : ProcInv P s' := by
  have hclaimed : ∀ slot, s'.claimed slot = s.claimed slot := by
    intro slot
    rw [claimed_of_waiting hold slot, claimed_of_waiting (fun f hf => (hnew f hf).1) slot]
  have hnot : ∀ f, s'.start = some f → f.phase.processor = none := by
    intro f hf
    exact (StartPhase.claims_of_waiting (hnew f hf).1).2
  refine h.frame (fun slot => occupies_congr (by rw [ht]) (hclaimed slot)) ?_ ?_ ?_ ?_ ?_ ?_ ?_
  · intro i hi
    rw [hn] at hi
    rcases hm with hm | ⟨fw, hm⟩
    · rw [hm]
      exact h.isBSP i hi
    · rw [hm]
      exact refreshMPs_isBSP fw h.isBSP hi
  · intro i
    rcases hm with hm | ⟨fw, hm⟩
    · rw [hm]
    · rw [hm]
      exact refreshMPs_isWorking fw s.mpCount s.mpList i
  · intro slot
    rw [ht, hclaimed]
    exact h.assigned slot
  · intro f i hf hp
    rw [hnot f hf] at hp
    cases hp
  · intro f i hf hp
    have hwaits := (hnew f hf).1
    rw [hp] at hwaits
    cases hwaits
  · intro f i hf hp
    have hwaits := (hnew f hf).1
    rw [hp] at hwaits
    cases hwaits
  · intro slot hslot
    rw [ht] at hslot ⊢
    rcases hslot with hstarted | hframe
    · exact h.created slot (Or.inl hstarted)
    · obtain ⟨f, hf, hthread⟩ := hframe
      rw [← hthread]
      exact (hnew f hf).2

/-! ## The steps that move a mark -/

/-- A slot that takes an order marks nothing, before and after. -/
theorem ProcInv.installOrder {s : State} (h : ProcInv P s) (hidle : s.Idle) {order : WorkOrder} {key iv : List UInt8}
    (hfree : (s.threads order.threadIndex).started = false ∨ (s.threads order.threadIndex).finished = true) :
    ProcInv P (installOrder s order key iv) := by
  have hnone : ∀ slot, s.claimed slot = none :=
    claimed_of_waiting fun f hf => absurd (hidle.1.symm.trans hf) nofun
  have hstart : (Threading.installOrder s order key iv).start = s.start := rfl
  refine h.frame ?_ h.isBSP (fun _ => rfl) ?_ h.onAp ?_ ?_ ?_
  · intro slot
    by_cases heq : slot = order.threadIndex
    · subst heq
      have hbefore : s.occupies order.threadIndex = none := by
        rcases hfree with hs | hf
        · exact occupies_of_unstarted hs (hnone _)
        · exact occupies_of_finished hf
      rw [hbefore]
      refine occupies_of_unstarted ?_ (hnone _)
      rw [installOrder_threads_self]
      rfl
    · exact occupies_congr (installOrder_threads_of_ne heq) rfl
  · intro slot hs hc
    by_cases heq : slot = order.threadIndex
    · subst heq
      rw [installOrder_threads_self] at hs
      cases hs
    · rw [installOrder_threads_of_ne heq] at hs ⊢
      exact h.assigned slot hs hc
  · intro f i hf
    rw [hstart, hidle.1] at hf
    cases hf
  · intro f i hf
    rw [hstart, hidle.1] at hf
    cases hf
  · intro slot hslot
    by_cases heq : slot = order.threadIndex
    · subst heq
      rw [installOrder_threads_self]
      exact nofun
    · rw [installOrder_threads_of_ne heq] at hslot ⊢
      exact h.created slot hslot

/-- The processor StartThread launches on is an application processor that was not marked. -/
theorem ProcInv.launch {s : State} (h : ProcInv P s) {f : StartFrame} (hf : s.start = some f)
    (hw : f.phase.waiting = true) (hqueued : s.Queued f.thread) {i : Nat} (hi : i < s.mpCount)
    (hbsp : (s.mpList i).isBSP = false) (hfree : (s.mpList i).isWorking = false) (ctx : Nat) :
    ProcInv P (launch i f ctx s) := by
  obtain ⟨hcontext, hstarted, hfinished⟩ := hqueued
  have hnone : ∀ slot, s.claimed slot = none := by
    refine claimed_of_waiting ?_
    intro g hg
    rw [hf] at hg
    rw [← Option.some.inj hg]
    exact hw
  have hframe : (Threading.launch i f ctx s).start = some { f with phase := .launched i } := rfl
  have hthreads : (Threading.launch i f ctx s).threads = s.threads := rfl
  have hi' : i ≠ P.bspProcessorNumber := by
    intro heq
    rw [(h.isBSP i hi).mpr heq] at hbsp
    cases hbsp
  refine h.frame ?_ h.isBSP (fun _ => rfl) ?_ ?_ ?_ ?_ ?_
  · intro slot
    have hclaimed := claimed_of_frame hframe slot
    by_cases heq : f.thread = slot
    · subst heq
      rw [if_pos rfl] at hclaimed
      rw [occupies_of_unstarted hstarted (hnone _)]
      simp [State.occupies, hclaimed, StartPhase.claims]
    · rw [if_neg heq] at hclaimed
      exact occupies_congr rfl (hclaimed.trans (hnone slot).symm)
  · intro slot hs _
    exact h.assigned slot hs (hnone slot)
  · intro g j hg hj
    rw [hframe] at hg
    have hg' := Option.some.inj hg
    subst hg'
    rw [← Option.some.inj hj]
    exact hi'
  · intro g j hg hj
    rw [hframe] at hg
    have hg' := Option.some.inj hg
    subst hg'
    rw [← StartPhase.launched.inj hj]
    exact ⟨hfree, hfinished⟩
  · intro g j hg hj
    rw [hframe] at hg
    have hg' := Option.some.inj hg
    subst hg'
    cases hj
  · intro slot hslot
    rcases hslot with hs | hs
    · exact h.created slot (Or.inl hs)
    · obtain ⟨g, hg, hthread⟩ := hs
      rw [hframe] at hg
      have hg' := Option.some.inj hg
      subst hg'
      rw [← hthread]
      exact hcontext

/-- Marking the processor: from here the slot keeps it marked. -/
theorem ProcInv.mark {s : State} (h : ProcInv P s) {f : StartFrame} (hf : s.start = some f) {i : Nat}
    (hphase : f.phase = .launched i) :
    ProcInv P { s with mpList := setWorking s.mpList i true, start := some { f with phase := .marked i } } := by
  obtain ⟨hfree, hfinished⟩ := h.launched f i hf hphase
  have hi := h.onAp f i hf (by rw [hphase]; rfl)
  generalize hs' : ({ s with mpList := setWorking s.mpList i true, start := _ } : State) = s'
  have hstart : s'.start = some { f with phase := .marked i } := by rw [← hs']
  have hthreads : s'.threads = s.threads := by rw [← hs']
  have hcount : s'.mpCount = s.mpCount := by rw [← hs']
  have hmps : s'.mpList = setWorking s.mpList i true := by rw [← hs']
  have hhere : s'.occupies f.thread = some i := by
    have hclaimed := claimed_of_frame hstart f.thread
    rw [if_pos rfl] at hclaimed
    simp [State.occupies, hclaimed, hthreads, hfinished, StartPhase.claims]
  have hbefore : s.occupies f.thread = none := by
    have hclaimed := claimed_of_frame hf f.thread
    rw [if_pos rfl, hphase] at hclaimed
    simp [State.occupies, hclaimed, hfinished, StartPhase.claims]
  have hother : ∀ slot, slot ≠ f.thread → s'.occupies slot = s.occupies slot := by
    intro slot hne
    refine occupies_congr (by rw [hthreads]) ?_
    rw [claimed_of_frame hstart slot, claimed_of_frame hf slot, if_neg hne.symm, if_neg hne.symm]
  have hmarks : Marks s'.occupies fun j => (s'.mpList j).isWorking := by
    refine h.marks.take hfree hbefore hhere hother ?_
    intro j
    rw [hmps, setWorking_isWorking]
  have hframe : ∀ g, s'.start = some g → g = { f with phase := .marked i } := by
    intro g hg
    rw [hstart] at hg
    exact (Option.some.inj hg).symm
  refine ⟨?_, hmarks.iff_held, hmarks.alone, ?_, ?_, ?_, ?_, ?_⟩
  · intro j hj
    rw [hcount] at hj
    rw [hmps, setWorking_isBSP]
    exact h.isBSP j hj
  · intro slot hs hc
    rw [hthreads] at hs ⊢
    by_cases heq : f.thread = slot
    · rw [claimed_of_frame hstart slot, if_pos heq] at hc
      cases hc
    · refine h.assigned slot hs ?_
      rw [claimed_of_frame hf slot, if_neg heq]
  · intro g j hg hj
    rw [hframe g hg] at hj
    rw [← Option.some.inj hj]
    exact hi
  · intro g j hg hj
    rw [hframe g hg] at hj
    cases hj
  · intro g j hg hj
    rw [hframe g hg] at hj
    cases hj
  · intro slot hslot
    rw [hthreads] at hslot ⊢
    refine h.created slot (hslot.imp_right ?_)
    intro hex
    obtain ⟨g, hg, hthread⟩ := hex
    rw [hframe g hg] at hthread
    exact ⟨f, hf, hthread⟩

/-- Setting Started and then AssignedProcessorNumber: the mark stays where the launch put it. -/
theorem ProcInv.record {s s' : State} (h : ProcInv P s) {f : StartFrame} (hf : s.start = some f) {i : Nat}
    (hclaims : f.phase.claims = some (some i)) (hi : i ≠ P.bspProcessorNumber) {t : MftahThread}
    (ht : s'.threads = update s.threads f.thread t) (hm : s'.mpList = s.mpList) (hn : s'.mpCount = s.mpCount)
    (hcontext : t.context = (s.threads f.thread).context) (hfin : t.finished = (s.threads f.thread).finished)
    (hstarted : t.started = true)
    (hafter : (∃ g, s'.start = some g ∧ g.thread = f.thread ∧ g.phase = .started i) ∨
      (s'.start = none ∧ t.assignedProcessorNumber = i)) : ProcInv P s' := by
  have hhere : s'.threads f.thread = t := by rw [ht, update_self]
  have hother : ∀ slot, slot ≠ f.thread → s'.threads slot = s.threads slot := by
    intro slot hne
    rw [ht, update_of_ne hne]
  have hbefore : s.claimed f.thread = some (some i) := by rw [claimed_of_frame hf, if_pos rfl, hclaims]
  have hclaimed : ∀ slot, slot ≠ f.thread → s'.claimed slot = none ∧ s.claimed slot = none := by
    intro slot hne
    refine ⟨?_, by rw [claimed_of_frame hf, if_neg (Ne.symm hne)]⟩
    rcases hafter with ⟨g, hg, hthread, -⟩ | ⟨hnone, -⟩
    · rw [claimed_of_frame hg, hthread, if_neg (Ne.symm hne)]
    · unfold State.claimed
      rw [hnone]
  have hframe : ∀ g, s'.start = some g → g.thread = f.thread ∧ g.phase = .started i := by
    intro g hg
    rcases hafter with ⟨g', hg', hthread, hphase⟩ | ⟨hnone, -⟩
    · rw [hg] at hg'
      rw [Option.some.inj hg']
      exact ⟨hthread, hphase⟩
    · rw [hnone] at hg
      cases hg
  refine h.frame ?_ ?_ ?_ ?_ ?_ ?_ ?_ ?_
  · intro slot
    by_cases heq : slot = f.thread
    · subst heq
      unfold State.occupies
      rw [hhere, hfin, hbefore]
      rcases hafter with ⟨g, hg, hthread, hphase⟩ | ⟨hnone, hassigned⟩
      · rw [claimed_of_frame hg, if_pos hthread, hphase]
        rfl
      · have hc : s'.claimed f.thread = none := by
          unfold State.claimed
          rw [hnone]
        rw [hc, hstarted, hassigned]
        rfl
    · exact occupies_congr (hother slot heq) ((hclaimed slot heq).1.trans (hclaimed slot heq).2.symm)
  · rw [hm, hn]
    exact h.isBSP
  · intro j
    rw [hm]
  · intro slot hs hc
    by_cases heq : slot = f.thread
    · subst heq
      rcases hafter with ⟨g, hg, hthread, hphase⟩ | ⟨-, hassigned⟩
      · rw [claimed_of_frame hg, if_pos hthread, hphase] at hc
        cases hc
      · rw [hhere, hassigned]
        exact hi
    · rw [hother slot heq] at hs ⊢
      exact h.assigned slot hs (hclaimed slot heq).2
  · intro g j hg hj
    rw [(hframe g hg).2] at hj
    rw [← Option.some.inj hj]
    exact hi
  · intro g j hg hj
    rw [(hframe g hg).2] at hj
    cases hj
  · intro g j hg _
    rw [(hframe g hg).1, hhere]
    exact hstarted
  · intro slot hslot
    by_cases heq : slot = f.thread
    · subst heq
      rw [hhere, hcontext]
      exact h.created f.thread (Or.inr ⟨f, hf, rfl⟩)
    · rw [hother slot heq] at hslot ⊢
      refine h.created slot (hslot.imp_right ?_)
      intro hex
      obtain ⟨g, hg, hthread⟩ := hex
      rw [(hframe g hg).1] at hthread
      exact absurd hthread.symm heq

/-- StartThread is called for a thread that has a context. -/
theorem ProcInv.calls {s : State} (h : ProcInv P s) (hstart : s.start = none) {slot : Nat}
    (hcreated : (s.threads slot).context ≠ none) (wait : Bool) (spin : Option SpinFrame) :
    ProcInv P { s with spin := spin, start := some ⟨slot, wait, .refresh⟩ } := by
  refine h.waits ?_ ?_ rfl (Or.inl rfl) rfl
  · intro f hf
    rw [hstart] at hf
    cases hf
  · intro f hf
    rw [← Option.some.inj hf]
    exact ⟨rfl, hcreated⟩

/-! ## Workers that end after their bookkeeping -/

/-- A worker ends when StartThread has recorded its launch, or while it records it on the processor that the
    slot's last job had. -/
def BookedFirst (s : State) : Event P → Prop
  | .finish k _ =>
    match s.start with
    | some f => f.thread = s.slotOf k →
        match f.phase with
        | .launched _ => False
        | .marked i => (s.threads (s.slotOf k)).assignedProcessorNumber = i
        | .started i => (s.threads (s.slotOf k)).assignedProcessorNumber = i
        | _ => True
    | none => True
  | _ => True

def KeepsTable (s : State) (a : Event P) : Prop := FreshNotify s a ∧ BookedFirst s a

/-- A worker that ends then frees the processor its slot keeps marked. -/
theorem occupies_of_bookedFirst {s : State} (hj : JobsInv s) {k : Nat} (hk : s.Running k) {fw : Firmware P}
    (hb : BookedFirst s (.finish k fw)) :
    s.occupies (s.slotOf k) = some (s.threads (s.slotOf k)).assignedProcessorNumber := by
  obtain ⟨-, hbegun, hfin⟩ := hj.running hk
  unfold State.occupies
  rw [if_neg (by simp [hfin])]
  cases hs : s.start with
  | none =>
    have hc : s.claimed (s.slotOf k) = none := by
      unfold State.claimed
      rw [hs]
    have hstarted : (s.threads (s.slotOf k)).started = true := by
      refine hbegun.resolve_right ?_
      intro hl
      obtain ⟨f, hf, -⟩ := hl
      rw [hs] at hf
      cases hf
    rw [hc, hstarted]
    rfl
  | some f =>
    rw [claimed_of_frame hs]
    by_cases heq : f.thread = s.slotOf k
    · simp only [BookedFirst, hs] at hb
      have hphase := hb heq
      rw [if_pos heq]
      -- a slot that StartThread waits with is not begun
      have hlaunched : f.phase.waiting ≠ true := by
        intro hw
        have hq := hj.waiting f hs hw
        rw [heq] at hq
        rw [hq.2.1] at hbegun
        exact absurd (hbegun.resolve_left nofun) (not_launching_of_waiting hs hw _)
      cases hp : f.phase with
      | refresh =>
        rw [hp] at hlaunched
        exact absurd rfl hlaunched
      | scan j =>
        rw [hp] at hlaunched
        exact absurd rfl hlaunched
      | launched j =>
        rw [hp] at hphase
        exact absurd hphase id
      | marked j =>
        rw [hp] at hphase
        exact congrArg some hphase.symm
      | started j =>
        rw [hp] at hphase
        exact congrArg some hphase.symm
    · rw [if_neg heq]
      have hstarted : (s.threads (s.slotOf k)).started = true := by
        refine hbegun.resolve_right ?_
        intro hl
        obtain ⟨g, hg, hthread, -⟩ := hl
        rw [hs] at hg
        rw [← Option.some.inj hg] at hthread
        exact heq hthread
      rw [hstarted]
      rfl

theorem ProcInv.endOfWork {s : State} (h : ProcInv P s) (hj : JobsInv s) {k : Nat} (hk : s.Running k)
    {fw : Firmware P} (hb : BookedFirst s (.finish k fw)) : ProcInv P (endOfWork fw k s) := by
  have hocc := occupies_of_bookedFirst hj hk hb
  have he := endsLaunch_endOfWork hj hk fw
  obtain ⟨-, -, hfin⟩ := hj.running hk
  have hmps : (Threading.endOfWork fw k s).mpList =
      refreshMPs fw s.mpCount (setWorking s.mpList (s.threads (s.slotOf k)).assignedProcessorNumber false) := by
    rw [endOfWork_of_unfinished hfin]
  have hcount : (Threading.endOfWork fw k s).mpCount = s.mpCount := by rw [endOfWork_of_unfinished hfin]
  generalize Threading.endOfWork fw k s = s' at he hmps hcount ⊢
  have hclaimed : ∀ slot, s'.claimed slot = s.claimed slot := by
    intro slot
    unfold State.claimed
    rw [he.start]
  have hother : ∀ slot, slot ≠ s.slotOf k → s'.threads slot = s.threads slot := by
    intro slot hne
    rw [he.threads, update_of_ne hne]
  have hfreed : s'.occupies (s.slotOf k) = none := occupies_of_finished he.finished_self
  have hkept : ∀ slot, slot ≠ s.slotOf k → s'.occupies slot = s.occupies slot := by
    intro slot hne
    exact occupies_congr (hother slot hne) (hclaimed slot)
  have hmarks : Marks s'.occupies fun i => (s'.mpList i).isWorking := by
    refine h.marks.give hocc hfreed hkept ?_
    intro i
    rw [hmps, refreshMPs_isWorking, setWorking_isWorking]
  refine ⟨?_, hmarks.iff_held, hmarks.alone, ?_, ?_, ?_, ?_, ?_⟩
  · intro i hi
    rw [hcount] at hi
    rw [hmps]
    refine refreshMPs_isBSP fw ?_ hi
    intro j hj'
    rw [setWorking_isBSP]
    exact h.isBSP j hj'
  · intro slot hs hc
    rw [hclaimed] at hc
    rw [he.started] at hs
    rw [he.assigned]
    exact h.assigned slot hs hc
  · rw [he.start]
    exact h.onAp
  · intro f i hf hp
    rw [he.start] at hf
    obtain ⟨hfree, hnot⟩ := h.launched f i hf hp
    have hne : f.thread ≠ s.slotOf k := by
      intro heq
      simp only [BookedFirst, hf, hp] at hb
      exact hb heq
    rw [hmps, refreshMPs_isWorking, setWorking_isWorking, hother _ hne]
    refine ⟨?_, hnot⟩
    split
    · rfl
    · exact hfree
  · intro f i hf hp
    rw [he.start] at hf
    rw [he.started]
    exact h.begun f i hf hp
  · intro slot hslot
    rw [he.start, he.started] at hslot
    rw [he.context]
    exact h.created slot hslot

theorem ProcInv.next {s : State} (h : ProcInv P s) (hj : JobsInv s) {a : Event P} (ha : enabled P s a)
    (hc : KeepsTable s a) : ProcInv P (next P s a) := by
  have heff := next_effect s a
  generalize Threading.next P s a = s' at heff ⊢
  cases heff with
  | nothing => exact h
  | panicked => exact h.of_same rfl rfl rfl rfl
  | overwritten c => exact h.of_same rfl rfl rfl rfl
  | decrypted => exact h.of_same rfl rfl rfl rfl
  | installed _ _ _ hfree => exact h.installOrder ha hfree
  | called => exact h.calls ha.1.1 ha.2.2 _ s.spin
  | entered total => exact h.of_same rfl rfl rfl rfl
  | looped => exact h.of_same rfl rfl rfl rfl
  | dispatched fw hstart _ hqueued => exact h.calls hstart hqueued.1 _ _
  | returned => exact h.of_same rfl rfl rfl rfl
  | waited fw hstart hw hmps hframe =>
    refine h.waits ?_ ?_ rfl (hmps.imp_right fun hm => ⟨fw, hm⟩) rfl
    · intro g hg
      rw [hstart] at hg
      rw [← Option.some.inj hg]
      exact hw
    · intro g hg
      obtain ⟨hthread, hwaits⟩ := hframe g hg
      rw [hthread]
      exact ⟨hwaits, (hj.waiting _ hstart hw).1⟩
  | launched fw hstart hw hi hbsp hworking => exact h.launch hstart hw (hj.waiting _ hstart hw) hi hbsp hworking _
  | marked fw hstart hphase => exact h.mark hstart hphase
  | started fw hstart hphase =>
    exact h.record hstart (by rw [hphase]; rfl) (h.onAp _ _ hstart (by rw [hphase]; rfl)) rfl rfl rfl rfl rfl rfl
      (Or.inl ⟨_, rfl, rfl, rfl⟩)
  | assigned fw hstart hphase =>
    exact h.record hstart (by rw [hphase]; rfl) (h.onAp _ _ hstart (by rw [hphase]; rfl)) rfl rfl rfl rfl rfl
      (h.begun _ _ hstart hphase) (Or.inr ⟨rfl, rfl⟩)
  | progressed => exact h.of_same rfl rfl rfl rfl
  | scribbled => exact h.of_same rfl rfl rfl rfl
  | ended k fw => exact h.endOfWork hj ha hc.2
  | notified k fw =>
    have hsame : finishThread fw (s.slotOf k) s = s := hj.notify ha hc.1
    rw [hsame]
    exact h

theorem procInv_init {s : State} (h : Initial P s) : ProcInv P s := by
  have hnone : ∀ slot, s.claimed slot = none :=
    claimed_of_waiting fun f hf => absurd (h.idle.1.symm.trans hf) nofun
  have hocc : ∀ slot, s.occupies slot = none := by
    intro slot
    refine occupies_of_unstarted ?_ (hnone slot)
    rw [h.threads slot]
  have hstart : ∀ f, s.start ≠ some f := by
    intro f
    rw [h.idle.1]
    exact nofun
  refine ⟨h.isBSP, ?_, ?_, ?_, ?_, ?_, ?_, ?_⟩
  · intro i
    rw [h.isWorking i]
    simp [hocc]
  · intro a b i ha
    rw [hocc a] at ha
    cases ha
  · intro slot hs
    rw [h.threads slot] at hs
    cases hs
  · intro f i hf
    exact absurd hf (hstart f)
  · intro f i hf
    exact absurd hf (hstart f)
  · intro f i hf
    exact absurd hf (hstart f)
  · intro slot hslot
    rcases hslot with hs | hs
    · rw [h.threads slot] at hs
      cases hs
    · obtain ⟨f, hf, -⟩ := hs
      exact absurd hf (hstart f)

theorem procInv_reach {s : State} (h : Reach (system P) KeepsTable s) : ProcInv P s := by
  refine Reach.invariant (C := KeepsTable) (I := ProcInv P) ?_ ?_ h
  · intro s hinit
    exact procInv_init hinit
  · intro s a hs hi ha hc
    exact hi.next (jobsInv_reach (hs.mono fun _ _ h => h.1)) ha hc

/-- A started, unfinished thread is assigned to processor `i`. -/
def State.RunsOn (s : State) (slot i : Nat) : Prop :=
  (s.threads slot).started = true ∧ (s.threads slot).finished = false ∧ (s.threads slot).assignedProcessorNumber = i

instance (s : State) (slot i : Nat) : Decidable (s.RunsOn slot i) :=
  inferInstanceAs (Decidable ((s.threads slot).started = true ∧ (s.threads slot).finished = false ∧
    (s.threads slot).assignedProcessorNumber = i))

theorem occupies_iff_runsOn {s : State} (h : s.start = none) (slot i : Nat) :
    s.occupies slot = some i ↔ s.RunsOn slot i := by
  have hc : s.claimed slot = none := by
    unfold State.claimed
    rw [h]
  unfold State.occupies State.RunsOn
  rw [hc]
  cases (s.threads slot).finished with
  | true => simp
  | false =>
    cases (s.threads slot).started with
    | true => simp
    | false => simp

/-- While no StartThread is in progress, in a run whose steps keep the table: a processor is marked as working
    exactly when a started, unfinished thread is assigned to it, no two such threads share a processor, and no
    started thread is assigned to the bootstrap processor. -/
theorem processor_table {s : State} (hs : Reach (system P) KeepsTable s) (hstart : s.start = none) :
    (∀ i, (s.mpList i).isWorking = true ↔ ∃ slot, slot < P.maxThreadCount ∧ s.RunsOn slot i) ∧
    (∀ a b i, s.RunsOn a i → s.RunsOn b i → a = b) ∧
    ∀ slot, (s.threads slot).started = true →
      (s.threads slot).assignedProcessorNumber ≠ P.bspProcessorNumber := by
  have h := procInv_reach hs
  have hj := jobsInv_reach (hs.mono fun _ _ h => h.1)
  refine ⟨?_, ?_, ?_⟩
  · intro i
    rw [h.working i]
    constructor
    · intro hex
      obtain ⟨slot, hocc⟩ := hex
      have hruns := (occupies_iff_runsOn hstart slot i).mp hocc
      refine ⟨slot, ?_, hruns⟩
      obtain ⟨c, hc⟩ := Option.ne_none_iff_exists'.mp (h.created slot (Or.inl hruns.1))
      obtain ⟨hlt, hthread⟩ := hj.ids slot c hc
      rw [← hthread]
      exact threads_reach hs c hlt
    · intro hex
      obtain ⟨slot, -, hruns⟩ := hex
      exact ⟨slot, (occupies_iff_runsOn hstart slot i).mpr hruns⟩
  · intro a b i ha hb
    exact h.alone a b i ((occupies_iff_runsOn hstart a i).mpr ha) ((occupies_iff_runsOn hstart b i).mpr hb)
  · intro slot hstarted
    refine h.assigned slot hstarted ?_
    unfold State.claimed
    rw [hstart]

instance (s : State) (a : Event P) : Decidable (BookedFirst s a) :=
  match a with
  | .finish k _ =>
    match hstart : s.start with
    | none => isTrue (by simp only [BookedFirst, hstart])
    | some f =>
      match hphase : f.phase with
      | .launched _ => decidable_of_iff (f.thread = s.slotOf k → False) (by simp only [BookedFirst, hstart, hphase])
      | .marked i | .started i =>
        decidable_of_iff (f.thread = s.slotOf k → (s.threads (s.slotOf k)).assignedProcessorNumber = i)
          (by simp only [BookedFirst, hstart, hphase])
      | .refresh | .scan _ => isTrue (by simp [BookedFirst, hstart, hphase])
  | .overwrite _ | .spawn | .callStart _ _ | .callSpin _ | .bsp _ | .progress _ _ | .scribble _ _
  | .notify _ _ => isTrue trivial

instance (s : State) (a : Event P) : Decidable (KeepsTable s a) :=
  inferInstanceAs (Decidable (FreshNotify s a ∧ BookedFirst s a))

/-- Slot 0's order is launched on processor 1 and recorded. -/
def firstStarted : State :=
  ([Event.overwrite (smallOrder 0 0x1000), Event.spawn, Event.callStart 0 false] ++ startOnFirst).foldl
    (system smallPlatform).next smallState

theorem processor_table_firstStarted :
    (∀ i, (firstStarted.mpList i).isWorking = true ↔ ∃ slot, slot < 2 ∧ firstStarted.RunsOn slot i) ∧
    (∀ a b i, firstStarted.RunsOn a i → firstStarted.RunsOn b i → a = b) ∧
    ∀ slot, (firstStarted.threads slot).started = true → (firstStarted.threads slot).assignedProcessorNumber ≠ 0 :=
  processor_table (P := smallPlatform) (Reach.of_valid smallState_initial (by decide +kernel)) (by decide +kernel)

/-- The same order, whose worker ends right after its launch. -/
def endedBeforeRecord : State :=
  ([Event.overwrite (smallOrder 0 0x1000), Event.spawn, Event.callStart 0 false] ++
    List.replicate 3 (Event.bsp smallFirmware) ++ [Event.finish 0 smallFirmware] ++
    List.replicate 3 (Event.bsp smallFirmware)).foldl (system smallPlatform).next smallState

/-- Processor 1 stays marked, and no thread is on it. -/
theorem processor_stays_working :
    ∃ (P : Platform) (s : State), Reach (system P) (fun _ _ => True) s ∧ s.start = none ∧
      (s.mpList 1).isWorking = true ∧ 1 < s.mpCount ∧ ¬ ∃ slot, slot < P.maxThreadCount ∧ s.RunsOn slot 1 :=
  ⟨smallPlatform, endedBeforeRecord, Reach.of_valid smallState_initial (by decide +kernel), by decide +kernel,
    by decide +kernel, by decide +kernel, by decide +kernel⟩

end Crows.Boot.Threading
