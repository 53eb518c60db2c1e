/-
  Crows.Boot.Threading — the decryption workers on the application processors.

  libmftah hands the loader work orders one at a time (`SpawnDecryptionWorker`) and then
  waits for all of them (`UefiSpin`). With threading, an order is copied into a
  DECRYPT_THREAD_CTX and installed as the job of one slot of `Threads`; the waiting
  loop starts the job on a free processor (`StartThread`), where `work` runs the hook
  and reports its own end (`FinishThread`). The completion event that the firmware
  signals for the launch calls `FinishThread` once more.

  The bootstrap processor runs one call at a time, `spin` and above it `start`, and each
  of its reads and writes of what the workers also touch is one step. A worker's end,
  with its `FinishThread`, is one step, and so is every delivery of an event. What the
  firmware answers comes with the step that asks. Pool allocations are taken to succeed.

  Contexts and launches are numbered as they are made. `batch` and `peak` are read by no
  step: the number of the first context since UefiSpin last returned, and the largest
  CurrentPlace each context has had.
-/
import Crows.Lib.Memory
import Crows.Lib.Transition
import Crows.Boot.Efi
import Crows.Boot.Mftah

namespace Crows.Boot.Threading

open Crows.Lib
open Function (update)

/-! ## Data -/

/-- What does not change: the size of `Threads`, the bootstrap processor and MFTAH_CRYPT_HOOK_DEFAULT, which
    turns the bytes of a region into as many bytes by the key and the initialization vector. -/
structure Platform where
  maxThreadCount : Nat
  bspProcessorNumber : Nat
  crypt : List UInt8 → List UInt8 → List UInt8 → List UInt8
  length_crypt : ∀ bytes key iv, (crypt bytes key iv).length = bytes.length

def sizeOfSha256Hash : Nat := 32

def aesBlocklen : Nat := 16

/-- The bits of EFI_PROCESSOR_INFORMATION's StatusFlag. -/
structure ProcessorInformation where
  asBsp : Bool
  enabled : Bool
  healthStatus : Bool

/-- The firmware's answers at one step: what GetProcessorInfo gives for each processor, its BSP bit set for
    the bootstrap processor alone, and what StartupThisAP returns. -/
structure Firmware (P : Platform) where
  getProcessorInfo : Nat → Option ProcessorInformation
  asBsp_iff : ∀ i info, getProcessorInfo i = some info → (info.asBsp = true ↔ i = P.bspProcessorNumber)
  startupThisAP : EfiStatus

structure MftahSystemMp where
  processorNumber : Nat
  isBSP : Bool
  isEnabled : Bool
  isHealthy : Bool
  isWorking : Bool

/-- MFTAH_THREAD; the Method of every thread here is `work`, and its completion event notifies
    `FinishThread` with the thread itself. -/
structure MftahThread where
  assignedProcessorNumber : Nat
  started : Bool
  finished : Bool
  context : Option Nat

inductive ProgressHook where
  | saveThreadProgress
  | printProgress
  deriving DecidableEq, Repr

/-- mftah_progress_t; the context that a hook is called with is the CurrentPlace of a thread context. -/
structure MftahProgress where
  hook : Option ProgressHook
  context : Option Nat

structure DecryptThreadCtx where
  thread : Nat
  currentPlace : UInt64
  workOrder : WorkOrder
  progress : MftahProgress
  sha256Key : List UInt8
  initializationVector : List UInt8

/-- What the caller's pointers lead to, `none` for a NULL pointer. -/
structure Caller where
  workOrder : Option WorkOrder
  sha256Key : Option (List UInt8)
  initializationVector : Option (List UInt8)

/-- A procedure launched on a processor; `input` are the bytes of its region when it began. -/
structure Launch where
  ctx : Nat
  processor : Nat
  input : List UInt8
  ended : Bool

/-- Where StartThread is. -/
inductive StartPhase where
  | refresh
  | scan (i : Nat)
  /-- StartupThisAP has succeeded on processor `i`. -/
  | launched (i : Nat)
  /-- IsWorking is set. -/
  | marked (i : Nat)
  /-- Started is set. -/
  | started (i : Nat)
  deriving DecidableEq, Repr

structure StartFrame where
  thread : Nat
  wait : Bool
  phase : StartPhase
  deriving DecidableEq, Repr

/-- Where the body of UefiSpin's inner loop is; `ctx` is ThisThreadContext. -/
inductive SpinPhase where
  | check
  | readFinished (ctx : Nat)
  | readProgress (ctx : Nat)
  deriving DecidableEq, Repr

structure SpinFrame where
  totalProgress : UInt64
  i : Nat
  completed : Bool
  progress : UInt64
  phase : SpinPhase
  deriving DecidableEq, Repr

structure State where
  /-- mEfiMpServicesProtocol is not NULL. -/
  mpServices : Bool
  mpCount : Nat
  mpList : Nat → MftahSystemMp
  threads : Nat → MftahThread
  ctxs : Nat → DecryptThreadCtx
  nextCtx : Nat
  launches : Nat → Launch
  nextLaunch : Nat
  mem : Mem
  caller : Caller
  start : Option StartFrame
  spin : Option SpinFrame
  panicked : Bool
  batch : Nat
  peak : Nat → UInt64

def State.isThreadingEnabled (s : State) : Bool := s.mpServices || decide (1 ≤ s.mpCount)

/-- The bootstrap processor is in neither call. -/
def State.Idle (s : State) : Prop := s.start = none ∧ s.spin = none ∧ s.panicked = false

instance (s : State) : Decidable s.Idle :=
  inferInstanceAs (Decidable (s.start = none ∧ s.spin = none ∧ s.panicked = false))

variable {P : Platform}

/-! ## threading.c -/

/-- The entry that RefreshMPs writes for processor `i`. -/
def refreshedMp (fw : Firmware P) (old : MftahSystemMp) (i : Nat) : MftahSystemMp :=
  match fw.getProcessorInfo i with
  | some info => ⟨i, info.asBsp, info.enabled, info.healthStatus, old.isWorking⟩
  | none => old

/-- RefreshMPs; when one processor's information cannot be had, the list stays as it is. -/
def refreshMPs (fw : Firmware P) (mpCount : Nat) (mpList : Nat → MftahSystemMp) : Nat → MftahSystemMp :=
  if ∀ i < mpCount, (fw.getProcessorInfo i).isSome = true then
    fun i => if i < mpCount then refreshedMp fw (mpList i) i else mpList i
  else mpList

def createThread (context : Nat) (newThread : MftahThread) : MftahThread :=
  { newThread with context := some context, finished := false, started := false }

/-- The call of StartThread: a thread that was started, or that is finished, is turned away. -/
def startThread (slot : Nat) (wait : Bool) (s : State) : State :=
  if (s.threads slot).started then s
  else if (s.threads slot).finished then s
  else { s with start := some ⟨slot, wait, .refresh⟩ }

def setWorking (mpList : Nat → MftahSystemMp) (i : Nat) (working : Bool) : Nat → MftahSystemMp :=
  update mpList i { mpList i with isWorking := working }

/-- A successful StartupThisAP: `work` begins on processor `i` with the thread's context. -/
def launch (i : Nat) (f : StartFrame) (ctx : Nat) (s : State) : State :=
  { s with
    launches := update s.launches s.nextLaunch
      ⟨ctx, i, s.mem.read (s.ctxs ctx).workOrder.location (s.ctxs ctx).workOrder.length.toNat, false⟩
    nextLaunch := s.nextLaunch + 1
    start := some { f with phase := .launched i } }

/-- StartThread's look at processor `i`, past the last one the end of its scan. -/
def examineMp (fw : Firmware P) (f : StartFrame) (i : Nat) (s : State) : State :=
  if i < s.mpCount then
    if (s.mpList i).isBSP || (s.mpList i).isWorking then { s with start := some { f with phase := .scan (i + 1) } }
    else if fw.startupThisAP.isError = false then
      match (s.threads f.thread).context with
      | some ctx => launch i f ctx s
      | none => { s with start := none }
    else { s with start := none }
  -- no processor was free: the scan begins again when the caller waits
  else if f.wait then { s with start := some { f with phase := .refresh } }
  else { s with start := none }

/-- One step of StartThread. -/
def startThreadStep (fw : Firmware P) (f : StartFrame) (s : State) : State :=
  match f.phase with
  | .refresh => { s with mpList := refreshMPs fw s.mpCount s.mpList, start := some { f with phase := .scan 0 } }
  | .scan i => examineMp fw f i s
  | .launched i => { s with mpList := setWorking s.mpList i true, start := some { f with phase := .marked i } }
  | .marked i =>
    { s with
      threads := update s.threads f.thread { s.threads f.thread with started := true }
      start := some { f with phase := .started i } }
  | .started i =>
    { s with
      threads := update s.threads f.thread { s.threads f.thread with assignedProcessorNumber := i }
      start := none }

def finishThread (fw : Firmware P) (slot : Nat) (s : State) : State :=
  if (s.threads slot).finished then s
  else
    { s with
      mpList := refreshMPs fw s.mpCount (setWorking s.mpList (s.threads slot).assignedProcessorNumber false)
      threads := update s.threads slot { s.threads slot with finished := true } }

/-! ## util.c -/

/-- The hook SpawnDecryptionWorker gives an order. -/
def progressHook (s : State) (order : WorkOrder) : Option ProgressHook :=
  if order.suppressProgress then none
  else if s.isThreadingEnabled then some .saveThreadProgress
  else some .printProgress

/-- MFTAH_CRYPT_HOOK_DEFAULT over an order's region. -/
def cryptRegion (P : Platform) (m : Mem) (order : WorkOrder) (key iv : List UInt8) : Mem :=
  m.write order.location
    (P.crypt (m.read order.location order.length.toNat) (key.take sizeOfSha256Hash) (iv.take aesBlocklen))

/-- The thread context for an order: the order, the key and the vector are copied. -/
def newThreadContext (s : State) (order : WorkOrder) (key iv : List UInt8) : DecryptThreadCtx where
  thread := order.threadIndex
  currentPlace := 0
  workOrder := order
  progress := ⟨progressHook s order, some s.nextCtx⟩
  sha256Key := key.take sizeOfSha256Hash
  initializationVector := iv.take aesBlocklen

/-- An order becomes the job of its slot. -/
def installOrder (s : State) (order : WorkOrder) (key iv : List UInt8) : State :=
  { s with
    ctxs := update s.ctxs s.nextCtx (newThreadContext s order key iv)
    nextCtx := s.nextCtx + 1
    threads := update s.threads order.threadIndex (createThread s.nextCtx (s.threads order.threadIndex))
    peak := update s.peak s.nextCtx 0 }

/-- SpawnDecryptionWorker with the caller's pointers; no status is returned from a PANIC. -/
def spawnDecryptionWorker (P : Platform) (s : State) : Option MftahStatus × State :=
  match s.caller.workOrder, s.caller.sha256Key, s.caller.initializationVector with
  | some order, some key, some iv =>
    if P.maxThreadCount ≤ order.threadIndex then (none, { s with panicked := true })
    else if order.length = 0 then (some .success, s)
    else if s.isThreadingEnabled = false then
      (some .success, { s with mem := cryptRegion P s.mem order key iv })
    else if (s.threads order.threadIndex).started && !(s.threads order.threadIndex).finished then
      (some .threadBusy, s)
    else (some .success, installOrder s order key iv)
  | _, _, _ => (some .invalidParameter, s)

/-- The call of UefiSpin. -/
def uefiSpin (queuedBytes : UInt64) (s : State) : State :=
  if s.isThreadingEnabled = false then s
  else if queuedBytes = 0 then { s with panicked := true }
  else { s with spin := some ⟨queuedBytes, 0, true, 0, .check⟩ }

/-- One step of UefiSpin. -/
def uefiSpinStep (P : Platform) (f : SpinFrame) (s : State) : State :=
  match f.phase with
  | .check =>
    if f.i < P.maxThreadCount then
      match (s.threads f.i).context with
      | none => { s with spin := some { f with i := f.i + 1 } }
      | some ctx =>
        -- `startThread` turns away a thread that has been started or is finished, as the test in the loop does
        startThread f.i false { s with spin := some { f with phase := .readFinished ctx } }
    else if !f.completed && decide (f.progress < f.totalProgress) then
      { s with spin := some ⟨f.totalProgress, 0, true, 0, .check⟩ }
    else { s with spin := none, batch := s.nextCtx }
  | .readFinished ctx =>
    { s with spin := some { f with completed := f.completed && (s.threads f.i).finished, phase := .readProgress ctx } }
  | .readProgress ctx =>
    { s with spin := some { f with i := f.i + 1, progress := f.progress + (s.ctxs ctx).currentPlace, phase := .check } }

/-- SaveThreadProgress with the place `place`, called by launch `k`. -/
def saveThreadProgress (k : Nat) (place : UInt64) (s : State) : State :=
  match (s.ctxs (s.launches k).ctx).progress with
  | ⟨some .saveThreadProgress, some ctx⟩ =>
    { s with
      ctxs := update s.ctxs ctx { s.ctxs ctx with currentPlace := place }
      peak := update s.peak ctx (max (s.peak ctx) place) }
  | _ => s

/-- The end of launch `k`: the hook has done its region, and `work` reports it. -/
def endOfWork (fw : Firmware P) (k : Nat) (s : State) : State :=
  finishThread fw (s.ctxs (s.launches k).ctx).thread
    { s with
      mem := s.mem.write (s.ctxs (s.launches k).ctx).workOrder.location
        (P.crypt (s.launches k).input (s.ctxs (s.launches k).ctx).sha256Key
          (s.ctxs (s.launches k).ctx).initializationVector)
      launches := update s.launches k { s.launches k with ended := true } }

/-! ## The system -/

inductive Event (P : Platform) where
  /-- The caller reuses its buffers. -/
  | overwrite (c : Caller)
  | spawn
  | callStart (slot : Nat) (wait : Bool)
  | callSpin (queuedBytes : UInt64)
  /-- The bootstrap processor goes on in StartThread or UefiSpin. -/
  | bsp (fw : Firmware P)
  | progress (k : Nat) (place : UInt64)
  /-- Launch `k` writes to its own region before it is done. -/
  | scribble (k : Nat) (bytes : List UInt8)
  | finish (k : Nat) (fw : Firmware P)
  /-- The completion event of launch `k` is delivered. -/
  | notify (k : Nat) (fw : Firmware P)

def State.order (s : State) (k : Nat) : WorkOrder := (s.ctxs (s.launches k).ctx).workOrder

def State.Running (s : State) (k : Nat) : Prop := k < s.nextLaunch ∧ (s.launches k).ended = false

instance (s : State) (k : Nat) : Decidable (s.Running k) :=
  inferInstanceAs (Decidable (k < s.nextLaunch ∧ (s.launches k).ended = false))

def enabled (P : Platform) (s : State) : Event P → Prop
  | .overwrite _ => True
  | .spawn => s.Idle
  | .callStart slot _ => s.Idle ∧ slot < P.maxThreadCount ∧ (s.threads slot).context ≠ none
  | .callSpin _ => s.Idle
  | .bsp _ => s.panicked = false
  | .progress k place => s.Running k ∧ place ≤ (s.order k).length
  | .scribble k bytes => s.Running k ∧ bytes.length = (s.order k).length.toNat
  | .finish k _ => s.Running k
  | .notify k _ => k < s.nextLaunch ∧ (s.launches k).ended = true

instance (s : State) (a : Event P) : Decidable (enabled P s a) := by
  cases a <;> simp only [enabled] <;> infer_instance

def bspStep (fw : Firmware P) (s : State) : State :=
  match s.start, s.spin with
  | some f, _ => startThreadStep fw f s
  | none, some f => uefiSpinStep P f s
  | none, none => s

def next (P : Platform) (s : State) : Event P → State
  | .overwrite c => { s with caller := c }
  | .spawn => (spawnDecryptionWorker P s).2
  | .callStart slot wait => startThread slot wait s
  | .callSpin queuedBytes => uefiSpin queuedBytes s
  | .bsp fw => bspStep fw s
  | .progress k place => saveThreadProgress k place s
  | .scribble k bytes => { s with mem := s.mem.write (s.order k).location bytes }
  | .finish k fw => endOfWork fw k s
  | .notify k fw => finishThread fw (s.ctxs (s.launches k).ctx).thread s

/-- Before the first order: the zeroed `Threads`, and a processor list in which nothing works. -/
structure Initial (P : Platform) (s : State) : Prop where
  idle : s.Idle
  threads : ∀ slot, s.threads slot = ⟨0, false, false, none⟩
  nextCtx : s.nextCtx = 0
  nextLaunch : s.nextLaunch = 0
  batch : s.batch = 0
  isBSP : ∀ i < s.mpCount, (s.mpList i).isBSP = true ↔ i = P.bspProcessorNumber
  isWorking : ∀ i, (s.mpList i).isWorking = false

def system (P : Platform) : System State (Event P) := ⟨Initial P, enabled P, next P⟩

instance (s : State) (a : Event P) : Decidable ((system P).enabled s a) := inferInstanceAs (Decidable (enabled P s a))

/-! ## Two slots on three processors -/

/-- A platform whose hook inverts every byte. -/
def smallPlatform : Platform where
  maxThreadCount := 2
  bspProcessorNumber := 0
  crypt bytes _ _ := bytes.map (~~~ ·)
  length_crypt _ _ _ := List.length_map _

/-- Firmware that answers every call. -/
def smallFirmware : Firmware smallPlatform where
  getProcessorInfo i := some ⟨i == 0, true, true⟩
  asBsp_iff := by
    intro i info h
    have h' := Option.some.inj h
    subst h'
    simp [smallPlatform]
  startupThisAP := .success

def smallOrder (slot : Nat) (location : Addr) : Caller :=
  ⟨some ⟨slot, location, 16, false⟩, some (List.replicate 32 1), some (List.replicate 16 2)⟩

def smallState : State where
  mpServices := true
  mpCount := 3
  mpList i := ⟨i, i == 0, true, true, false⟩
  threads _ := ⟨0, false, false, none⟩
  ctxs _ := ⟨0, 0, ⟨0, 0, 0, false⟩, ⟨none, none⟩, [], []⟩
  nextCtx := 0
  launches _ := ⟨0, 0, [], false⟩
  nextLaunch := 0
  mem := fun a => a.toUInt8
  caller := ⟨none, none, none⟩
  start := none
  spin := none
  panicked := false
  batch := 0
  peak _ := 0

theorem smallState_initial : Initial smallPlatform smallState :=
  ⟨⟨rfl, rfl, rfl⟩, fun _ => rfl, rfl, rfl, rfl, by simp [smallState, smallPlatform], fun _ => rfl⟩

/-- StartThread on a free slot while processor 1 is free: refresh, two looks, launch and its three records. -/
def startOnFirst : List (Event smallPlatform) := List.replicate 6 (.bsp smallFirmware)

end Crows.Boot.Threading
