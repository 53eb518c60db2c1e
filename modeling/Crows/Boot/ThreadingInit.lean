/-
  Crows.Boot.ThreadingInit — InitializeThreading and the table of processors it makes.

  The firmware's answers come with the call, one GetProcessorInfo and one EnableDisableAP
  for each processor number. The table is allocated for as many entries as 64 bits of its
  size come to, and an entry is stored at its processor's number when it has room there.

  The loop takes one off its bound for every processor that is missing, while it stores
  the others by their own numbers: `Enumerated` is where that has come to after some
  turns. So a missing processor leaves a hole, unless it is the last one, and the
  protocol pointer that IsThreadingEnabled looks at is there after any later error:
  - `mpList_lists_iff`: when the call succeeds the list is that of the processors that
    exist exactly when none is missing before the last one and its size has not wrapped.
    `middleMissing_not_listed` is a list with a hole.
  - `initializeThreading_consistent_iff`: the answers after which threading is either
    disabled or can be used. `countFails_enabled` is an error that leaves it enabled.
-/
import Crows.Boot.Threading
import Crows.Lib.Loop

namespace Crows.Boot.Threading

open Crows.Lib

/-! ## threading.c -/

/-- The firmware's answers during one call. -/
structure MpServices where
  locateProtocol : EfiStatus
  getNumberOfProcessors : EfiStatus × UInt64
  whoAmI : EfiStatus × UInt64
  /-- The list is not NULL. -/
  allocateZeroPool : Bool
  /-- With CurrentProcessorInfo after the call. -/
  getProcessorInfo : Nat → EfiStatus × ProcessorInformation
  enableDisableAP : Nat → EfiStatus

/-- MFTAH_SYSTEM_MP_CTX. -/
structure MftahSystemMpCtx where
  bspProcessorNumber : UInt64
  mpCount : UInt64
  mpList : List MftahSystemMp

/-- The static variables of threading.c. -/
structure ThreadingGlobals where
  /-- mEfiMpServicesProtocol is not NULL. -/
  mpServices : Bool
  context : MftahSystemMpCtx

/-- Before InitializeThreading. -/
def ThreadingGlobals.initial : ThreadingGlobals := ⟨false, 0, 0, []⟩

def ThreadingGlobals.isThreadingEnabled (g : ThreadingGlobals) : Bool := g.mpServices || decide (1 ≤ g.context.mpCount)

def ThreadingGlobals.getThreadLimit (g : ThreadingGlobals) : UInt64 :=
  if g.isThreadingEnabled then g.context.mpCount - 1 else 0

/-- The workers' model sees the same. -/
theorem State.isThreadingEnabled_of_globals {s : State} {g : ThreadingGlobals} (hservices : s.mpServices = g.mpServices)
    (hcount : s.mpCount = g.context.mpCount.toNat) : s.isThreadingEnabled = g.isThreadingEnabled := by
  unfold State.isThreadingEnabled ThreadingGlobals.isThreadingEnabled
  rw [hservices, hcount]
  rfl

def sizeOfMftahSystemMp : UInt64 := 16

/-- An entry of the list as AllocateZeroPool gives it. -/
def zeroMp : MftahSystemMp := ⟨0, false, false, false, false⟩

/-- The list that is allocated for `numberOfProcessors`. -/
def allocateMps (numberOfProcessors : UInt64) : List MftahSystemMp :=
  List.replicate (sizeOfMftahSystemMp * numberOfProcessors / sizeOfMftahSystemMp).toNat zeroMp

/-- The entry for processor `i`. -/
def systemMp (i : Nat) (info : ProcessorInformation) : MftahSystemMp :=
  ⟨i, info.asBsp, info.enabled, info.healthStatus, false⟩

structure EnumerateLoop where
  status : EfiStatus
  i : Nat
  numberOfProcessors : Nat
  listOfSystemMPs : List MftahSystemMp

/-- One turn of the loop over the processors. -/
def enumerateTurn (fw : MpServices) (s : EnumerateLoop) : Turn EnumerateLoop (Except EfiStatus EnumerateLoop) :=
  if s.i < s.numberOfProcessors then
    let reply := fw.getProcessorInfo s.i
    if reply.1 = .notFound then
      .again { s with status := reply.1, i := s.i + 1, numberOfProcessors := s.numberOfProcessors - 1 }
    else if reply.1.isError then .done (.error reply.1)
    else
      .again
        { s with
          -- what EnableDisableAP returns is printed and nothing else
          status := if reply.2.asBsp then reply.1 else fw.enableDisableAP s.i
          i := s.i + 1
          listOfSystemMPs := s.listOfSystemMPs.set s.i (systemMp s.i reply.2) }
  else .done (.ok s)

/-- The loop over the processors and what follows it; `none` when it does not end. -/
def enumerateMps (fw : MpServices) : Option (Except EfiStatus EnumerateLoop) :=
  loop (enumerateTurn fw) (fw.getNumberOfProcessors.2.toNat + 1)
    ⟨fw.whoAmI.1, 0, fw.getNumberOfProcessors.2.toNat, allocateMps fw.getNumberOfProcessors.2⟩

def initializeThreading (fw : MpServices) (g : ThreadingGlobals) : Option (EfiStatus × ThreadingGlobals) :=
  if fw.locateProtocol.isError then some (fw.locateProtocol, { g with mpServices := false })
  else
    let located := { g with mpServices := true }
    if fw.getNumberOfProcessors.1.isError then some (fw.getNumberOfProcessors.1, located)
    else if fw.whoAmI.1.isError then some (fw.whoAmI.1, located)
    else if fw.allocateZeroPool = false then some (.outOfResources, located)
    else
      (enumerateMps fw).map fun r =>
        match r with
        | .error status => (status, located)
        | .ok s =>
          (.success,
            { located with context := ⟨fw.whoAmI.2, UInt64.ofNat s.numberOfProcessors, s.listOfSystemMPs⟩ })

/-! ## The loop over the processors -/

/-- GetProcessorInfo gives the information of processor `i`. -/
def MpServices.Exists (fw : MpServices) (i : Nat) : Prop := (fw.getProcessorInfo i).1.isError = false

def MpServices.Missing (fw : MpServices) (i : Nat) : Prop := (fw.getProcessorInfo i).1 = .notFound

instance (fw : MpServices) : DecidablePred fw.Exists :=
  fun i => inferInstanceAs (Decidable ((fw.getProcessorInfo i).1.isError = false))

instance (fw : MpServices) : DecidablePred fw.Missing :=
  fun i => inferInstanceAs (Decidable ((fw.getProcessorInfo i).1 = .notFound))

/-- The entry that stands for processor `i`. -/
def MpServices.entry (fw : MpServices) (i : Nat) : MftahSystemMp := systemMp i (fw.getProcessorInfo i).2

def MpServices.processors (fw : MpServices) : Nat := fw.getNumberOfProcessors.2.toNat

/-- How many of the first `i` processor numbers are missing. -/
def MpServices.missing (fw : MpServices) (i : Nat) : Nat := Nat.count fw.Missing i

/-- The loop has come to processor `s.i`. A missing processor takes one off the bound and leaves a hole. -/
structure Enumerated (fw : MpServices) (s : EnumerateLoop) : Prop where
  bound : s.numberOfProcessors + fw.missing s.i = fw.processors
  known : ∀ j < s.i, fw.Exists j ∨ fw.Missing j
  came : ∀ j < s.i, j + fw.missing j < fw.processors
  length : s.listOfSystemMPs.length = (allocateMps fw.getNumberOfProcessors.2).length
  stored : ∀ j < s.i, fw.Exists j → j < s.listOfSystemMPs.length → s.listOfSystemMPs[j]? = some (fw.entry j)
  hole : ∀ j, ¬ (j < s.i ∧ fw.Exists j) → j < s.listOfSystemMPs.length → s.listOfSystemMPs[j]? = some zeroMp

variable {fw : MpServices}

theorem MpServices.Missing.not_exists {i : Nat} (h : fw.Missing i) : ¬ fw.Exists i := by
  intro hexists
  rw [MpServices.Exists, h] at hexists
  cases hexists

theorem missing_succ_of_exists {i : Nat} (h : fw.Exists i) : fw.missing (i + 1) = fw.missing i := by
  rw [MpServices.missing, Nat.count_succ, if_neg fun hmissing : fw.Missing i => hmissing.not_exists h]
  rfl

theorem missing_succ_of_missing {i : Nat} (h : fw.Missing i) : fw.missing (i + 1) = fw.missing i + 1 := by
  rw [MpServices.missing, Nat.count_succ, if_pos h]
  rfl

/-- With none missing before it, a processor number has nothing missing below it. -/
theorem missing_eq_zero {i : Nat} (h : ∀ j < i, fw.Exists j) : fw.missing i = 0 := by
  induction i with
  | zero => exact Nat.count_zero _
  | succ i ih =>
    rw [missing_succ_of_exists (h i (Nat.lt_succ_self i))]
    exact ih fun j hj => h j (Nat.lt_succ_of_lt hj)

theorem enumerateTurn_again {s s' : EnumerateLoop} (h : enumerateTurn fw s = .again s') :
    s.i < s.numberOfProcessors ∧
      ((fw.Missing s.i ∧ ∃ status, s' = ⟨status, s.i + 1, s.numberOfProcessors - 1, s.listOfSystemMPs⟩) ∨
        (fw.Exists s.i ∧ ∃ status,
          s' = ⟨status, s.i + 1, s.numberOfProcessors, s.listOfSystemMPs.set s.i (fw.entry s.i)⟩)) := by
  unfold enumerateTurn at h
  split at h
  · rename_i hlt
    dsimp only at h
    refine ⟨hlt, ?_⟩
    split at h
    · rename_i hmissing
      cases h
      exact Or.inl ⟨hmissing, _, rfl⟩
    split at h
    · cases h
    · rename_i hexists
      cases h
      exact Or.inr ⟨Bool.eq_false_iff.mpr hexists, _, rfl⟩
  · cases h

/-- The loop ends at its bound, or at a processor with another error than EFI_NOT_FOUND. -/
theorem enumerateTurn_done {s : EnumerateLoop} {r : Except EfiStatus EnumerateLoop} (h : enumerateTurn fw s = .done r) :
    (s.numberOfProcessors ≤ s.i ∧ r = .ok s) ∨
      (s.i < s.numberOfProcessors ∧ ¬ fw.Exists s.i ∧ ¬ fw.Missing s.i ∧ r = .error (fw.getProcessorInfo s.i).1) := by
  unfold enumerateTurn at h
  split at h
  · rename_i hlt
    dsimp only at h
    split at h
    · cases h
    rename_i hfound
    split at h
    · rename_i herror
      cases h
      refine Or.inr ⟨hlt, ?_, hfound, rfl⟩
      intro hexists
      rw [MpServices.Exists, herror] at hexists
      cases hexists
    · cases h
  · rename_i hge
    cases h
    exact Or.inl ⟨Nat.le_of_not_lt hge, rfl⟩

theorem enumerated_turn {s s' : EnumerateLoop} (hs : Enumerated fw s) (h : enumerateTurn fw s = .again s') :
    Enumerated fw s' := by
  obtain ⟨hlt, hcases⟩ := enumerateTurn_again h
  have hbound := hs.bound
  have hcame : ∀ j < s.i + 1, j + fw.missing j < fw.processors := by
    intro j hj
    rcases Nat.lt_succ_iff_lt_or_eq.mp hj with hold | hnew
    · exact hs.came j hold
    · subst hnew
      omega
  rcases hcases with ⟨hmissing, status, rfl⟩ | ⟨hexists, status, rfl⟩
  · refine ⟨?_, ?_, hcame, hs.length, ?_, ?_⟩
    · show s.numberOfProcessors - 1 + fw.missing (s.i + 1) = fw.processors
      rw [missing_succ_of_missing hmissing]
      omega
    · intro j hj
      rcases Nat.lt_succ_iff_lt_or_eq.mp hj with hold | hnew
      · exact hs.known j hold
      · exact Or.inr (hnew ▸ hmissing)
    · intro j hj hexists hroom
      rcases Nat.lt_succ_iff_lt_or_eq.mp hj with hold | hnew
      · exact hs.stored j hold hexists hroom
      · exact absurd (hnew ▸ hexists) hmissing.not_exists
    · intro j hj hroom
      exact hs.hole j (fun hold => hj ⟨Nat.lt_succ_of_lt hold.1, hold.2⟩) hroom
  · refine ⟨?_, ?_, hcame, ?_, ?_, ?_⟩
    · show s.numberOfProcessors + fw.missing (s.i + 1) = fw.processors
      rw [missing_succ_of_exists hexists]
      exact hbound
    · intro j hj
      rcases Nat.lt_succ_iff_lt_or_eq.mp hj with hold | hnew
      · exact hs.known j hold
      · exact Or.inl (hnew ▸ hexists)
    · show (s.listOfSystemMPs.set s.i (fw.entry s.i)).length = _
      rw [List.length_set]
      exact hs.length
    · intro j hj hold hroom
      rw [List.length_set] at hroom
      by_cases heq : s.i = j
      · subst heq
        exact List.getElem?_set_self hroom
      · rw [List.getElem?_set_ne heq]
        exact hs.stored j (Nat.lt_of_le_of_ne (Nat.le_of_lt_succ hj) (Ne.symm heq)) hold hroom
    · intro j hj hroom
      rw [List.length_set] at hroom
      by_cases heq : s.i = j
      · subst heq
        exact absurd ⟨Nat.lt_succ_self _, hexists⟩ hj
      · rw [List.getElem?_set_ne heq]
        exact hs.hole j (fun hold => hj ⟨Nat.lt_succ_of_lt hold.1, hold.2⟩) hroom

theorem enumerated_start (status : EfiStatus) :
    Enumerated fw ⟨status, 0, fw.processors, allocateMps fw.getNumberOfProcessors.2⟩ := by
  refine ⟨rfl, ?_, ?_, rfl, ?_, ?_⟩
  · intro j hj
    exact absurd hj (Nat.not_lt_zero j)
  · intro j hj
    exact absurd hj (Nat.not_lt_zero j)
  · intro j hj
    exact absurd hj (Nat.not_lt_zero j)
  · intro j _ hroom
    rw [allocateMps, List.length_replicate] at hroom
    rw [allocateMps, List.getElem?_replicate_of_lt hroom]

/-- The loop ends: every turn leaves fewer processors to be asked for. -/
theorem enumerateMps_ends (fw : MpServices) : ∃ r, enumerateMps fw = some r := by
  refine loop_of_measure (fun s => s.numberOfProcessors - s.i) ?_ (enumerated_start fw.whoAmI.1) (Nat.lt_succ_self _)
  intro a b ha h
  refine ⟨enumerated_turn ha h, ?_⟩
  obtain ⟨hlt, hcases⟩ := enumerateTurn_again h
  rcases hcases with ⟨-, status, rfl⟩ | ⟨-, status, rfl⟩
  · show a.numberOfProcessors - 1 - (a.i + 1) < a.numberOfProcessors - a.i
    omega
  · show a.numberOfProcessors - (a.i + 1) < a.numberOfProcessors - a.i
    omega

theorem enumerateMps_cases {r : Except EfiStatus EnumerateLoop} (h : enumerateMps fw = some r) :
    ∃ s, Enumerated fw s ∧
      ((s.numberOfProcessors ≤ s.i ∧ r = .ok s) ∨
        (s.i < s.numberOfProcessors ∧ ¬ fw.Exists s.i ∧ ¬ fw.Missing s.i ∧
          r = .error (fw.getProcessorInfo s.i).1)) := by
  obtain ⟨s, hs, hdone⟩ := Returns.last_turn (fun a b => enumerated_turn) (enumerated_start fw.whoAmI.1) ⟨_, h⟩
  exact ⟨s, hs, enumerateTurn_done hdone⟩

/-! ## What the list comes to -/

/-- No processor number is missing before the last one. -/
def MpServices.Dense (fw : MpServices) : Prop := ∀ i, i + 1 < fw.processors → fw.Exists i

/-- A processor missing before the last one leaves its hole among the first MpCount entries. -/
theorem Enumerated.hole_inside {s : EnumerateLoop} (hs : Enumerated fw s) (hend : s.numberOfProcessors ≤ s.i)
    (h : ¬ fw.Dense) : ∃ j < s.numberOfProcessors, ¬ fw.Exists j ∧ ∀ k < j, fw.Exists k := by
  have hmissing : ∃ j, j + 1 < fw.processors ∧ ¬ fw.Exists j := by
    by_contra hno
    refine h fun i hi => ?_
    by_contra hi'
    exact hno ⟨i, hi, hi'⟩
  obtain ⟨hlast, hnot⟩ := Nat.find_spec hmissing
  have hfirst : ∀ k < Nat.find hmissing, fw.Exists k := by
    intro k hk
    by_contra hk'
    exact Nat.find_min hmissing hk ⟨by omega, hk'⟩
  refine ⟨Nat.find hmissing, ?_, hnot, hfirst⟩
  generalize Nat.find hmissing = j at hlast hnot hfirst
  have hbound := hs.bound
  have hzero := missing_eq_zero hfirst
  -- the loop has come to `j`: up to there nothing was taken off the bound
  have hcame : j < s.i := by
    by_contra hnever
    have hnone := missing_eq_zero (fun k hk => hfirst k (by omega) : ∀ k < s.i, fw.Exists k)
    omega
  have hgone : fw.Missing j := by
    rcases hs.known j hcame with hexists | hgone
    · exact absurd hexists hnot
    · exact hgone
  obtain ⟨i, hi⟩ : ∃ i, s.i = i + 1 := ⟨s.i - 1, by omega⟩
  rw [hi] at hbound hcame
  rcases Nat.lt_succ_iff_lt_or_eq.mp hcame with hmore | hjust
  · -- the last turn began below the bound and lowered it by one at most
    have hturn := hs.came i (by omega)
    rcases hs.known i (by omega) with hexists | hmissing
    · rw [missing_succ_of_exists hexists] at hbound
      omega
    · rw [missing_succ_of_missing hmissing] at hbound
      omega
  · subst hjust
    rw [missing_succ_of_missing hgone] at hbound
    omega

/-- Without such a hole the entries are for the processors that exist. -/
theorem Enumerated.lt_iff {s : EnumerateLoop} (hs : Enumerated fw s) (hend : s.numberOfProcessors ≤ s.i)
    (h : fw.Dense) (i : Nat) : i < s.numberOfProcessors ↔ i < fw.processors ∧ fw.Exists i := by
  have hbound := hs.bound
  have hall : s.i = fw.processors := by
    apply Nat.le_antisymm
    · by_contra hpast
      have hturn := hs.came fw.processors (by omega)
      omega
    · by_contra hbefore
      have hnone := missing_eq_zero (fun k hk => h k (by omega) : ∀ k < s.i, fw.Exists k)
      omega
  cases hn : fw.processors with
  | zero => omega
  | succ n =>
    have hnone : fw.missing n = 0 := missing_eq_zero fun k hk => h k (by omega)
    rw [hall, hn] at hbound
    rcases hs.known n (by omega) with hexists | hmissing
    · rw [missing_succ_of_exists hexists, hnone] at hbound
      constructor
      · intro hi
        refine ⟨by omega, ?_⟩
        rcases Nat.lt_succ_iff_lt_or_eq.mp (hbound ▸ hi : i < n + 1) with hlt | heq
        · exact h i (by omega)
        · exact heq ▸ hexists
      · omega
    · rw [missing_succ_of_missing hmissing, hnone] at hbound
      constructor
      · intro hi
        exact ⟨by omega, h i (by omega)⟩
      · intro hi
        have hne : i ≠ n := fun heq => hmissing.not_exists (heq ▸ hi.2)
        omega

theorem length_allocateMps (n : UInt64) : (allocateMps n).length = n.toNat % 2 ^ 60 := by
  rw [allocateMps, List.length_replicate, UInt64.toNat_div, UInt64.toNat_mul]
  show 16 * n.toNat % 2 ^ 64 / 16 = _
  omega

/-- The list has room for its entries exactly when its size in bytes has not wrapped around. -/
theorem Enumerated.room_iff {s : EnumerateLoop} (hs : Enumerated fw s) (hend : s.numberOfProcessors ≤ s.i)
    (h : fw.Dense) : s.numberOfProcessors ≤ s.listOfSystemMPs.length ↔ fw.processors < 2 ^ 60 := by
  rw [hs.length, length_allocateMps]
  show s.numberOfProcessors ≤ fw.processors % 2 ^ 60 ↔ _
  have hbound := hs.bound
  have hmost : fw.processors ≤ s.numberOfProcessors + 1 := by
    by_contra hfew
    have hlt := (hs.lt_iff hend h s.numberOfProcessors).mpr ⟨by omega, h _ (by omega)⟩
    exact absurd hlt (Nat.lt_irrefl _)
  omega

/-- How a call ends: without the protocol, with a later error, or with the list. -/
theorem initializeThreading_cases {g : ThreadingGlobals} {r : EfiStatus × ThreadingGlobals}
    (h : initializeThreading fw g = some r) :
    (fw.locateProtocol.isError = true ∧ r = (fw.locateProtocol, { g with mpServices := false })) ∨
      (fw.locateProtocol.isError = false ∧ r.1.isError = true ∧ r.2 = { g with mpServices := true } ∧
        (fw.getNumberOfProcessors.1.isError = true ∨ fw.whoAmI.1.isError = true ∨ fw.allocateZeroPool = false ∨
          ∃ j < fw.processors, ¬ fw.Exists j ∧ ¬ fw.Missing j)) ∨
      ((fw.locateProtocol.isError = false ∧ fw.getNumberOfProcessors.1.isError = false ∧
          fw.whoAmI.1.isError = false ∧ fw.allocateZeroPool = true) ∧
        ∃ s, Enumerated fw s ∧ s.numberOfProcessors ≤ s.i ∧
          r = (.success, ⟨true, fw.whoAmI.2, UInt64.ofNat s.numberOfProcessors, s.listOfSystemMPs⟩)) := by
  unfold initializeThreading at h
  split at h
  · rename_i hlocate
    exact Or.inl ⟨hlocate, (Option.some.inj h).symm⟩
  rename_i hlocate
  rw [Bool.not_eq_true] at hlocate
  dsimp only at h
  split at h
  · rename_i hcount
    cases h
    exact Or.inr (Or.inl ⟨hlocate, hcount, rfl, Or.inl hcount⟩)
  rename_i hcount
  split at h
  · rename_i hwho
    cases h
    exact Or.inr (Or.inl ⟨hlocate, hwho, rfl, Or.inr (Or.inl hwho)⟩)
  rename_i hwho
  split at h
  · rename_i hpool
    cases h
    exact Or.inr (Or.inl ⟨hlocate, rfl, rfl, Or.inr (Or.inr (Or.inl hpool))⟩)
  rename_i hpool
  obtain ⟨e, he, hr⟩ := Option.map_eq_some_iff.mp h
  obtain ⟨s, hs, hcases⟩ := enumerateMps_cases he
  rcases hcases with ⟨hend, heq⟩ | ⟨hlt, hnot, hfound, heq⟩
  · subst heq
    subst hr
    exact Or.inr (Or.inr
      ⟨⟨hlocate, Bool.eq_false_iff.mpr hcount, Bool.eq_false_iff.mpr hwho, Bool.eq_true_of_not_eq_false hpool⟩,
        s, hs, hend, rfl⟩)
  · subst heq
    subst hr
    have hbound := hs.bound
    exact Or.inr (Or.inl
      ⟨hlocate, Bool.eq_true_of_not_eq_false hnot, rfl, Or.inr (Or.inr (Or.inr ⟨s.i, by omega, hnot, hfound⟩))⟩)

theorem initializeThreading_ends (fw : MpServices) (g : ThreadingGlobals) : ∃ r, initializeThreading fw g = some r := by
  obtain ⟨r, hr⟩ := enumerateMps_ends fw
  unfold initializeThreading
  rw [hr]
  repeat' split
  all_goals exact ⟨_, rfl⟩

theorem Enumerated.toNat_bound {s : EnumerateLoop} (hs : Enumerated fw s) :
    (UInt64.ofNat s.numberOfProcessors).toNat = s.numberOfProcessors := by
  have hbound := hs.bound
  have hlt : fw.processors < 2 ^ 64 := fw.getNumberOfProcessors.2.toNat_lt
  exact UInt64.toNat_ofNat_of_lt' (by show s.numberOfProcessors < 2 ^ 64; omega)

/-! ## The processors that are listed -/

/-- The first MpCount entries are there and stand for the processors that exist, one entry for each. -/
def MpServices.Lists (fw : MpServices) (c : MftahSystemMpCtx) : Prop :=
  c.mpCount.toNat ≤ c.mpList.length ∧
    List.Perm ((c.mpList.take c.mpCount.toNat).map fun mp => (mp.processorNumber, mp.isBSP))
      (((List.range fw.processors).filter fw.Exists).map fun i => (i, (fw.getProcessorInfo i).2.asBsp))

theorem Enumerated.take_eq {s : EnumerateLoop} (hs : Enumerated fw s) (hend : s.numberOfProcessors ≤ s.i)
    (h : ∀ i < s.numberOfProcessors, fw.Exists i) (hroom : s.numberOfProcessors ≤ s.listOfSystemMPs.length) :
    s.listOfSystemMPs.take s.numberOfProcessors = (List.range s.numberOfProcessors).map fw.entry := by
  apply List.ext_getElem?
  intro i
  by_cases hi : i < s.numberOfProcessors
  · rw [List.getElem?_take_of_lt hi, hs.stored i (by omega) (h i hi) (by omega)]
    simp [hi]
  · have hlen : (s.listOfSystemMPs.take s.numberOfProcessors).length ≤ i := by
      rw [List.length_take]
      omega
    rw [List.getElem?_eq_none hlen, List.getElem?_eq_none]
    simpa using hi

theorem filter_range_of_lt_iff {p : Nat → Prop} [DecidablePred p] {n k : Nat} (h : ∀ i, i < k ↔ i < n ∧ p i) :
    (List.range n).filter p = List.range k := by
  have hle : k ≤ n := by
    by_contra hgt
    exact absurd ((h n).mp (by omega)).1 (Nat.lt_irrefl n)
  obtain ⟨d, rfl⟩ := Nat.exists_eq_add_of_le hle
  rw [List.range_add, List.filter_append, List.filter_eq_self.mpr, List.filter_eq_nil_iff.mpr, List.append_nil]
  · intro i hi hp
    obtain ⟨e, he, rfl⟩ := List.mem_map.mp hi
    have hlt := (h (k + e)).mpr ⟨by have := List.mem_range.mp he; omega, of_decide_eq_true hp⟩
    omega
  · intro i hi
    exact decide_eq_true ((h i).mp (List.mem_range.mp hi)).2

/-- A hole in the first MpCount entries stands for processor 0. -/
theorem Enumerated.not_lists {s : EnumerateLoop} (hs : Enumerated fw s) (hend : s.numberOfProcessors ≤ s.i)
    (h : ¬ fw.Dense) {bsp : UInt64} :
    ¬ fw.Lists ⟨bsp, UInt64.ofNat s.numberOfProcessors, s.listOfSystemMPs⟩ := by
  intro hlists
  obtain ⟨hroom, hperm⟩ := hlists
  simp only [hs.toNat_bound] at hroom hperm
  obtain ⟨j, hj, hnot, hfirst⟩ := hs.hole_inside hend h
  have hnumbers := hperm.map Prod.fst
  simp only [List.map_map] at hnumbers
  have hhole : (s.listOfSystemMPs.take s.numberOfProcessors)[j]? = some zeroMp := by
    rw [List.getElem?_take_of_lt hj]
    exact hs.hole j (fun hj' => hnot hj'.2) (by omega)
  cases j with
  | zero =>
    have hmem : 0 ∈ (s.listOfSystemMPs.take s.numberOfProcessors).map
        (Prod.fst ∘ fun mp => (mp.processorNumber, mp.isBSP)) :=
      List.mem_map.mpr ⟨zeroMp, List.mem_of_getElem? hhole, rfl⟩
    obtain ⟨i, hi, hzero⟩ := List.mem_map.mp (hnumbers.mem_iff.mp hmem)
    have hi0 : i = 0 := hzero
    exact hnot (of_decide_eq_true (hi0 ▸ (List.mem_filter.mp hi).2))
  | succ j =>
    have hstored : (s.listOfSystemMPs.take s.numberOfProcessors)[0]? = some (fw.entry 0) := by
      rw [List.getElem?_take_of_lt (by omega)]
      exact hs.stored 0 (by omega) (hfirst 0 (Nat.succ_pos j)) (by omega)
    have hnodup : ((s.listOfSystemMPs.take s.numberOfProcessors).map
        (Prod.fst ∘ fun mp => (mp.processorNumber, mp.isBSP))).Nodup := by
      rw [hnumbers.nodup_iff]
      have hself : (Prod.fst ∘ fun i => (i, (fw.getProcessorInfo i).2.asBsp)) = id := rfl
      rw [hself, List.map_id]
      exact List.nodup_range.filter _
    have hlt : 0 < ((s.listOfSystemMPs.take s.numberOfProcessors).map
        (Prod.fst ∘ fun mp => (mp.processorNumber, mp.isBSP))).length := by
      rw [List.length_map, List.length_take]
      omega
    have hsame : 0 = j + 1 := by
      refine (List.getElem?_inj hlt hnodup).mp ?_
      rw [List.getElem?_map, List.getElem?_map, hhole, hstored]
      rfl
    exact absurd hsame (Nat.succ_ne_zero j).symm

/-- When InitializeThreading succeeds, its list is that of the processors that exist exactly when
    none is missing before the last one and the size of the list has not wrapped around. -/
theorem mpList_lists_iff {fw : MpServices} {g g' : ThreadingGlobals}
    (h : initializeThreading fw g = some (.success, g')) :
    fw.Lists g'.context ↔ fw.getNumberOfProcessors.2.toNat < 2 ^ 60 ∧
      ∀ i, i + 1 < fw.getNumberOfProcessors.2.toNat → (fw.getProcessorInfo i).1.isError = false := by
  rcases initializeThreading_cases h with ⟨herror, heq⟩ | ⟨-, herror, -⟩ | ⟨-, s, hs, hend, heq⟩
  · have hstatus : fw.locateProtocol = .success := (congrArg Prod.fst heq).symm
    rw [hstatus] at herror
    cases herror
  · cases herror
  obtain rfl : g' = ⟨true, fw.whoAmI.2, UInt64.ofNat s.numberOfProcessors, s.listOfSystemMPs⟩ := congrArg Prod.snd heq
  by_cases hdense : fw.Dense
  · refine Iff.trans ?_ (and_iff_left hdense).symm
    constructor
    · intro hlists
      have hroom := hlists.1
      simp only [hs.toNat_bound] at hroom
      exact (hs.room_iff hend hdense).mp hroom
    · intro hfits
      have hroom := (hs.room_iff hend hdense).mpr hfits
      have hall : ∀ i < s.numberOfProcessors, fw.Exists i := fun i hi => ((hs.lt_iff hend hdense i).mp hi).2
      refine ⟨by simp only [hs.toNat_bound]; exact hroom, ?_⟩
      simp only [hs.toNat_bound]
      rw [hs.take_eq hend hall hroom, filter_range_of_lt_iff (hs.lt_iff hend hdense), List.map_map]
      exact List.Perm.refl _
  · exact iff_of_false (hs.not_lists hend hdense) fun hcond => hdense hcond.2

/-- Two processors, the first one the bootstrap processor. -/
def bothPresent : MpServices where
  locateProtocol := .success
  getNumberOfProcessors := (.success, 2)
  whoAmI := (.success, 0)
  allocateZeroPool := true
  getProcessorInfo i := (.success, ⟨decide (i = 0), true, true⟩)
  enableDisableAP _ := .success

theorem mpList_lists_both :
    bothPresent.Lists ⟨0, 2, [⟨0, true, true, true, false⟩, ⟨1, false, true, true, false⟩]⟩ ↔
      bothPresent.getNumberOfProcessors.2.toNat < 2 ^ 60 ∧
        ∀ i, i + 1 < bothPresent.getNumberOfProcessors.2.toNat →
          (bothPresent.getProcessorInfo i).1.isError = false := by
  have hlist : initializeThreading bothPresent .initial =
      some (.success, ⟨true, 0, 2, [⟨0, true, true, true, false⟩, ⟨1, false, true, true, false⟩]⟩) := rfl
  exact mpList_lists_iff hlist

/-- Three processors, the second one missing. -/
def middleMissing : MpServices where
  locateProtocol := .success
  getNumberOfProcessors := (.success, 3)
  whoAmI := (.success, 0)
  allocateZeroPool := true
  getProcessorInfo i := (if i = 1 then .notFound else .success, ⟨decide (i = 0), true, true⟩)
  enableDisableAP _ := .success

/-- The hole is listed and the third processor is not. -/
theorem middleMissing_not_listed :
    initializeThreading middleMissing .initial =
        some (.success, ⟨true, 0, 2, [⟨0, true, true, true, false⟩, zeroMp, zeroMp]⟩) ∧
      ¬ middleMissing.Lists ⟨0, 2, [⟨0, true, true, true, false⟩, zeroMp, zeroMp]⟩ := by
  refine ⟨rfl, ?_⟩
  intro hlists
  have hperm : List.Perm [(0, true), (0, false)] [(0, true), (2, false)] := hlists.2
  revert hperm
  decide

/-! ## Whether threading is enabled -/

/-- MpList has MpCount valid entries, two at least and one of them not the bootstrap processor's, and there is
    room for MpCount - 1 threads. -/
structure MpServices.Usable (fw : MpServices) (g : ThreadingGlobals) : Prop where
  two_le : 2 ≤ g.context.mpCount.toNat
  valid : ∀ i < g.context.mpCount.toNat, fw.Exists i ∧ g.context.mpList[i]? = some (fw.entry i)
  ap : ∃ i < g.context.mpCount.toNat, ∃ mp, g.context.mpList[i]? = some mp ∧ mp.isBSP = false
  getThreadLimit : g.getThreadLimit.toNat + 1 = g.context.mpCount.toNat

/-- After an error threading is disabled, and where it is enabled it can be used. -/
def MpServices.Consistent (fw : MpServices) (r : EfiStatus × ThreadingGlobals) : Prop :=
  (r.1.isError = true → r.2.isThreadingEnabled = false ∧ r.2.getThreadLimit = 0) ∧
    (r.2.isThreadingEnabled = true → fw.Usable r.2)

/-- The protocol is there and every later answer is the one that is hoped for. -/
structure MpServices.Complete (fw : MpServices) : Prop where
  locateProtocol : fw.locateProtocol.isError = false
  getNumberOfProcessors : fw.getNumberOfProcessors.1.isError = false
  whoAmI : fw.whoAmI.1.isError = false
  allocateZeroPool : fw.allocateZeroPool = true
  fits : fw.getNumberOfProcessors.2.toNat < 2 ^ 60
  dense : ∀ i, i + 1 < fw.getNumberOfProcessors.2.toNat → (fw.getProcessorInfo i).1.isError = false
  last : ∀ i, i + 1 = fw.getNumberOfProcessors.2.toNat →
    (fw.getProcessorInfo i).1.isError = false ∨ (fw.getProcessorInfo i).1 = .notFound
  second : 1 < fw.getNumberOfProcessors.2.toNat ∧ (fw.getProcessorInfo 1).1.isError = false
  ap : ∃ i < fw.getNumberOfProcessors.2.toNat,
    (fw.getProcessorInfo i).1.isError = false ∧ (fw.getProcessorInfo i).2.asBsp = false

theorem Enumerated.usable {s : EnumerateLoop} (hs : Enumerated fw s) (hend : s.numberOfProcessors ≤ s.i)
    (h : fw.Complete) (bsp : UInt64) :
    fw.Usable ⟨true, bsp, UInt64.ofNat s.numberOfProcessors, s.listOfSystemMPs⟩ := by
  have hlt := hs.lt_iff hend h.dense
  have hroom := (hs.room_iff hend h.dense).mpr h.fits
  have htwo : 1 < s.numberOfProcessors := (hlt 1).mpr h.second
  have hvalid : ∀ i < s.numberOfProcessors, fw.Exists i ∧ s.listOfSystemMPs[i]? = some (fw.entry i) := by
    intro i hi
    have hexists := ((hlt i).mp hi).2
    exact ⟨hexists, hs.stored i (by omega) hexists (by omega)⟩
  refine ⟨?_, ?_, ?_, ?_⟩
  · simp only [hs.toNat_bound]
    exact htwo
  · simp only [hs.toNat_bound]
    exact hvalid
  · obtain ⟨i, hi, hexists, hap⟩ := h.ap
    have hi' := (hlt i).mpr ⟨hi, hexists⟩
    simp only [hs.toNat_bound]
    exact ⟨i, hi', fw.entry i, (hvalid i hi').2, hap⟩
  · have hlimit : ThreadingGlobals.getThreadLimit
        ⟨true, bsp, UInt64.ofNat s.numberOfProcessors, s.listOfSystemMPs⟩ = UInt64.ofNat s.numberOfProcessors - 1 := rfl
    have hone : (1 : UInt64) ≤ UInt64.ofNat s.numberOfProcessors := by
      rw [UInt64.le_iff_toNat_le, hs.toNat_bound]
      exact Nat.le_of_lt htwo
    rw [hlimit, UInt64.toNat_sub_of_le _ _ hone, hs.toNat_bound]
    show s.numberOfProcessors - 1 + 1 = s.numberOfProcessors
    omega

/-- Only with these answers can what is enabled be used. -/
theorem Enumerated.complete {s : EnumerateLoop} (hs : Enumerated fw s) (hend : s.numberOfProcessors ≤ s.i)
    (hanswers : fw.locateProtocol.isError = false ∧ fw.getNumberOfProcessors.1.isError = false ∧
      fw.whoAmI.1.isError = false ∧ fw.allocateZeroPool = true) {bsp : UInt64}
    (h : fw.Usable ⟨true, bsp, UInt64.ofNat s.numberOfProcessors, s.listOfSystemMPs⟩) : fw.Complete := by
  obtain ⟨htwo, hvalid, ⟨i, hi, mp, hmp, hap⟩, -⟩ := h
  simp only [hs.toNat_bound] at htwo hvalid hi
  have hdense : fw.Dense := by
    by_contra hnot
    obtain ⟨j, hj, hmissing, -⟩ := hs.hole_inside hend hnot
    exact hmissing (hvalid j hj).1
  have hlt := hs.lt_iff hend hdense
  have hroom : s.numberOfProcessors ≤ s.listOfSystemMPs.length := by
    by_contra hnot
    have hlast := (hvalid s.listOfSystemMPs.length (by omega)).2
    rw [List.getElem?_eq_none (Nat.le_refl _)] at hlast
    cases hlast
  refine ⟨hanswers.1, hanswers.2.1, hanswers.2.2.1, hanswers.2.2.2, (hs.room_iff hend hdense).mp hroom, hdense, ?_,
    (hlt 1).mp htwo, ?_⟩
  · intro k hk
    apply hs.known k
    by_contra hnever
    have hnone := missing_eq_zero (fun j hj => hdense j (by show j + 1 < fw.getNumberOfProcessors.2.toNat; omega) :
      ∀ j < s.i, fw.Exists j)
    have hbound : s.numberOfProcessors + fw.missing s.i = fw.getNumberOfProcessors.2.toNat := hs.bound
    omega
  · obtain ⟨hi', hexists⟩ := (hlt i).mp hi
    refine ⟨i, hi', hexists, ?_⟩
    rw [(hvalid i hi).2] at hmp
    rw [← Option.some.inj hmp] at hap
    exact hap

/-- InitializeThreading leaves threading as it says exactly when it does not find the protocol or everything
    behind that goes well, with no processor missing before the last one. -/
theorem initializeThreading_consistent_iff (fw : MpServices) :
    ∃ r, initializeThreading fw .initial = some r ∧
      (fw.Consistent r ↔ fw.locateProtocol.isError = true ∨ fw.Complete) := by
  obtain ⟨r, hr⟩ := initializeThreading_ends fw .initial
  refine ⟨r, hr, ?_⟩
  rcases initializeThreading_cases hr with ⟨herror, rfl⟩ | ⟨hlocate, herror, hglobals, hwhy⟩ |
    ⟨hanswers, s, hs, hend, rfl⟩
  · refine iff_of_true ⟨fun _ => ⟨rfl, rfl⟩, ?_⟩ (Or.inl herror)
    intro henabled
    cases henabled
  · refine iff_of_false ?_ ?_
    · intro hconsistent
      obtain ⟨hdisabled, -⟩ := hconsistent.1 herror
      rw [hglobals] at hdisabled
      cases hdisabled
    · intro hcond
      rcases hcond with hmissing | hcomplete
      · rw [hlocate] at hmissing
        cases hmissing
      · rcases hwhy with hcount | hwho | hpool | ⟨j, hj, hnot, hfound⟩
        · rw [hcomplete.getNumberOfProcessors] at hcount
          cases hcount
        · rw [hcomplete.whoAmI] at hwho
          cases hwho
        · rw [hcomplete.allocateZeroPool] at hpool
          cases hpool
        · rcases Nat.lt_or_ge (j + 1) fw.getNumberOfProcessors.2.toNat with hbefore | hlast
          · exact hnot (hcomplete.dense j hbefore)
          · rcases hcomplete.last j (Nat.le_antisymm hj hlast) with hexists | hmissing
            · exact hnot hexists
            · exact hfound hmissing
  · constructor
    · intro hconsistent
      exact Or.inr (hs.complete hend hanswers (hconsistent.2 rfl))
    · intro hcond
      rcases hcond with herror | hcomplete
      · rw [hanswers.1] at herror
        cases herror
      · refine ⟨?_, fun _ => hs.usable hend hcomplete _⟩
        intro herror
        cases herror

/-- The protocol is there, but the processors cannot be counted. -/
def countFails : MpServices := { bothPresent with getNumberOfProcessors := (.deviceError, 0) }

/-- The error leaves threading enabled, for 2^64 - 1 threads. -/
theorem countFails_enabled :
    ∃ r, initializeThreading countFails .initial = some r ∧ r.1.isError = true ∧ r.2.isThreadingEnabled = true ∧
      r.2.getThreadLimit.toNat = 2 ^ 64 - 1 ∧ ¬ countFails.Consistent r := by
  refine ⟨(.deviceError, ⟨true, 0, 0, []⟩), rfl, rfl, rfl, by decide, ?_⟩
  intro hconsistent
  obtain ⟨hdisabled, -⟩ := hconsistent.1 rfl
  cases hdisabled

end Crows.Boot.Threading
