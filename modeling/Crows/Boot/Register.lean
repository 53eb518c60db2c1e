/-
  Crows.Boot.Register — RamDiskRegister with the NFIT, and what it undoes where it fails.

  A call hands the firmware's answers to each call that RamDiskRegister makes (`Answers`),
  and changes the handle database, the ACPI tables and the pool (`Firmware`). The pool is
  the blocks allocated since the call began, so an interface that was there before refers
  to none of them.

  Proved, for all arguments and all combinations of answers:
  - `register_atomic_iff`: a call that returns an error leaves everything as it was,
    and every block freed, exactly when it does not come past the installation of the
    block protocols and fail behind it (`FailsInstalled`): the error exit frees what the
    interfaces refer to, and the errors of the NFIT leave by a return of their own.
  - `connect_failure_dangles`: no driver connects, and the interfaces that stay refer to
    freed blocks.
-/

import Crows.Boot.RamDisk
import Crows.Lib.Loop
import Crows.Lib.Pool

namespace Crows.Boot.Register

open Crows.Lib
open Crows.Boot.RamDisk

/-! ## The firmware -/

inductive BlockUse where
  | privateData | devNode | devicePath | pathString | memoryMap | nfit
  deriving DecidableEq, Repr

inductive Protocol where
  | blockIo | blockIo2 | devicePath
  deriving DecidableEq, Repr

/-- An interface in the handle database: one from before the call, or one that is in a block of it. -/
inductive Interface where
  | existing (id : Nat)
  | installed (protocol : Protocol) (block : Nat)
  deriving DecidableEq, Repr

inductive AcpiTable where
  | existing (id : Nat)
  | ssdt
  | nfit (base size : UInt64)
  deriving DecidableEq, Repr

structure Firmware where
  interfaces : List Interface
  tables : List AcpiTable
  pool : Pool BlockUse
  deriving DecidableEq

/-- As the call finds it. -/
def Firmware.before (interfaces tables : List Nat) : Firmware :=
  ⟨interfaces.map .existing, tables.map .existing, []⟩

def Firmware.alloc (s : Firmware) (use : BlockUse) : Firmware := { s with pool := s.pool.alloc use }

def Firmware.free (s : Firmware) (block : Nat) : Firmware := { s with pool := s.pool.free block }

def Firmware.installTable (s : Firmware) (table : AcpiTable) : Firmware := { s with tables := s.tables ++ [table] }

structure MemoryDescriptor where
  physicalStart : UInt64
  numberOfPages : UInt64
  deriving DecidableEq, Repr

/-- What one turn of the loop around GetMemoryMap is answered. -/
structure MapAnswer where
  allocated : Bool
  status : EfiStatus
  descriptors : List MemoryDescriptor

/-- What the calls are answered; an allocation is answered by whether there is a block. -/
structure Answers where
  privateData : Bool
  devNode : Bool
  appendDevicePathNode : Bool
  devicePathToStr : Bool
  installInterfaces : EfiStatus
  connectController : EfiStatus
  /-- gAcpiTableProtocol is not NULL. -/
  acpi : Bool
  getMemoryMap : Nat → MapAnswer
  installSsdt : EfiStatus
  nfit : Bool
  installNfit : EfiStatus

variable (L : EfiLib)

def efiPageSize : UInt64 := 4096

/-! ## RamDiskPublishNfit -/

/-- One turn of the loop around GetMemoryMap, which has taken `k` turns before: the result is the error it
    ends with, or the map and the block that holds it. -/
def mapTurn (answers : Answers) (turn : Nat × Firmware) :
    Turn (Nat × Firmware) (Except EfiStatus (List MemoryDescriptor × Nat) × Firmware) :=
  let (k, s) := turn
  let answer := answers.getMemoryMap k
  if answer.allocated then
    let block := s.pool.length
    let s := s.alloc .memoryMap
    let s := if answer.status.isError then s.free block else s
    if answer.status = .bufferTooSmall then .again (k + 1, s)
    else if answer.status.isError then .done (.error answer.status, s)
    else .done (.ok (answer.descriptors, block), s)
  else .done (.error .outOfResources, s)

/-- The search for a descriptor that covers the ramdisk. -/
def memoryFound (ramDiskBase ramDiskSize : UInt64) (descriptors : List MemoryDescriptor) : Bool :=
  descriptors.any fun d =>
    decide (d.physicalStart ≤ ramDiskBase ∧
      ramDiskBase + ramDiskSize ≤ d.physicalStart + L.multU64x32 d.numberOfPages efiPageSize)

/-- What follows the loop. -/
def publishTables (answers : Answers) (ramDiskBase ramDiskSize : UInt64)
    (map : List MemoryDescriptor × Nat) (s : Firmware) : EfiStatus × Firmware :=
  let s := s.free map.2
  if memoryFound L ramDiskBase ramDiskSize map.1 = false then (.notFound, s)
  else if answers.installSsdt.isError then (answers.installSsdt, s)
  else
    let s := s.installTable .ssdt
    if answers.nfit then
      let nfit := s.pool.length
      let s := s.alloc .nfit
      let s := if answers.installNfit.isError then s else s.installTable (.nfit ramDiskBase ramDiskSize)
      (answers.installNfit, s.free nfit)
    else (.outOfResources, s)

def ramDiskPublishNfit (fuel : Nat) (answers : Answers) (ramDiskBase ramDiskSize : UInt64) (s : Firmware) :
    Option (EfiStatus × Firmware) :=
  match loop (mapTurn answers) fuel (0, s) with
  | none => none
  | some (.error status, s) => some (status, s)
  | some (.ok map, s) => some (publishTables L answers ramDiskBase ramDiskSize map s)

/-! ## RamDiskRegister -/

/-- The error exit: the device node, the device path if there is one, the private data. -/
def errorExit (status : EfiStatus) (privateData : Nat) (devNode devicePath : Option Nat) (s : Firmware) :
    EfiStatus × Firmware :=
  let s := (devNode.map s.free).getD s
  let s := (devicePath.map s.free).getD s
  (status, s.free privateData)

/-- `none` is a call that does not return: no ACPI protocol is a panic. -/
def ramDiskRegister (fuel : Nat) (answers : Answers) (ramDiskBase ramDiskSize : UInt64)
    (ramDiskType : Option EfiGuid) (devicePath : Addr) (s : Firmware) : Option (EfiStatus × Firmware) :=
  let checks := ramDiskRegisterChecks ramDiskBase ramDiskSize ramDiskType devicePath
  if checks ≠ .success then some (checks, s)
  else if answers.privateData = false then some (.outOfResources, s)
  else
    let privateData := s.pool.length
    let s := s.alloc .privateData
    if answers.devNode = false then some (errorExit .outOfResources privateData none none s)
    else
      let devNode := s.pool.length
      let s := s.alloc .devNode
      if answers.appendDevicePathNode = false then
        some (errorExit .outOfResources privateData (some devNode) none s)
      else
        let path := s.pool.length
        let s := s.alloc .devicePath
        -- the string that DevicePathToStr makes of the path is printed and freed
        let s := if answers.devicePathToStr then (s.alloc .pathString).free s.pool.length else s
        if answers.installInterfaces.isError then
          some (errorExit answers.installInterfaces privateData (some devNode) (some path) s)
        else
          let s := { s with interfaces := s.interfaces ++ [.installed .blockIo privateData,
            .installed .blockIo2 privateData, .installed .devicePath path] }
          if answers.connectController.isError then
            some (errorExit answers.connectController privateData (some devNode) (some path) s)
          else
            let s := s.free devNode
            if answers.acpi then
              match ramDiskPublishNfit L fuel answers ramDiskBase ramDiskSize s with
              | none => none
              | some (status, s) => if status.isError then some (status, s) else some (.success, s)
            else none

variable {L} {answers : Answers} {ramDiskBase ramDiskSize : UInt64}

/-! ## When the NFIT is not published -/

/-- The loop around GetMemoryMap goes round again behind turn `k`. -/
def Grows (answers : Answers) (k : Nat) : Prop :=
  (answers.getMemoryMap k).allocated = true ∧ (answers.getMemoryMap k).status = .bufferTooSmall

variable (L answers ramDiskBase ramDiskSize) in
/-- One of the calls of RamDiskPublishNfit fails, or the search for the ramdisk's memory. -/
def NfitFails : Prop :=
  ∃ k, (∀ i < k, Grows answers i) ∧ ¬ Grows answers k ∧
    ((answers.getMemoryMap k).allocated = false ∨ (answers.getMemoryMap k).status.isError = true ∨
      memoryFound L ramDiskBase ramDiskSize (answers.getMemoryMap k).descriptors = false ∨
      answers.installSsdt.isError = true ∨ answers.nfit = false ∨ answers.installNfit.isError = true)

/-- What the last turn, turn `k`, hands to the rest of RamDiskPublishNfit. -/
def MapEnds (answers : Answers) (k : Nat) : Except EfiStatus (List MemoryDescriptor × Nat) → Prop
  | .error status => status.isError = true ∧
      ((answers.getMemoryMap k).allocated = false ∨ (answers.getMemoryMap k).status.isError = true)
  | .ok map => (answers.getMemoryMap k).allocated = true ∧ (answers.getMemoryMap k).status.isError = false ∧
      map.1 = (answers.getMemoryMap k).descriptors

/-- One turn goes round again or is the last; it keeps the interfaces. -/
theorem mapTurn_cases (answers : Answers) (k : Nat) (s : Firmware) :
    (∃ s', mapTurn answers (k, s) = .again (k + 1, s') ∧ Grows answers k ∧ s'.interfaces = s.interfaces) ∨
    (∃ result s', mapTurn answers (k, s) = .done (result, s') ∧ ¬ Grows answers k ∧
      MapEnds answers k result ∧ s'.interfaces = s.interfaces) := by
  by_cases hallocated : (answers.getMemoryMap k).allocated = true
  · by_cases hsmall : (answers.getMemoryMap k).status = .bufferTooSmall
    · refine .inl ⟨(s.alloc .memoryMap).free s.pool.length, ?_, ⟨hallocated, hsmall⟩, rfl⟩
      simp only [mapTurn, hallocated, hsmall, EfiStatus.isError, if_true]
    · have hgrows : ¬ Grows answers k := fun h => hsmall h.2
      by_cases herror : (answers.getMemoryMap k).status.isError = true
      · refine .inr ⟨.error (answers.getMemoryMap k).status, (s.alloc .memoryMap).free s.pool.length, ?_, hgrows,
          ⟨herror, .inr herror⟩, rfl⟩
        simp only [mapTurn, hallocated, hsmall, herror, if_true, if_false]
      · refine .inr ⟨.ok ((answers.getMemoryMap k).descriptors, s.pool.length), s.alloc .memoryMap, ?_, hgrows,
          ⟨hallocated, Bool.not_eq_true _ ▸ herror, rfl⟩, rfl⟩
        simp only [mapTurn, hallocated, hsmall, herror, if_true, if_false]
        rfl
  · have hnone : (answers.getMemoryMap k).allocated = false := Bool.not_eq_true _ ▸ hallocated
    refine .inr ⟨.error .outOfResources, s, ?_, fun h => hallocated h.1, ⟨rfl, .inl hnone⟩, rfl⟩
    simp only [mapTurn, hnone]
    rfl

/-- By induction on the turns: the loop ends with the first one that does not go round again. -/
theorem mapLoop_returns {k : Nat} {s s' : Firmware} {result : Except EfiStatus (List MemoryDescriptor × Nat)}
    (h : Returns (mapTurn answers) (k, s) (result, s')) :
    s'.interfaces = s.interfaces ∧
      ∃ j ≥ k, (∀ i, k ≤ i → i < j → Grows answers i) ∧ ¬ Grows answers j ∧ MapEnds answers j result := by
  refine Returns.turns (P := fun turn : Nat × Firmware => s'.interfaces = turn.2.interfaces ∧
    ∃ j ≥ turn.1, (∀ i, turn.1 ≤ i → i < j → Grows answers i) ∧ ¬ Grows answers j ∧ MapEnds answers j result)
    ?_ ?_ h
  · rintro ⟨k, s⟩ hdone
    obtain ⟨s'', hagain, -, -⟩ | ⟨result', s'', hdone', hgrows, hends, hkept⟩ := mapTurn_cases answers k s
    · rw [hagain] at hdone
      cases hdone
    · rw [hdone'] at hdone
      cases hdone
      exact ⟨hkept, k, Nat.le_refl k, fun i hki hik => absurd hik (Nat.not_lt.mpr hki), hgrows, hends⟩
  · rintro ⟨k, s⟩ next hturn ⟨hkept, j, hj, hbefore, hrest⟩
    obtain ⟨s'', hagain, hgrows, hkept'⟩ | ⟨result', s'', hdone', -, -, -⟩ := mapTurn_cases answers k s
    · rw [hagain] at hturn
      cases hturn
      refine ⟨hkept.trans hkept', j, Nat.le_of_succ_le hj, ?_, hrest⟩
      intro i hki hij
      rcases Nat.eq_or_lt_of_le hki with heq | hlt
      · exact heq ▸ hgrows
      · exact hbefore i hlt hij
    · rw [hdone'] at hturn
      cases hturn

theorem mapLoop_ends {j k : Nat} (hle : k ≤ j) (hbefore : ∀ i, k ≤ i → i < j → Grows answers i)
    (hlast : ¬ Grows answers j) (s : Firmware) : ∃ result, Returns (mapTurn answers) (k, s) result := by
  induction hmore : j - k generalizing k s with
  | zero =>
    have hjk : k = j := by omega
    subst hjk
    obtain ⟨-, -, hgrows, -⟩ | ⟨result, s', hdone, -⟩ := mapTurn_cases answers k s
    · exact absurd hgrows hlast
    · exact ⟨_, (returns_done hdone).mpr rfl⟩
  | succ more ih =>
    have hgrows : Grows answers k := hbefore k (Nat.le_refl k) (by omega)
    obtain ⟨s', hagain, -⟩ | ⟨-, -, -, hgrows', -⟩ := mapTurn_cases answers k s
    · have hrest : ∀ i, k + 1 ≤ i → i < j → Grows answers i := fun i hki hij => hbefore i (by omega) hij
      obtain ⟨result, hresult⟩ := ih (by omega) hrest s' (by omega)
      exact ⟨result, (returns_again hagain).mpr hresult⟩
    · exact absurd hgrows hgrows'

variable (L answers ramDiskBase ramDiskSize) in
theorem publishTables_isError (map : List MemoryDescriptor × Nat) (s : Firmware) :
    (publishTables L answers ramDiskBase ramDiskSize map s).1.isError = true ↔
      memoryFound L ramDiskBase ramDiskSize map.1 = false ∨ answers.installSsdt.isError = true ∨
        answers.nfit = false ∨ answers.installNfit.isError = true := by
  unfold publishTables
  cases memoryFound L ramDiskBase ramDiskSize map.1 with
  | false => exact ⟨fun _ => .inl rfl, fun _ => rfl⟩
  | true =>
    by_cases hssdt : answers.installSsdt.isError = true
    · simp [hssdt]
    · cases answers.nfit with
      | false =>
        rw [if_neg (by decide), if_neg hssdt]
        exact ⟨fun _ => .inr (.inr (.inl rfl)), fun _ => rfl⟩
      | true => simp [hssdt]

variable (L answers ramDiskBase ramDiskSize) in
theorem publishTables_interfaces (map : List MemoryDescriptor × Nat) (s : Firmware) :
    (publishTables L answers ramDiskBase ramDiskSize map s).2.interfaces = s.interfaces := by
  unfold publishTables
  dsimp only
  repeat' split
  all_goals rfl

/-- RamDiskPublishNfit leaves the interfaces, and an error of it is one of `NfitFails`. -/
theorem publishNfit_returns {fuel : Nat} {s s' : Firmware} {status : EfiStatus}
    (h : ramDiskPublishNfit L fuel answers ramDiskBase ramDiskSize s = some (status, s')) :
    s'.interfaces = s.interfaces ∧
      (status.isError = true ↔ NfitFails L answers ramDiskBase ramDiskSize) := by
  unfold ramDiskPublishNfit at h
  cases hloop : loop (mapTurn answers) fuel (0, s) with
  | none =>
    rw [hloop] at h
    cases h
  | some ended =>
    obtain ⟨result, s₁⟩ := ended
    rw [hloop] at h
    obtain ⟨hkept, j, -, hbefore, hlast, hends⟩ := mapLoop_returns ⟨fuel, hloop⟩
    -- the turn the loop ends with is the only one that `NfitFails` can be about
    have honly : ∀ k, (∀ i < k, Grows answers i) → ¬ Grows answers k → k = j := by
      intro k hk hk'
      rcases Nat.lt_trichotomy k j with hlt | heq | hgt
      · exact absurd (hbefore k (Nat.zero_le k) hlt) hk'
      · exact heq
      · exact absurd (hk j hgt) hlast
    cases result with
    | error status' =>
      cases h
      refine ⟨hkept, fun _ => ⟨j, fun i hi => hbefore i (Nat.zero_le i) hi, hlast, ?_⟩, fun _ => hends.1⟩
      exact hends.2.imp_right .inl
    | ok map =>
      obtain ⟨hallocated, hstatus, hmap⟩ := hends
      rw [Option.some.injEq] at h
      have hfst := publishTables_isError L answers ramDiskBase ramDiskSize map s₁
      have hsnd := publishTables_interfaces L answers ramDiskBase ramDiskSize map s₁
      rw [h] at hfst hsnd
      refine ⟨hsnd.trans hkept, ?_⟩
      rw [hfst, hmap]
      constructor
      · intro hfails
        exact ⟨j, fun i hi => hbefore i (Nat.zero_le i) hi, hlast, .inr (.inr hfails)⟩
      · rintro ⟨k, hk, hk', hfails⟩
        obtain rfl := honly k hk hk'
        rw [hallocated, hstatus] at hfails
        rcases hfails with hfail | hfail | hfail
        · cases hfail
        · cases hfail
        · exact hfail

theorem publishNfit_ends (h : NfitFails L answers ramDiskBase ramDiskSize) (s : Firmware) :
    ∃ fuel result, ramDiskPublishNfit L fuel answers ramDiskBase ramDiskSize s = some result := by
  obtain ⟨k, hbefore, hlast, -⟩ := h
  obtain ⟨⟨result, s'⟩, fuel, hloop⟩ :=
    mapLoop_ends (Nat.zero_le k) (fun i _ hi => hbefore i hi) hlast s
  refine ⟨fuel, ?_⟩
  unfold ramDiskPublishNfit
  rw [hloop]
  cases result with
  | error status => exact ⟨_, rfl⟩
  | ok map => exact ⟨_, rfl⟩

/-! ## When a failed call leaves nothing behind -/

/-- The handle database and the ACPI tables are as before, no interface is in a freed block, and every block
    is freed. -/
structure RolledBack (before after : Firmware) : Prop where
  interfaces : after.interfaces = before.interfaces
  tables : after.tables = before.tables
  noDangling : ∀ protocol block, .installed protocol block ∈ after.interfaces →
    ∃ b, after.pool[block]? = some b ∧ b.live = true
  freed : after.pool.AllFreed

variable {ramDiskType : Option EfiGuid} {devicePath : Addr}

variable (answers ramDiskBase ramDiskSize ramDiskType devicePath) in
/-- The call comes past InstallMultipleProtocolInterfaces. -/
structure Installs : Prop where
  accepted : ramDiskRegisterChecks ramDiskBase ramDiskSize ramDiskType devicePath = .success
  privateData : answers.privateData = true
  devNode : answers.devNode = true
  appendDevicePathNode : answers.appendDevicePathNode = true
  installInterfaces : answers.installInterfaces.isError = false

variable (L answers ramDiskBase ramDiskSize ramDiskType devicePath) in
/-- It does, and one of the calls behind it fails. -/
def FailsInstalled : Prop :=
  Installs answers ramDiskBase ramDiskSize ramDiskType devicePath ∧
    (answers.connectController.isError = true ∨
      answers.acpi = true ∧ NfitFails L answers ramDiskBase ramDiskSize)

theorem rolledBack_of_allFreed (interfaces tables : List Nat) (pool : Pool BlockUse) (h : pool.AllFreed) :
    RolledBack (.before interfaces tables) { Firmware.before interfaces tables with pool } where
  interfaces := rfl
  tables := rfl
  noDangling := by
    intro protocol block hmem
    obtain ⟨id, -, hid⟩ := List.mem_map.mp hmem
    cases hid
  freed := h

/-- Up to the installation every error frees what was allocated. -/
theorem register_not_installed {fuel : Nat} {interfaces tables : List Nat} {status : EfiStatus} {s' : Firmware}
    (hnot : ¬ Installs answers ramDiskBase ramDiskSize ramDiskType devicePath)
    (h : ramDiskRegister L fuel answers ramDiskBase ramDiskSize ramDiskType devicePath
      (.before interfaces tables) = some (status, s')) : RolledBack (.before interfaces tables) s' := by
  unfold ramDiskRegister at h
  dsimp only at h
  split at h
  · cases h
    exact rolledBack_of_allFreed interfaces tables [] (by decide)
  rename_i haccepted
  split at h
  · cases h
    exact rolledBack_of_allFreed interfaces tables [] (by decide)
  rename_i hprivateData
  split at h
  · cases h
    exact rolledBack_of_allFreed interfaces tables [⟨false, .privateData⟩] (by decide)
  rename_i hdevNode
  split at h
  · cases h
    exact rolledBack_of_allFreed interfaces tables [⟨false, .privateData⟩, ⟨false, .devNode⟩] (by decide)
  rename_i happend
  split at h
  · cases hstr : answers.devicePathToStr with
    | false =>
      rw [hstr] at h
      cases h
      exact rolledBack_of_allFreed interfaces tables
        [⟨false, .privateData⟩, ⟨false, .devNode⟩, ⟨false, .devicePath⟩] (by decide)
    | true =>
      rw [hstr] at h
      cases h
      exact rolledBack_of_allFreed interfaces tables
        [⟨false, .privateData⟩, ⟨false, .devNode⟩, ⟨false, .devicePath⟩, ⟨false, .pathString⟩] (by decide)
  rename_i hinstall
  exact absurd ⟨Classical.not_not.mp haccepted, Bool.not_eq_false _ ▸ hprivateData, Bool.not_eq_false _ ▸ hdevNode,
    Bool.not_eq_false _ ▸ happend, Bool.not_eq_true _ ▸ hinstall⟩ hnot

/-- As the call finds it, and the three protocols installed over the blocks 0 and 2 of the pool. -/
def Firmware.installed (interfaces tables : List Nat) (pool : Pool BlockUse) : Firmware :=
  { Firmware.before interfaces tables with
    interfaces := interfaces.map .existing ++
      [.installed .blockIo 0, .installed .blockIo2 0, .installed .devicePath 2]
    pool }

/-- What the call does behind the installation. -/
theorem register_installed (interfaces tables : List Nat)
    (h : Installs answers ramDiskBase ramDiskSize ramDiskType devicePath) :
    ∃ pool, ∀ fuel, ramDiskRegister L fuel answers ramDiskBase ramDiskSize ramDiskType devicePath
          (.before interfaces tables) =
        let s := Firmware.installed interfaces tables pool
        if answers.connectController.isError then
          some (errorExit answers.connectController 0 (some 1) (some 2) s)
        else if answers.acpi then
          match ramDiskPublishNfit L fuel answers ramDiskBase ramDiskSize (s.free 1) with
          | none => none
          | some (status, s) => if status.isError then some (status, s) else some (.success, s)
        else none := by
  obtain ⟨haccepted, hprivateData, hdevNode, happend, hinstall⟩ := h
  cases hstr : answers.devicePathToStr with
  | false =>
    refine ⟨[⟨true, .privateData⟩, ⟨true, .devNode⟩, ⟨true, .devicePath⟩], fun fuel => ?_⟩
    unfold ramDiskRegister
    rw [haccepted, hprivateData, hdevNode, happend, hinstall, hstr]
    rfl
  | true =>
    refine ⟨[⟨true, .privateData⟩, ⟨true, .devNode⟩, ⟨true, .devicePath⟩, ⟨false, .pathString⟩], fun fuel => ?_⟩
    unfold ramDiskRegister
    rw [haccepted, hprivateData, hdevNode, happend, hinstall, hstr]
    rfl

theorem installed_interfaces_ne (interfaces tables : List Nat) (pool : Pool BlockUse) :
    (Firmware.installed interfaces tables pool).interfaces ≠ (Firmware.before interfaces tables).interfaces := by
  intro heq
  have hlength := congrArg List.length heq
  simp only [Firmware.installed, Firmware.before, List.length_append, List.length_cons] at hlength
  omega

/-- A failure behind the installation leaves the interfaces in the handle database. -/
theorem register_fails_installed (interfaces tables : List Nat)
    (h : FailsInstalled L answers ramDiskBase ramDiskSize ramDiskType devicePath) :
    ∃ fuel status s', ramDiskRegister L fuel answers ramDiskBase ramDiskSize ramDiskType devicePath
        (.before interfaces tables) = some (status, s') ∧ status.isError = true ∧
      s'.interfaces ≠ (Firmware.before interfaces tables).interfaces := by
  obtain ⟨hinstalls, hfails⟩ := h
  obtain ⟨pool, hcall⟩ := register_installed (L := L) interfaces tables hinstalls
  by_cases hconnect : answers.connectController.isError = true
  · refine ⟨0, _, _, (hcall 0).trans (if_pos hconnect), hconnect, ?_⟩
    exact installed_interfaces_ne interfaces tables pool
  · obtain ⟨hacpi, hnfit⟩ := hfails.resolve_left hconnect
    obtain ⟨fuel, ⟨status, s'⟩, hpublish⟩ := publishNfit_ends hnfit ((Firmware.installed interfaces tables pool).free 1)
    obtain ⟨hkept, hstatus⟩ := publishNfit_returns hpublish
    have herror : status.isError = true := hstatus.mpr hnfit
    refine ⟨fuel, status, s', ?_, herror, ?_⟩
    · rw [hcall fuel]
      dsimp only
      rw [if_neg hconnect, if_pos hacpi, hpublish]
      exact if_pos herror
    · rw [hkept]
      exact installed_interfaces_ne interfaces tables pool

/-- With the protocols installed, an error is one of a call behind the installation. -/
theorem failsInstalled_of_error {fuel : Nat} {interfaces tables : List Nat} {status : EfiStatus} {s' : Firmware}
    (hinstalls : Installs answers ramDiskBase ramDiskSize ramDiskType devicePath)
    (h : ramDiskRegister L fuel answers ramDiskBase ramDiskSize ramDiskType devicePath
      (.before interfaces tables) = some (status, s')) (herror : status.isError = true) :
    FailsInstalled L answers ramDiskBase ramDiskSize ramDiskType devicePath := by
  refine ⟨hinstalls, ?_⟩
  obtain ⟨pool, hcall⟩ := register_installed (L := L) interfaces tables hinstalls
  rw [hcall fuel] at h
  dsimp only at h
  split at h
  · rename_i hconnect
    exact .inl hconnect
  · split at h
    · rename_i hacpi
      refine .inr ⟨hacpi, ?_⟩
      cases hpublish : ramDiskPublishNfit L fuel answers ramDiskBase ramDiskSize
          ((Firmware.installed interfaces tables pool).free 1) with
      | none =>
        rw [hpublish] at h
        cases h
      | some published =>
        obtain ⟨status', s''⟩ := published
        rw [hpublish] at h
        obtain ⟨-, hstatus⟩ := publishNfit_returns hpublish
        dsimp only at h
        split at h
        · rename_i herror'
          exact hstatus.mp herror'
        · -- what comes back is success
          cases h
          cases herror
    · cases h

/-- An error leaves nothing behind exactly if it is not one of a call behind the installation. -/
theorem register_atomic_iff (L : EfiLib) (answers : Answers) (ramDiskBase ramDiskSize : UInt64)
    (ramDiskType : Option EfiGuid) (devicePath : Addr) (interfaces tables : List Nat) :
    (∀ fuel status s', ramDiskRegister L fuel answers ramDiskBase ramDiskSize ramDiskType devicePath
        (.before interfaces tables) = some (status, s') → status.isError = true →
        RolledBack (.before interfaces tables) s') ↔
      ¬ FailsInstalled L answers ramDiskBase ramDiskSize ramDiskType devicePath := by
  constructor
  · intro hatomic hfails
    obtain ⟨fuel, status, s', hcall, herror, hleft⟩ := register_fails_installed interfaces tables hfails
    exact hleft (hatomic fuel status s' hcall herror).interfaces
  · intro hnot fuel status s' hcall herror
    by_cases hinstalls : Installs answers ramDiskBase ramDiskSize ramDiskType devicePath
    · exact absurd (failsInstalled_of_error hinstalls hcall herror) hnot
    · exact register_not_installed hinstalls hcall

/-- Everything is answered well but ConnectController, which finds no driver. -/
def noDriver : Answers where
  privateData := true
  devNode := true
  appendDevicePathNode := true
  devicePathToStr := true
  installInterfaces := .success
  connectController := .notFound
  acpi := true
  getMemoryMap _ := ⟨true, .success, []⟩
  installSsdt := .success
  nfit := true
  installNfit := .success

/-- A ramdisk of one block, no driver connects: the interfaces stay, in blocks that are freed. -/
theorem connect_failure_dangles : ∃ s',
    ramDiskRegister gnuEfi 0 noDriver 0x100000 512 (some gEfiRamdiskVirtualDiskGuid) 0x8000 (.before [] []) =
      some (.notFound, s') ∧
    .installed .blockIo 0 ∈ s'.interfaces ∧ s'.pool[0]? = some ⟨false, .privateData⟩ ∧
    ¬ RolledBack (.before [] []) s' := by
  refine ⟨⟨[.installed .blockIo 0, .installed .blockIo2 0, .installed .devicePath 2], [],
    [⟨false, .privateData⟩, ⟨false, .devNode⟩, ⟨false, .devicePath⟩, ⟨false, .pathString⟩]⟩,
    by decide, by decide, by decide, ?_⟩
  intro hrolled
  have hinterfaces := hrolled.interfaces
  cases hinterfaces

end Crows.Boot.Register
