/-
  Crows.Boot.Main — efi_main from the menu to the end of the password loop, with all the
  memory that a password goes through.

  An event is one call of SelectPayload or one round of the password loop, with what the
  user types in it and what the firmware answers. A handle that DiscoverPayloads opens is
  at the beginning of its file. The fields of the state under "read by no step" say what
  the library was handed so far.

  Proved, for every state of every run:
  - `payload_loaded`: the buffer that create_payload is handed is the file, and nothing
    around it was written.
  - `password_is_typed`: check_password is handed the edited line of its round, decrypt
    that of the last round, which check_password accepted.
  - `password_left_behind`: behind the loop the freed block of the last round still holds
    the accepted password. `wrong_password_left_behind` is such a run.
-/

import Crows.Boot.LoaderHash
import Crows.Boot.Password
import Crows.Lib.Transition

namespace Crows.Boot.Main

open Crows.Lib
open Crows.Boot.Input
open Crows.Boot.Select
open Crows.Boot.Menu (mftahMaxPwLen)
open Crows.Boot.Line
open Crows.Boot.Payload
open Crows.Boot.Password

/-! ## The state -/

inductive Phase where
  /-- At Label__PayloadSelectionMenu. -/
  | menu
  /-- Before a round of the password loop. -/
  | prompt
  /-- Behind the loop. -/
  | left
  /-- A panic, a restart, or a wait for keys that do not come. -/
  | stopped
  deriving DecidableEq, Repr

/-- What one call of check_password was about. -/
structure Check where
  lines : List Typed
  handed : Handed
  status : EfiStatus

/-- What LoadAndDecrypt hands create_payload, with the memory it was called with. -/
structure Created where
  file : List UInt8
  readFileSize : UInt64
  readBuffer : Addr
  before : Mem
  mem : Mem

structure State where
  phase : Phase
  operatingPayload : OperatingPayload
  payloadFileHandle : Option Handle
  /-- The file behind `payloadFileHandle`. -/
  payloadFile : EfiFile
  password : Nat → UInt8
  passwordActual : List UInt8
  passwordLengthActual : UInt8
  loadedLoaderHash : List UInt8
  loadedPayloadHash : List UInt8
  image : Image
  mem : Mem
  /-- The blocks of PasswordBufferChar8. -/
  pool : Pool (List UInt8)
  -- read by no step
  loader : List UInt8
  loaderReported : Bool
  checks : List Check
  decrypted : Option Handed
  created : Option Created

def sizeofPassword : Nat := mftahMaxPwLen.toNat * 2 + 1

def sizeofPasswordActual : Nat := mftahMaxPwLen.toNat + 1

def sizeOfSha256Hash : Nat := 32

def initial (mem : Mem) : State where
  phase := .menu
  operatingPayload := ⟨none, false⟩
  payloadFileHandle := none
  payloadFile := ⟨[], 0⟩
  password _ := 0
  passwordActual := List.replicate sizeofPasswordActual 0
  passwordLengthActual := 0
  loadedLoaderHash := List.replicate sizeOfSha256Hash 0
  loadedPayloadHash := List.replicate sizeOfSha256Hash 0
  image := ⟨0, 0⟩
  mem := mem
  pool := []
  loader := []
  loaderReported := false
  checks := []
  decrypted := none
  created := none

/-! ## main.c -/

structure Trip where
  loaderFirmware : LoaderFirmware
  loader : FileBytes
  discovered : Except EfiStatus (List Handle)
  volume : Volume
  lines : List Typed
  payloads : Handle → FileBytes

structure Round where
  lines : List Typed
  check : CheckFirmware
  load : Firmware

inductive Event where
  | select (t : Trip)
  | unlock (r : Round)

variable (S : EfiStrings) (M : MftahLoader)

/-- SelectPayload, called with the name cleared. -/
def select (t : Trip) (s : State) : State :=
  let hashed := hashLoader M.toMftahProtocol t.loaderFirmware t.loader s.loadedLoaderHash s.mem
  let s := { s with
    operatingPayload := { s.operatingPayload with name := none }
    loadedLoaderHash := hashed.loadedLoaderHash
    mem := hashed.mem
    loader := t.loader.bytes
    loaderReported := hashed.reported }
  match selectPayload S t.volume t.discovered t.lines s.operatingPayload s.payloadFileHandle with
  | .returned sel =>
    { s with
      phase := .prompt
      operatingPayload := sel.operatingPayload
      payloadFileHandle := some sel.payloadFileHandle
      payloadFile := ⟨(t.payloads sel.payloadFileHandle).bytes, 0⟩ }
  | _ => { s with phase := .stopped }

/-- SetMem of the two arrays, and out of the loop. -/
def clearPasswords (s : State) : State :=
  { s with
    phase := .left
    password := fun j => if j < sizeofPassword then 0 else s.password j
    passwordActual := List.replicate sizeofPasswordActual 0 }

/-- LoadAndDecrypt with PasswordActual, and what efi_main does with its status. -/
def load (r : Round) (s : State) : State :=
  let handed := Handed.mk s.passwordActual s.passwordLengthActual
  let created :=
    match readPayload r.load s.payloadFile s.mem with
    | .reached m _ =>
      some ⟨s.payloadFile.bytes, fileSize r.load s.payloadFile, r.load.allocatePool.2, s.mem, m⟩
    | _ => none
  let s := { s with decrypted := some handed, created }
  match loadAndDecrypt M.toMftahProtocol r.load s.payloadFile handed.bytes s.loadedPayloadHash s.image s.mem with
  | .panic => { s with phase := .stopped }
  | .ret l =>
    let s := { s with
      payloadFile := l.file, mem := l.mem, loadedPayloadHash := l.loadedPayloadHash, image := l.image }
    if l.status.isError ∨ l.image.gRamdiskImage = 0 ∨ l.image.gRamdiskImageLength = 0 then { s with phase := .stopped }
    else clearPasswords s

/-- The state with what CheckPassword has changed. -/
def checked (lines : List Typed) (c : Checked) (s : State) : State :=
  { s with
    payloadFile := c.file
    mem := c.mem
    pool := c.pool
    passwordActual := c.passwordActual
    passwordLengthActual := c.passwordLengthActual
    checks := s.checks ++ (c.handed.map fun handed => ⟨lines, handed, c.status⟩).toList }

/-- What efi_main does with the status of CheckPassword. -/
def judge (r : Round) (c : Checked) (s : State) : State :=
  if c.status = .invalidPassword then s
  else if c.status.isError then { s with phase := .stopped }
  else load M r s

/-- A round of the password loop. -/
def unlock (r : Round) (s : State) : State :=
  match getPasswordCells S s.operatingPayload r.lines with
  | .returned read =>
    let s := { s with password := bytesOf read.password }
    match read.passLen with
    | none => { s with phase := .menu, payloadFileHandle := none }
    | some passLen =>
      match checkPassword M r.check s.payloadFile s.password passLen s.passwordActual s.passwordLengthActual s.mem
          s.pool with
      | .returned c => judge M r c (checked r.lines c s)
      | _ => { s with phase := .stopped }
  | _ => { s with phase := .stopped }

def next (s : State) : Event → State
  | .select t => select S M t s
  | .unlock r => unlock S M r s

def enabled (s : State) : Event → Prop
  | .select _ => s.phase = .menu
  | .unlock _ => s.phase = .prompt

def system : System State Event := ⟨fun s => ∃ mem, s = initial mem, enabled, next S M⟩

abbrev Reachable (s : State) : Prop := Reach (system S M) (fun _ _ => True) s

variable {S M}

/-! ## What a round does -/

/-- The library is handed the edited line of the round, one byte for each character, and a NUL behind it. -/
def IsTyped (x : Check) : Prop :=
  ∃ line, roundLine x.lines = some line ∧ x.handed.buffer = line.map UInt16.toUInt8 ++ [0] ∧
    x.handed.length.toNat = line.length

theorem handedOf_cells {n : UInt8} (h : n ≤ mftahMaxPwLen) (cells : Nat → Char16) :
    handedOf (bytesOf cells) (n * 2) = ⟨(held cells n).map UInt16.toUInt8 ++ [0], n⟩ := by
  have hnat : n.toNat ≤ 32 := h
  have hhalf : n * 2 / 2 = n := by
    rw [← UInt8.toNat_inj, UInt8.toNat_div, UInt8.toNat_mul]
    simp
    omega
  simp [handedOf, hhalf, held]

theorem IsTyped.bytes {x : Check} {line : List Char16} (hbuffer : x.handed.buffer = line.map UInt16.toUInt8 ++ [0])
    (hlength : x.handed.length.toNat = line.length) : x.handed.bytes = line.map UInt16.toUInt8 := by
  simp [Handed.bytes, hbuffer, hlength]

/-- A round that comes to CheckPassword, which answers `c`. -/
structure Comes (S : EfiStrings) (M : MftahLoader) (r : Round) (s : State) (cells : Nat → Char16) (n : UInt8)
    (c : Checked) : Prop where
  le : n ≤ mftahMaxPwLen
  line : roundLine r.lines = some (held cells n)
  check : checkPassword M r.check s.payloadFile (bytesOf cells) (n * 2) s.passwordActual s.passwordLengthActual s.mem
    s.pool = .returned c
  unlock : unlock S M r s = judge M r c (checked r.lines c { s with password := bytesOf cells })

/-- It comes to CheckPassword, or nothing but the Password array and the phase change. -/
theorem unlock_cases (S : EfiStrings) (M : MftahLoader) (r : Round) (s : State) :
    (∃ cells n c, Comes S M r s cells n c) ∨
    (∃ password, unlock S M r s = { s with password, phase := .menu, payloadFileHandle := none }) ∨
    ∃ password, unlock S M r s = { s with password, phase := .stopped } := by
  cases hread : getPasswordCells S s.operatingPayload r.lines with
  | returned read =>
    rcases getPasswordCells_line hread with ⟨-, hnone⟩ | ⟨-, n, hle, hsome, -, hline⟩
    · refine .inr (.inl ⟨bytesOf read.password, ?_⟩)
      simp only [unlock, hread, hnone]
    · cases hcheck : checkPassword M r.check s.payloadFile (bytesOf read.password) (n * 2) s.passwordActual
          s.passwordLengthActual s.mem s.pool with
      | returned c =>
        refine .inl ⟨read.password, n, c, hle, hline, hcheck, ?_⟩
        simp only [unlock, hread, hsome, hcheck]
      | panicked =>
        refine .inr (.inr ⟨bytesOf read.password, ?_⟩)
        simp only [unlock, hread, hsome, hcheck]
      | shutDown =>
        refine .inr (.inr ⟨bytesOf read.password, ?_⟩)
        simp only [unlock, hread, hsome, hcheck]
      | faulted =>
        refine .inr (.inr ⟨bytesOf read.password, ?_⟩)
        simp only [unlock, hread, hsome, hcheck]
      | waiting =>
        refine .inr (.inr ⟨bytesOf read.password, ?_⟩)
        simp only [unlock, hread, hsome, hcheck]
  | panicked => exact .inr (.inr ⟨s.password, by simp only [unlock, hread]⟩)
  | shutDown => exact .inr (.inr ⟨s.password, by simp only [unlock, hread]⟩)
  | faulted => exact .inr (.inr ⟨s.password, by simp only [unlock, hread]⟩)
  | waiting => exact .inr (.inr ⟨s.password, by simp only [unlock, hread]⟩)

/-- What LoadAndDecrypt hands create_payload when it is called in `s`. -/
def createdIn (r : Round) (s : State) : Option Created :=
  match readPayload r.load s.payloadFile s.mem with
  | .reached m _ => some ⟨s.payloadFile.bytes, fileSize r.load s.payloadFile, r.load.allocatePool.2, s.mem, m⟩
  | _ => none

/-- What stays through LoadAndDecrypt, and what it is recorded to hand on. -/
structure LoadSpec (M : MftahLoader) (r : Round) (s s' : State) : Prop where
  checks : s'.checks = s.checks
  pool : s'.pool = s.pool
  loader : s'.loader = s.loader
  loaderReported : s'.loaderReported = s.loaderReported
  loadedLoaderHash : s'.loadedLoaderHash = s.loadedLoaderHash
  decrypted : s'.decrypted = some ⟨s.passwordActual, s.passwordLengthActual⟩
  created : s'.created = createdIn r s
  ends : s'.phase = .stopped ∨ s'.phase = .left ∧
    s'.password = (fun j => if j < sizeofPassword then 0 else s.password j) ∧
    s'.passwordActual = List.replicate sizeofPasswordActual 0 ∧
    ∃ x, createdIn r s = some x ∧ s'.loadedPayloadHash = (M.createHash x.mem x.readBuffer x.readFileSize).2

theorem load_spec (M : MftahLoader) (r : Round) (s : State) : LoadSpec M r s (load M r s) := by
  unfold load
  dsimp only
  rw [loadAndDecrypt_eq]
  cases hread : readPayload r.load s.payloadFile s.mem with
  | panic => exact ⟨rfl, rfl, rfl, rfl, rfl, rfl, by simp only [createdIn, hread], .inl rfl⟩
  | failed status m f =>
    have hcreated : createdIn r s = none := by simp only [createdIn, hread]
    have herror : status.isError = true := by
      unfold readPayload at hread
      dsimp only at hread
      split at hread
      · cases hread
        rfl
      split at hread
      · cases hread
      split at hread
      · rename_i herror
        cases hread
        exact herror
      · cases hread
    dsimp only
    rw [if_pos (Or.inl herror)]
    exact ⟨rfl, rfl, rfl, rfl, rfl, rfl, hcreated.symm, .inl rfl⟩
  | reached m f =>
    have hcreated : createdIn r s =
        some ⟨s.payloadFile.bytes, fileSize r.load s.payloadFile, r.load.allocatePool.2, s.mem, m⟩ := by
      simp only [createdIn, hread]
    dsimp only
    split
    · exact ⟨rfl, rfl, rfl, rfl, rfl, rfl, hcreated.symm, .inl rfl⟩
    · rename_i hgood
      have hhash : (decryptPayload M.toMftahProtocol r.load.allocatePool.2 (fileSize r.load s.payloadFile)
          (Handed.mk s.passwordActual s.passwordLengthActual).bytes s.image m f).loadedPayloadHash =
            (M.createHash m r.load.allocatePool.2 (fileSize r.load s.payloadFile)).2 := by
        unfold decryptPayload
        dsimp only
        repeat' split
        all_goals rfl
      exact ⟨rfl, rfl, rfl, rfl, rfl, rfl, hcreated.symm, .inr ⟨rfl, rfl, rfl, _, hcreated, hhash⟩⟩

/-! ## The invariant -/

/-- The buffer that create_payload is handed holds the file as far as FileSize goes, which is to its end unless it
    has failed, and the rest of the memory is as it was. -/
def IsLoaded (x : Created) : Prop :=
  x.mem = x.before.write x.readBuffer (x.file.take x.readFileSize.toNat) ∧
    (x.readFileSize = 0 ∨ x.readFileSize.toNat = x.file.length)

/-- decrypt is handed what check_password was handed in that round, and PasswordActual is clear behind it. -/
def IsAccepted (d : Handed) (x : Check) : Prop :=
  x.status = .success ∧ d.length = x.handed.length ∧
    d.buffer = x.handed.bytes ++ List.replicate (sizeofPasswordActual - x.handed.length.toNat) 0

structure Inv (s : State) : Prop where
  opened : s.phase = .prompt → s.payloadFile.pos = 0 ∧ s.payloadFile.bytes.length < 2 ^ 64
  unused : s.phase = .menu ∨ s.phase = .prompt →
    s.passwordActual = List.replicate sizeofPasswordActual 0 ∧ s.decrypted = none ∧ s.created = none
  checks : ∀ x ∈ s.checks, IsTyped x
  /-- One freed block for each round, with the password in it. -/
  pool : s.pool = s.checks.map fun x => ⟨false, x.handed.buffer⟩
  decrypted : ∀ d, s.decrypted = some d → ∃ x, s.checks.getLast? = some x ∧ IsAccepted d x
  created : ∀ x, s.created = some x → IsLoaded x
  left : s.phase = .left → s.decrypted ≠ none ∧ (∀ j < sizeofPassword, s.password j = 0) ∧
    s.passwordActual = List.replicate sizeofPasswordActual 0

/-- Where the password loop is over or not begun, it is enough that nothing is recorded wrong. -/
theorem inv_of_stopped {s : State} (hphase : s.phase = .stopped) (hchecks : ∀ x ∈ s.checks, IsTyped x)
    (hpool : s.pool = s.checks.map fun x => ⟨false, x.handed.buffer⟩)
    (hdecrypted : ∀ d, s.decrypted = some d → ∃ x, s.checks.getLast? = some x ∧ IsAccepted d x)
    (hcreated : ∀ x, s.created = some x → IsLoaded x) : Inv s := by
  refine ⟨?_, ?_, hchecks, hpool, hdecrypted, hcreated, ?_⟩
  · intro hprompt
    cases hphase.symm.trans hprompt
  · intro hwaiting
    rcases hwaiting with hmenu | hprompt
    · cases hphase.symm.trans hmenu
    · cases hphase.symm.trans hprompt
  · intro hleft
    cases hphase.symm.trans hleft

/-- At the menu, or at the prompt with a payload that has just been opened or put back to its beginning. -/
theorem inv_of_waiting {s : State} (hphase : s.phase = .menu ∨ s.phase = .prompt)
    (hopened : s.phase = .prompt → s.payloadFile.pos = 0 ∧ s.payloadFile.bytes.length < 2 ^ 64)
    (hactual : s.passwordActual = List.replicate sizeofPasswordActual 0) (hdecrypted : s.decrypted = none)
    (hcreated : s.created = none) (hchecks : ∀ x ∈ s.checks, IsTyped x)
    (hpool : s.pool = s.checks.map fun x => ⟨false, x.handed.buffer⟩) : Inv s := by
  refine ⟨hopened, fun _ => ⟨hactual, hdecrypted, hcreated⟩, hchecks, hpool, ?_, ?_, ?_⟩
  · intro d hd
    cases hdecrypted.symm.trans hd
  · intro x hx
    cases hcreated.symm.trans hx
  · intro hleft
    rcases hphase with hmenu | hprompt
    · cases hmenu.symm.trans hleft
    · cases hprompt.symm.trans hleft

theorem initial_inv (mem : Mem) : Inv (initial mem) := by
  refine inv_of_waiting (.inl rfl) ?_ rfl rfl rfl ?_ rfl
  · intro hprompt
    cases hprompt
  · simp [initial]

theorem select_inv {s : State} (h : Inv s) (hphase : s.phase = .menu) (t : Trip) : Inv (select S M t s) := by
  obtain ⟨hactual, hdecrypted, hcreated⟩ := h.unused (.inl hphase)
  unfold select
  dsimp only
  split
  · rename_i sel _
    have hlt := (t.payloads sel.payloadFileHandle).length_lt
    exact inv_of_waiting (.inr rfl) (fun _ => ⟨rfl, hlt⟩) hactual hdecrypted hcreated h.checks h.pool
  · exact inv_of_stopped rfl h.checks h.pool h.decrypted h.created

/-- What CheckPassword leaves of the invariant, whatever comes next. -/
theorem checked_typed {r : Round} {s : State} (h : Inv s) {cells : Nat → Char16} {n : UInt8} {c : Checked}
    (hc : Comes S M r s cells n c) :
    (∀ x ∈ (checked r.lines c s).checks, IsTyped x) ∧
      (checked r.lines c s).pool = (checked r.lines c s).checks.map fun x => ⟨false, x.handed.buffer⟩ := by
  rcases checkPassword_cases hc.check with hverdict | hnone
  · have hhanded := hverdict.handed
    rw [handedOf_cells hc.le] at hhanded
    have hpool := hverdict.pool
    rw [handedOf_cells hc.le] at hpool
    have hchecks : (checked r.lines c s).checks =
        s.checks ++ [⟨r.lines, ⟨(held cells n).map UInt16.toUInt8 ++ [0], n⟩, c.status⟩] := by
      simp [checked, hhanded]
    rw [hchecks]
    refine ⟨?_, ?_⟩
    · intro x hx
      rcases List.mem_append.mp hx with hold | hnew
      · exact h.checks x hold
      · rw [List.mem_singleton] at hnew
        subst hnew
        exact ⟨held cells n, hc.line, rfl, by simp⟩
    · show c.pool = _
      rw [hpool, h.pool]
      simp
  · have hchecks : (checked r.lines c s).checks = s.checks := by simp [checked, hnone.handed]
    rw [hchecks]
    exact ⟨h.checks, hnone.pool.trans h.pool⟩

theorem fileSize_of_ne_zero {fw : Firmware} {f : EfiFile} (hlt : f.bytes.length < 2 ^ 64) (h : fileSize fw f ≠ 0) :
    (fileSize fw f).toNat = f.bytes.length := by
  cases hinfo : fw.libFileInfo with
  | true =>
    simp only [fileSize, hinfo, if_true, UInt64.toNat_ofNat']
    exact Nat.mod_eq_of_lt hlt
  | false => exact absurd (by simp [fileSize, hinfo]) h

/-- The payload is read with the handle at the beginning. -/
theorem createdIn_loaded {r : Round} {s : State} (hpos : s.payloadFile.pos = 0)
    (hlt : s.payloadFile.bytes.length < 2 ^ 64) {x : Created} (h : createdIn r s = some x) : IsLoaded x := by
  have hfile : s.payloadFile = ⟨s.payloadFile.bytes, 0⟩ := by
    cases hf : s.payloadFile with
    | mk bytes pos =>
      rw [hf] at hpos
      rw [show pos = 0 from hpos]
  unfold createdIn at h
  split at h
  · rename_i m f hread
    cases h
    by_cases hzero : fileSize r.load s.payloadFile = 0
    · rw [IsLoaded, readPayload_of_zero hzero hread, hzero]
      exact ⟨by simp, .inl rfl⟩
    · have hsize := fileSize_of_ne_zero hlt hzero
      refine ⟨?_, .inr hsize⟩
      dsimp only
      rw [hsize, List.take_length]
      rw [hfile] at hread hsize
      exact readPayload_write hsize hread
  · cases h

/-- The state behind CheckPassword, where the keys of the round gave `cells`. -/
abbrev behind (r : Round) (s : State) (cells : Nat → Char16) (c : Checked) : State :=
  checked r.lines c { s with password := bytesOf cells }

theorem behind_getLast? {r : Round} {s : State} {cells : Nat → Char16} {n : UInt8} {c : Checked}
    (hc : Comes S M r s cells n c)
    (hverdict : Verdict s.payloadFile (bytesOf cells) (n * 2) s.passwordActual s.passwordLengthActual s.pool c) :
    (behind r s cells c).checks.getLast? =
      some ⟨r.lines, ⟨(held cells n).map UInt16.toUInt8 ++ [0], n⟩, c.status⟩ := by
  have hhanded := hverdict.handed
  rw [handedOf_cells hc.le] at hhanded
  simp [checked, hhanded]

/-- An accepted password: PasswordActual is the line, and the payload is loaded with it. -/
theorem accepted_inv {r : Round} {s : State} (h : Inv s) (hphase : s.phase = .prompt) {cells : Nat → Char16}
    {n : UInt8} {c : Checked} (hc : Comes S M r s cells n c)
    (hverdict : Verdict s.payloadFile (bytesOf cells) (n * 2) s.passwordActual s.passwordLengthActual s.pool c)
    (hstatus : c.status = .success)
    (hactual : c.passwordActual =
      (handedOf (bytesOf cells) (n * 2)).bytes ++ s.passwordActual.drop (n * 2 / 2).toNat)
    (hlength : c.passwordLengthActual = n * 2 / 2) : Inv (load M r (behind r s cells c)) := by
  obtain ⟨hchecks, hpool⟩ := checked_typed h hc
  have hload := load_spec M r (behind r s cells c)
  have hhalf : n * 2 / 2 = n := congrArg Handed.length (handedOf_cells hc.le cells)
  have hends : (load M r (behind r s cells c)).phase ≠ .menu ∧ (load M r (behind r s cells c)).phase ≠ .prompt := by
    rcases hload.ends with hstopped | ⟨hleft, -⟩
    · simp [hstopped]
    · simp [hleft]
  refine ⟨fun hp => absurd hp hends.2, fun hp => absurd hp (not_or.mpr hends), ?_, ?_, ?_, ?_, ?_⟩
  · rw [hload.checks]
    exact hchecks
  · rw [hload.checks, hload.pool]
    exact hpool
  · intro d hd
    rw [hload.decrypted] at hd
    cases hd
    rw [hload.checks]
    refine ⟨_, behind_getLast? hc hverdict, hstatus, hlength.trans hhalf, ?_⟩
    show c.passwordActual = _
    rw [hactual, (h.unused (.inr hphase)).1, hhalf, handedOf_cells hc.le]
    simp
  · intro x hx
    rw [hload.created] at hx
    have hfile : (behind r s cells c).payloadFile = { s.payloadFile with pos := 0 } := hverdict.file
    refine createdIn_loaded ?_ ?_ hx
    · rw [hfile]
    · rw [hfile]
      exact (h.opened hphase).2
  · intro hleft
    rw [hload.decrypted]
    refine ⟨Option.some_ne_none _, ?_⟩
    rcases hload.ends with hstopped | ⟨-, hpassword, hcleared, -⟩
    · cases hstopped.symm.trans hleft
    · rw [hpassword]
      exact ⟨fun j hj => if_pos hj, hcleared⟩

/-- A rejected one: the next round begins with PasswordActual and the handle as before. -/
theorem rejected_inv {r : Round} {s : State} (h : Inv s) (hphase : s.phase = .prompt) {cells : Nat → Char16}
    {n : UInt8} {c : Checked} (hc : Comes S M r s cells n c)
    (hverdict : Verdict s.payloadFile (bytesOf cells) (n * 2) s.passwordActual s.passwordLengthActual s.pool c)
    (hactual : c.passwordActual = s.passwordActual) : Inv (behind r s cells c) := by
  obtain ⟨hchecks, hpool⟩ := checked_typed h hc
  obtain ⟨hzero, hdecrypted, hcreated⟩ := h.unused (.inr hphase)
  refine inv_of_waiting (.inr hphase) ?_ (hactual.trans hzero) hdecrypted hcreated hchecks hpool
  intro _
  have hfile : (behind r s cells c).payloadFile = { s.payloadFile with pos := 0 } := hverdict.file
  rw [hfile]
  exact ⟨rfl, (h.opened hphase).2⟩

/-- A panic behind CheckPassword. -/
theorem stopped_inv {r : Round} {s : State} (h : Inv s) (hphase : s.phase = .prompt) {cells : Nat → Char16}
    {n : UInt8} {c : Checked} (hc : Comes S M r s cells n c) :
    Inv { behind r s cells c with phase := .stopped } := by
  obtain ⟨hchecks, hpool⟩ := checked_typed h hc
  obtain ⟨-, hdecrypted, -⟩ := h.unused (.inr hphase)
  refine inv_of_stopped rfl hchecks hpool ?_ h.created
  intro d hd
  cases hdecrypted.symm.trans hd

theorem unlock_inv {s : State} (h : Inv s) (hphase : s.phase = .prompt) (r : Round) : Inv (unlock S M r s) := by
  rcases unlock_cases S M r s with ⟨cells, n, c, hc⟩ | ⟨password, heq⟩ | ⟨password, heq⟩
  · rw [hc.unlock]
    rcases checkPassword_cases hc.check with hverdict | hnone
    · rcases hverdict.actual with ⟨hstatus, hnew, hlength⟩ | ⟨hinvalid | haborted, hold, -⟩
      · have hjudge : judge M r c (behind r s cells c) = load M r (behind r s cells c) := by
          simp [judge, hstatus, EfiStatus.isError]
        rw [hjudge]
        exact accepted_inv h hphase hc hverdict hstatus hnew hlength
      · have hjudge : judge M r c (behind r s cells c) = behind r s cells c := by
          simp [judge, hinvalid]
        rw [hjudge]
        exact rejected_inv h hphase hc hverdict hold
      · have hjudge : judge M r c (behind r s cells c) = { behind r s cells c with phase := .stopped } := by
          simp [judge, haborted, EfiStatus.isError]
        rw [hjudge]
        exact stopped_inv h hphase hc
    · have hjudge : judge M r c (behind r s cells c) = { behind r s cells c with phase := .stopped } := by
        simp [judge, hnone.status, hnone.error]
      rw [hjudge]
      exact stopped_inv h hphase hc
  · obtain ⟨hactual, hdecrypted, hcreated⟩ := h.unused (.inr hphase)
    rw [heq]
    refine inv_of_waiting (.inl rfl) ?_ hactual hdecrypted hcreated h.checks h.pool
    intro hprompt
    cases hprompt
  · rw [heq]
    exact inv_of_stopped rfl h.checks h.pool h.decrypted h.created

theorem reachable_inv {s : State} (h : Reachable S M s) : Inv s := by
  refine Reach.invariant ?_ ?_ h
  · rintro s ⟨mem, rfl⟩
    exact initial_inv mem
  · intro s e _ hs henabled _
    cases e with
    | select t => exact select_inv hs henabled t
    | unlock r => exact unlock_inv hs henabled r

/-! ## A run with a wrong password -/

theorem success_ne_invalidPassword : EfiStatus.success ≠ .invalidPassword := by decide

def steadyCheck : CheckFirmware where
  toFirmware := steadyFirmware
  setPosition := .success
  passwordBufferChar8 := true
  read_ne_invalidPassword := success_ne_invalidPassword
  setPosition_ne_invalidPassword := success_ne_invalidPassword

theorem length_smallPayload : ((List.replicate 144 (0 : UInt8)).set 97 2).length < 2 ^ 64 := by simp

/-- A payload of a header and one block, which declares 512 bytes of image. -/
def smallPayload : FileBytes := ⟨(List.replicate 144 0).set 97 2, length_smallPayload⟩

theorem length_smallLoader : [(0x4D : UInt8), 0x5A, 0x90].length < 2 ^ 64 := by simp

def smallLoader : FileBytes := ⟨[0x4D, 0x5A, 0x90], length_smallLoader⟩

/-- SHA-256 of the two files. -/
def sha256OfSmall (bytes : List UInt8) : List UInt8 :=
  if bytes = smallLoader.bytes then
    [0xD1, 0x42, 0x14, 0xE9, 0x5C, 0x9D, 0x1E, 0xA8, 0x50, 0xE5, 0x08, 0xDF, 0xE2, 0x79, 0x28, 0x49,
      0x4F, 0x21, 0x55, 0xA7, 0x59, 0x7E, 0x4E, 0xA0, 0xBA, 0xD9, 0xF7, 0x06, 0x90, 0xAB, 0xB3, 0x97]
  else if bytes = smallPayload.bytes then
    [0x10, 0x28, 0x23, 0x54, 0xAE, 0x7B, 0x74, 0x1B, 0x59, 0xBC, 0x77, 0x7A, 0x02, 0xC2, 0x9F, 0xAE,
      0x55, 0x38, 0x84, 0x21, 0xCF, 0x34, 0x17, 0x4C, 0x11, 0x38, 0x0E, 0xD4, 0x9E, 0xC3, 0xA7, 0x9C]
  else List.replicate sizeOfSha256Hash 0

/-- The library takes the password "y". -/
def plainLoader : MftahLoader where
  toMftahProtocol := { plainLib with createHash := fun m a n => (.success, sha256OfSmall (m.read a n.toNat)) }
  checkPassword _ _ password := if password = [0x79] then .success else .invalidPassword

/-- One payload, which is selected. -/
def singleTrip : Trip where
  loaderFirmware := { toFirmware := steadyFirmware, opened := .success }
  loader := smallLoader
  discovered := .ok [1]
  volume := smallVolume
  lines := []
  payloads _ := smallPayload

/-- A round in which one character is typed. -/
def typedRound (c : Char16) : Round := ⟨[typedLine [c]], steadyCheck, steadyFirmware⟩

/-- "x", which is wrong, and "y". -/
def twoRounds : List Event := [.select singleTrip, .unlock (typedRound 0x78), .unlock (typedRound 0x79)]

/-- The state behind the loop. -/
def afterTwoRounds : State := twoRounds.foldl (next gnuEfiStrings plainLoader) (initial fun _ => 0)

theorem afterTwoRounds_reach : Reachable gnuEfiStrings plainLoader afterTwoRounds := by
  have hselected : (select gnuEfiStrings plainLoader singleTrip (initial fun _ => 0)).phase = .prompt := by
    decide +kernel
  have hrejected : (unlock gnuEfiStrings plainLoader (typedRound 0x78)
      (select gnuEfiStrings plainLoader singleTrip (initial fun _ => 0))).phase = .prompt := by
    decide +kernel
  exact Reach.of_valid ⟨_, rfl⟩ ⟨rfl, trivial, hselected, trivial, hrejected, trivial, trivial⟩

theorem afterTwoRounds_left : afterTwoRounds.phase = .left := by decide +kernel

/-! ## The payload in memory -/

/-- When create_payload is handed the buffer, the bytes of the file that FileSize counts are in it in order, no byte
    outside was written, and FileSize counts all of them unless it has failed. -/
theorem payload_loaded {S : EfiStrings} {M : MftahLoader} {s : State} (hs : Reachable S M s) {x : Created}
    (hx : s.created = some x) :
    x.mem.read x.readBuffer x.readFileSize.toNat = x.file.take x.readFileSize.toNat ∧
      (∀ a, ¬ InRegion x.readBuffer x.readFileSize.toNat a → x.mem a = x.before a) ∧
      (x.readFileSize = 0 ∨ x.readFileSize.toNat = x.file.length) := by
  obtain ⟨hmem, hsize⟩ := (reachable_inv hs).created x hx
  have hlength : (x.file.take x.readFileSize.toNat).length = x.readFileSize.toNat := by
    rw [List.length_take]
    rcases hsize with hzero | hfull
    · rw [hzero]
      exact Nat.zero_min _
    · rw [hfull, Nat.min_self]
  refine ⟨?_, ?_, hsize⟩
  · have hread := Mem.read_write x.before x.readBuffer (Nat.le_of_lt (hlength ▸ UInt64.toNat_lt _))
    rwa [hlength, ← hmem] at hread
  · intro a ha
    rw [hmem]
    exact Mem.write_frame (hlength.symm ▸ ha)

theorem payload_loaded_twoRounds :
    ∃ x, afterTwoRounds.created = some x ∧ x.readFileSize.toNat = 144 ∧
      x.mem.read x.readBuffer x.readFileSize.toNat = x.file.take x.readFileSize.toNat ∧
      (∀ a, ¬ InRegion x.readBuffer x.readFileSize.toNat a → x.mem a = x.before a) ∧
      (x.readFileSize = 0 ∨ x.readFileSize.toNat = x.file.length) := by
  have hsize : afterTwoRounds.created.map Created.readFileSize = some 144 := by decide +kernel
  obtain ⟨x, hx, hn⟩ := Option.map_eq_some_iff.mp hsize
  exact ⟨x, hx, by rw [hn]; decide, payload_loaded afterTwoRounds_reach hx⟩

/-! ## The password that is used -/

/-- What check_password is handed in a round: the line, character for character, with nothing else in the buffer. -/
theorem IsTyped.line {x : Check} (h : IsTyped x) :
    ∃ line, roundLine x.lines = some line ∧ x.handed.bytes.map UInt8.toUInt16 = line ∧
      x.handed.length.toNat = line.length ∧ x.handed.buffer = x.handed.bytes ++ [0] := by
  obtain ⟨line, hline, hbuffer, hlength⟩ := h
  have hbytes := IsTyped.bytes hbuffer hlength
  refine ⟨line, hline, ?_, hlength, by rw [hbytes, hbuffer]⟩
  rw [hbytes, List.map_map]
  have hback : ∀ c ∈ line, (UInt8.toUInt16 ∘ UInt16.toUInt8) c = c := fun c hc =>
    toUInt16_toUInt8_of_printable ((roundLine_spec hline).2 c hc)
  rw [List.map_congr_left hback, List.map_id']

theorem IsAccepted.bytes {d : Handed} {x : Check} (hx : IsTyped x) (h : IsAccepted d x) :
    d.bytes = x.handed.bytes := by
  obtain ⟨line, -, hbuffer, hlength⟩ := hx
  obtain ⟨-, hlen, hd⟩ := h
  have hbytes := IsTyped.bytes hbuffer hlength
  have hcount : x.handed.bytes.length = d.length.toNat := by
    rw [hbytes, List.length_map, hlen, hlength]
  rw [Handed.bytes, hd, ← hcount]
  simp

/-- Every call of check_password is handed the edited line of its round, and decrypt is handed that of the last
    round, which was accepted, with a clear array behind it. -/
theorem password_is_typed {S : EfiStrings} {M : MftahLoader} {s : State} (hs : Reachable S M s) :
    (∀ x ∈ s.checks, ∃ line, roundLine x.lines = some line ∧ x.handed.bytes.map UInt8.toUInt16 = line ∧
      x.handed.length.toNat = line.length ∧ x.handed.buffer = x.handed.bytes ++ [0]) ∧
    ∀ d, s.decrypted = some d → ∃ x, s.checks.getLast? = some x ∧ x.status = .success ∧
      d.bytes = x.handed.bytes ∧ d.length = x.handed.length ∧
      d.buffer = d.bytes ++ List.replicate (sizeofPasswordActual - d.length.toNat) 0 := by
  have hinv := reachable_inv hs
  refine ⟨fun x hx => (hinv.checks x hx).line, ?_⟩
  intro d hd
  obtain ⟨x, hlast, haccepted⟩ := hinv.decrypted d hd
  have hbytes := haccepted.bytes (hinv.checks x (List.mem_of_getLast? hlast))
  obtain ⟨hstatus, hlength, hbuffer⟩ := haccepted
  exact ⟨x, hlast, hstatus, hbytes, hlength, by rw [hbuffer, hbytes, hlength]⟩

theorem password_is_typed_twoRounds :
    afterTwoRounds.checks.length = 2 ∧
    (∀ x ∈ afterTwoRounds.checks, ∃ line, roundLine x.lines = some line ∧ x.handed.bytes.map UInt8.toUInt16 = line ∧
      x.handed.length.toNat = line.length ∧ x.handed.buffer = x.handed.bytes ++ [0]) ∧
    ∀ d, afterTwoRounds.decrypted = some d → ∃ x, afterTwoRounds.checks.getLast? = some x ∧ x.status = .success ∧
      d.bytes = x.handed.bytes ∧ d.length = x.handed.length ∧
      d.buffer = d.bytes ++ List.replicate (sizeofPasswordActual - d.length.toNat) 0 :=
  ⟨by decide +kernel, password_is_typed afterTwoRounds_reach⟩

/-! ## What is left of the passwords -/

/-- The bytes of all the memory that held a password. -/
def passwordMemory (s : State) : List UInt8 :=
  (List.range sizeofPassword).map s.password ++ s.passwordActual ++ s.pool.flatMap Block.contents

/-- No byte of it is one of a password that was entered, zero apart. -/
def Cleared (s : State) : Prop := ∀ x ∈ s.checks, ∀ b ∈ passwordMemory s, b ≠ 0 → b ∉ x.handed.bytes

/-- Behind the loop the arrays are clear. -/
theorem arrays_cleared {s : State} (hs : Reachable S M s) (hleft : s.phase = .left) :
    (∀ j < sizeofPassword, s.password j = 0) ∧ ∀ b ∈ s.passwordActual, b = 0 := by
  obtain ⟨-, hpassword, hactual⟩ := (reachable_inv hs).left hleft
  refine ⟨hpassword, fun b hb => ?_⟩
  rw [hactual] at hb
  exact List.eq_of_mem_replicate hb

/-- The blocks are not: in every run the accepted password is still in the block of its round. -/
theorem password_left_behind {S : EfiStrings} {M : MftahLoader} {s : State} (hs : Reachable S M s)
    (hleft : s.phase = .left) : ¬ Cleared s := by
  have hinv := reachable_inv hs
  obtain ⟨d, hd⟩ := Option.ne_none_iff_exists'.mp (hinv.left hleft).1
  obtain ⟨x, hlast, -⟩ := hinv.decrypted d hd
  have hmem := List.mem_of_getLast? hlast
  obtain ⟨line, hline, hbuffer, hlength⟩ := hinv.checks x hmem
  obtain ⟨hne, hprint⟩ := roundLine_spec hline
  obtain ⟨c, hc⟩ := List.exists_mem_of_ne_nil line hne
  have hbyte : c.toUInt8 ∈ x.handed.bytes := by
    rw [IsTyped.bytes hbuffer hlength]
    exact List.mem_map_of_mem hc
  have hheld : c.toUInt8 ∈ passwordMemory s := by
    refine List.mem_append_right _ (List.mem_flatMap.mpr ⟨⟨false, x.handed.buffer⟩, ?_, ?_⟩)
    · rw [hinv.pool]
      exact List.mem_map_of_mem hmem
    · exact List.mem_of_mem_take hbyte
  intro hcleared
  exact hcleared x hmem c.toUInt8 hheld (toUInt8_ne_zero_of_printable (hprint c hc)) hbyte

theorem password_left_behind_twoRounds : afterTwoRounds.phase = .left ∧ ¬ Cleared afterTwoRounds :=
  ⟨afterTwoRounds_left, password_left_behind afterTwoRounds_reach afterTwoRounds_left⟩

/-- The wrong password is left behind too. -/
theorem wrong_password_left_behind :
    ∃ (S : EfiStrings) (M : MftahLoader) (s : State), Reachable S M s ∧ s.phase = .left ∧
      (∃ x ∈ s.checks, x.status = .invalidPassword ∧ x.handed.bytes = [0x78]) ∧ 0x78 ∈ passwordMemory s ∧
      ¬ Cleared s := by
  have hwrong : ∃ x ∈ afterTwoRounds.checks, x.status = .invalidPassword ∧ x.handed.bytes = [0x78] := by
    decide +kernel
  have hheld : 0x78 ∈ passwordMemory afterTwoRounds := by decide +kernel
  refine ⟨gnuEfiStrings, plainLoader, afterTwoRounds, afterTwoRounds_reach, afterTwoRounds_left, hwrong, hheld, ?_⟩
  obtain ⟨x, hx, -, hbytes⟩ := hwrong
  intro hcleared
  refine hcleared x hx 0x78 hheld (by decide) ?_
  rw [hbytes]
  exact List.mem_singleton_self _

end Crows.Boot.Main
