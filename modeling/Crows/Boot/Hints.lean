/-
  Crows.Boot.Hints — the EFI variables about the loaded ramdisk, which SetEfiVarsHints
  sets behind the password loop.

  All four variables are eight bytes: the address of the image, its length, and the
  addresses of two blocks that the hashes are copied to. efi_main keeps both hashes in
  arrays of its own, but hands SetEfiVarsHints two NULL pointers.

  Proved, for every state behind the loop in every run:
  - `hashes_generated`: a hash that no warning is printed about is in its array.
  - `buffers_would_describe`: handed the arrays, SetEfiVarsHints would set variables that
    describe the run.
  - `hints_describe_iff`: handed NULL, it does only if what CopyMem makes of that happens
    to be the hashes. `hints_point_at_zeros`: the zero bytes at address 0.
-/

import Crows.Boot.Main

namespace Crows.Boot.Hints

open Crows.Lib
open Crows.Boot.Select (EfiStrings)
open Crows.Boot.Payload
open Crows.Boot.Password (MftahLoader)
open Crows.Boot.Main
open Function (update update_self update_of_ne)

/-! ## main.c -/

inductive Hint where
  /-- L"__MFTAH_RDBASE". -/
  | rdBase
  /-- L"__MFTAH_RDSIZE". -/
  | rdSize
  /-- L"__MFTAH_LOADER_HASH". -/
  | loaderHash
  /-- L"__MFTAH_PAYLOAD_HASH". -/
  | payloadHash
  deriving DecidableEq, Repr

/-- What the firmware answers during one SetEfiVarsHints; two blocks from its pool are apart. -/
structure Answers where
  setVariable : Hint → EfiStatus
  allocatePool : Hint → EfiStatus × Addr
  separate : (allocatePool .loaderHash).2 ≠ 0 → (allocatePool .payloadHash).2 ≠ 0 →
    Separate (allocatePool .loaderHash).2 sizeOfSha256Hash (allocatePool .payloadHash).2 sizeOfSha256Hash

/-- The memory and the variables. -/
structure Published where
  mem : Mem
  efiVars : Hint → Option UInt64

variable (L : EfiLib)

/-- CopyMem of a hash: from an array, or from NULL. -/
def copyHash (mem : Mem) (block : Addr) : Option (List UInt8) → Mem
  | some hash => mem.write block hash
  | none => L.copyMem mem block 0 (UInt64.ofNat sizeOfSha256Hash)

def setVariable (answers : Answers) (hint : Hint) (value : UInt64) (s : Published) : Except EfiStatus Published :=
  if (answers.setVariable hint).isError then .error (answers.setVariable hint)
  else .ok { s with efiVars := update s.efiVars hint (some value) }

/-- A block for the hash, and the variable that points at it. -/
def publishHash (answers : Answers) (hint : Hint) (hash : Option (List UInt8)) (s : Published) :
    Except EfiStatus Published :=
  if (answers.allocatePool hint).1.isError then .error (answers.allocatePool hint).1
  else if (answers.allocatePool hint).2 = 0 then .error .outOfResources
  else
    setVariable answers hint (answers.allocatePool hint).2
      { s with mem := copyHash L s.mem (answers.allocatePool hint).2 hash }

def setEfiVarsHints (answers : Answers) (ramdiskMemoryLocation : Addr) (ramdiskLength : UInt64)
    (loadedLoaderHash loadedPayloadHash : Option (List UInt8)) (s : Published) : Except EfiStatus Published :=
  (setVariable answers .rdBase ramdiskMemoryLocation s).bind fun s =>
  (setVariable answers .rdSize ramdiskLength s).bind fun s =>
  (publishHash L answers .loaderHash loadedLoaderHash s).bind fun s =>
  publishHash L answers .payloadHash loadedPayloadHash s

/-- A call of RamDiskRegister: its base and size, and what is published when it is made. -/
structure Registration extends Published where
  ramDiskBase : UInt64
  ramDiskSize : UInt64

/-- efi_main from the end of the password loop to RamDiskRegister; an error of SetEfiVarsHints is a panic. -/
def registers (answers : Answers) (efiVars : Hint → Option UInt64) (s : State) : Option Registration :=
  match setEfiVarsHints L answers s.image.gRamdiskImage s.image.gRamdiskImageLength none none ⟨s.mem, efiVars⟩ with
  | .error _ => none
  | .ok published => some ⟨published, s.image.gRamdiskImage, s.image.gRamdiskImageLength⟩

/-! ## What SetEfiVarsHints publishes -/

variable {L} {answers : Answers}

theorem setVariable_ok {hint : Hint} {value : UInt64} {s s' : Published}
    (h : setVariable answers hint value s = .ok s') :
    s' = { s with efiVars := update s.efiVars hint (some value) } := by
  unfold setVariable at h
  split at h
  · cases h
  · exact (Except.ok.inj h).symm

theorem publishHash_ok {hint : Hint} {hash : Option (List UInt8)} {s s' : Published}
    (h : publishHash L answers hint hash s = .ok s') :
    (answers.allocatePool hint).2 ≠ 0 ∧
      s' = ⟨copyHash L s.mem (answers.allocatePool hint).2 hash,
        update s.efiVars hint (some (answers.allocatePool hint).2)⟩ := by
  unfold publishHash at h
  split at h
  · cases h
  split at h
  · cases h
  · rename_i hblock
    exact ⟨hblock, setVariable_ok h⟩

theorem bind_ok {α β : Type} {x : Except EfiStatus α} {f : α → Except EfiStatus β} {b : β}
    (h : x.bind f = .ok b) : ∃ a, x = .ok a ∧ f a = .ok b := by
  cases x with
  | error status => cases h
  | ok a => exact ⟨a, rfl, h⟩

/-- Everything that SetEfiVarsHints has done when it comes back without an error. -/
structure Sets (L : EfiLib) (answers : Answers) (ramdiskMemoryLocation ramdiskLength : UInt64)
    (loadedLoaderHash loadedPayloadHash : Option (List UInt8)) (mem : Mem) (s : Published) : Prop where
  rdBase : s.efiVars .rdBase = some ramdiskMemoryLocation
  rdSize : s.efiVars .rdSize = some ramdiskLength
  loaderHash : s.efiVars .loaderHash = some (answers.allocatePool .loaderHash).2
  payloadHash : s.efiVars .payloadHash = some (answers.allocatePool .payloadHash).2
  separate : Separate (answers.allocatePool .loaderHash).2 sizeOfSha256Hash (answers.allocatePool .payloadHash).2
    sizeOfSha256Hash
  mem : s.mem = copyHash L (copyHash L mem (answers.allocatePool .loaderHash).2 loadedLoaderHash)
    (answers.allocatePool .payloadHash).2 loadedPayloadHash

theorem setEfiVarsHints_sets {ramdiskMemoryLocation ramdiskLength : UInt64}
    {loadedLoaderHash loadedPayloadHash : Option (List UInt8)} {s s' : Published}
    (h : setEfiVarsHints L answers ramdiskMemoryLocation ramdiskLength loadedLoaderHash loadedPayloadHash s =
      .ok s') :
    Sets L answers ramdiskMemoryLocation ramdiskLength loadedLoaderHash loadedPayloadHash s.mem s' := by
  obtain ⟨s₁, h₁, h⟩ := bind_ok h
  obtain ⟨s₂, h₂, h⟩ := bind_ok h
  obtain ⟨s₃, h₃, h₄⟩ := bind_ok h
  obtain ⟨hloader, rfl⟩ := publishHash_ok h₃
  obtain ⟨hpayload, rfl⟩ := publishHash_ok h₄
  rw [setVariable_ok h₂, setVariable_ok h₁]
  exact ⟨by simp, by simp, by simp, by simp, answers.separate hloader hpayload, rfl⟩

/-- CopyMem writes nowhere but to its destination. -/
def Frames (L : EfiLib) : Prop :=
  ∀ (m : Mem) (dst src : Addr) (n : UInt64) (a : Addr), ¬ InRegion dst n.toNat a → L.copyMem m dst src n a = m a

theorem copyHash_frame (hL : Frames L) {mem : Mem} {block : Addr} {hash : Option (List UInt8)}
    (hhash : ∀ bs, hash = some bs → bs.length = sizeOfSha256Hash) {a : Addr}
    (h : ¬ InRegion block sizeOfSha256Hash a) : copyHash L mem block hash a = mem a := by
  cases hash with
  | none => exact hL mem block 0 _ a h
  | some bs =>
    have hlength := hhash bs rfl
    exact Mem.write_frame (hlength.symm ▸ h)

/-- The second copy leaves the first block as it is. -/
theorem read_copyHash (hL : Frames L) {mem : Mem} {p q : Addr}
    (h : Separate p sizeOfSha256Hash q sizeOfSha256Hash) {hash : Option (List UInt8)}
    (hhash : ∀ bs, hash = some bs → bs.length = sizeOfSha256Hash) :
    (copyHash L mem q hash).read p sizeOfSha256Hash = mem.read p sizeOfSha256Hash :=
  Mem.read_congr (by decide) fun a ha => copyHash_frame hL hhash (h a ha)

/-! ## The variables describe the run -/

/-- No warning is printed about either hash. -/
def Reported (M : MftahLoader) (s : State) : Prop :=
  s.loaderReported = true ∧ ∃ x, s.created = some x ∧ (M.createHash x.mem x.readBuffer x.readFileSize).1.isError = false

structure Describes (sha256 : List UInt8 → List UInt8) (s : State) (r : Registration) : Prop where
  rdBase : r.efiVars .rdBase = some r.ramDiskBase
  rdSize : r.efiVars .rdSize = some r.ramDiskSize
  loaderHash : ∃ p, r.efiVars .loaderHash = some p ∧ r.mem.read p sizeOfSha256Hash = sha256 s.loader
  payloadHash : ∃ p, r.efiVars .payloadHash = some p ∧
    ∃ x, s.created = some x ∧ r.mem.read p sizeOfSha256Hash = sha256 x.file

/-! ## The hashes in efi_main's arrays -/

variable {S : EfiStrings} {M : MftahLoader} {sha256 : List UInt8 → List UInt8}

/-- A reported loader hash is in its array, and behind the loop so is what create_hash gave for the payload. -/
structure Hashed (M : MftahLoader) (sha256 : List UInt8 → List UInt8) (s : State) : Prop where
  loader : s.loaderReported = true → s.loadedLoaderHash = sha256 s.loader
  payload : s.phase = .left →
    ∃ x, s.created = some x ∧ s.loadedPayloadHash = (M.createHash x.mem x.readBuffer x.readFileSize).2

theorem judge_cases (M : MftahLoader) (r : Round) (c : Password.Checked) (s : State) :
    judge M r c s = s ∨ judge M r c s = { s with phase := .stopped } ∨ judge M r c s = load M r s := by
  unfold judge
  split
  · exact .inl rfl
  split
  · exact .inr (.inl rfl)
  · exact .inr (.inr rfl)

/-- What is not behind the loop has only the loader's hash to keep. -/
theorem hashed_of_ne_left {s : State} (hphase : s.phase ≠ .left)
    (hloader : s.loaderReported = true → s.loadedLoaderHash = sha256 s.loader) : Hashed M sha256 s :=
  ⟨hloader, fun hleft => absurd hleft hphase⟩

theorem select_hashed (hM : Hashes M.toMftahProtocol sha256) (t : Trip) (s : State) :
    Hashed M sha256 (select S M t s) := by
  unfold select
  dsimp only
  split
  · exact hashed_of_ne_left Phase.noConfusion fun h => hashLoader_reported hM h
  · exact hashed_of_ne_left Phase.noConfusion fun h => hashLoader_reported hM h

theorem unlock_hashed {s : State} (h : Hashed M sha256 s) (hphase : s.phase = .prompt) (r : Round) :
    Hashed M sha256 (unlock S M r s) := by
  have hne : s.phase ≠ .left := by
    rw [hphase]
    decide
  rcases unlock_cases S M r s with ⟨cells, n, c, hc⟩ | ⟨password, heq⟩ | ⟨password, heq⟩
  · rw [hc.unlock]
    rcases judge_cases M r c (behind r s cells c) with heq | heq | heq
    · rw [heq]
      exact hashed_of_ne_left hne h.loader
    · rw [heq]
      exact hashed_of_ne_left Phase.noConfusion h.loader
    · rw [heq]
      have hload := load_spec M r (behind r s cells c)
      refine ⟨?_, ?_⟩
      · rw [hload.loaderReported, hload.loadedLoaderHash, hload.loader]
        exact h.loader
      · intro hleft
        rcases hload.ends with hstopped | ⟨-, -, -, x, hx, hhash⟩
        · cases hstopped.symm.trans hleft
        · exact ⟨x, hload.created.trans hx, hhash⟩
  · rw [heq]
    exact hashed_of_ne_left Phase.noConfusion h.loader
  · rw [heq]
    exact hashed_of_ne_left Phase.noConfusion h.loader

theorem reachable_hashed (hM : Hashes M.toMftahProtocol sha256) {s : State} (hs : Reachable S M s) :
    Hashed M sha256 s := by
  refine Reach.invariant ?_ ?_ hs
  · rintro s ⟨mem, rfl⟩
    refine hashed_of_ne_left Phase.noConfusion ?_
    intro hreported
    cases hreported
  · intro s e _ ih henabled _
    cases e with
    | select t => exact select_hashed hM t s
    | unlock r => exact unlock_hashed ih henabled r

/-- Behind the loop both arrays hold the hashes that no warning was printed about, if FileSize did not fail. -/
theorem hashes_generated (hM : Hashes M.toMftahProtocol sha256) {s : State} (hs : Reachable S M s)
    (hleft : s.phase = .left) (hreported : Reported M s) (hsize : ∀ x, s.created = some x → x.readFileSize ≠ 0) :
    s.loadedLoaderHash = sha256 s.loader ∧ ∃ x, s.created = some x ∧ s.loadedPayloadHash = sha256 x.file := by
  obtain ⟨hloader, x, hx, hok⟩ := hreported
  have hhashed := reachable_hashed hM hs
  obtain ⟨x', hx', hpayload⟩ := hhashed.payload hleft
  have hsame : x' = x := Option.some.inj (hx'.symm.trans hx)
  subst hsame
  refine ⟨hhashed.loader hloader, x', hx, ?_⟩
  obtain ⟨hmem, hfull⟩ := (reachable_inv hs).created x' hx
  have hlength := hfull.resolve_left (hsize x' hx)
  rw [hlength, List.take_length] at hmem
  have hlt : x'.file.length ≤ 2 ^ 64 := hlength ▸ Nat.le_of_lt (UInt64.toNat_lt _)
  rw [hpayload, hM _ _ _ hok, hlength, hmem, Mem.read_write _ _ hlt]

/-- With the arrays in place of NULL the variables would describe the run. -/
theorem buffers_would_describe (hM : Hashes M.toMftahProtocol sha256)
    (hsha : ∀ bs, (sha256 bs).length = sizeOfSha256Hash) (hL : Frames L) {s : State} (hs : Reachable S M s)
    (hleft : s.phase = .left) (hreported : Reported M s) (hsize : ∀ x, s.created = some x → x.readFileSize ≠ 0)
    {efiVars : Hint → Option UInt64} {published : Published}
    (h : setEfiVarsHints L answers s.image.gRamdiskImage s.image.gRamdiskImageLength (some s.loadedLoaderHash)
      (some s.loadedPayloadHash) ⟨s.mem, efiVars⟩ = .ok published) :
    Describes sha256 s ⟨published, s.image.gRamdiskImage, s.image.gRamdiskImageLength⟩ := by
  obtain ⟨hloader, x, hx, hpayload⟩ := hashes_generated hM hs hleft hreported hsize
  have hsets := setEfiVarsHints_sets h
  have hlength : ∀ bs, some (sha256 x.file) = some bs → bs.length = sizeOfSha256Hash := by
    intro bs hbs
    rw [← Option.some.inj hbs]
    exact hsha x.file
  have hwritten : ∀ (m : Mem) (p : Addr) (bs : List UInt8),
      (m.write p (sha256 bs)).read p sizeOfSha256Hash = sha256 bs := by
    intro m p bs
    have hread := Mem.read_write m p (Nat.le_trans (Nat.le_of_eq (hsha bs)) (by decide))
    rwa [hsha bs] at hread
  rw [hloader, hpayload] at hsets
  refine ⟨hsets.rdBase, hsets.rdSize, ⟨_, hsets.loaderHash, ?_⟩, _, hsets.payloadHash, x, hx, ?_⟩
  · show published.mem.read _ _ = _
    rw [hsets.mem, read_copyHash hL hsets.separate hlength]
    exact hwritten _ _ _
  · show published.mem.read _ _ = _
    rw [hsets.mem]
    exact hwritten _ _ _

/-! ## The variables that are set -/

/-- What CopyMem from NULL leaves in a block. -/
def nullCopy (L : EfiLib) (mem : Mem) (block : Addr) : List UInt8 :=
  (copyHash L mem block none).read block sizeOfSha256Hash

/-- The variables describe the run exactly when CopyMem from NULL leaves the loader's hash in the first block and
    then the payload's in the second. -/
theorem hints_describe_iff {L : EfiLib} (hL : Frames L) {S : EfiStrings} {M : MftahLoader}
    {sha256 : List UInt8 → List UInt8} (hM : Hashes M.toMftahProtocol sha256) {s : State} (hs : Reachable S M s)
    (hleft : s.phase = .left) {answers : Answers} {efiVars : Hint → Option UInt64} {r : Registration}
    (hr : registers L answers efiVars s = some r) :
    Describes sha256 s r ↔
      nullCopy L s.mem (answers.allocatePool .loaderHash).2 = sha256 s.loader ∧
        ∀ x, s.created = some x →
          nullCopy L (copyHash L s.mem (answers.allocatePool .loaderHash).2 none)
            (answers.allocatePool .payloadHash).2 = sha256 x.file := by
  obtain ⟨x, hx, -⟩ := (reachable_hashed hM hs).payload hleft
  unfold registers at hr
  cases hset : setEfiVarsHints L answers s.image.gRamdiskImage s.image.gRamdiskImageLength none none
      ⟨s.mem, efiVars⟩ with
  | error status =>
    rw [hset] at hr
    cases hr
  | ok published =>
    rw [hset] at hr
    cases hr
    have hsets := setEfiVarsHints_sets hset
    have hfirst : published.mem.read (answers.allocatePool .loaderHash).2 sizeOfSha256Hash =
        nullCopy L s.mem (answers.allocatePool .loaderHash).2 := by
      rw [hsets.mem]
      exact read_copyHash hL hsets.separate fun bs hnone => absurd hnone (Option.some_ne_none bs).symm
    have hsecond : published.mem.read (answers.allocatePool .payloadHash).2 sizeOfSha256Hash =
        nullCopy L (copyHash L s.mem (answers.allocatePool .loaderHash).2 none)
          (answers.allocatePool .payloadHash).2 := by
      rw [hsets.mem]
      rfl
    constructor
    · intro hdescribes
      obtain ⟨p, hp, hloader⟩ := hdescribes.loaderHash
      obtain ⟨q, hq, x', hx', hpayload⟩ := hdescribes.payloadHash
      have hp' : (answers.allocatePool .loaderHash).2 = p := Option.some.inj (hsets.loaderHash.symm.trans hp)
      have hq' : (answers.allocatePool .payloadHash).2 = q := Option.some.inj (hsets.payloadHash.symm.trans hq)
      subst hp' hq'
      refine ⟨hfirst.symm.trans hloader, fun y hy => ?_⟩
      have hsame : y = x' := Option.some.inj (hy.symm.trans hx')
      subst hsame
      exact hsecond.symm.trans hpayload
    · rintro ⟨hloader, hpayload⟩
      exact ⟨hsets.rdBase, hsets.rdSize, ⟨_, hsets.loaderHash, hfirst.trans hloader⟩,
        _, hsets.payloadHash, x, hx, hsecond.trans (hpayload x hx)⟩

/-! ## A run -/

theorem gnuEfi_frames : Frames gnuEfi := by
  intro m dst src n a ha
  exact Mem.write_frame (by rwa [Mem.length_read])

theorem plainLoader_hashes : Hashes plainLoader.toMftahProtocol sha256OfSmall := fun _ _ _ _ => rfl

theorem smallBlocks_separate : Separate 0x5000 sizeOfSha256Hash 0x6000 sizeOfSha256Hash :=
  separate_of_le (by decide) (by decide)

/-- Everything is answered well. -/
def steadyAnswers : Answers where
  setVariable _ := .success
  allocatePool hint := (.success, if hint = .loaderHash then 0x5000 else 0x6000)
  separate _ _ := smallBlocks_separate

/-- Registration is reached, with the loader's variable at the first block. -/
theorem registers_steady (s : State) :
    ∃ r, registers gnuEfi steadyAnswers (fun _ => none) s = some r ∧ r.efiVars .loaderHash = some 0x5000 ∧
      r.mem = copyHash gnuEfi (copyHash gnuEfi s.mem 0x5000 none) 0x6000 none :=
  ⟨_, rfl, rfl, rfl⟩

theorem hints_describe_iff_twoRounds :
    ∃ r, registers gnuEfi steadyAnswers (fun _ => none) afterTwoRounds = some r ∧
      (Describes sha256OfSmall afterTwoRounds r ↔
        nullCopy gnuEfi afterTwoRounds.mem (steadyAnswers.allocatePool .loaderHash).2 =
            sha256OfSmall afterTwoRounds.loader ∧
          ∀ x, afterTwoRounds.created = some x →
            nullCopy gnuEfi (copyHash gnuEfi afterTwoRounds.mem (steadyAnswers.allocatePool .loaderHash).2 none)
              (steadyAnswers.allocatePool .payloadHash).2 = sha256OfSmall x.file) := by
  obtain ⟨r, hr, -⟩ := registers_steady afterTwoRounds
  exact ⟨r, hr, hints_describe_iff gnuEfi_frames plainLoader_hashes afterTwoRounds_reach afterTwoRounds_left hr⟩

/-- Both hashes are generated, and both variables point at zeros. -/
theorem hints_point_at_zeros :
    ∃ (L : EfiLib) (S : EfiStrings) (M : MftahLoader) (sha256 : List UInt8 → List UInt8) (s : State)
      (answers : Answers) (r : Registration),
      Frames L ∧ Hashes M.toMftahProtocol sha256 ∧ Reachable S M s ∧ s.phase = .left ∧ Reported M s ∧
      registers L answers (fun _ => none) s = some r ∧
      r.mem.read 0x5000 sizeOfSha256Hash = List.replicate sizeOfSha256Hash 0 ∧ ¬ Describes sha256 s r := by
  have hcreated : afterTwoRounds.created.isSome = true := by decide +kernel
  obtain ⟨x, hx⟩ := Option.isSome_iff_exists.mp hcreated
  have hloader : afterTwoRounds.loaderReported = true := by decide +kernel
  obtain ⟨r, hr, hvariable, hmem⟩ := registers_steady afterTwoRounds
  have hzeros : r.mem.read 0x5000 sizeOfSha256Hash = List.replicate sizeOfSha256Hash 0 := by
    rw [hmem]
    decide +kernel
  refine ⟨gnuEfi, Select.gnuEfiStrings, plainLoader, sha256OfSmall, afterTwoRounds, steadyAnswers, r, gnuEfi_frames,
    plainLoader_hashes, afterTwoRounds_reach, afterTwoRounds_left, ⟨hloader, x, hx, rfl⟩, hr, hzeros, ?_⟩
  intro hdescribes
  obtain ⟨p, hp, hhash⟩ := hdescribes.loaderHash
  have hp' : 0x5000 = p := Option.some.inj (hvariable.symm.trans hp)
  subst hp'
  have hne : List.replicate sizeOfSha256Hash 0 ≠ sha256OfSmall afterTwoRounds.loader := by decide +kernel
  exact hne (hzeros.symm.trans hhash)

end Crows.Boot.Hints
