/-
  Crows.Boot.LoaderHash — the hash of the loader file that DiscoverPayloads makes.

  The loop asks for as many bytes as the last Read gave, 4096 at first, and puts what the
  `i`-th Read gives at `4096 * i`. So behind a short chunk it goes on at the wrong place,
  but a file is short only at its end, where there is nothing left to be put:
  - `loaderLoop_returns`: the loop ends.
  - `loaderLoop_write`: without an error the whole file is in the buffer in order.
  - `loaderLoop_reads_file`: the two together, and no Read writes behind the buffer's end.
  - `hashLoader_reported`: a hash that no warning is printed about is that of the file.
-/

import Crows.Boot.Loading
import Crows.Lib.Loop

namespace Crows.Boot.Payload

open Crows.Lib

/-- `LoaderChunkSize` at first, and the distance of the chunks. -/
def loaderChunkSize : Nat := 4096

/-- A file in full. Its size is a UINT64. -/
structure FileBytes where
  bytes : List UInt8
  length_lt : bytes.length < 2 ^ 64

structure LoaderFirmware extends Firmware where
  opened : EfiStatus

/-- The variables of the loop; `status` is that of the last Read. -/
structure LoaderLoop where
  status : EfiStatus
  i : Nat
  loaderChunkSize : Nat
  mem : Mem
  file : EfiFile

def loaderTurn (fw : LoaderFirmware) (s : LoaderLoop) : Turn LoaderLoop LoaderLoop :=
  if s.loaderChunkSize = 0 then .done s
  else if (fw.read s.i).isError then .done { s with status := fw.read s.i }
  else
    let r := s.file.read s.loaderChunkSize
    .again ⟨fw.read s.i, s.i + 1, r.1.length,
      s.mem.write (fw.allocatePool.2 + UInt64.ofNat (s.i * loaderChunkSize)) r.1, r.2⟩

structure LoaderHashed where
  loadedLoaderHash : List UInt8
  /-- No warning is printed about it. -/
  reported : Bool
  mem : Mem

/-- The part of DiscoverPayloads that hashes the loader; `allocatePool` is asked for LoaderBuffer. -/
def hashLoader (M : MftahProtocol) (fw : LoaderFirmware) (loader : FileBytes) (hash0 : List UInt8) (mem : Mem) :
    LoaderHashed :=
  if fw.opened.isError then ⟨hash0, false, mem⟩
  else
    let loaderFileLength := fileSize fw.toFirmware ⟨loader.bytes, 0⟩
    let loaderBuffer := fw.allocatePool.2
    if loaderFileLength = 0 ∨ loaderBuffer = 0 then ⟨hash0, false, mem⟩
    else
      let m0 := mem.write loaderBuffer (List.replicate loaderFileLength.toNat 0)
      match loop (loaderTurn fw) (loader.bytes.length + 2) ⟨.success, 0, loaderChunkSize, m0, ⟨loader.bytes, 0⟩⟩ with
      | none => ⟨hash0, false, m0⟩
      | some s =>
        if s.status.isError then ⟨hash0, false, s.mem⟩
        else
          let hashed := M.createHash s.mem loaderBuffer loaderFileLength
          ⟨hashed.2, !hashed.1.isError, s.mem⟩

/-- The library hashes the buffer it is given. -/
def Hashes (M : MftahProtocol) (sha256 : List UInt8 → List UInt8) : Prop :=
  ∀ m a n, (M.createHash m a n).1.isError = false → (M.createHash m a n).2 = sha256 (m.read a n.toNat)

/-! ## The loop -/

variable {fw : LoaderFirmware} {bytes : List UInt8} {m0 : Mem}

/-- Every chunk so far was a full one, or the whole file has been read. -/
def LoaderReads (fw : LoaderFirmware) (bytes : List UInt8) (m0 : Mem) (s : LoaderLoop) : Prop :=
  (s.loaderChunkSize = loaderChunkSize ∧ s.i * loaderChunkSize ≤ bytes.length ∧
      s.file = ⟨bytes, s.i * loaderChunkSize⟩ ∧
      s.mem = m0.write fw.allocatePool.2 (bytes.take (s.i * loaderChunkSize))) ∨
    (s.loaderChunkSize < loaderChunkSize ∧ s.file = ⟨bytes, bytes.length⟩ ∧ s.mem = m0.write fw.allocatePool.2 bytes)

theorem loaderTurn_again {s s' : LoaderLoop} (h : loaderTurn fw s = .again s') :
    s.loaderChunkSize ≠ 0 ∧
      s' = ⟨fw.read s.i, s.i + 1, (s.file.read s.loaderChunkSize).1.length,
        s.mem.write (fw.allocatePool.2 + UInt64.ofNat (s.i * loaderChunkSize)) (s.file.read s.loaderChunkSize).1,
        (s.file.read s.loaderChunkSize).2⟩ := by
  unfold loaderTurn at h
  split at h
  · cases h
  rename_i hchunk
  split at h
  · cases h
  · cases h
    exact ⟨hchunk, rfl⟩

theorem loaderReads_turn (hlt : bytes.length < 2 ^ 64) {s s' : LoaderLoop} (h : LoaderReads fw bytes m0 s)
    (hturn : loaderTurn fw s = .again s') : LoaderReads fw bytes m0 s' := by
  obtain ⟨-, rfl⟩ := loaderTurn_again hturn
  rcases h with ⟨hchunk, hle, hfile, hmem⟩ | ⟨-, hfile, hmem⟩
  · have hread := read_chunk bytes loaderChunkSize s.i
    rw [Nat.min_eq_left hle] at hread
    have hwrite := m0.write_take fw.allocatePool.2 (Nat.le_of_lt hlt) (s.i * loaderChunkSize) loaderChunkSize
    rw [← Nat.succ_mul] at hwrite
    rw [LoaderReads, hfile, hchunk, hread, hmem, hwrite]
    dsimp only
    rcases Nat.lt_or_ge bytes.length ((s.i + 1) * loaderChunkSize) with hshort | hfull
    · -- the last chunk, which may be empty
      refine .inr ⟨?_, ?_, ?_⟩
      · rw [Nat.succ_mul] at hshort
        rw [List.length_take, List.length_drop]
        omega
      · rw [Nat.min_eq_right (Nat.le_of_lt hshort)]
      · rw [List.take_of_length_le (Nat.le_of_lt hshort)]
    · refine .inl ⟨?_, hfull, ?_, rfl⟩
      · rw [Nat.succ_mul] at hfull
        rw [List.length_take, List.length_drop]
        omega
      · rw [Nat.min_eq_left hfull]
  · -- the end of the file: nothing is read
    have hread : s.file.read s.loaderChunkSize = ([], ⟨bytes, bytes.length⟩) := by
      simp [EfiFile.read, hfile]
    rw [LoaderReads, hread, hmem, Mem.write_nil]
    exact .inr ⟨Nat.zero_lt_succ _, rfl, rfl⟩

theorem loaderLoop_write (hlt : bytes.length < 2 ^ 64) {s s' : LoaderLoop} (hs : LoaderReads fw bytes m0 s)
    (h : Returns (loaderTurn fw) s s') (hok : s'.status.isError = false) :
    s'.mem = m0.write fw.allocatePool.2 bytes := by
  revert hs
  refine Returns.turns (P := fun s => LoaderReads fw bytes m0 s → s'.mem = m0.write fw.allocatePool.2 bytes) ?_ ?_ h
  · intro s hdone hs
    unfold loaderTurn at hdone
    split at hdone
    · rename_i hzero
      cases hdone
      rcases hs with ⟨hchunk, -⟩ | ⟨-, -, hmem⟩
      · rw [hchunk] at hzero
        cases hzero
      · exact hmem
    split at hdone
    · rename_i herror
      cases hdone
      rw [hok] at herror
      cases herror
    · cases hdone
  · intro s next hturn ih hs
    exact ih (loaderReads_turn hlt hs hturn)

/-- Every Read that gives anything lowers what is left of the file. -/
theorem loaderLoop_fuel (fw : LoaderFirmware) {fuel : Nat} {s : LoaderLoop}
    (hfuel : (s.file.bytes.length - s.file.pos) + (if s.loaderChunkSize = 0 then 1 else 2) ≤ fuel) :
    ∃ s', loop (loaderTurn fw) fuel s = some s' := by
  induction fuel generalizing s with
  | zero => split at hfuel <;> omega
  | succ fuel ih =>
    cases hturn : loaderTurn fw s with
    | done s' => exact ⟨s', loop_succ_done hturn fuel⟩
    | again s' =>
      rw [loop_succ_again hturn]
      obtain ⟨hchunk, rfl⟩ := loaderTurn_again hturn
      apply ih
      rw [if_neg hchunk] at hfuel
      simp only [EfiFile.read, List.length_take, List.length_drop]
      split <;> omega

theorem loaderLoop_returns (fw : LoaderFirmware) (bytes : List UInt8) (m0 : Mem) :
    ∃ s, loop (loaderTurn fw) (bytes.length + 2) ⟨.success, 0, loaderChunkSize, m0, ⟨bytes, 0⟩⟩ = some s :=
  loaderLoop_fuel fw (by simp [loaderChunkSize])

theorem loaderReads_start (fw : LoaderFirmware) (bytes : List UInt8) (m0 : Mem) :
    LoaderReads fw bytes m0 ⟨.success, 0, loaderChunkSize, m0, ⟨bytes, 0⟩⟩ :=
  .inl ⟨rfl, by simp, by simp, by simp⟩

/-- The Read of the turn that begins in `s` gives nothing, or what ends in the buffer; outside of it the memory
    is what it was before the loop. -/
structure StaysInside (fw : LoaderFirmware) (bytes : List UInt8) (m0 : Mem) (s : LoaderLoop) : Prop where
  read : (s.file.read s.loaderChunkSize).1 ≠ [] →
    s.i * loaderChunkSize + (s.file.read s.loaderChunkSize).1.length ≤ bytes.length
  frame : ∀ a, ¬ InRegion fw.allocatePool.2 bytes.length a → s.mem a = m0 a

theorem LoaderReads.staysInside {s : LoaderLoop} (h : LoaderReads fw bytes m0 s) : StaysInside fw bytes m0 s := by
  rcases h with ⟨hchunk, hle, hfile, hmem⟩ | ⟨-, hfile, hmem⟩
  · constructor
    · intro _
      rw [hchunk, hfile]
      simp only [EfiFile.read, List.length_take, List.length_drop]
      omega
    · intro a ha
      rw [hmem]
      refine Mem.write_frame fun hin => ha (hin.mono ?_)
      rw [List.length_take]
      omega
  · constructor
    · intro hread
      exact absurd (by simp [EfiFile.read, hfile]) hread
    · intro a ha
      rw [hmem]
      exact Mem.write_frame ha

/-- For a loader file of any length the loop ends, never writes behind the end of its buffer, and leaves the
    whole file there when it ends without an error. -/
theorem loaderLoop_reads_file (fw : LoaderFirmware) (loader : FileBytes) (m0 : Mem) :
    EndsWithin (loaderTurn fw) (StaysInside fw loader.bytes m0)
        ⟨.success, 0, loaderChunkSize, m0, ⟨loader.bytes, 0⟩⟩ ∧
      ∀ s, Returns (loaderTurn fw) ⟨.success, 0, loaderChunkSize, m0, ⟨loader.bytes, 0⟩⟩ s →
        s.status.isError = false → s.mem.read fw.allocatePool.2 loader.bytes.length = loader.bytes := by
  have hstart := loaderReads_start fw loader.bytes m0
  refine ⟨⟨?_, ?_⟩, ?_⟩
  · obtain ⟨s, hs⟩ := loaderLoop_returns fw loader.bytes m0
    exact ⟨s, _, hs⟩
  · intro s hvisit
    have hs : LoaderReads fw loader.bytes m0 s :=
      hvisit.invariant hstart fun a b ha hturn => loaderReads_turn loader.length_lt ha hturn
    exact hs.staysInside
  · intro s hs hok
    rw [loaderLoop_write loader.length_lt hstart hs hok]
    exact Mem.read_write _ _ (Nat.le_of_lt loader.length_lt)

/-- A hash that no warning is printed about is that of the loader file. -/
theorem hashLoader_reported {M : MftahProtocol} {sha256 : List UInt8 → List UInt8} (hM : Hashes M sha256)
    {loader : FileBytes} {hash0 : List UInt8} {mem : Mem}
    (h : (hashLoader M fw loader hash0 mem).reported = true) :
    (hashLoader M fw loader hash0 mem).loadedLoaderHash = sha256 loader.bytes := by
  unfold hashLoader at h ⊢
  split
  · rename_i hopened
    rw [if_pos hopened] at h
    cases h
  rename_i hopened
  rw [if_neg hopened] at h
  dsimp only at h ⊢
  split
  · rename_i hnone
    rw [if_pos hnone] at h
    cases h
  rename_i hsome
  rw [if_neg hsome] at h
  have hsize : (fileSize fw.toFirmware ⟨loader.bytes, 0⟩).toNat = loader.bytes.length := by
    have hinfo : fw.libFileInfo = true := by
      cases hinfo : fw.libFileInfo with
      | true => rfl
      | false => exact absurd (.inl (by simp [fileSize, hinfo])) hsome
    simp only [fileSize, hinfo, if_true, UInt64.toNat_ofNat']
    exact Nat.mod_eq_of_lt loader.length_lt
  obtain ⟨s, hloop⟩ := loaderLoop_returns fw loader.bytes
    (mem.write fw.allocatePool.2 (List.replicate (fileSize fw.toFirmware ⟨loader.bytes, 0⟩).toNat 0))
  rw [hloop] at h ⊢
  dsimp only at h ⊢
  split
  · rename_i herror
    rw [if_pos herror] at h
    cases h
  rename_i hok
  rw [if_neg hok] at h
  have hmem :=
    loaderLoop_write loader.length_lt (loaderReads_start fw loader.bytes _) ⟨_, hloop⟩ (Bool.not_eq_true _ ▸ hok)
  have hhash := hM s.mem fw.allocatePool.2 (fileSize fw.toFirmware ⟨loader.bytes, 0⟩) (by simpa using h)
  rw [hhash, hmem, hsize, Mem.read_write _ _ (Nat.le_of_lt loader.length_lt)]

end Crows.Boot.Payload
