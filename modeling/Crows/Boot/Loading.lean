/-
  Crows.Boot.Loading — the payload file in memory, up to create_payload.

  `readPayload` is LoadAndDecrypt up to the point where the buffer is handed to the
  library, `decryptPayload` the rest of it (`loadAndDecrypt_eq`). Chunk after chunk the
  loop goes on where the handle stands, so a file read from its beginning is in the
  buffer in order, and a last chunk that is short writes no more than it reads:
  - `readPayload_write`: what create_payload is handed is the memory before, with the
    bytes of the file at ReadBuffer.
-/

import Crows.Boot.Payload

namespace Crows.Boot.Payload

open Crows.Lib

/-- LoadAndDecrypt before create_payload: it has panicked, has come back, or reaches it. -/
inductive Reading where
  | panic
  | failed (status : EfiStatus) (mem : Mem) (file : EfiFile)
  | reached (mem : Mem) (file : EfiFile)

def readPayload (fw : Firmware) (file : EfiFile) (mem : Mem) : Reading :=
  let readFileSize := fileSize fw file
  if readFileSize % aesBlocklen ≠ 0 then .failed .aborted mem file
  else if fw.allocatePool.1 = .outOfResources ∨ fw.allocatePool.2 = 0 ∨ fw.allocatePool.1.isError then .panic
  else
    let (st, m1, f1) := readChunks fw fw.allocatePool.2 (chunkOffsets readFileSize.toNat) mem file
    if st.isError then .failed st m1 f1 else .reached m1 f1

/-- LoadAndDecrypt from create_hash on. -/
def decryptPayload (M : MftahProtocol) (readBuffer : Addr) (readFileSize : UInt64) (password : List UInt8)
    (image0 : Image) (m1 : Mem) (f1 : EfiFile) : Loaded :=
  let hashed := M.createHash m1 readBuffer readFileSize
  let created := M.createPayload m1 readBuffer readFileSize
  if created.1.isError then ⟨.aborted, m1, f1, hashed.2, image0⟩
  else
    let decrypted := M.decrypt m1 created.2 password
    if decrypted.1.isError then ⟨.aborted, decrypted.2, f1, hashed.2, image0⟩
    else
      let base := M.getBufferBase created.2
      if base.1.isError ∨ base.2 = 0 then ⟨.aborted, decrypted.2, f1, hashed.2, image0⟩
      else
        ⟨.success, decrypted.2, f1, hashed.2,
          ⟨base.2 + M.payloadHeaderSizeof, decrypted.2.readU64 (base.2 + 96)⟩⟩

theorem loadAndDecrypt_eq (M : MftahProtocol) (fw : Firmware) (file : EfiFile) (password hash0 : List UInt8)
    (image0 : Image) (mem : Mem) :
    loadAndDecrypt M fw file password hash0 image0 mem =
      match readPayload fw file mem with
      | .panic => .panic
      | .failed status m f => .ret ⟨status, m, f, hash0, image0⟩
      | .reached m f => .ret (decryptPayload M fw.allocatePool.2 (fileSize fw file) password image0 m f) := by
  unfold loadAndDecrypt readPayload decryptPayload
  dsimp only
  split
  · rfl
  split
  · rfl
  split
  · rfl
  dsimp only
  repeat' split
  all_goals rfl

/-! ## The read loop -/

theorem chunkOffsets_eq (size : Nat) :
    chunkOffsets size = (List.range' 0 ((size + (mftahRamdiskLoadBlockSize - 1)) / mftahRamdiskLoadBlockSize)).map
      (· * mftahRamdiskLoadBlockSize) := by
  rw [chunkOffsets, List.range_eq_range']

/-- A read of a handle that stands at chunk `j`, or at the end if that is before. -/
theorem read_chunk (bytes : List UInt8) (size j : Nat) :
    EfiFile.read ⟨bytes, min (j * size) bytes.length⟩ size =
      ((bytes.drop (j * size)).take size, ⟨bytes, min ((j + 1) * size) bytes.length⟩) := by
  have hdrop : bytes.drop (min (j * size) bytes.length) = bytes.drop (j * size) := by
    rcases Nat.le_total (j * size) bytes.length with hle | hge
    · rw [Nat.min_eq_left hle]
    · rw [Nat.min_eq_right hge, List.drop_of_length_le hge, List.drop_length]
  simp only [EfiFile.read, hdrop, List.length_take, List.length_drop, Prod.mk.injEq, EfiFile.mk.injEq, true_and]
  rw [Nat.succ_mul]
  omega

/-- By induction on the chunks: before chunk `j` the bytes in front of it are in the buffer. -/
theorem readChunks_from {fw : Firmware} {readBuffer : Addr} {bytes : List UInt8} (hlt : bytes.length < 2 ^ 64)
    {m m' : Mem} {f' : EfiFile} {st : EfiStatus} {j k : Nat}
    (h : readChunks fw readBuffer ((List.range' j k).map (· * mftahRamdiskLoadBlockSize))
      (m.write readBuffer (bytes.take (j * mftahRamdiskLoadBlockSize)))
      ⟨bytes, min (j * mftahRamdiskLoadBlockSize) bytes.length⟩ = (st, m', f')) (hok : st.isError = false) :
    m' = m.write readBuffer (bytes.take ((j + k) * mftahRamdiskLoadBlockSize)) ∧
      f' = ⟨bytes, min ((j + k) * mftahRamdiskLoadBlockSize) bytes.length⟩ := by
  induction k generalizing j with
  | zero =>
    cases h
    exact ⟨rfl, rfl⟩
  | succ k ih =>
    have hcount : j + (k + 1) = (j + 1) + k := by omega
    rw [hcount]
    simp only [List.range'_succ, List.map_cons, readChunks] at h
    split at h
    · rename_i herror
      cases h
      rw [hok] at herror
      cases herror
    rw [read_chunk] at h
    have hmore := m.write_take readBuffer (Nat.le_of_lt hlt) (j * mftahRamdiskLoadBlockSize) mftahRamdiskLoadBlockSize
    rw [← Nat.succ_mul] at hmore
    dsimp only at h
    rw [hmore] at h
    exact ih h

/-- The loop's chunks cover the file. -/
theorem readChunks_write {fw : Firmware} {readBuffer : Addr} {bytes : List UInt8} (hlt : bytes.length < 2 ^ 64)
    {m m' : Mem} {f' : EfiFile} {st : EfiStatus}
    (h : readChunks fw readBuffer (chunkOffsets bytes.length) m ⟨bytes, 0⟩ = (st, m', f'))
    (hok : st.isError = false) : m' = m.write readBuffer bytes := by
  rw [chunkOffsets_eq] at h
  have hstart : m.write readBuffer (bytes.take (0 * mftahRamdiskLoadBlockSize)) = m := by simp
  have hpos : min (0 * mftahRamdiskLoadBlockSize) bytes.length = 0 := by simp
  have hall := (readChunks_from hlt (hstart ▸ hpos ▸ h) hok).1
  rw [List.take_of_length_le] at hall
  · exact hall
  · simp only [mftahRamdiskLoadBlockSize]
    omega

theorem readPayload_write {fw : Firmware} {bytes : List UInt8} (hsize : (fileSize fw ⟨bytes, 0⟩).toNat = bytes.length)
    {m m' : Mem} {f' : EfiFile} (h : readPayload fw ⟨bytes, 0⟩ m = .reached m' f') :
    m' = m.write fw.allocatePool.2 bytes := by
  have hlt : bytes.length < 2 ^ 64 := hsize ▸ UInt64.toNat_lt _
  unfold readPayload at h
  dsimp only at h
  split at h
  · cases h
  split at h
  · cases h
  split at h
  · cases h
  · rename_i hok
    cases h
    rw [hsize] at hok ⊢
    exact readChunks_write hlt rfl (Bool.not_eq_true _ ▸ hok)

/-- Where FileSize gives 0, which is also what it gives when it fails, nothing is read. -/
theorem readPayload_of_zero {fw : Firmware} {file : EfiFile} (hsize : fileSize fw file = 0) {m m' : Mem} {f' : EfiFile}
    (h : readPayload fw file m = .reached m' f') : m' = m := by
  unfold readPayload at h
  dsimp only at h
  rw [hsize] at h
  split at h
  · cases h
  split at h
  · cases h
  split at h
  · cases h
  · cases h
    rfl

end Crows.Boot.Payload
