/-
  Crows.Boot.Sha256 — the loader's SHA-256, with its streaming interface.

  `Sha256` is struct Sha_256 between two calls, without the pointer to the hash, which
  sha_256_close returns: the chunk is filled up to `chunkPos`, and never to its end. What
  is behind that is whatever was on the stack or in an earlier chunk.

  Proved, for inputs of every length:
  - `writeLoop_taken`: sha_256_write takes its bytes in blocks, wherever the chunk stands.
  - `sha256Close_eq`: the padding leaves nothing of what the chunk held behind its filled part.
  - `sha256Close_write_write`: two writes give the digest of the two inputs in one call.
  - `hmacSha256_eq`: hmac_sha256 is HMAC over calc_sha_256.
-/
import Crows.Lib.Blocks

namespace Crows.Boot.Digest

open Crows.Lib

/-! ## sha256.c -/

def sizeOfSha256Hash : Nat := 32

def sizeOfSha256Chunk : Nat := 64

def totalLenLen : Nat := 8

def rightRot (value : UInt32) (count : UInt32) : UInt32 := value >>> count ||| value <<< (32 - count)

def k : Vector UInt32 64 := #v[
  0x428a2f98, 0x71374491, 0xb5c0fbcf, 0xe9b5dba5, 0x3956c25b, 0x59f111f1, 0x923f82a4,
  0xab1c5ed5, 0xd807aa98, 0x12835b01, 0x243185be, 0x550c7dc3, 0x72be5d74, 0x80deb1fe,
  0x9bdc06a7, 0xc19bf174, 0xe49b69c1, 0xefbe4786, 0x0fc19dc6, 0x240ca1cc, 0x2de92c6f,
  0x4a7484aa, 0x5cb0a9dc, 0x76f988da, 0x983e5152, 0xa831c66d, 0xb00327c8, 0xbf597fc7,
  0xc6e00bf3, 0xd5a79147, 0x06ca6351, 0x14292967, 0x27b70a85, 0x2e1b2138, 0x4d2c6dfc,
  0x53380d13, 0x650a7354, 0x766a0abb, 0x81c2c92e, 0x92722c85, 0xa2bfe8a1, 0xa81a664b,
  0xc24b8b70, 0xc76c51a3, 0xd192e819, 0xd6990624, 0xf40e3585, 0x106aa070, 0x19a4c116,
  0x1e376c08, 0x2748774c, 0x34b0bcb5, 0x391c0cb3, 0x4ed8aa4a, 0x5b9cca4f, 0x682e6ff3,
  0x748f82ee, 0x78a5636f, 0x84c87814, 0x8cc70208, 0x90befffa, 0xa4506ceb, 0xbef9a3f7,
  0xc67178f2]

/-- The four bytes of word `j` of a chunk, most significant first. -/
def chunkWord (p : List UInt8) (j : Nat) : UInt32 :=
  (p.getD (4 * j) 0).toUInt32 <<< 24 ||| (p.getD (4 * j + 1) 0).toUInt32 <<< 16 |||
    (p.getD (4 * j + 2) 0).toUInt32 <<< 8 ||| (p.getD (4 * j + 3) 0).toUInt32

/-- `w[j]` in pass `i`; the indices of `w` are taken modulo 16. -/
def scheduleWord (p : List UInt8) (i : Fin 4) (j : Fin 16) (w : Vector UInt32 16) : UInt32 :=
  if i = 0 then chunkWord p j
  else
    let s0 := rightRot (w.get (j + 1)) 7 ^^^ rightRot (w.get (j + 1)) 18 ^^^ (w.get (j + 1)) >>> 3
    let s1 := rightRot (w.get (j + 14)) 17 ^^^ rightRot (w.get (j + 14)) 19 ^^^ (w.get (j + 14)) >>> 10
    w.get j + s0 + w.get (j + 9) + s1

/-- One round, with the word and the round constant. -/
def round (ah : Vector UInt32 8) (w k : UInt32) : Vector UInt32 8 :=
  let s1 := rightRot ah[4] 6 ^^^ rightRot ah[4] 11 ^^^ rightRot ah[4] 25
  let ch := (ah[4] &&& ah[5]) ^^^ (~~~ah[4] &&& ah[6])
  let temp1 := ah[7] + s1 + ch + k + w
  let s0 := rightRot ah[0] 2 ^^^ rightRot ah[0] 13 ^^^ rightRot ah[0] 22
  let maj := (ah[0] &&& ah[1]) ^^^ (ah[0] &&& ah[2]) ^^^ (ah[1] &&& ah[2])
  let temp2 := s0 + maj
  #v[temp1 + temp2, ah[0], ah[1], ah[2], ah[3] + temp1, ah[4], ah[5], ah[6]]

/-- One turn of the inner loop, over the working variables and the 16 words. -/
def consumeTurn (p : List UInt8) (i : Fin 4) (s : Vector UInt32 8 × Vector UInt32 16) (j : Fin 16) :
    Vector UInt32 8 × Vector UInt32 16 :=
  let w := s.2.set j (scheduleWord p i j s.2)
  (round s.1 (w.get j) (k.get ⟨16 * i + j, by omega⟩), w)

def consumeChunk (h : Vector UInt32 8) (p : List UInt8) : Vector UInt32 8 :=
  let s := (List.finRange 4).foldl (fun s i => (List.finRange 16).foldl (consumeTurn p i) s) (h, Vector.replicate 16 0)
  Vector.zipWith (· + ·) h s.1

/-- struct Sha_256. -/
structure Sha256 where
  chunk : List UInt8
  /-- The offset of chunk_pos in the chunk. -/
  chunkPos : Nat
  spaceLeft : Nat
  totalLen : UInt64
  h : Vector UInt32 8
  length_chunk : chunk.length = sizeOfSha256Chunk
  chunkPos_add : chunkPos + spaceLeft = sizeOfSha256Chunk
  spaceLeft_pos : 0 < spaceLeft

/-- What an uninitialized chunk on the stack holds. -/
structure Stack where
  chunk : List UInt8
  length_chunk : chunk.length = sizeOfSha256Chunk

def initialHash : Vector UInt32 8 :=
  #v[0x6a09e667, 0xbb67ae85, 0x3c6ef372, 0xa54ff53a, 0x510e527f, 0x9b05688c, 0x1f83d9ab, 0x5be0cd19]

def sha256Init (stack : Stack) : Sha256 :=
  ⟨stack.chunk, 0, sizeOfSha256Chunk, 0, initialHash, stack.length_chunk, rfl, by decide⟩

/-- memcpy of `bytes` to the offset `pos` of a buffer. -/
def overwrite (buffer : List UInt8) (pos : Nat) (bytes : List UInt8) : List UInt8 :=
  buffer.take pos ++ bytes ++ buffer.drop (pos + bytes.length)

theorem length_overwrite {buffer : List UInt8} {pos : Nat} {bytes : List UInt8}
    (h : pos + bytes.length ≤ buffer.length) : (overwrite buffer pos bytes).length = buffer.length := by
  simp only [overwrite, List.length_append, List.length_take, List.length_drop]
  omega

/-- How much of `len` bytes goes into the chunk. -/
def consumed (len spaceLeft : Nat) : Nat := if len < spaceLeft then len else spaceLeft

theorem consumed_le (len spaceLeft : Nat) : consumed len spaceLeft ≤ len ∧ consumed len spaceLeft ≤ spaceLeft := by
  unfold consumed
  split <;> omega

theorem consumed_pos {len spaceLeft : Nat} (hlen : len ≠ 0) (hspace : 0 < spaceLeft) : 0 < consumed len spaceLeft := by
  unfold consumed
  split <;> omega

/-- The loop of sha_256_write, with the bytes that are left. -/
def writeLoop (p : List UInt8) (s : Sha256) : Sha256 :=
  if hempty : p.length = 0 then s
  else if s.spaceLeft = sizeOfSha256Chunk ∧ sizeOfSha256Chunk ≤ p.length then
    writeLoop (p.drop sizeOfSha256Chunk) { s with h := consumeChunk s.h (p.take sizeOfSha256Chunk) }
  else
    let consumedLen := consumed p.length s.spaceLeft
    let chunk := overwrite s.chunk s.chunkPos (p.take consumedLen)
    have hconsumed : consumedLen ≤ p.length ∧ consumedLen ≤ s.spaceLeft := consumed_le p.length s.spaceLeft
    have hchunk : chunk.length = sizeOfSha256Chunk := by
      have hadd := s.chunkPos_add
      refine (length_overwrite ?_).trans s.length_chunk
      rw [s.length_chunk, List.length_take]
      omega
    if hfull : s.spaceLeft - consumedLen = 0 then
      writeLoop (p.drop consumedLen)
        { s with
          chunk := chunk, chunkPos := 0, spaceLeft := sizeOfSha256Chunk, h := consumeChunk s.h chunk
          length_chunk := hchunk, chunkPos_add := rfl, spaceLeft_pos := by decide }
    else
      writeLoop (p.drop consumedLen)
        { s with
          chunk := chunk, chunkPos := s.chunkPos + consumedLen, spaceLeft := s.spaceLeft - consumedLen
          length_chunk := hchunk
          chunkPos_add := by
            have hadd := s.chunkPos_add
            omega
          spaceLeft_pos := Nat.pos_of_ne_zero hfull }
termination_by p.length
decreasing_by
  · rw [List.length_drop]
    unfold sizeOfSha256Chunk
    omega
  · have hpos := consumed_pos hempty s.spaceLeft_pos
    rw [List.length_drop]
    omega
  · have hpos := consumed_pos hempty s.spaceLeft_pos
    rw [List.length_drop]
    omega

def sha256Write (s : Sha256) (data : List UInt8) : Sha256 :=
  writeLoop data { s with totalLen := s.totalLen + UInt64.ofNat data.length }

/-- The number of bits in eight bytes, most significant first. -/
def lengthBytes (len : UInt64) : List UInt8 :=
  List.map (fun i : UInt64 => (len >>> 5 >>> (8 * i)).toUInt8) [6, 5, 4, 3, 2, 1, 0] ++ [(len <<< 3).toUInt8]

/-- The hash words as bytes, most significant first. -/
def hashBytes (h : Vector UInt32 8) : List UInt8 :=
  h.toList.flatMap fun w : UInt32 => [(w >>> 24).toUInt8, (w >>> 16).toUInt8, (w >>> 8).toUInt8, w.toUInt8]

def sha256Close (s : Sha256) : List UInt8 :=
  let chunk := overwrite s.chunk s.chunkPos [0x80]
  let pos := s.chunkPos + 1
  let spaceLeft := s.spaceLeft - 1
  if spaceLeft < totalLenLen then
    let chunk := overwrite chunk pos (List.replicate spaceLeft 0)
    let h := consumeChunk s.h chunk
    let left := sizeOfSha256Chunk - totalLenLen
    let chunk := overwrite chunk 0 (List.replicate left 0)
    hashBytes (consumeChunk h (overwrite chunk left (lengthBytes s.totalLen)))
  else
    let left := spaceLeft - totalLenLen
    let chunk := overwrite chunk pos (List.replicate left 0)
    hashBytes (consumeChunk s.h (overwrite chunk (pos + left) (lengthBytes s.totalLen)))

def calcSha256 (stack : Stack) (input : List UInt8) : List UInt8 := sha256Close (sha256Write (sha256Init stack) input)

/-! ## Writing into the chunk -/

/-- Up to the end of what was written, a buffer no longer depends on what it held there. -/
theorem take_overwrite {buffer : List UInt8} {pos : Nat} (h : pos ≤ buffer.length) (bytes : List UInt8) :
    (overwrite buffer pos bytes).take (pos + bytes.length) = buffer.take pos ++ bytes := by
  have hlength : (buffer.take pos ++ bytes).length = pos + bytes.length := by
    rw [List.length_append, List.length_take, Nat.min_eq_left h]
  rw [overwrite, ← hlength, List.take_left]

theorem overwrite_full {buffer : List UInt8} {pos : Nat} {bytes : List UInt8}
    (h : pos + bytes.length = buffer.length) : overwrite buffer pos bytes = buffer.take pos ++ bytes := by
  rw [overwrite, h, List.drop_length, List.append_nil]

/-- Two pieces written one behind the other are one. -/
theorem overwrite_append {buffer : List UInt8} {pos : Nat} (h : pos ≤ buffer.length) (bs cs : List UInt8) :
    overwrite (overwrite buffer pos bs) (pos + bs.length) cs = overwrite buffer pos (bs ++ cs) := by
  have hlength : (buffer.take pos ++ bs).length = pos + bs.length := by
    rw [List.length_append, List.length_take, Nat.min_eq_left h]
  have hdrop : (overwrite buffer pos bs).drop (pos + bs.length + cs.length) =
      buffer.drop (pos + (bs ++ cs).length) := by
    rw [overwrite, ← hlength, List.drop_append, List.drop_of_length_le (Nat.le_add_right _ _), List.nil_append,
      Nat.add_sub_cancel_left, hlength, List.drop_drop, List.length_append, Nat.add_assoc]
  rw [overwrite, take_overwrite h, hdrop, overwrite, List.append_assoc (buffer.take pos)]

/-- What the chunk has been filled with. -/
def Sha256.filled (s : Sha256) : List UInt8 := s.chunk.take s.chunkPos

/-- What the digest depends on, but for the length. -/
def Sha256.taken (s : Sha256) : Vector UInt32 8 × List UInt8 := (s.h, s.filled)

theorem Sha256.chunkPos_lt (s : Sha256) : s.chunkPos < s.chunk.length := by
  have hadd := s.chunkPos_add
  have hpos := s.spaceLeft_pos
  rw [s.length_chunk]
  omega

@[simp] theorem Sha256.length_filled (s : Sha256) : s.filled.length = s.chunkPos := by
  rw [Sha256.filled, List.length_take, Nat.min_eq_left (Nat.le_of_lt s.chunkPos_lt)]

@[simp] theorem taken_sha256Init (stack : Stack) : (sha256Init stack).taken = (initialHash, []) := rfl

@[simp] theorem totalLen_sha256Init (stack : Stack) : (sha256Init stack).totalLen = 0 := rfl

/-! ## sha_256_write -/

/-- Bytes that leave room in the chunk. -/
theorem absorb_taken_of_lt (s : Sha256) {bytes : List UInt8} (h : bytes.length < s.spaceLeft) :
    absorb consumeChunk sizeOfSha256Chunk s.taken bytes =
      (s.h, (overwrite s.chunk s.chunkPos bytes).take (s.chunkPos + bytes.length)) := by
  have hadd := s.chunkPos_add
  have hroom : s.filled.length + bytes.length < sizeOfSha256Chunk := by
    rw [s.length_filled]
    omega
  rw [take_overwrite (Nat.le_of_lt s.chunkPos_lt)]
  exact absorb_partial hroom

/-- Bytes that fill the chunk. -/
theorem absorb_taken_of_eq (s : Sha256) {bytes : List UInt8} (h : bytes.length = s.spaceLeft) :
    absorb consumeChunk sizeOfSha256Chunk s.taken bytes =
      (consumeChunk s.h (overwrite s.chunk s.chunkPos bytes), []) := by
  have hadd := s.chunkPos_add
  have hrest : s.filled.length < sizeOfSha256Chunk := by
    rw [s.length_filled, ← s.length_chunk]
    exact s.chunkPos_lt
  have hfull : s.filled.length + bytes.length = sizeOfSha256Chunk := by
    rw [s.length_filled, h, hadd]
  rw [overwrite_full (by rw [h, s.length_chunk, hadd])]
  exact absorb_block hrest hfull

/-- A block beside the chunk, which is empty. -/
theorem absorb_taken_block (s : Sha256) (hspace : s.spaceLeft = sizeOfSha256Chunk) {bytes : List UInt8}
    (h : bytes.length = sizeOfSha256Chunk) :
    absorb consumeChunk sizeOfSha256Chunk s.taken bytes = (consumeChunk s.h bytes, s.filled) := by
  have hadd := s.chunkPos_add
  have hempty : s.filled = [] := List.length_eq_zero_iff.mp (by rw [s.length_filled]; omega)
  have hfull := absorb_taken_of_eq s (h.trans hspace.symm)
  rwa [overwrite_full (by rw [h, s.length_chunk]; omega), show s.chunk.take s.chunkPos = [] from hempty,
    List.nil_append, ← hempty] at hfull

/-- The loop takes the bytes in blocks, wherever the chunk stands. -/
theorem writeLoop_taken (p : List UInt8) (s : Sha256) :
    (writeLoop p s).taken = absorb consumeChunk sizeOfSha256Chunk s.taken p ∧
      (writeLoop p s).totalLen = s.totalLen := by
  induction hn : p.length using Nat.strong_induction_on generalizing p s with
  | h n ih =>
    subst hn
    unfold writeLoop
    split
    · rename_i hempty
      rw [List.length_eq_zero_iff.mp hempty]
      exact ⟨rfl, rfl⟩
    rename_i hsome
    split
    · rename_i hblock
      have hdrop : (p.drop sizeOfSha256Chunk).length < p.length := by
        rw [List.length_drop]
        unfold sizeOfSha256Chunk
        omega
      obtain ⟨htaken, htotal⟩ := ih _ hdrop _ _ rfl
      refine ⟨?_, htotal⟩
      have htake : (p.take sizeOfSha256Chunk).length = sizeOfSha256Chunk := List.length_take_of_le hblock.2
      rw [htaken]
      conv_rhs => rw [← List.take_append_drop sizeOfSha256Chunk p, absorb_append, absorb_taken_block s hblock.1 htake]
      rfl
    have hconsumed := consumed_le p.length s.spaceLeft
    have hpos := consumed_pos hsome s.spaceLeft_pos
    have hdrop : (p.drop (consumed p.length s.spaceLeft)).length < p.length := by
      rw [List.length_drop]
      omega
    have htake : (p.take (consumed p.length s.spaceLeft)).length = consumed p.length s.spaceLeft :=
      List.length_take_of_le hconsumed.1
    dsimp only
    split
    · rename_i hfull
      obtain ⟨htaken, htotal⟩ := ih _ hdrop _ _ rfl
      refine ⟨?_, htotal⟩
      rw [htaken]
      conv_rhs => rw [← List.take_append_drop (consumed p.length s.spaceLeft) p, absorb_append,
        absorb_taken_of_eq s (by omega)]
      rfl
    · rename_i hroom
      obtain ⟨htaken, htotal⟩ := ih _ hdrop _ _ rfl
      refine ⟨?_, htotal⟩
      rw [htaken]
      conv_rhs => rw [← List.take_append_drop (consumed p.length s.spaceLeft) p, absorb_append,
        absorb_taken_of_lt s (by omega), htake]
      rfl

theorem taken_sha256Write (s : Sha256) (data : List UInt8) :
    (sha256Write s data).taken = absorb consumeChunk sizeOfSha256Chunk s.taken data :=
  (writeLoop_taken data _).1

theorem totalLen_sha256Write (s : Sha256) (data : List UInt8) :
    (sha256Write s data).totalLen = s.totalLen + UInt64.ofNat data.length :=
  (writeLoop_taken data _).2

/-! ## sha_256_close -/

/-- The digest of what was taken, with a one bit, zeros and the number of bits behind the rest of a block. -/
def finish (s : Vector UInt32 8 × List UInt8) (totalLen : UInt64) : List UInt8 :=
  if sizeOfSha256Chunk - s.2.length - 1 < totalLenLen then
    hashBytes
      (consumeChunk
        (consumeChunk s.1 (s.2 ++ [0x80] ++ List.replicate (sizeOfSha256Chunk - s.2.length - 1) 0))
        (List.replicate (sizeOfSha256Chunk - totalLenLen) 0 ++ lengthBytes totalLen))
  else
    hashBytes
      (consumeChunk s.1
        (s.2 ++ [0x80] ++ List.replicate (sizeOfSha256Chunk - s.2.length - 1 - totalLenLen) 0 ++
          lengthBytes totalLen))

@[simp] theorem length_lengthBytes (len : UInt64) : (lengthBytes len).length = totalLenLen := rfl

/-- The padding writes all of the chunk behind what it was filled with. -/
theorem sha256Close_eq (s : Sha256) : sha256Close s = finish s.taken s.totalLen := by
  have hadd : s.chunkPos + s.spaceLeft = 64 := s.chunkPos_add
  have hpos := s.spaceLeft_pos
  have hchunk : s.chunk.length = 64 := s.length_chunk
  have hbehind := Nat.le_of_lt s.chunkPos_lt
  have hspace : sizeOfSha256Chunk - s.taken.2.length - 1 = s.spaceLeft - 1 := by
    show 64 - s.filled.length - 1 = _
    rw [s.length_filled]
    omega
  unfold sha256Close finish
  rw [hspace]
  dsimp only
  split
  · -- no room for the length: it goes into a chunk of its own
    have hfirst : overwrite (overwrite s.chunk s.chunkPos [0x80]) (s.chunkPos + 1)
        (List.replicate (s.spaceLeft - 1) 0) = s.filled ++ ([0x80] ++ List.replicate (s.spaceLeft - 1) 0) := by
      refine (overwrite_append hbehind [0x80] _).trans (overwrite_full ?_)
      rw [List.length_append, List.length_singleton, List.length_replicate]
      omega
    have hlast : ∀ chunk : List UInt8, chunk.length = 64 →
        overwrite (overwrite chunk 0 (List.replicate (sizeOfSha256Chunk - totalLenLen) 0))
          (sizeOfSha256Chunk - totalLenLen) (lengthBytes s.totalLen) =
        List.replicate (sizeOfSha256Chunk - totalLenLen) 0 ++ lengthBytes s.totalLen := by
      intro chunk hlength
      have hone := overwrite_append (Nat.zero_le chunk.length) (List.replicate (sizeOfSha256Chunk - totalLenLen) 0)
        (lengthBytes s.totalLen)
      rw [List.length_replicate, Nat.zero_add] at hone
      rw [hone, overwrite_full (by rw [hlength]; rfl)]
      rfl
    have hlength : (s.filled ++ ([0x80] ++ List.replicate (s.spaceLeft - 1) (0 : UInt8))).length = 64 := by
      simp
      omega
    rw [hfirst, hlast _ hlength, ← List.append_assoc]
    rfl
  · rename_i hroom
    have hleft : totalLenLen ≤ s.spaceLeft - 1 := Nat.le_of_not_lt hroom
    have hzeros := overwrite_append hbehind [0x80] (List.replicate (s.spaceLeft - 1 - totalLenLen) 0)
    have hlast := overwrite_append hbehind ([0x80] ++ List.replicate (s.spaceLeft - 1 - totalLenLen) 0)
      (lengthBytes s.totalLen)
    rw [List.length_singleton] at hzeros
    rw [List.length_append, List.length_singleton, List.length_replicate, ← Nat.add_assoc] at hlast
    rw [hzeros, hlast, overwrite_full, ← List.append_assoc, ← List.append_assoc]
    · rfl
    · rw [List.length_append, List.length_append, List.length_singleton, List.length_replicate, length_lengthBytes,
        hchunk]
      omega

/-! ## Streaming -/

/-- The digest of an input, whatever was on the stack. -/
theorem calcSha256_eq (stack : Stack) (input : List UInt8) :
    calcSha256 stack input =
      finish (absorb consumeChunk sizeOfSha256Chunk (initialHash, []) input) (UInt64.ofNat input.length) := by
  rw [calcSha256, sha256Close_eq, taken_sha256Write, totalLen_sha256Write, totalLen_sha256Init, taken_sha256Init,
    UInt64.zero_add]

example : calcSha256 ⟨List.replicate 64 0xAA, rfl⟩ [0x61, 0x62, 0x63] =
    [0xba, 0x78, 0x16, 0xbf, 0x8f, 0x01, 0xcf, 0xea, 0x41, 0x41, 0x40, 0xde, 0x5d, 0xae, 0x22, 0x23,
      0xb0, 0x03, 0x61, 0xa3, 0x96, 0x17, 0x7a, 0x9c, 0xb4, 0x10, 0xff, 0x61, 0xf2, 0x00, 0x15, 0xad] := by
  decide +kernel

/-- Two writes give the digest of the two inputs as one. -/
theorem sha256Close_write_write (stack stack' : Stack) (x y : List UInt8) :
    sha256Close (sha256Write (sha256Write (sha256Init stack) x) y) = calcSha256 stack' (x ++ y) := by
  rw [sha256Close_eq, calcSha256_eq, taken_sha256Write, taken_sha256Write, totalLen_sha256Write, totalLen_sha256Write,
    totalLen_sha256Init, taken_sha256Init, UInt64.zero_add, absorb_append, List.length_append, UInt64.ofNat_add]

@[simp] theorem length_hashBytes (h : Vector UInt32 8) : (hashBytes h).length = sizeOfSha256Hash := by
  simp [hashBytes, sizeOfSha256Hash]

theorem length_calcSha256 (stack : Stack) (input : List UInt8) :
    (calcSha256 stack input).length = sizeOfSha256Hash := by
  rw [calcSha256_eq, finish]
  split
  · exact length_hashBytes _
  · exact length_hashBytes _

/-! ## hmac_sha256 -/

/-- The hash of `x` and `y` behind it. -/
def H (stack : Stack) (x y : List UInt8) : List UInt8 :=
  sha256Close (sha256Write (sha256Write (sha256Init stack) x) y)

/-- The stack where the key's hash, the inner and the outer one are made. -/
structure HmacStack where
  key : Stack
  inner : Stack
  outer : Stack

def hmacSha256 (stack : HmacStack) (key data : List UInt8) : List UInt8 :=
  let zeros := List.replicate sizeOfSha256Chunk 0
  let k :=
    if sizeOfSha256Chunk < key.length then overwrite zeros 0 (calcSha256 stack.key key) else overwrite zeros 0 key
  let kIpad := List.zipWith (· ^^^ ·) (List.replicate sizeOfSha256Chunk 0x36) k
  let kOpad := List.zipWith (· ^^^ ·) (List.replicate sizeOfSha256Chunk 0x5c) k
  let ihash := H stack.inner kIpad data
  H stack.outer kOpad ihash

/-- A key with zeros behind it, up to the length of a chunk. -/
def zeroPad (key : List UInt8) : List UInt8 := key ++ List.replicate (sizeOfSha256Chunk - key.length) 0

/-- The key that is used: the given one, or the digest of a longer one. -/
def normalKey (S : List UInt8 → List UInt8) (key : List UInt8) : List UInt8 :=
  if sizeOfSha256Chunk < key.length then zeroPad (S key) else zeroPad key

def xorPad (pad : UInt8) (key : List UInt8) : List UInt8 := key.map (· ^^^ pad)

theorem length_zeroPad {key : List UInt8} (h : key.length ≤ sizeOfSha256Chunk) :
    (zeroPad key).length = sizeOfSha256Chunk := by
  rw [zeroPad, List.length_append, List.length_replicate]
  omega

theorem overwrite_zeros (key : List UInt8) :
    overwrite (List.replicate sizeOfSha256Chunk 0) 0 key = zeroPad key := by
  simp [overwrite, zeroPad]

theorem zipWith_replicate_xor {key : List UInt8} (h : key.length = sizeOfSha256Chunk) (pad : UInt8) :
    List.zipWith (· ^^^ ·) (List.replicate sizeOfSha256Chunk pad) key = xorPad pad key := by
  rw [← h]
  clear h
  induction key with
  | nil => rfl
  | cons b key ih =>
    rw [List.length_cons, List.replicate_succ, List.zipWith_cons_cons, ih, UInt8.xor_comm]
    rfl

theorem H_eq (stack stack' : Stack) (x y : List UInt8) : H stack x y = calcSha256 stack' (x ++ y) :=
  sha256Close_write_write stack stack' x y

/-- For every key and message: hmac_sha256 is the digest of the outer key and the digest of the inner key and
    the message, each digest being that of one call of calc_sha_256. -/
theorem hmacSha256_eq (stack : HmacStack) (S : Stack) (key message : List UInt8) :
    hmacSha256 stack key message =
      calcSha256 S (xorPad 0x5c (normalKey (calcSha256 S) key) ++
        calcSha256 S (xorPad 0x36 (normalKey (calcSha256 S) key) ++ message)) := by
  have hkey : (if sizeOfSha256Chunk < key.length
      then overwrite (List.replicate sizeOfSha256Chunk 0) 0 (calcSha256 stack.key key)
      else overwrite (List.replicate sizeOfSha256Chunk 0) 0 key) = normalKey (calcSha256 S) key := by
    rw [overwrite_zeros, overwrite_zeros, normalKey, calcSha256_eq stack.key, calcSha256_eq S]
  have hlength : (normalKey (calcSha256 S) key).length = sizeOfSha256Chunk := by
    unfold normalKey
    split
    · apply length_zeroPad
      rw [length_calcSha256]
      decide
    · rename_i hshort
      exact length_zeroPad (Nat.le_of_not_lt hshort)
  unfold hmacSha256
  dsimp only
  rw [hkey, zipWith_replicate_xor hlength, zipWith_replicate_xor hlength, H_eq stack.inner S, H_eq stack.outer S]

end Crows.Boot.Digest
