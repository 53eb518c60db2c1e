/-
  Crows.Boot.AesCbc — AES_CBC_decrypt_buffer over memory.

  `cbcTurn` is a turn of its loop, with `i` the 64-bit counter it is, the block decrypted
  in place and the calls of `progress` in the order they are made. The context lies
  elsewhere than the buffer.
  - `decryptBuffer_ends_iff`: the loop ends exactly for lengths up to 2^64 - 16; above,
    `i` comes round to 0 before it gets there.
  - `decryptBuffer_effect`: what a call leaves behind. It rewrites whole blocks, so that
    a length that is no multiple of 16 takes in up to 15 bytes behind the buffer.
  - `decryptBuffer_encrypted`: an encrypted buffer is decrypted in place.
  - `decryptBuffer_twice`: two calls for two parts that lie side by side are one call.
  - `decryptBuffer_damaged`: damage to one block of the buffer comes out in that block
    and, bit for bit, in the next.
-/

import Mathlib
import Crows.Lib.Memory
import Crows.Lib.Loop
import Crows.Lib.Chaining
import Crows.Boot.Aes

namespace Crows.Boot.Aes

open Crows.Lib

/-- `struct AES_ctx`. -/
structure AesCtx where
  roundKey : RoundKeys
  iv : State
  deriving DecidableEq

def aesInitCtxIv (ctx : AesCtx) (key : Vector UInt8 32) (iv : State) : AesCtx :=
  { ctx with roundKey := keyExpansion ctx.roundKey key, iv := iv }

def aesCtxSetIv (ctx : AesCtx) (iv : State) : AesCtx := { ctx with iv := iv }

/-- The 16 bytes at `buf`, which is also `(state_t*)buf`. -/
def stateAt (m : Mem) (buf : Addr) : State := ⟨(m.read buf 16).toArray, by simp⟩

def xorWithIv (buf iv : State) : State := Vector.zipWith (· ^^^ ·) buf iv

@[ext] structure CbcState where
  i : UInt64
  buf : Addr
  ctx : AesCtx
  mem : Mem
  /-- The arguments of `progress`, call by call. -/
  calls : List (UInt64 × UInt64)

structure CbcResult where
  ctx : AesCtx
  mem : Mem
  calls : List (UInt64 × UInt64)

/-- A turn of the loop; `progress` says whether the caller gave a function to call. -/
def cbcTurn (progress : Bool) (length : UInt64) (s : CbcState) : Turn CbcState CbcResult :=
  if s.i < length then
    let calls := if progress && s.i % 0x400000 == 0 then s.calls ++ [(s.i, length)] else s.calls
    let storeNextIv := stateAt s.mem s.buf
    -- both functions work in place
    let mem := s.mem.write s.buf (invCipher storeNextIv s.ctx.roundKey).toList
    let mem := mem.write s.buf (xorWithIv (stateAt mem s.buf) s.ctx.iv).toList
    .again { i := s.i + 16, buf := s.buf + 16, ctx := { s.ctx with iv := storeNextIv }, mem, calls }
  else
    .done { ctx := s.ctx, mem := s.mem, calls := if progress then s.calls ++ [(length, length)] else s.calls }

/-- The state in which the loop is entered. -/
def cbcEntry (ctx : AesCtx) (m : Mem) (buf : Addr) : CbcState := { i := 0, buf, ctx, mem := m, calls := [] }

/-- The call of the function returns, with this result. -/
def DecryptBuffer (progress : Bool) (ctx : AesCtx) (m : Mem) (buf : Addr) (length : UInt64) (r : CbcResult) : Prop :=
  Returns (cbcTurn progress length) (cbcEntry ctx m buf) r

/-! ## Blocks of a buffer -/

/-- The first `n` blocks from `buf` on. -/
def blocksAt (m : Mem) (buf : Addr) (n : Nat) : List State :=
  (List.range n).map fun j => stateAt m (buf + UInt64.ofNat (16 * j))

def bytes (bs : List State) : List UInt8 := bs.flatMap Vector.toList

@[simp] theorem toList_stateAt (m : Mem) (buf : Addr) : (stateAt m buf).toList = m.read buf 16 := by
  simp [stateAt]

@[simp] theorem length_blocksAt (m : Mem) (buf : Addr) (n : Nat) : (blocksAt m buf n).length = n := by
  simp [blocksAt]

@[simp] theorem length_bytes (bs : List State) : (bytes bs).length = 16 * bs.length := by
  induction bs with
  | nil => rfl
  | cons b bs ih => simp_all [bytes]; omega

@[simp] theorem bytes_append (bs cs : List State) : bytes (bs ++ cs) = bytes bs ++ bytes cs :=
  List.flatMap_append

theorem blocksAt_succ (m : Mem) (buf : Addr) (n : Nat) :
    blocksAt m buf (n + 1) = blocksAt m buf n ++ [stateAt m (buf + UInt64.ofNat (16 * n))] := by
  rw [blocksAt, List.range_succ, List.map_append]
  rfl

theorem stateAt_eq_iff {m m' : Mem} {a a' : Addr} : stateAt m a = stateAt m' a' ↔ m.read a 16 = m'.read a' 16 := by
  rw [← toList_stateAt, ← toList_stateAt, Vector.toList_inj]

theorem stateAt_write (m : Mem) (buf : Addr) (s : State) : stateAt (m.write buf s.toList) buf = s := by
  have hread : (m.write buf s.toList).read buf s.toList.length = s.toList := m.read_write buf (by simp)
  rw [← Vector.toList_inj, toList_stateAt]
  simpa using hread

/-- Blocks further on are not those written. -/
theorem stateAt_write_behind (m : Mem) (buf : Addr) {bs : List State} {j : Nat} (hj : bs.length ≤ j)
    (hfits : 16 * (j + 1) ≤ 2 ^ 64) :
    stateAt (m.write buf (bytes bs)) (buf + UInt64.ofNat (16 * j)) = stateAt m (buf + UInt64.ofNat (16 * j)) := by
  rw [stateAt_eq_iff]
  apply Mem.read_write_separate (by omega)
  intro a ha hin
  rw [length_bytes] at hin
  unfold InRegion at ha hin
  have hb := buf.toNat_lt
  have ha' := a.toNat_lt
  simp only [UInt64.toNat_sub, UInt64.toNat_add, UInt64.toNat_ofNat'] at ha hin
  omega

/-- Blocks written behind others. -/
theorem write_bytes_append (m : Mem) (buf : Addr) (bs : List State) (cs : List UInt8) {j : Nat} (hj : bs.length = j)
    (hfits : 16 * j + cs.length ≤ 2 ^ 64) :
    m.write buf (bytes bs ++ cs) = (m.write buf (bytes bs)).write (buf + UInt64.ofNat (16 * j)) cs := by
  subst hj
  rw [← length_bytes, m.write_append buf (by simpa using hfits)]

theorem blocksAt_write_behind (m : Mem) (buf : Addr) {bs : List State} {n k : Nat} (hn : bs.length ≤ n)
    (hfits : 16 * (n + k) ≤ 2 ^ 64) : blocksAt (m.write buf (bytes bs)) (buf + UInt64.ofNat (16 * n)) k =
      blocksAt m (buf + UInt64.ofNat (16 * n)) k := by
  apply List.map_congr_left
  intro j hj
  have hlt := List.mem_range.mp hj
  have hbehind := stateAt_write_behind m buf (Nat.le_add_right_of_le hn : bs.length ≤ n + j) (by omega)
  rwa [Nat.mul_add, UInt64.ofNat_add, ← UInt64.add_assoc] at hbehind

/-- The blocks that a length counts, the last one full or not. -/
def blockCount (length : UInt64) : Nat := (length.toNat + 15) / 16

theorem xorWithIv_cancel (a b : State) : xorWithIv (xorWithIv a b) b = a := by
  apply Vector.ext
  intro k hk
  simp [xorWithIv]

/-! ## The loop -/

section Run

variable (progress : Bool) (ctx : AesCtx) (m : Mem) (buf : Addr) (length : UInt64)

/-- The buffer decrypted with the context's keys. -/
def plainOf (bs : List State) : List State := chainDec xorWithIv (fun s => invCipher s ctx.roundKey) ctx.iv bs

@[simp] theorem length_plainOf (bs : List State) : (plainOf ctx bs).length = bs.length := length_chainDec ..

/-- The calls of `progress` for the first `n` blocks: one for each 4 MiB begun. -/
def callsUpTo (n : Nat) : List (UInt64 × UInt64) :=
  if progress then (List.range ((16 * n + 4194303) / 4194304)).map fun q => (UInt64.ofNat (4194304 * q), length) else []

/-- The state of the loop behind `j` blocks. -/
def cbcAt (j : Nat) : CbcState where
  i := UInt64.ofNat (16 * j)
  buf := buf + UInt64.ofNat (16 * j)
  ctx := { ctx with iv := lastBlock ctx.iv (blocksAt m buf j) }
  mem := m.write buf (bytes (plainOf ctx (blocksAt m buf j)))
  calls := callsUpTo progress length j

theorem plainOf_append (bs cs : List State) :
    plainOf ctx (bs ++ cs) = plainOf ctx bs ++ plainOf { ctx with iv := lastBlock ctx.iv bs } cs := chainDec_append ..

theorem callsUpTo_succ {j : Nat} (hj : 16 * j < 2 ^ 64) : callsUpTo progress length (j + 1) =
    if progress && UInt64.ofNat (16 * j) % 0x400000 == 0 then
      callsUpTo progress length j ++ [(UInt64.ofNat (16 * j), length)]
    else callsUpTo progress length j := by
  have hnat : (UInt64.ofNat (16 * j) % 0x400000 == 0) = decide (16 * j % 4194304 = 0) := by
    have hpos := UInt64.toNat_ofNat_of_lt' hj
    rw [Bool.eq_iff_iff, beq_iff_eq, decide_eq_true_eq, ← UInt64.toNat_inj, UInt64.toNat_mod, hpos]
    rfl
  rw [hnat]
  cases progress with
  | false => simp [callsUpTo]
  | true =>
    simp only [callsUpTo, Bool.true_and, decide_eq_true_eq, if_true]
    by_cases hzero : 16 * j % 4194304 = 0
    · have hone : (16 * (j + 1) + 4194303) / 4194304 = (16 * j + 4194303) / 4194304 + 1 := by omega
      have hindex : 4194304 * ((16 * j + 4194303) / 4194304) = 16 * j := by omega
      rw [if_pos hzero, hone, List.range_succ, List.map_append, List.map_singleton, hindex]
    · have hsame : (16 * (j + 1) + 4194303) / 4194304 = (16 * j + 4194303) / 4194304 := by omega
      rw [if_neg hzero, hsame]

theorem cbcTurn_cbcAt {j : Nat} (hj : 16 * j < length.toNat) (hfits : 16 * (j + 1) ≤ 2 ^ 64) :
    cbcTurn progress length (cbcAt progress ctx m buf length j) = .again (cbcAt progress ctx m buf length (j + 1)) := by
  have hlt : UInt64.ofNat (16 * j) < length := by
    rw [UInt64.lt_iff_toNat_lt, UInt64.toNat_ofNat']
    omega
  have hblock : stateAt (m.write buf (bytes (plainOf ctx (blocksAt m buf j)))) (buf + UInt64.ofNat (16 * j)) =
      stateAt m (buf + UInt64.ofNat (16 * j)) := stateAt_write_behind m buf (by simp) hfits
  have hfirst : blocksAt m buf (j + 1) = blocksAt m buf j ++ [stateAt m (buf + UInt64.ofNat (16 * j))] :=
    blocksAt_succ m buf j
  have hnext : UInt64.ofNat (16 * (j + 1)) = UInt64.ofNat (16 * j) + 16 := UInt64.ofNat_add (16 * j) 16
  unfold cbcTurn
  rw [if_pos (show (cbcAt progress ctx m buf length j).i < length from hlt)]
  refine congrArg Turn.again (CbcState.ext hnext.symm ?_ ?_ ?_ ?_)
  · show buf + UInt64.ofNat (16 * j) + 16 = buf + UInt64.ofNat (16 * (j + 1))
    rw [hnext, UInt64.add_assoc]
  · simp only [cbcAt, hblock, hfirst, lastBlock_append, lastBlock_cons, lastBlock_nil]
  · simp only [cbcAt, hblock, stateAt_write]
    rw [Mem.write_over _ _ (by simp), ← write_bytes_append m buf _ _ (by simp) (by simp; omega), hfirst, plainOf_append,
      bytes_append]
    simp [plainOf, chainDec, bytes]
  · exact (callsUpTo_succ progress length (by omega)).symm

/-- The blocks of the buffer are decrypted, whole ones only; the context keeps the last one. -/
theorem decryptBuffer_ends (hlen : length.toNat ≤ 2 ^ 64 - 16) :
    DecryptBuffer progress ctx m buf length
      { ctx := { ctx with iv := lastBlock ctx.iv (blocksAt m buf (blockCount length)) }
        mem := m.write buf (bytes (plainOf ctx (blocksAt m buf (blockCount length))))
        calls := if progress then callsUpTo progress length (blockCount length) ++ [(length, length)] else [] } := by
  have hcount : 16 * blockCount length ≤ 2 ^ 64 - 16 ∧ length.toNat ≤ 16 * blockCount length := by
    unfold blockCount
    omega
  have hentry : cbcEntry ctx m buf = cbcAt progress ctx m buf length 0 := by
    simp [cbcEntry, cbcAt, blocksAt, plainOf, bytes, callsUpTo]
  unfold DecryptBuffer
  rw [hentry]
  refine loop_of_turns (f := cbcAt progress ctx m buf length) (n := blockCount length) ?_ ?_
  · intro j hj
    have hlt : 16 * j < length.toNat := by
      unfold blockCount at hj
      omega
    exact cbcTurn_cbcAt progress ctx m buf length hlt (by omega)
  · have hge : ¬ UInt64.ofNat (16 * blockCount length) < length := by
      rw [UInt64.lt_iff_toNat_lt, UInt64.toNat_ofNat']
      omega
    unfold cbcTurn
    rw [if_neg (show ¬ (cbcAt progress ctx m buf length (blockCount length)).i < length from hge)]
    cases progress with
    | false => simp [cbcAt, callsUpTo]
    | true => simp [cbcAt]

theorem cbcTurn_multiple {a b : CbcState} (ha : a.i.toNat % 16 = 0) (h : cbcTurn progress length a = .again b) :
    b.i.toNat % 16 = 0 := by
  unfold cbcTurn at h
  by_cases hlt : a.i < length
  · rw [if_pos hlt] at h
    have hb : a.i + 16 = b.i := congrArg CbcState.i (Turn.again.inj h)
    have hsum : (a.i + 16).toNat = (a.i.toNat + 16) % 2 ^ 64 := UInt64.toNat_add a.i 16
    rw [hb] at hsum
    omega
  · rw [if_neg hlt] at h
    cases h

/-- For greater lengths the counter is a multiple of 16 that never reaches the length. -/
theorem not_decryptBuffer (hlen : 2 ^ 64 - 16 < length.toNat) (r : CbcResult) :
    ¬ DecryptBuffer progress ctx m buf length r := by
  intro hr
  have hentry : (cbcEntry ctx m buf).i.toNat % 16 = 0 := rfl
  obtain ⟨a, ha, hdone⟩ := Returns.last_turn (I := fun s : CbcState => s.i.toNat % 16 = 0)
    (fun a b => cbcTurn_multiple progress length) hentry hr
  have hlt : a.i < length := by
    have hi := a.i.toNat_lt
    rw [UInt64.lt_iff_toNat_lt]
    omega
  unfold cbcTurn at hdone
  rw [if_pos hlt] at hdone
  cases hdone

theorem length_le_of_decryptBuffer {r : CbcResult} (h : DecryptBuffer progress ctx m buf length r) :
    length.toNat ≤ 2 ^ 64 - 16 := by
  by_contra hlong
  exact not_decryptBuffer progress ctx m buf length (by omega) r h

end Run

variable {progress : Bool} {ctx : AesCtx} {m : Mem} {buf : Addr} {length : UInt64} {r : CbcResult}

/-! ## What a call leaves behind -/

theorem decryptBuffer_mem (h : DecryptBuffer progress ctx m buf length r) :
    r.mem = m.write buf (bytes (plainOf ctx (blocksAt m buf (blockCount length)))) := by
  have hends := decryptBuffer_ends progress ctx m buf length (length_le_of_decryptBuffer progress ctx m buf length h)
  exact congrArg CbcResult.mem (Returns.unique h hends)

theorem decryptBuffer_ctx (h : DecryptBuffer progress ctx m buf length r) :
    r.ctx = { ctx with iv := lastBlock ctx.iv (blocksAt m buf (blockCount length)) } := by
  have hends := decryptBuffer_ends progress ctx m buf length (length_le_of_decryptBuffer progress ctx m buf length h)
  exact congrArg CbcResult.ctx (Returns.unique h hends)

theorem decryptBuffer_calls (h : DecryptBuffer progress ctx m buf length r) :
    r.calls = if progress then callsUpTo progress length (blockCount length) ++ [(length, length)] else [] := by
  have hends := decryptBuffer_ends progress ctx m buf length (length_le_of_decryptBuffer progress ctx m buf length h)
  exact congrArg CbcResult.calls (Returns.unique h hends)

/-- The block at `j` of a buffer. -/
theorem getElem?_blocksAt (m : Mem) (buf : Addr) {n j : Nat} (hj : j < n) :
    (blocksAt m buf n)[j]? = some (stateAt m (buf + UInt64.ofNat (16 * j))) := by
  simp [blocksAt, hj]

/-- Block `j` among the bytes of all of them. -/
theorem drop_take_bytes {bs : List State} {j : Nat} {s : State} (hs : bs[j]? = some s) :
    ((bytes bs).drop (16 * j)).take 16 = s.toList := by
  obtain ⟨hj, hget⟩ := List.getElem?_eq_some_iff.mp hs
  have hsplit : bs = bs.take j ++ s :: bs.drop (j + 1) := by
    rw [← hget, List.getElem_cons_drop, List.take_append_drop]
  have hbefore : (bytes (bs.take j)).length = 16 * j := by
    rw [length_bytes, List.length_take, Nat.min_eq_left (Nat.le_of_lt hj)]
  have hown : s.toList.length = 16 := Vector.length_toList
  have hbytes : bytes bs = bytes (bs.take j) ++ (s.toList ++ bytes (bs.drop (j + 1))) := by
    conv_lhs => rw [hsplit]
    rw [bytes_append]
    rfl
  rw [hbytes, ← hbefore, List.drop_left]
  exact List.take_left' hown

/-- What is written block by block is read block by block. -/
theorem stateAt_write_bytes (m : Mem) (buf : Addr) {bs : List State} (hfits : 16 * bs.length ≤ 2 ^ 64) {j : Nat}
    {s : State} (hs : bs[j]? = some s) : stateAt (m.write buf (bytes bs)) (buf + UInt64.ofNat (16 * j)) = s := by
  obtain ⟨hj, -⟩ := List.getElem?_eq_some_iff.mp hs
  have hpart : (m.write buf (bytes bs)).read (buf + UInt64.ofNat (16 * j)) 16 = ((bytes bs).drop (16 * j)).take 16 :=
    Mem.read_write_part (by rw [length_bytes]; omega) (by rw [length_bytes]; omega)
  rw [← Vector.toList_inj, toList_stateAt, hpart, drop_take_bytes hs]

theorem blocksAt_write_bytes (m : Mem) (buf : Addr) {bs : List State} (hfits : 16 * bs.length ≤ 2 ^ 64) :
    blocksAt (m.write buf (bytes bs)) buf bs.length = bs := by
  apply List.ext_getElem?
  intro j
  rcases Nat.lt_or_ge j bs.length with hlt | hge
  · rw [getElem?_blocksAt _ _ hlt, stateAt_write_bytes m buf hfits (List.getElem?_eq_getElem hlt),
      List.getElem?_eq_getElem hlt]
  · rw [List.getElem?_eq_none (by simpa using hge), List.getElem?_eq_none hge]

theorem bytes_blocksAt (m : Mem) (buf : Addr) (n : Nat) : bytes (blocksAt m buf n) = m.read buf (16 * n) := by
  induction n with
  | zero => rfl
  | succ n ih =>
    rw [blocksAt_succ, bytes_append, ih, Nat.mul_succ, Mem.read_append]
    simp [bytes]

theorem bytes_inj {bs cs : List State} (h : bytes bs = bytes cs) : bs = cs := by
  induction bs generalizing cs with
  | nil =>
    have hlen := congrArg List.length h
    rw [length_bytes, length_bytes, List.length_nil] at hlen
    exact (List.length_eq_zero_iff.mp (by omega)).symm
  | cons b bs ih =>
    cases cs with
    | nil =>
      have hlen := congrArg List.length h
      rw [length_bytes, length_bytes, List.length_nil, List.length_cons] at hlen
      omega
    | cons c cs =>
      have hparts : b.toList = c.toList ∧ bytes bs = bytes cs := by
        refine List.append_inj h ?_
        rw [Vector.length_toList, Vector.length_toList]
      rw [Vector.toList_inj.mp hparts.1, ih hparts.2]

theorem blockBefore_blocksAt (iv : State) (m : Mem) (buf : Addr) {n j : Nat} (hj : j < n) :
    blockBefore iv (blocksAt m buf n) j = if j = 0 then iv else stateAt m (buf + UInt64.ofNat (16 * (j - 1))) := by
  cases j with
  | zero => rfl
  | succ j =>
    rw [if_neg (Nat.succ_ne_zero j), blockBefore, List.getElem?_cons_succ, getElem?_blocksAt m buf (by omega)]
    rfl

theorem lastBlock_blocksAt (iv : State) (m : Mem) (buf : Addr) (n : Nat) :
    lastBlock iv (blocksAt m buf n) = if n = 0 then iv else stateAt m (buf + UInt64.ofNat (16 * (n - 1))) := by
  cases n with
  | zero => rfl
  | succ n => simp [blocksAt_succ, lastBlock_append]

/-! ## Whole calls -/

/-- A context made anew has nothing of what it held before. -/
theorem aesInitCtxIv_fresh (ctx ctx' : AesCtx) (key : Vector UInt8 32) (iv : State) :
    aesInitCtxIv ctx key iv = aesInitCtxIv ctx' key iv := by
  have hkeys : keyExpansion ctx.roundKey key = keyExpansion ctx'.roundKey key :=
    (scheduled_keyExpansion ctx.roundKey key).unique (scheduled_keyExpansion ctx'.roundKey key)
  rw [aesInitCtxIv, aesInitCtxIv, hkeys]

theorem aesCtxSetIv_init (ctx : AesCtx) (key : Vector UInt8 32) (iv iv' : State) :
    aesCtxSetIv (aesInitCtxIv ctx key iv) iv' = aesInitCtxIv ctx key iv' := rfl

/-- Each block is decrypted from itself and the block before it. -/
theorem decryptBuffer_block (h : DecryptBuffer progress ctx m buf length r) {j : Nat} (hj : j < blockCount length) :
    stateAt r.mem (buf + UInt64.ofNat (16 * j)) =
      xorWithIv (invCipher (stateAt m (buf + UInt64.ofNat (16 * j))) ctx.roundKey)
        (if j = 0 then ctx.iv else stateAt m (buf + UInt64.ofNat (16 * (j - 1)))) := by
  have hlen := length_le_of_decryptBuffer progress ctx m buf length h
  have hcount : 16 * blockCount length ≤ 2 ^ 64 := by
    unfold blockCount
    omega
  rw [decryptBuffer_mem h]
  apply stateAt_write_bytes m buf (by simpa using hcount)
  rw [plainOf, getElem?_chainDec, getElem?_blocksAt m buf hj, blockBefore_blocksAt ctx.iv m buf hj]
  rfl

/-- The loop ends for lengths up to 2^64 - 16 and no others. Then each block up to the
    one that `length` ends in is decrypted, also the bytes of it behind the buffer, and
    nothing else is touched; the last block is kept for the next call, and `progress`
    hears of each 4 MiB begun and of the end. -/
theorem decryptBuffer_effect (progress : Bool) (ctx : AesCtx) (m : Mem) (buf : Addr) (length : UInt64) :
    ((∃ r, DecryptBuffer progress ctx m buf length r) ↔ length.toNat ≤ 2 ^ 64 - 16) ∧
    ∀ r, DecryptBuffer progress ctx m buf length r →
      (∀ j < blockCount length, stateAt r.mem (buf + UInt64.ofNat (16 * j)) =
        xorWithIv (invCipher (stateAt m (buf + UInt64.ofNat (16 * j))) ctx.roundKey)
          (if j = 0 then ctx.iv else stateAt m (buf + UInt64.ofNat (16 * (j - 1))))) ∧
      (∀ a, ¬ InRegion buf (16 * blockCount length) a → r.mem a = m a) ∧
      r.ctx = { ctx with
        iv := if length = 0 then ctx.iv else stateAt m (buf + UInt64.ofNat (16 * (blockCount length - 1))) } ∧
      r.calls = if progress then
        (List.range ((length.toNat + 4194303) / 4194304)).map (fun q => (UInt64.ofNat (4194304 * q), length)) ++
          [(length, length)]
      else [] := by
  constructor
  · constructor
    · intro h
      obtain ⟨r, hr⟩ := h
      exact length_le_of_decryptBuffer progress ctx m buf length hr
    · intro hlen
      exact ⟨_, decryptBuffer_ends progress ctx m buf length hlen⟩
  · intro r hr
    refine ⟨fun j hj => decryptBuffer_block hr hj, ?_, ?_, ?_⟩
    · intro a ha
      rw [decryptBuffer_mem hr]
      exact Mem.write_frame (by simpa using ha)
    · have hzero : blockCount length = 0 ↔ length = 0 := by
        rw [← UInt64.toNat_inj, UInt64.toNat_zero, blockCount]
        omega
      rw [decryptBuffer_ctx hr, lastBlock_blocksAt]
      simp only [hzero]
    · have hround : (16 * blockCount length + 4194303) / 4194304 = (length.toNat + 4194303) / 4194304 := by
        unfold blockCount
        omega
      rw [decryptBuffer_calls hr]
      cases progress with
      | false => simp
      | true => simp only [callsUpTo, hround, if_true]

theorem blocksAt_of_read {m : Mem} {buf : Addr} {bs : List State} (h : m.read buf (16 * bs.length) = bytes bs) :
    blocksAt m buf bs.length = bs := by
  apply bytes_inj
  rw [bytes_blocksAt, h]

/-- What the context's cipher makes of `ps`, block chained to block. -/
def encrypted (ctx : AesCtx) (ps : List State) : List State :=
  chainEnc xorWithIv (fun s => cipher s ctx.roundKey) ctx.iv ps

theorem plainOf_encrypted (ctx : AesCtx) (ps : List State) : plainOf ctx (encrypted ctx ps) = ps := by
  unfold plainOf encrypted
  apply chainDec_chainEnc xorWithIv_cancel
  intro s
  exact invCipher_cipher s ctx.roundKey

theorem encrypted_plainOf (ctx : AesCtx) (bs : List State) : encrypted ctx (plainOf ctx bs) = bs := by
  unfold plainOf encrypted
  apply chainEnc_chainDec xorWithIv_cancel
  intro s
  exact cipher_invCipher s ctx.roundKey

theorem read_write_bytes (m : Mem) (buf : Addr) {bs : List State} (hfits : 16 * bs.length ≤ 2 ^ 64) :
    (m.write buf (bytes bs)).read buf (16 * bs.length) = bytes bs := by
  have hlength := length_bytes bs
  rw [← hlength]
  exact m.read_write buf (by omega)

/-- Afterwards a buffer of whole blocks holds `ps` just when it held the encryption of
    `ps` before. -/
theorem decryptBuffer_encrypted (progress : Bool) (ctx : AesCtx) (ps : List State) (m : Mem) (buf : Addr)
    (length : UInt64) (hlen : length.toNat = 16 * ps.length) :
    ∃ r, DecryptBuffer progress ctx m buf length r ∧
      (r.mem.read buf length.toNat = bytes ps ↔ m.read buf length.toNat = bytes (encrypted ctx ps)) := by
  have hlt := length.toNat_lt
  have hcount : blockCount length = ps.length := by
    unfold blockCount
    omega
  refine ⟨_, decryptBuffer_ends progress ctx m buf length (by omega), ?_⟩
  have hlength : (plainOf ctx (blocksAt m buf ps.length)).length = ps.length := by simp
  have hread := read_write_bytes m buf (Nat.le_of_lt (by rw [hlength]; omega))
  rw [hlength] at hread
  rw [hcount, hlen, hread, ← bytes_blocksAt]
  constructor
  · intro h
    conv_lhs => rw [← encrypted_plainOf ctx (blocksAt m buf ps.length), bytes_inj h]
  · intro h
    rw [bytes_inj h, plainOf_encrypted]

theorem decryptBuffer_encrypted_block : ∃ r,
    DecryptBuffer true { roundKey := Vector.replicate 240 1, iv := Vector.replicate 16 2 } (fun _ => 3) 4096 16 r ∧
    (r.mem.read 4096 16 = bytes [Vector.replicate 16 0] ↔ Mem.read (fun _ => 3) 4096 16 =
      bytes (encrypted { roundKey := Vector.replicate 240 1, iv := Vector.replicate 16 2 } [Vector.replicate 16 0])) :=
  decryptBuffer_encrypted true _ [Vector.replicate 16 0] (fun _ => 3) 4096 16 (by decide)

theorem blocksAt_add (m : Mem) (buf : Addr) (n k : Nat) :
    blocksAt m buf (n + k) = blocksAt m buf n ++ blocksAt m (buf + UInt64.ofNat (16 * n)) k := by
  apply bytes_inj
  rw [bytes_append, bytes_blocksAt, bytes_blocksAt, bytes_blocksAt, Nat.mul_add, Mem.read_append]

/-- Two parts of a buffer that lie side by side, the first of whole blocks, decrypted one
    after the other with one context are the buffer decrypted in one call. -/
theorem decryptBuffer_twice (progress : Bool) (ctx : AesCtx) (m : Mem) (buf : Addr) (length length' : UInt64)
    (hwhole : length.toNat % 16 = 0) (hboth : length.toNat + length'.toNat ≤ 2 ^ 64 - 16) :
    ∃ r r' r'', DecryptBuffer progress ctx m buf length r ∧
      DecryptBuffer progress r.ctx r.mem (buf + length) length' r' ∧
      DecryptBuffer progress ctx m buf (length + length') r'' ∧ r''.mem = r'.mem ∧ r''.ctx = r'.ctx := by
  have hsum : (length + length').toNat = length.toNat + length'.toNat := by
    rw [UInt64.toNat_add, Nat.mod_eq_of_lt (by omega)]
  have hcount : blockCount (length + length') = blockCount length + blockCount length' := by
    unfold blockCount
    omega
  have hlength : length = UInt64.ofNat (16 * blockCount length) := by
    have hexact : 16 * blockCount length = length.toNat := by
      unfold blockCount
      omega
    rw [hexact, UInt64.ofNat_toNat]
  have hfits : 16 * (blockCount length + blockCount length') ≤ 2 ^ 64 := by
    unfold blockCount
    omega
  have hfirst := decryptBuffer_ends progress ctx m buf length (by omega)
  refine ⟨_, _, _, hfirst, decryptBuffer_ends progress _ _ _ length' (by omega),
    decryptBuffer_ends progress ctx m buf (length + length') (by omega), ?_⟩
  generalize blockCount length = a at hcount hlength hfits
  generalize blockCount length' = b at hcount hfits
  have hbehind : blocksAt (m.write buf (bytes (plainOf ctx (blocksAt m buf a)))) (buf + length) b =
      blocksAt m (buf + length) b := by
    rw [hlength]
    exact blocksAt_write_behind m buf (by simp) hfits
  rw [hcount, blocksAt_add, ← hlength, hbehind, plainOf_append, bytes_append, lastBlock_append]
  refine ⟨?_, rfl⟩
  rw [hlength]
  exact write_bytes_append m buf _ _ (by simp) (by simp; omega)

theorem decryptBuffer_twice_blocks : ∃ r r' r'',
    DecryptBuffer true { roundKey := Vector.replicate 240 1, iv := Vector.replicate 16 2 } (fun _ => 3) 4096 32 r ∧
    DecryptBuffer true r.ctx r.mem (4096 + 32) 20 r' ∧
    DecryptBuffer true { roundKey := Vector.replicate 240 1, iv := Vector.replicate 16 2 } (fun _ => 3) 4096 (32 + 20) r'' ∧
    r''.mem = r'.mem ∧ r''.ctx = r'.ctx :=
  decryptBuffer_twice true { roundKey := Vector.replicate 240 1, iv := Vector.replicate 16 2 } (fun _ => 3) 4096 32 20
    (by decide) (by decide)

theorem xorWithIv_common (a b c : State) : xorWithIv (xorWithIv a b) (xorWithIv a c) = xorWithIv b c := by
  apply Vector.ext
  intro k hk
  simp only [xorWithIv, Vector.getElem_zipWith]
  rw [UInt8.xor_comm a[k] b[k], UInt8.xor_assoc, ← UInt8.xor_assoc a[k], UInt8.xor_self, UInt8.zero_xor]

/-- Two buffers that differ in block `k` only are decrypted to buffers that differ in the
    blocks `k` and `k + 1` only, and in block `k + 1` in the very bits of the difference. -/
theorem decryptBuffer_damaged {progress progress' : Bool} {ctx : AesCtx} {m m' : Mem} {buf : Addr} {length : UInt64}
    {r r' : CbcResult} (h : DecryptBuffer progress ctx m buf length r)
    (h' : DecryptBuffer progress' ctx m' buf length r') (k : Nat)
    (hsame : ∀ j < blockCount length, j ≠ k →
      stateAt m (buf + UInt64.ofNat (16 * j)) = stateAt m' (buf + UInt64.ofNat (16 * j))) :
    (∀ j < blockCount length, j ≠ k → j ≠ k + 1 →
      stateAt r.mem (buf + UInt64.ofNat (16 * j)) = stateAt r'.mem (buf + UInt64.ofNat (16 * j))) ∧
    (k + 1 < blockCount length →
      xorWithIv (stateAt r.mem (buf + UInt64.ofNat (16 * (k + 1)))) (stateAt r'.mem (buf + UInt64.ofNat (16 * (k + 1)))) =
        xorWithIv (stateAt m (buf + UInt64.ofNat (16 * k))) (stateAt m' (buf + UInt64.ofNat (16 * k)))) := by
  constructor
  · intro j hj hk hk'
    rw [decryptBuffer_block h hj, decryptBuffer_block h' hj, hsame j hj hk]
    by_cases hzero : j = 0
    · rw [if_pos hzero, if_pos hzero]
    · rw [if_neg hzero, if_neg hzero, hsame (j - 1) (by omega) (by omega)]
  · intro hk
    rw [decryptBuffer_block h hk, decryptBuffer_block h' hk, hsame (k + 1) hk (Nat.succ_ne_self k),
      if_neg (Nat.succ_ne_zero k), if_neg (Nat.succ_ne_zero k)]
    exact xorWithIv_common ..

/-- The first byte of three blocks flipped in one bit. -/
theorem decryptBuffer_damaged_byte : ∃ r r',
    DecryptBuffer true { roundKey := Vector.replicate 240 1, iv := Vector.replicate 16 2 } (fun _ => 0) 0 48 r ∧
    DecryptBuffer true { roundKey := Vector.replicate 240 1, iv := Vector.replicate 16 2 }
      (fun a => if a = 0 then 1 else 0) 0 48 r' ∧
    (∀ j < blockCount 48, j ≠ 0 → j ≠ 0 + 1 →
      stateAt r.mem (0 + UInt64.ofNat (16 * j)) = stateAt r'.mem (0 + UInt64.ofNat (16 * j))) ∧
    (0 + 1 < blockCount 48 →
      xorWithIv (stateAt r.mem (0 + UInt64.ofNat (16 * (0 + 1)))) (stateAt r'.mem (0 + UInt64.ofNat (16 * (0 + 1)))) =
        xorWithIv (stateAt (fun _ => 0) (0 + UInt64.ofNat (16 * 0)))
          (stateAt (fun a => if a = 0 then 1 else 0) (0 + UInt64.ofNat (16 * 0)))) := by
  have h := decryptBuffer_ends true { roundKey := Vector.replicate 240 1, iv := Vector.replicate 16 2 } (fun _ => 0) 0 48
    (by decide)
  have h' := decryptBuffer_ends true { roundKey := Vector.replicate 240 1, iv := Vector.replicate 16 2 }
    (fun a => if a = 0 then 1 else 0) 0 48 (by decide)
  exact ⟨_, _, h, h', decryptBuffer_damaged h h' 0 (by decide +kernel)⟩

end Crows.Boot.Aes
