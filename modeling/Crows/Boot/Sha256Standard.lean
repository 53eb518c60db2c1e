/-
  Crows.Boot.Sha256Standard — sha256.c against FIPS 180-4.

  The standard hashes the padded message block by block, with a schedule of 64 words for
  each block and constants that are digits of roots. The code has 16 words that it
  writes over as it goes, pads in place, and takes the message in any pieces.
  - `consumeChunk_standard`: the rolling 16 words give the compression with all 64.
  - `sha256_standard`: init, any pieces written and close give the hash of the pieces put
    together, whatever was on the stack. The length field holds the number of bits
    modulo 2^64, which is the standard's for messages below 2^61 bytes.
-/

import Mathlib
import Crows.Lib.Memory
import Crows.Lib.Loop
import Crows.Lib.Blocks
import Crows.Boot.Sha256

namespace Crows.Boot.Digest

open Crows.Lib

/-! ## The standard -/

/-- The greatest number below 2^36 whose power `e` is no more than `n`. -/
def root (e n : Nat) : Nat :=
  Nat.fold 36 (fun i _ r => if (r + 2 ^ (35 - i)) ^ e ≤ n then r + 2 ^ (35 - i) else r) 0

/-- The first 32 bits of the fraction of the `e`-th root of `p`. -/
def fractionWord (e p : Nat) : UInt32 := UInt32.ofNat (root e (p * 2 ^ (32 * e)))

def primes : Vector Nat 64 := #v[
  2, 3, 5, 7, 11, 13, 17, 19, 23, 29, 31, 37, 41, 43, 47, 53,
  59, 61, 67, 71, 73, 79, 83, 89, 97, 101, 103, 107, 109, 113, 127, 131,
  137, 139, 149, 151, 157, 163, 167, 173, 179, 181, 191, 193, 197, 199, 211, 223,
  227, 229, 233, 239, 241, 251, 257, 263, 269, 271, 277, 281, 283, 293, 307, 311]

def rotr (x : UInt32) (n : Nat) : UInt32 := ⟨x.toBitVec.rotateRight n⟩

/-- Word `t` of the schedule of a block. -/
def messageWord (block : List UInt8) (t : Nat) : UInt32 :=
  if h : t < 16 then UInt32.ofNat (leNat ((block.drop (4 * t)).take 4).reverse)
  else
    let w15 := messageWord block (t - 15)
    let w2 := messageWord block (t - 2)
    let sigma0 := rotr w15 7 ^^^ rotr w15 18 ^^^ w15 >>> 3
    let sigma1 := rotr w2 17 ^^^ rotr w2 19 ^^^ w2 >>> 10
    sigma1 + messageWord block (t - 7) + sigma0 + messageWord block (t - 16)
termination_by t

/-- The working variables `a` to `h` behind one more round. -/
def standardRound (v : Vector UInt32 8) (w k : UInt32) : Vector UInt32 8 :=
  let e := v.get 4
  let t1 := v.get 7 + (rotr e 6 ^^^ rotr e 11 ^^^ rotr e 25) + ((e &&& v.get 5) ^^^ (~~~e &&& v.get 6)) + k + w
  let a := v.get 0
  let t2 := (rotr a 2 ^^^ rotr a 13 ^^^ rotr a 22) + ((a &&& v.get 1) ^^^ (a &&& v.get 2) ^^^ (v.get 1 &&& v.get 2))
  #v[t1 + t2, a, v.get 1, v.get 2, v.get 3 + t1, e, v.get 5, v.get 6]

/-- The working variables behind the first `t` rounds. -/
def rounds (v : Vector UInt32 8) (block : List UInt8) : Nat → Vector UInt32 8
  | 0 => v
  | t + 1 => standardRound (rounds v block t) (messageWord block t) (fractionWord 3 (primes.toList.getD t 0))

def compress (h : Vector UInt32 8) (block : List UInt8) : Vector UInt32 8 :=
  Vector.zipWith (· + ·) h (rounds h block 64)

/-- A number as `n` bytes, most significant first. -/
def beBytes (n x : Nat) : List UInt8 := (leBytes n x).reverse

def pad (message : List UInt8) : List UInt8 :=
  message ++ 0x80 :: List.replicate ((119 - message.length % 64) % 64) 0 ++ beBytes 8 (8 * message.length)

def sha256 (message : List UInt8) : List UInt8 :=
  let start : Vector UInt32 8 := Vector.ofFn fun i : Fin 8 => fractionWord 2 (primes.toList.getD i 0)
  ((chunks 64 (pad message)).foldl compress start).toList.flatMap fun w => beBytes 4 w.toNat

/-! ## Constants and rotations -/

theorem k_eq : ∀ t (h : t < 64), k[t] = fractionWord 3 (primes.toList.getD t 0) := by
  decide +kernel

theorem initialHash_eq : initialHash = Vector.ofFn fun i : Fin 8 => fractionWord 2 (primes.toList.getD i 0) := by
  decide +kernel

/-- The rotation by shifts, for a count that is neither 0 nor 32. -/
theorem rightRot_eq (x : UInt32) {n : Nat} (h0 : 0 < n) (hn : n < 32) : rightRot x (UInt32.ofNat n) = rotr x n := by
  have hsub : (32 - UInt32.ofNat n : UInt32) = UInt32.ofNat (32 - n) := by
    rw [← UInt32.toNat_inj, UInt32.toNat_sub, UInt32.toNat_ofNat', UInt32.toNat_ofNat']
    show (2 ^ 32 - n % 2 ^ 32 + 32) % 2 ^ 32 = (32 - n) % 2 ^ 32
    omega
  have hcount : ∀ c < 32, ((UInt32.ofNat c).toBitVec % 32).toNat = c := by
    intro c hc
    show c % 2 ^ 32 % 32 = c
    omega
  apply UInt32.eq_of_toBitVec_eq
  rw [rightRot, hsub, rotr, BitVec.rotateRight_def, Nat.mod_eq_of_lt hn, UInt32.toBitVec_or, UInt32.toBitVec_shiftRight,
    UInt32.toBitVec_shiftLeft, BitVec.ushiftRight_eq', BitVec.shiftLeft_eq', hcount n hn, hcount (32 - n) (by omega)]

/-- Four bytes put beside each other. -/
theorem toNat_bytes (a b c d : UInt8) :
    (a.toUInt32 <<< 24 ||| b.toUInt32 <<< 16 ||| c.toUInt32 <<< 8 ||| d.toUInt32).toNat = leNat [d, c, b, a] := by
  have ha := a.toNat_lt
  have hb := b.toNat_lt
  have hc := c.toNat_lt
  have hd := d.toNat_lt
  have hshift : ∀ (x : UInt8) (n : UInt32), n.toNat ≤ 24 → (x.toUInt32 <<< n).toNat = 2 ^ n.toNat * x.toNat := by
    intro x n hn
    have hx := x.toNat_lt
    have hlt : 2 ^ n.toNat * x.toNat < 2 ^ 32 := by
      calc 2 ^ n.toNat * x.toNat ≤ 2 ^ 24 * x.toNat := Nat.mul_le_mul_right _ (Nat.pow_le_pow_right (by omega) hn)
        _ < 2 ^ 32 := by omega
    rw [UInt32.toNat_shiftLeft, Nat.mod_eq_of_lt (by omega : n.toNat < 32), UInt8.toNat_toUInt32, Nat.shiftLeft_eq,
      Nat.mul_comm, Nat.mod_eq_of_lt hlt]
  have h1 : 2 ^ 24 * a.toNat ||| 2 ^ 16 * b.toNat = 2 ^ 16 * (2 ^ 8 * a.toNat + b.toNat) := by
    rw [← Nat.two_pow_add_eq_or_of_lt (by omega)]
    omega
  have h2 : 2 ^ 16 * (2 ^ 8 * a.toNat + b.toNat) ||| 2 ^ 8 * c.toNat =
      2 ^ 8 * (2 ^ 16 * a.toNat + 2 ^ 8 * b.toNat + c.toNat) := by
    rw [← Nat.two_pow_add_eq_or_of_lt (by omega)]
    omega
  have h3 : 2 ^ 8 * (2 ^ 16 * a.toNat + 2 ^ 8 * b.toNat + c.toNat) ||| d.toNat = leNat [d, c, b, a] := by
    rw [← Nat.two_pow_add_eq_or_of_lt (by omega)]
    simp only [leNat]
    omega
  rw [UInt32.toNat_or, UInt32.toNat_or, UInt32.toNat_or, hshift a 24 (by decide), hshift b 16 (by decide),
    hshift c 8 (by decide), UInt8.toNat_toUInt32]
  exact (congrArg (· ||| d.toNat) ((congrArg (· ||| 2 ^ 8 * c.toNat) h1).trans h2)).trans h3

theorem chunkWord_eq {block : List UInt8} {j : Nat} (h : 4 * j + 4 ≤ block.length) :
    chunkWord block j = UInt32.ofNat (leNat ((block.drop (4 * j)).take 4).reverse) := by
  have hbytes : ((block.drop (4 * j)).take 4).reverse =
      [block.getD (4 * j + 3) 0, block.getD (4 * j + 2) 0, block.getD (4 * j + 1) 0, block.getD (4 * j) 0] := by
    have htake : (block.drop (4 * j)).take 4 =
        [block.getD (4 * j) 0, block.getD (4 * j + 1) 0, block.getD (4 * j + 2) 0, block.getD (4 * j + 3) 0] := by
      apply List.ext_getElem
      · simp only [List.length_take, List.length_drop, List.length_cons, List.length_nil]
        omega
      · intro i hi _
        have hi4 : i < 4 := by
          simp only [List.length_take, List.length_drop] at hi
          omega
        rw [List.getElem_take, List.getElem_drop]
        interval_cases i
        · exact (List.getD_eq_getElem _ _ _).symm
        · exact (List.getD_eq_getElem _ _ _).symm
        · exact (List.getD_eq_getElem _ _ _).symm
        · exact (List.getD_eq_getElem _ _ _).symm
    rw [htake]
    rfl
  rw [hbytes, ← toNat_bytes, UInt32.ofNat_toNat]
  rfl

theorem round_eq (v : Vector UInt32 8) (w k : UInt32) : round v w k = standardRound v w k := by
  have h6 : rightRot v[4] 6 = rotr v[4] 6 := rightRot_eq v[4] (n := 6) (by decide) (by decide)
  have h11 : rightRot v[4] 11 = rotr v[4] 11 := rightRot_eq v[4] (n := 11) (by decide) (by decide)
  have h25 : rightRot v[4] 25 = rotr v[4] 25 := rightRot_eq v[4] (n := 25) (by decide) (by decide)
  have h2 : rightRot v[0] 2 = rotr v[0] 2 := rightRot_eq v[0] (n := 2) (by decide) (by decide)
  have h13 : rightRot v[0] 13 = rotr v[0] 13 := rightRot_eq v[0] (n := 13) (by decide) (by decide)
  have h22 : rightRot v[0] 22 = rotr v[0] 22 := rightRot_eq v[0] (n := 22) (by decide) (by decide)
  simp only [round, h6, h11, h25, h2, h13, h22]
  rfl

/-! ## The rolling schedule -/

/-- Behind `t` turns: the working variables of `t` rounds, and the last words, up to 16. -/
structure Rolled (h : Vector UInt32 8) (block : List UInt8) (t : Nat) (s : Vector UInt32 8 × Vector UInt32 16) : Prop where
  rounds : s.1 = rounds h block t
  words : ∀ u, u < t → t ≤ u + 16 → s.2.get ⟨u % 16, Nat.mod_lt u (by decide)⟩ = messageWord block u

/-- The words at a distance from the place of the turn, indices modulo 16. -/
theorem Rolled.word {h : Vector UInt32 8} {block : List UInt8} {s : Vector UInt32 8 × Vector UInt32 16} {i : Fin 4}
    {j : Fin 16} (hs : Rolled h block (16 * i + j) s) (hi : i ≠ 0) (d : Fin 16) :
    s.2.get (j + d) = messageWord block (16 * i + j - (16 - d)) := by
  have hpos : 0 < i.val := Nat.pos_of_ne_zero fun hzero => hi (Fin.ext hzero)
  have hd := d.isLt
  rw [← hs.words (16 * i + j - (16 - d)) (by omega) (by omega)]
  apply congrArg
  apply Fin.ext
  rw [Fin.val_add]
  show (j.val + d.val) % 16 = (16 * i.val + j.val - (16 - d.val)) % 16
  omega

/-- The word that a turn puts in its place is the schedule's. -/
theorem scheduleWord_eq {h : Vector UInt32 8} {block : List UInt8} (hblock : block.length = 64)
    {s : Vector UInt32 8 × Vector UInt32 16} (i : Fin 4) (j : Fin 16) (hs : Rolled h block (16 * i + j) s) :
    scheduleWord block i j s.2 = messageWord block (16 * i + j) := by
  have hi := i.isLt
  have hj := j.isLt
  rw [messageWord]
  by_cases hzero : i = 0
  · subst hzero
    rw [scheduleWord, if_pos rfl, dif_pos (by simp)]
    have hword := chunkWord_eq (show 4 * j.val + 4 ≤ block.length by omega)
    simpa using hword
  · have hpos : 0 < i.val := Nat.pos_of_ne_zero fun hval => hzero (Fin.ext hval)
    have hw := hs.word hzero 0
    rw [add_zero] at hw
    rw [scheduleWord, if_neg hzero, dif_neg (by omega), hw, hs.word hzero 1, hs.word hzero 9, hs.word hzero 14]
    have h7 : ∀ x, rightRot x 7 = rotr x 7 := fun x => rightRot_eq x (n := 7) (by decide) (by decide)
    have h18 : ∀ x, rightRot x 18 = rotr x 18 := fun x => rightRot_eq x (n := 18) (by decide) (by decide)
    have h17 : ∀ x, rightRot x 17 = rotr x 17 := fun x => rightRot_eq x (n := 17) (by decide) (by decide)
    have h19 : ∀ x, rightRot x 19 = rotr x 19 := fun x => rightRot_eq x (n := 19) (by decide) (by decide)
    simp only [h7, h18, h17, h19]
    show messageWord block (16 * i + j - 16) +
        (rotr (messageWord block (16 * i + j - 15)) 7 ^^^ rotr (messageWord block (16 * i + j - 15)) 18 ^^^
          messageWord block (16 * i + j - 15) >>> 3) + messageWord block (16 * i + j - 7) +
        (rotr (messageWord block (16 * i + j - 2)) 17 ^^^ rotr (messageWord block (16 * i + j - 2)) 19 ^^^
          messageWord block (16 * i + j - 2) >>> 10) = _
    ac_rfl

theorem consumeTurn_rolled {h : Vector UInt32 8} {block : List UInt8} (hblock : block.length = 64)
    {s : Vector UInt32 8 × Vector UInt32 16} (i : Fin 4) (j : Fin 16) (hs : Rolled h block (16 * i + j) s) :
    Rolled h block (16 * i + j + 1) (consumeTurn block i s j) := by
  have hword := scheduleWord_eq hblock i j hs
  have hi := i.isLt
  have hj := j.isLt
  constructor
  · show round s.1 ((s.2.set j (scheduleWord block i j s.2)).get j) (k.get ⟨16 * i + j, by omega⟩) = _
    have hown : (s.2.set j (scheduleWord block i j s.2)).get j = messageWord block (16 * i + j) := by
      rw [← hword]
      exact Vector.getElem_set_self hj
    have hk : k.get ⟨16 * i + j, by omega⟩ = fractionWord 3 (primes.toList.getD (16 * i + j) 0) := k_eq _ (by omega)
    rw [hown, hk, hs.rounds, round_eq]
    rfl
  · intro u hu hu'
    show (s.2.set j (scheduleWord block i j s.2)).get ⟨u % 16, Nat.mod_lt u (by decide)⟩ = messageWord block u
    by_cases heq : u = 16 * i + j
    · have hplace : (⟨u % 16, Nat.mod_lt u (by decide)⟩ : Fin 16) = j := Fin.ext (by show u % 16 = j.val; omega)
      rw [hplace, heq, ← hword]
      exact Vector.getElem_set_self hj
    · -- the place of an older word is another one
      have hplace : j.val ≠ u % 16 := by omega
      rw [← hs.words u (by omega) (by omega)]
      exact Vector.getElem_set_ne hj _ hplace

theorem consumeChunk_standard (h : Vector UInt32 8) (block : List UInt8) (hblock : block.length = 64) :
    consumeChunk h block = compress h block := by
  have hentry : Rolled h block (16 * 0) (h, Vector.replicate 16 0) := ⟨rfl, fun u hu _ => absurd hu (Nat.not_lt_zero u)⟩
  have hall := foldl_finRange (n := 4) (P := fun i s => Rolled h block (16 * i) s)
    (f := fun s i => (List.finRange 16).foldl (consumeTurn block i) s) hentry (fun i s hs =>
      foldl_finRange (n := 16) (P := fun j s => Rolled h block (16 * i + j) s) hs
        (fun j s hs => consumeTurn_rolled hblock i j hs))
  rw [consumeChunk, compress, hall.rounds]

/-! ## The padding -/

/-- The high bytes of the length, read off the number of bytes. -/
theorem lengthByte_eq (n : Nat) {i : Nat} (hi : i ≤ 6) :
    (UInt64.ofNat n >>> 5 >>> (8 * UInt64.ofNat i)).toUInt8 = UInt8.ofNat (8 * n / 256 ^ (i + 1)) := by
  have hcount : (8 * UInt64.ofNat i).toNat = 8 * i := by
    rw [UInt64.toNat_mul, UInt64.toNat_ofNat']
    show 8 * (i % 2 ^ 64) % 2 ^ 64 = 8 * i
    omega
  rw [← UInt8.toNat_inj, UInt64.toNat_toUInt8, UInt64.toNat_shiftRight, UInt64.toNat_shiftRight, hcount,
    UInt64.toNat_ofNat', UInt8.toNat_ofNat', Nat.mod_eq_of_lt (by omega : 8 * i < 64), Nat.shiftRight_eq_div_pow,
    Nat.shiftRight_eq_div_pow]
  show n % 2 ^ 64 / 2 ^ 5 / 2 ^ (8 * i) % 2 ^ 8 = _
  interval_cases i <;> simp only [Nat.reducePow, Nat.reduceMul, Nat.reduceAdd] <;> omega

theorem lengthBytes_eq (n : Nat) : lengthBytes (UInt64.ofNat n) = beBytes 8 (8 * n) := by
  have hlow : (UInt64.ofNat n <<< 3).toUInt8 = UInt8.ofNat (8 * n) := by
    rw [← UInt8.toNat_inj, UInt64.toNat_toUInt8, UInt64.toNat_shiftLeft, UInt64.toNat_ofNat', UInt8.toNat_ofNat']
    show (n % 2 ^ 64) <<< 3 % 2 ^ 64 % 2 ^ 8 = 8 * n % 2 ^ 8
    rw [Nat.shiftLeft_eq]
    omega
  have hbytes : beBytes 8 (8 * n) = [UInt8.ofNat (8 * n / 256 ^ 7), UInt8.ofNat (8 * n / 256 ^ 6),
      UInt8.ofNat (8 * n / 256 ^ 5), UInt8.ofNat (8 * n / 256 ^ 4), UInt8.ofNat (8 * n / 256 ^ 3),
      UInt8.ofNat (8 * n / 256 ^ 2), UInt8.ofNat (8 * n / 256 ^ 1), UInt8.ofNat (8 * n)] := by
    simp [beBytes, leBytes, Nat.div_div_eq_div_mul]
  rw [hbytes, ← lengthByte_eq n (le_refl 6), ← lengthByte_eq n (i := 5) (by omega), ← lengthByte_eq n (i := 4) (by omega),
    ← lengthByte_eq n (i := 3) (by omega), ← lengthByte_eq n (i := 2) (by omega),
    ← lengthByte_eq n (i := 1) (by omega), ← lengthByte_eq n (i := 0) (by omega), ← hlow]
  rfl

/-- The bits behind the rest of a block, the zeros up to the place of the length. -/
theorem finish_eq {s : Vector UInt32 8 × List UInt8} (hs : s.2.length < 64) (totalLen : UInt64) :
    finish s totalLen = hashBytes (absorb consumeChunk 64 s
      (0x80 :: List.replicate ((119 - s.2.length) % 64) 0 ++ lengthBytes totalLen)).1 := by
  unfold finish
  by_cases hroom : sizeOfSha256Chunk - s.2.length - 1 < totalLenLen
  · have hlong : 56 ≤ s.2.length := by
      unfold sizeOfSha256Chunk totalLenLen at hroom
      omega
    have hzeros : (119 - s.2.length) % 64 = (64 - s.2.length - 1) + 56 := by omega
    have hfirst : absorb consumeChunk 64 s (0x80 :: List.replicate (64 - s.2.length - 1) 0) =
        (consumeChunk s.1 (s.2 ++ 0x80 :: List.replicate (64 - s.2.length - 1) 0), []) :=
      absorb_block hs (by rw [List.length_cons, List.length_replicate]; omega)
    have hlast : ∀ h : Vector UInt32 8, absorb consumeChunk 64 (h, []) (List.replicate 56 0 ++ lengthBytes totalLen) =
        (consumeChunk h ([] ++ (List.replicate 56 0 ++ lengthBytes totalLen)), []) :=
      fun h => absorb_block (Nat.zero_lt_succ 63) rfl
    have hparts : 0x80 :: List.replicate ((119 - s.2.length) % 64) 0 ++ lengthBytes totalLen =
        (0x80 :: List.replicate (64 - s.2.length - 1) 0) ++ (List.replicate 56 0 ++ lengthBytes totalLen) := by
      rw [hzeros, ← List.replicate_append_replicate, List.cons_append, List.cons_append, List.append_assoc]
    rw [if_pos hroom, hparts, absorb_append, hfirst, hlast, List.append_assoc]
    rfl
  · have hshort : s.2.length ≤ 55 := by
      unfold sizeOfSha256Chunk totalLenLen at hroom
      omega
    have hzeros : (119 - s.2.length) % 64 = 64 - s.2.length - 1 - 8 := by omega
    have hone : absorb consumeChunk 64 s (0x80 :: List.replicate (64 - s.2.length - 1 - 8) 0 ++ lengthBytes totalLen) =
        (consumeChunk s.1 (s.2 ++ (0x80 :: List.replicate (64 - s.2.length - 1 - 8) 0 ++ lengthBytes totalLen)), []) := by
      refine absorb_block hs ?_
      rw [List.length_append, List.length_cons, List.length_replicate, length_lengthBytes]
      unfold totalLenLen
      omega
    rw [if_neg hroom, hzeros, hone, List.append_assoc, List.append_assoc]
    rfl

theorem hashBytes_eq (h : Vector UInt32 8) : hashBytes h = h.toList.flatMap fun w => beBytes 4 w.toNat := by
  have hword : ∀ w : UInt32, [(w >>> 24).toUInt8, (w >>> 16).toUInt8, (w >>> 8).toUInt8, w.toUInt8] =
      beBytes 4 w.toNat := by
    intro w
    have hbyte : ∀ n : UInt32, n.toNat < 32 → (w >>> n).toUInt8 = UInt8.ofNat (w.toNat / 2 ^ n.toNat) := by
      intro n hn
      rw [← UInt8.toNat_inj, UInt32.toNat_toUInt8, UInt32.toNat_shiftRight, Nat.mod_eq_of_lt hn,
        Nat.shiftRight_eq_div_pow, UInt8.toNat_ofNat']
    have hlow : w.toUInt8 = UInt8.ofNat w.toNat := rfl
    rw [hbyte 24 (by decide), hbyte 16 (by decide), hbyte 8 (by decide), hlow]
    simp [beBytes, leBytes, Nat.div_div_eq_div_mul]
  rw [hashBytes, funext hword]

/-! ## The message in pieces -/

theorem taken_pieces (s : Sha256) (pieces : List (List UInt8)) :
    (pieces.foldl sha256Write s).taken = absorb consumeChunk 64 s.taken pieces.flatten ∧
      (pieces.foldl sha256Write s).totalLen = s.totalLen + UInt64.ofNat pieces.flatten.length := by
  induction pieces generalizing s with
  | nil => simp
  | cons piece pieces ih =>
    obtain ⟨htaken, htotal⟩ := ih (sha256Write s piece)
    rw [List.foldl_cons, htaken, htotal, taken_sha256Write, totalLen_sha256Write, List.flatten_cons, absorb_append,
      List.length_append, UInt64.ofNat_add, UInt64.add_assoc]
    exact ⟨rfl, rfl⟩

theorem length_of_mem_chunks {n : Nat} {xs block : List UInt8} (h : block ∈ chunks n xs) : block.length = n := by
  obtain ⟨i, hi, rfl⟩ := List.mem_map.mp h
  have hlt := List.mem_range.mp hi
  have hle : n * (i + 1) ≤ xs.length := (Nat.mul_le_mul_left n hlt).trans (Nat.mul_div_le xs.length n)
  rw [Nat.mul_succ] at hle
  rw [List.length_take, List.length_drop]
  omega

/-- The digest of what an empty context takes is the standard's hash. -/
theorem finish_standard (message : List UInt8) :
    finish (absorb consumeChunk 64 (initialHash, []) message) (UInt64.ofNat message.length) = sha256 message := by
  have hrest : (absorb consumeChunk 64 (initialHash, []) message).2.length = message.length % 64 := by
    rw [absorb_eq_chunks (Nat.zero_lt_succ 63), List.length_drop]
    show message.length - 64 * (message.length / 64) = message.length % 64
    omega
  have hmod := Nat.mod_lt message.length (by decide : 0 < 64)
  have hpad : pad message = message ++
      (0x80 :: List.replicate ((119 - message.length % 64) % 64) 0 ++ lengthBytes (UInt64.ofNat message.length)) := by
    rw [pad, lengthBytes_eq, List.append_assoc]
  have hfold : ∀ blocks : List (List UInt8), (∀ block ∈ blocks, block.length = 64) → ∀ h,
      blocks.foldl consumeChunk h = blocks.foldl compress h := by
    intro blocks
    induction blocks with
    | nil =>
      intro _ h
      rw [List.foldl_nil, List.foldl_nil]
    | cons block blocks ih =>
      intro hlength h
      rw [List.foldl_cons, List.foldl_cons, consumeChunk_standard h block (hlength block List.mem_cons_self)]
      exact ih (fun b hb => hlength b (List.mem_cons_of_mem block hb)) _
  rw [finish_eq (by omega), hrest, ← absorb_append, ← hpad, absorb_eq_chunks (Nat.zero_lt_succ 63), hashBytes_eq, sha256,
    ← initialHash_eq, hfold _ fun _ => length_of_mem_chunks]

/-- Init, any pieces and close are the standard's hash of the pieces put together. -/
theorem sha256_standard (stack : Stack) (pieces : List (List UInt8)) :
    sha256Close (pieces.foldl sha256Write (sha256Init stack)) = sha256 pieces.flatten := by
  obtain ⟨htaken, htotal⟩ := taken_pieces (sha256Init stack) pieces
  rw [sha256Close_eq, htaken, htotal, totalLen_sha256Init, taken_sha256Init, UInt64.zero_add, finish_standard]

end Crows.Boot.Digest
