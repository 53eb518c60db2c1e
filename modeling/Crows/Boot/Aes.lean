/-
  Crows.Boot.Aes — the block cipher of aes.c: AES-256, decryption only.

  `keyExpansion` and `invCipher` with what they are made of, over the flat arrays that
  the code has: `(*state)[i][j]` is byte `4 * i + j` of 16, a round key array has 240
  bytes. The assignments are those of the code in their order.

  aes.c has no encryption. `cipher` is the one of FIPS-197, written over the field of
  256 elements and without the tables of the code, and the code is compared with it:
  - `invCipher_undoes_cipher`: `InvCipher` undoes the cipher and the cipher undoes it, for
    every array of round keys.
  - `keyExpansion_standard`: the words that `KeyExpansion` leaves are those of the
    standard's recurrence, whatever the array held before. The recurrence goes back as
    well, so eight words in a row determine the key.
-/

import Mathlib
import Crows.Lib.ByteField

namespace Crows.Boot.Aes

open Crows.Lib

/-- `(*state)[i][j]` is the byte at `4 * i + j`. -/
abbrev State := Vector UInt8 16

abbrev RoundKeys := Vector UInt8 240

abbrev Word := Vector UInt8 4

/-! ## Tables -/

set_option maxRecDepth 4000 in
def sbox : Vector UInt8 256 := #v[
    0x63, 0x7c, 0x77, 0x7b, 0xf2, 0x6b, 0x6f, 0xc5, 0x30, 0x01, 0x67, 0x2b, 0xfe, 0xd7, 0xab, 0x76,
    0xca, 0x82, 0xc9, 0x7d, 0xfa, 0x59, 0x47, 0xf0, 0xad, 0xd4, 0xa2, 0xaf, 0x9c, 0xa4, 0x72, 0xc0,
    0xb7, 0xfd, 0x93, 0x26, 0x36, 0x3f, 0xf7, 0xcc, 0x34, 0xa5, 0xe5, 0xf1, 0x71, 0xd8, 0x31, 0x15,
    0x04, 0xc7, 0x23, 0xc3, 0x18, 0x96, 0x05, 0x9a, 0x07, 0x12, 0x80, 0xe2, 0xeb, 0x27, 0xb2, 0x75,
    0x09, 0x83, 0x2c, 0x1a, 0x1b, 0x6e, 0x5a, 0xa0, 0x52, 0x3b, 0xd6, 0xb3, 0x29, 0xe3, 0x2f, 0x84,
    0x53, 0xd1, 0x00, 0xed, 0x20, 0xfc, 0xb1, 0x5b, 0x6a, 0xcb, 0xbe, 0x39, 0x4a, 0x4c, 0x58, 0xcf,
    0xd0, 0xef, 0xaa, 0xfb, 0x43, 0x4d, 0x33, 0x85, 0x45, 0xf9, 0x02, 0x7f, 0x50, 0x3c, 0x9f, 0xa8,
    0x51, 0xa3, 0x40, 0x8f, 0x92, 0x9d, 0x38, 0xf5, 0xbc, 0xb6, 0xda, 0x21, 0x10, 0xff, 0xf3, 0xd2,
    0xcd, 0x0c, 0x13, 0xec, 0x5f, 0x97, 0x44, 0x17, 0xc4, 0xa7, 0x7e, 0x3d, 0x64, 0x5d, 0x19, 0x73,
    0x60, 0x81, 0x4f, 0xdc, 0x22, 0x2a, 0x90, 0x88, 0x46, 0xee, 0xb8, 0x14, 0xde, 0x5e, 0x0b, 0xdb,
    0xe0, 0x32, 0x3a, 0x0a, 0x49, 0x06, 0x24, 0x5c, 0xc2, 0xd3, 0xac, 0x62, 0x91, 0x95, 0xe4, 0x79,
    0xe7, 0xc8, 0x37, 0x6d, 0x8d, 0xd5, 0x4e, 0xa9, 0x6c, 0x56, 0xf4, 0xea, 0x65, 0x7a, 0xae, 0x08,
    0xba, 0x78, 0x25, 0x2e, 0x1c, 0xa6, 0xb4, 0xc6, 0xe8, 0xdd, 0x74, 0x1f, 0x4b, 0xbd, 0x8b, 0x8a,
    0x70, 0x3e, 0xb5, 0x66, 0x48, 0x03, 0xf6, 0x0e, 0x61, 0x35, 0x57, 0xb9, 0x86, 0xc1, 0x1d, 0x9e,
    0xe1, 0xf8, 0x98, 0x11, 0x69, 0xd9, 0x8e, 0x94, 0x9b, 0x1e, 0x87, 0xe9, 0xce, 0x55, 0x28, 0xdf,
    0x8c, 0xa1, 0x89, 0x0d, 0xbf, 0xe6, 0x42, 0x68, 0x41, 0x99, 0x2d, 0x0f, 0xb0, 0x54, 0xbb, 0x16]

set_option maxRecDepth 4000 in
def rsbox : Vector UInt8 256 := #v[
    0x52, 0x09, 0x6a, 0xd5, 0x30, 0x36, 0xa5, 0x38, 0xbf, 0x40, 0xa3, 0x9e, 0x81, 0xf3, 0xd7, 0xfb,
    0x7c, 0xe3, 0x39, 0x82, 0x9b, 0x2f, 0xff, 0x87, 0x34, 0x8e, 0x43, 0x44, 0xc4, 0xde, 0xe9, 0xcb,
    0x54, 0x7b, 0x94, 0x32, 0xa6, 0xc2, 0x23, 0x3d, 0xee, 0x4c, 0x95, 0x0b, 0x42, 0xfa, 0xc3, 0x4e,
    0x08, 0x2e, 0xa1, 0x66, 0x28, 0xd9, 0x24, 0xb2, 0x76, 0x5b, 0xa2, 0x49, 0x6d, 0x8b, 0xd1, 0x25,
    0x72, 0xf8, 0xf6, 0x64, 0x86, 0x68, 0x98, 0x16, 0xd4, 0xa4, 0x5c, 0xcc, 0x5d, 0x65, 0xb6, 0x92,
    0x6c, 0x70, 0x48, 0x50, 0xfd, 0xed, 0xb9, 0xda, 0x5e, 0x15, 0x46, 0x57, 0xa7, 0x8d, 0x9d, 0x84,
    0x90, 0xd8, 0xab, 0x00, 0x8c, 0xbc, 0xd3, 0x0a, 0xf7, 0xe4, 0x58, 0x05, 0xb8, 0xb3, 0x45, 0x06,
    0xd0, 0x2c, 0x1e, 0x8f, 0xca, 0x3f, 0x0f, 0x02, 0xc1, 0xaf, 0xbd, 0x03, 0x01, 0x13, 0x8a, 0x6b,
    0x3a, 0x91, 0x11, 0x41, 0x4f, 0x67, 0xdc, 0xea, 0x97, 0xf2, 0xcf, 0xce, 0xf0, 0xb4, 0xe6, 0x73,
    0x96, 0xac, 0x74, 0x22, 0xe7, 0xad, 0x35, 0x85, 0xe2, 0xf9, 0x37, 0xe8, 0x1c, 0x75, 0xdf, 0x6e,
    0x47, 0xf1, 0x1a, 0x71, 0x1d, 0x29, 0xc5, 0x89, 0x6f, 0xb7, 0x62, 0x0e, 0xaa, 0x18, 0xbe, 0x1b,
    0xfc, 0x56, 0x3e, 0x4b, 0xc6, 0xd2, 0x79, 0x20, 0x9a, 0xdb, 0xc0, 0xfe, 0x78, 0xcd, 0x5a, 0xf4,
    0x1f, 0xdd, 0xa8, 0x33, 0x88, 0x07, 0xc7, 0x31, 0xb1, 0x12, 0x10, 0x59, 0x27, 0x80, 0xec, 0x5f,
    0x60, 0x51, 0x7f, 0xa9, 0x19, 0xb5, 0x4a, 0x0d, 0x2d, 0xe5, 0x7a, 0x9f, 0x93, 0xc9, 0x9c, 0xef,
    0xa0, 0xe0, 0x3b, 0x4d, 0xae, 0x2a, 0xf5, 0xb0, 0xc8, 0xeb, 0xbb, 0x3c, 0x83, 0x53, 0x99, 0x61,
    0x17, 0x2b, 0x04, 0x7e, 0xba, 0x77, 0xd6, 0x26, 0xe1, 0x69, 0x14, 0x63, 0x55, 0x21, 0x0c, 0x7d]

def rcon : Vector UInt8 11 := #v[
    0x8d, 0x01, 0x02, 0x04, 0x08, 0x10, 0x20, 0x40, 0x80, 0x1b, 0x36]

def getSBoxValue (num : UInt8) : UInt8 := sbox.get ⟨num.toNat, num.toNat_lt⟩

def getSBoxInvert (num : UInt8) : UInt8 := rsbox.get ⟨num.toNat, num.toNat_lt⟩

/-! ## KeyExpansion -/

/-- The word of bytes `4 * i` to `4 * i + 3`. -/
def word {n : Nat} (v : Vector UInt8 (4 * n)) (i : Nat) (h : i < n) : Word :=
  #v[v[4 * i + 0], v[4 * i + 1], v[4 * i + 2], v[4 * i + 3]]

def setWord {n : Nat} (v : Vector UInt8 (4 * n)) (i : Nat) (h : i < n) (w : Word) : Vector UInt8 (4 * n) :=
  (((v.set (4 * i + 0) w[0]).set (4 * i + 1) w[1]).set (4 * i + 2) w[2]).set (4 * i + 3) w[3]

def rotWord (w : Word) : Word := #v[w[1], w[2], w[3], w[0]]

def subWord (w : Word) : Word := w.map getSBoxValue

def xorWord (w v : Word) : Word := Vector.zipWith (· ^^^ ·) w v

/-- What is put into word `i`: `tempa` as the loop leaves it, from the word before. -/
def tempa (i : Nat) (h : i < 60) (w : Word) : Word :=
  let w := if i % 8 = 0 then
    let w := subWord (rotWord w)
    w.set 0 (w[0] ^^^ rcon[i / 8])
  else w
  if i % 8 = 4 then subWord w else w

/-- The turn for word `i` of the second loop. -/
def expandWord (roundKey : RoundKeys) (i : Nat) (hi : 8 ≤ i) (h : i < 60) : RoundKeys :=
  setWord (n := 60) roundKey i h
    (xorWord (word (n := 60) roundKey (i - 8) (by omega)) (tempa i h (word (n := 60) roundKey (i - 1) (by omega))))

def keyExpansion (roundKey : RoundKeys) (key : Vector UInt8 32) : RoundKeys :=
  let copied := Nat.fold 8 (fun i h rk => setWord (n := 60) rk i (by omega) (word (n := 8) key i h)) roundKey
  Nat.fold 52 (fun t h rk => expandWord rk (8 + t) (by omega) (by omega)) copied

/-! ## InvCipher -/

def addRoundKey (round : Nat) (h : round < 15) (s : State) (roundKey : RoundKeys) : State :=
  Vector.ofFn fun p : Fin 16 => s[p] ^^^ roundKey[round * 16 + p]

def xtime (x : UInt8) : UInt8 := (x <<< 1) ^^^ (((x >>> 7) &&& 1) * 0x1b)

/-- The macro `Multiply`. -/
def multiply (x y : UInt8) : UInt8 :=
  ((y &&& 1) * x) ^^^
    (((y >>> (1 : UInt8)) &&& 1) * xtime x) ^^^
    (((y >>> (2 : UInt8)) &&& 1) * xtime (xtime x)) ^^^
    (((y >>> (3 : UInt8)) &&& 1) * xtime (xtime (xtime x))) ^^^
    (((y >>> (4 : UInt8)) &&& 1) * xtime (xtime (xtime (xtime x))))

def invMixColumn (w : Word) : Word :=
  let a := w[0]
  let b := w[1]
  let c := w[2]
  let d := w[3]
  #v[multiply a 0x0e ^^^ multiply b 0x0b ^^^ multiply c 0x0d ^^^ multiply d 0x09,
    multiply a 0x09 ^^^ multiply b 0x0e ^^^ multiply c 0x0b ^^^ multiply d 0x0d,
    multiply a 0x0d ^^^ multiply b 0x09 ^^^ multiply c 0x0e ^^^ multiply d 0x0b,
    multiply a 0x0b ^^^ multiply b 0x0d ^^^ multiply c 0x09 ^^^ multiply d 0x0e]

/-- A loop over the columns of the state. -/
def eachColumn (f : Word → Word) (s : State) : State :=
  Nat.fold 4 (fun i h s => setWord (n := 4) s i h (f (word (n := 4) s i h))) s

def invMixColumns (s : State) : State := eachColumn invMixColumn s

def invSubBytes (s : State) : State := s.map getSBoxInvert

/-- "Rotate first row 1 columns to right". -/
def rotateFirstRow (s : State) : State :=
  let temp := s[4 * 3 + 1]
  let s := s.set (4 * 3 + 1) s[4 * 2 + 1]
  let s := s.set (4 * 2 + 1) s[4 * 1 + 1]
  let s := s.set (4 * 1 + 1) s[4 * 0 + 1]
  s.set (4 * 0 + 1) temp

/-- "Rotate second row 2 columns to right". -/
def rotateSecondRow (s : State) : State :=
  let temp := s[4 * 0 + 2]
  let s := s.set (4 * 0 + 2) s[4 * 2 + 2]
  let s := s.set (4 * 2 + 2) temp
  let temp := s[4 * 1 + 2]
  let s := s.set (4 * 1 + 2) s[4 * 3 + 2]
  s.set (4 * 3 + 2) temp

/-- "Rotate third row 3 columns to right". -/
def rotateThirdRow (s : State) : State :=
  let temp := s[4 * 0 + 3]
  let s := s.set (4 * 0 + 3) s[4 * 1 + 3]
  let s := s.set (4 * 1 + 3) s[4 * 2 + 3]
  let s := s.set (4 * 2 + 3) s[4 * 3 + 3]
  s.set (4 * 3 + 3) temp

def invShiftRows (s : State) : State := rotateThirdRow (rotateSecondRow (rotateFirstRow s))

/-- The loop of `InvCipher` from `round` on; it leaves after round 0, before the columns. -/
def invRounds (roundKey : RoundKeys) : (round : Nat) → round < 15 → State → State
  | 0, h, s => addRoundKey 0 h (invSubBytes (invShiftRows s)) roundKey
  | round + 1, h, s =>
    let s := addRoundKey (round + 1) h (invSubBytes (invShiftRows s)) roundKey
    invRounds roundKey round (by omega) (invMixColumns s)

def invCipher (s : State) (roundKey : RoundKeys) : State :=
  invRounds roundKey 13 (by omega) (addRoundKey 14 (by omega) s roundKey)

/-! ## The cipher of FIPS-197 -/

/-- Bit `i` of the affine map is the sum of the bits `i`, `i + 4` to `i + 7` and of 0x63. -/
def affine (b : UInt8) : UInt8 :=
  let rotl := fun n : UInt8 => (b <<< n) ||| (b >>> (8 - n))
  b ^^^ rotl 1 ^^^ rotl 2 ^^^ rotl 3 ^^^ rotl 4 ^^^ 0x63

/-- What the standard's table holds for `b`. -/
def subByte (b : UInt8) : UInt8 := affine (fieldInv b)

def subBytes (s : State) : State := s.map subByte

/-- Row `j` is turned to the left by `j` columns. -/
def shiftRows (s : State) : State :=
  Vector.ofFn fun p : Fin 16 => s[4 * ((p.val / 4 + p.val % 4) % 4) + p.val % 4]

def mixColumn (w : Word) : Word :=
  #v[fieldMul 2 w[0] ^^^ fieldMul 3 w[1] ^^^ w[2] ^^^ w[3],
    w[0] ^^^ fieldMul 2 w[1] ^^^ fieldMul 3 w[2] ^^^ w[3],
    w[0] ^^^ w[1] ^^^ fieldMul 2 w[2] ^^^ fieldMul 3 w[3],
    fieldMul 3 w[0] ^^^ w[1] ^^^ w[2] ^^^ fieldMul 2 w[3]]

def mixColumns (s : State) : State := eachColumn mixColumn s

/-- The state after the full rounds up to `n`. -/
def cipherRounds (roundKey : RoundKeys) : (n : Nat) → n < 15 → State → State
  | 0, h, s => addRoundKey 0 h s roundKey
  | n + 1, h, s =>
    addRoundKey (n + 1) h (mixColumns (shiftRows (subBytes (cipherRounds roundKey n (by omega) s)))) roundKey

def cipher (s : State) (roundKey : RoundKeys) : State :=
  addRoundKey 14 (by omega) (shiftRows (subBytes (cipherRounds roundKey 13 (by omega) s))) roundKey

/-! ## The tables -/

theorem getSBoxValue_eq : ∀ b : UInt8, getSBoxValue b = subByte b := by
  decide +kernel

theorem subByte_getSBoxInvert : ∀ b : UInt8, subByte (getSBoxInvert b) = b := by
  decide +kernel

theorem getSBoxInvert_subByte (b : UInt8) : getSBoxInvert (subByte b) = b :=
  Function.LeftInverse.rightInverse_of_card_le subByte_getSBoxInvert le_rfl b

theorem subWord_eq (w : Word) : subWord w = w.map subByte := by
  rw [subWord, funext getSBoxValue_eq]

/-! ## The columns -/

theorem bit_cases (x : UInt8) (n : UInt8) : (x >>> n) &&& 1 = 0 ∨ (x >>> n) &&& 1 = 1 := by
  have hbit : ∀ y : UInt8, y &&& 1 = 0 ∨ y &&& 1 = 1 := by decide +kernel
  exact hbit _

theorem bit_mul_xor {p q : UInt8} (hp : p = 0 ∨ p = 1) (hq : q = 0 ∨ q = 1) (c : UInt8) :
    (p ^^^ q) * c = (p * c) ^^^ (q * c) := by
  rcases hp with rfl | rfl
  · rcases hq with rfl | rfl
    · simp
    · simp
  · rcases hq with rfl | rfl
    · simp
    · simp

theorem xor_and (a b c : UInt8) : (a ^^^ b) &&& c = (a &&& c) ^^^ (b &&& c) := by
  apply UInt8.eq_of_toBitVec_eq
  apply BitVec.eq_of_getElem_eq
  simp [Bool.and_xor_distrib_right]

theorem xtime_xor (a b : UInt8) : xtime (a ^^^ b) = xtime a ^^^ xtime b := by
  have ha := bit_cases a 7
  have hb := bit_cases b 7
  rw [xtime, UInt8.shiftLeft_xor, UInt8.shiftRight_xor, xor_and, bit_mul_xor ha hb, xtime, xtime]
  ac_rfl

theorem bit_mul (p a b : UInt8) (hp : p = 0 ∨ p = 1) : p * (a ^^^ b) = (p * a) ^^^ (p * b) := by
  rcases hp with rfl | rfl
  · simp
  · simp

theorem multiply_xor (a b y : UInt8) : multiply (a ^^^ b) y = multiply a y ^^^ multiply b y := by
  have h0 : y &&& 1 = 0 ∨ y &&& 1 = 1 := bit_cases y 0
  simp only [multiply, xtime_xor]
  simp only [bit_mul _ _ _ h0, bit_mul _ _ _ (bit_cases _ _)]
  ac_rfl

/-- The columns of the two matrices against each other. -/
theorem unmix_own : ∀ a : UInt8, multiply (fieldMul 2 a) 0x0e ^^^ multiply a 0x0b ^^^ multiply a 0x0d ^^^
    multiply (fieldMul 3 a) 0x09 = a := by
  decide +kernel

theorem unmix_next : ∀ a : UInt8, multiply (fieldMul 3 a) 0x0e ^^^ multiply (fieldMul 2 a) 0x0b ^^^ multiply a 0x0d ^^^
    multiply a 0x09 = 0 := by
  decide +kernel

theorem unmix_opposite : ∀ a : UInt8,
    multiply a 0x0e ^^^ multiply (fieldMul 3 a) 0x0b ^^^ multiply (fieldMul 2 a) 0x0d ^^^
    multiply a 0x09 = 0 := by
  decide +kernel

theorem unmix_last : ∀ a : UInt8, multiply a 0x0e ^^^ multiply a 0x0b ^^^ multiply (fieldMul 3 a) 0x0d ^^^
    multiply (fieldMul 2 a) 0x09 = 0 := by
  decide +kernel

/-- A byte of a column is got back from the four mixed ones. -/
theorem unmix (a b c d : UInt8) :
    multiply (fieldMul 2 a ^^^ fieldMul 3 b ^^^ c ^^^ d) 0x0e ^^^
      multiply (a ^^^ fieldMul 2 b ^^^ fieldMul 3 c ^^^ d) 0x0b ^^^
      multiply (a ^^^ b ^^^ fieldMul 2 c ^^^ fieldMul 3 d) 0x0d ^^^
      multiply (fieldMul 3 a ^^^ b ^^^ c ^^^ fieldMul 2 d) 0x09 = a := by
  simp only [multiply_xor]
  calc _ = (multiply (fieldMul 2 a) 0x0e ^^^ multiply a 0x0b ^^^ multiply a 0x0d ^^^ multiply (fieldMul 3 a) 0x09) ^^^
        (multiply (fieldMul 3 b) 0x0e ^^^ multiply (fieldMul 2 b) 0x0b ^^^ multiply b 0x0d ^^^ multiply b 0x09) ^^^
        (multiply c 0x0e ^^^ multiply (fieldMul 3 c) 0x0b ^^^ multiply (fieldMul 2 c) 0x0d ^^^ multiply c 0x09) ^^^
        (multiply d 0x0e ^^^ multiply d 0x0b ^^^ multiply (fieldMul 3 d) 0x0d ^^^ multiply (fieldMul 2 d) 0x09) := by
        ac_rfl
    _ = a := by
        rw [unmix_own, unmix_next, unmix_opposite, unmix_last]
        simp

/-- Each byte of the column is got back as the first one of the column turned. -/
theorem invMixColumn_mixColumn (w : Word) : invMixColumn (mixColumn w) = w := by
  have h0 := unmix w[0] w[1] w[2] w[3]
  have h1 := unmix w[1] w[2] w[3] w[0]
  have h2 := unmix w[2] w[3] w[0] w[1]
  have h3 := unmix w[3] w[0] w[1] w[2]
  apply Vector.ext
  intro i hi
  match i, hi with
  | 0, _ => exact h0
  | 1, _ =>
    refine Eq.trans ?_ h1
    simp only [invMixColumn, mixColumn, Vector.getElem_mk, List.getElem_toArray, List.getElem_cons_zero,
      List.getElem_cons_succ]
    ac_rfl
  | 2, _ =>
    refine Eq.trans ?_ h2
    simp only [invMixColumn, mixColumn, Vector.getElem_mk, List.getElem_toArray, List.getElem_cons_zero,
      List.getElem_cons_succ]
    ac_rfl
  | 3, _ =>
    refine Eq.trans ?_ h3
    simp only [invMixColumn, mixColumn, Vector.getElem_mk, List.getElem_toArray, List.getElem_cons_zero,
      List.getElem_cons_succ]
    ac_rfl

/-! ## The words of an array -/

section Words

variable {n : Nat} (v : Vector UInt8 (4 * n))

theorem getElem_word {i k : Nat} (h : i < n) (hk : k < 4) : (word v i h)[k] = v[4 * i + k] := by
  match k, hk with
  | 0, _ => rfl
  | 1, _ => rfl
  | 2, _ => rfl
  | 3, _ => rfl

theorem getElem_setWord {i q k : Nat} (h : i < n) (w : Word) (hq : q < n) (hk : k < 4) :
    (setWord v i h w)[4 * q + k] = if i = q then w[k] else v[4 * q + k] := by
  simp only [setWord, Vector.getElem_set]
  match k, hk with
  | 0, _ => split_ifs <;> first | rfl | omega
  | 1, _ => split_ifs <;> first | rfl | omega
  | 2, _ => split_ifs <;> first | rfl | omega
  | 3, _ => split_ifs <;> first | rfl | omega

theorem word_setWord {i j : Nat} (h : i < n) (hj : j < n) (w : Word) :
    word (setWord v i h w) j hj = if i = j then w else word v j hj := by
  apply Vector.ext
  intro k hk
  rw [getElem_word _ hj hk, getElem_setWord v h w hj hk]
  by_cases heq : i = j
  · rw [if_pos heq, if_pos heq]
  · rw [if_neg heq, if_neg heq, getElem_word v hj hk]

variable {v} in
theorem ext_word {v v' : Vector UInt8 (4 * n)} (h : ∀ i (hi : i < n), word v i hi = word v' i hi) : v = v' := by
  apply Vector.ext
  intro j hj
  have hword := congrArg (fun w : Word => w[j % 4]) (h (j / 4) (by omega))
  simpa only [getElem_word _ _ (Nat.mod_lt j (by omega : 0 < 4)), Nat.div_add_mod] using hword

end Words

/-! ## The key schedule -/

/-- What the standard mixes into word `i`, from the word before. -/
def scheduleTemp (i : Nat) (w : Word) : Word :=
  if i % 8 = 0 then xorWord ((rotWord w).map subByte) #v[fieldPow 2 (i / 8 - 1), 0, 0, 0]
  else if i % 8 = 4 then w.map subByte
  else w

theorem rcon_eq_fieldPow : ∀ i (h : i < 8), 1 ≤ i → rcon[i] = fieldPow 2 (i - 1) := by
  decide +kernel

theorem tempa_eq {i : Nat} (h8 : 8 ≤ i) (h : i < 60) (w : Word) : tempa i h w = scheduleTemp i w := by
  unfold tempa scheduleTemp
  simp only [subWord_eq]
  by_cases h0 : i % 8 = 0
  · have h4 : i % 8 ≠ 4 := by omega
    have hrcon := rcon_eq_fieldPow (i / 8) (by omega) (by omega)
    rw [if_pos h0, if_pos h0, if_neg h4, hrcon]
    apply Vector.ext
    intro k hk
    match k, hk with
    | 0, _ => simp [xorWord]
    | 1, _ => simp [xorWord]
    | 2, _ => simp [xorWord]
    | 3, _ => simp [xorWord]
  · rw [if_neg h0, if_neg h0]

theorem xorWord_cancel (w v : Word) : xorWord (xorWord w v) v = w := by
  apply Vector.ext
  intro k hk
  simp [xorWord]

/-- The first `m` words are those of the schedule of `key`. -/
structure Scheduled (key : Vector UInt8 32) (roundKey : RoundKeys) (m : Nat) : Prop where
  key : ∀ i (h : i < 8), i < m → word (n := 60) roundKey i (by omega) = word (n := 8) key i h
  next : ∀ i (h8 : 8 ≤ i) (h : i < 60), i < m → word (n := 60) roundKey i h =
    xorWord (word (n := 60) roundKey (i - 8) (by omega)) (scheduleTemp i (word (n := 60) roundKey (i - 1) (by omega)))

theorem scheduled_copied (key : Vector UInt8 32) (roundKey : RoundKeys) {m : Nat} (hm : m ≤ 8) :
    Scheduled key
      (Nat.fold m (fun i h rk => setWord (n := 60) rk i (by omega) (word (n := 8) key i (by omega))) roundKey)
      m := by
  induction m with
  | zero => exact ⟨fun _ _ h => absurd h (Nat.not_lt_zero _), fun _ _ _ h => absurd h (Nat.not_lt_zero _)⟩
  | succ m ih =>
    have hrest := ih (by omega)
    rw [Nat.fold_succ]
    constructor
    · intro i h hi
      rw [word_setWord (n := 60)]
      by_cases heq : m = i
      · subst heq
        rw [if_pos rfl]
      · rw [if_neg heq]
        exact hrest.key i h (by omega)
    · intro i h8 h hi
      omega

theorem scheduled_expandWord {key : Vector UInt8 32} {roundKey : RoundKeys} {m : Nat} (h8 : 8 ≤ m) (h : m < 60)
    (hs : Scheduled key roundKey m) : Scheduled key (expandWord roundKey m h8 h) (m + 1) := by
  have hword : ∀ i (hi : i < 60), word (n := 60) (expandWord roundKey m h8 h) i hi =
      if m = i then xorWord (word (n := 60) roundKey (m - 8) (by omega))
        (tempa m h (word (n := 60) roundKey (m - 1) (by omega)))
      else word (n := 60) roundKey i hi := fun i hi => word_setWord (n := 60) roundKey h hi _
  constructor
  · intro i hi8 hi
    rw [hword, if_neg (by omega)]
    exact hs.key i hi8 (by omega)
  · intro i hi8 hi60 hi
    rw [hword i, hword (i - 8), hword (i - 1), if_neg (by omega : m ≠ i - 8), if_neg (by omega : m ≠ i - 1)]
    by_cases heq : m = i
    · subst heq
      rw [if_pos rfl, tempa_eq h8 h]
    · rw [if_neg heq]
      exact hs.next i hi8 hi60 (by omega)

theorem scheduled_expanded {key : Vector UInt8 32} {roundKey : RoundKeys} (hs : Scheduled key roundKey 8) {t : Nat}
    (ht : t ≤ 52) :
    Scheduled key (Nat.fold t (fun t h rk => expandWord rk (8 + t) (by omega) (by omega)) roundKey) (8 + t) := by
  induction t with
  | zero => exact hs
  | succ t ih =>
    rw [Nat.fold_succ]
    exact scheduled_expandWord _ _ (ih (by omega))

theorem scheduled_keyExpansion (roundKey : RoundKeys) (key : Vector UInt8 32) :
    Scheduled key (keyExpansion roundKey key) 60 :=
  scheduled_expanded (scheduled_copied key roundKey le_rfl) le_rfl

theorem Scheduled.unique {key : Vector UInt8 32} {rk rk' : RoundKeys} (hs : Scheduled key rk 60)
    (hs' : Scheduled key rk' 60) : rk = rk' := by
  apply ext_word (n := 60)
  intro i hi
  induction i using Nat.strongRecOn with
  | _ i ih =>
    by_cases h8 : i < 8
    · rw [hs.key i h8 hi, hs'.key i h8 hi]
    · rw [hs.next i (by omega) hi hi, hs'.next i (by omega) hi hi, ih (i - 8) (by omega) (by omega),
        ih (i - 1) (by omega) (by omega)]

/-- The schedule goes back as well: eight words in a row give the one before them. -/
theorem Scheduled.word_before {key : Vector UInt8 32} {roundKey : RoundKeys} (hs : Scheduled key roundKey 60) {i : Nat}
    (h8 : 8 ≤ i) (h : i < 60) : word (n := 60) roundKey (i - 8) (by omega) =
      xorWord (word (n := 60) roundKey i h) (scheduleTemp i (word (n := 60) roundKey (i - 1) (by omega))) := by
  rw [hs.next i h8 h h, xorWord_cancel]

/-- Eight words in a row determine the key. -/
theorem key_of_eight_words (rk rk' : RoundKeys) (key key' : Vector UInt8 32) (i : Nat) (hi : i + 8 ≤ 60)
    (h : ∀ j (hj : j < 8), word (n := 60) (keyExpansion rk key) (i + j) (by omega) =
      word (n := 60) (keyExpansion rk' key') (i + j) (by omega)) : key = key' := by
  have hs := scheduled_keyExpansion rk key
  have hs' := scheduled_keyExpansion rk' key'
  induction i with
  | zero =>
    apply ext_word (n := 8)
    intro j hj
    have hword := h j hj
    simp only [Nat.zero_add] at hword
    rw [← hs.key j hj (by omega), ← hs'.key j hj (by omega), hword]
  | succ i ih =>
    refine ih (by omega) ?_
    intro j hj
    cases j with
    | zero =>
      have hback := hs.word_before (i := i + 8) (by omega) (by omega)
      have hback' := hs'.word_before (i := i + 8) (by omega) (by omega)
      have h7 : word (n := 60) (keyExpansion rk key) (i + 8) (by omega) =
          word (n := 60) (keyExpansion rk' key') (i + 8) (by omega) := h 7 (by omega)
      have h6 : word (n := 60) (keyExpansion rk key) (i + 8 - 1) (by omega) =
          word (n := 60) (keyExpansion rk' key') (i + 8 - 1) (by omega) := h 6 (by omega)
      rw [h7, h6, ← hback'] at hback
      simpa only [Nat.add_sub_cancel, Nat.add_zero] using hback
    | succ j =>
      have hword := h j (by omega)
      simpa only [Nat.add_assoc, Nat.add_comm 1 j] using hword

/-- Whatever the array held before, its words are those of the standard; they are the same
    each time, and any eight in a row determine the key. -/
theorem keyExpansion_standard (rk : RoundKeys) (key : Vector UInt8 32) :
    (∀ i (h : i < 8), word (n := 60) (keyExpansion rk key) i (by omega) = word (n := 8) key i h) ∧
    (∀ i (_ : 8 ≤ i) (h : i < 60), word (n := 60) (keyExpansion rk key) i h =
      xorWord (word (n := 60) (keyExpansion rk key) (i - 8) (by omega))
        (scheduleTemp i (word (n := 60) (keyExpansion rk key) (i - 1) (by omega)))) ∧
    (∀ rk', keyExpansion rk' key = keyExpansion rk key) ∧
    (∀ rk' key' i, (hi : i + 8 ≤ 60) →
      (∀ j (hj : j < 8), word (n := 60) (keyExpansion rk key) (i + j) (by omega) =
        word (n := 60) (keyExpansion rk' key') (i + j) (by omega)) → key = key') := by
  have hs := scheduled_keyExpansion rk key
  refine ⟨?_, ?_, ?_, ?_⟩
  · intro i h
    exact hs.key i h (by omega)
  · intro i h8 h
    exact hs.next i h8 h h
  · intro rk'
    exact (scheduled_keyExpansion rk' key).unique hs
  · intro rk' key' i hi h
    exact key_of_eight_words rk rk' key key' i hi h

/-! ## The rounds -/

theorem invSubBytes_subBytes (s : State) : invSubBytes (subBytes s) = s := by
  apply Vector.ext
  intro k hk
  simp [invSubBytes, subBytes, getSBoxInvert_subByte]

/-- Row `j` turned to the right by `j` columns, the other rows left alone. -/
def turnRow (j : Nat) (s : State) : State :=
  Vector.ofFn fun p : Fin 16 => if p.val % 4 = j then s[4 * ((p.val / 4 + 4 - j) % 4) + p.val % 4] else s.get p

theorem rotateFirstRow_eq (s : State) : rotateFirstRow s = turnRow 1 s := by
  apply Vector.ext
  intro k hk
  interval_cases k <;> simp [rotateFirstRow, turnRow, Vector.get]

theorem rotateSecondRow_eq (s : State) : rotateSecondRow s = turnRow 2 s := by
  apply Vector.ext
  intro k hk
  interval_cases k <;> simp [rotateSecondRow, turnRow, Vector.get]

theorem rotateThirdRow_eq (s : State) : rotateThirdRow s = turnRow 3 s := by
  apply Vector.ext
  intro k hk
  interval_cases k <;> simp [rotateThirdRow, turnRow, Vector.get]

theorem getElem_turnRow_own {j k : Nat} (hk : k < 16) (h : k % 4 = j) (s : State) :
    (turnRow j s)[k] = s[4 * ((k / 4 + 4 - j) % 4) + k % 4] := by
  rw [turnRow, Vector.getElem_ofFn, if_pos h]

theorem getElem_turnRow_other {j k : Nat} (hk : k < 16) (h : k % 4 ≠ j) (s : State) : (turnRow j s)[k] = s[k] := by
  rw [turnRow, Vector.getElem_ofFn, if_neg h]
  rfl

theorem getElem_shiftRows {k k' : Nat} (hk : k < 16) (hk' : k' < 16) (h : k' = 4 * ((k / 4 + k % 4) % 4) + k % 4)
    (s : State) : (shiftRows s)[k] = s[k'] := by
  subst h
  rw [shiftRows, Vector.getElem_ofFn]

theorem invShiftRows_shiftRows (s : State) : invShiftRows (shiftRows s) = s := by
  rw [invShiftRows, rotateFirstRow_eq, rotateSecondRow_eq, rotateThirdRow_eq]
  apply Vector.ext
  intro k hk
  have hrow : k % 4 = 0 ∨ k % 4 = 1 ∨ k % 4 = 2 ∨ k % 4 = 3 := by omega
  -- each row is turned by one of the three only
  rcases hrow with h | h | h | h
  · rw [getElem_turnRow_other hk (by omega), getElem_turnRow_other hk (by omega), getElem_turnRow_other hk (by omega)]
    exact getElem_shiftRows hk hk (by omega) s
  · rw [getElem_turnRow_other hk (by omega), getElem_turnRow_other hk (by omega), getElem_turnRow_own hk h]
    exact getElem_shiftRows (by omega) hk (by omega) s
  · rw [getElem_turnRow_other hk (by omega), getElem_turnRow_own hk h, getElem_turnRow_other (by omega) (by omega)]
    exact getElem_shiftRows (by omega) hk (by omega) s
  · rw [getElem_turnRow_own hk h, getElem_turnRow_other (by omega) (by omega),
      getElem_turnRow_other (by omega) (by omega)]
    exact getElem_shiftRows (by omega) hk (by omega) s

/-- Each column goes through `f`, the others are left alone. -/
theorem word_eachColumn (f : Word → Word) (s : State) {i : Nat} (hi : i < 4) :
    word (n := 4) (eachColumn f s) i hi = f (word (n := 4) s i hi) := by
  simp only [eachColumn, Nat.fold_succ, Nat.fold_zero, word_setWord (n := 4)]
  interval_cases i <;> simp

theorem invMixColumns_mixColumns (s : State) : invMixColumns (mixColumns s) = s := by
  apply ext_word (n := 4)
  intro i hi
  rw [invMixColumns, mixColumns, word_eachColumn, word_eachColumn, invMixColumn_mixColumn]

theorem addRoundKey_cancel (round : Nat) (h : round < 15) (s : State) (roundKey : RoundKeys) :
    addRoundKey round h (addRoundKey round h s roundKey) roundKey = s := by
  apply Vector.ext
  intro k hk
  simp [addRoundKey]

theorem invRounds_cipherRounds (roundKey : RoundKeys) {n : Nat} (h : n < 15) (s : State) :
    invRounds roundKey n h (shiftRows (subBytes (cipherRounds roundKey n h s))) = s := by
  induction n with
  | zero =>
    rw [invRounds, invShiftRows_shiftRows, invSubBytes_subBytes, cipherRounds, addRoundKey_cancel]
  | succ n ih =>
    rw [invRounds, invShiftRows_shiftRows, invSubBytes_subBytes, cipherRounds]
    simp only [addRoundKey_cancel, invMixColumns_mixColumns]
    exact ih (by omega)

theorem invCipher_cipher (s : State) (roundKey : RoundKeys) : invCipher (cipher s roundKey) roundKey = s := by
  rw [invCipher, cipher, addRoundKey_cancel, invRounds_cipherRounds]

instance : Finite State := Finite.of_injective (fun s : State => fun i : Fin 16 => s[i]) (by
  intro s s' h
  apply Vector.ext
  intro k hk
  exact congrFun h ⟨k, hk⟩)

/-- What undoes the cipher on a finite set of blocks is undone by it. -/
theorem cipher_invCipher (s : State) (roundKey : RoundKeys) : cipher (invCipher s roundKey) roundKey = s := by
  have hleft : Function.LeftInverse (fun s => invCipher s roundKey) (fun s => cipher s roundKey) :=
    fun s => invCipher_cipher s roundKey
  obtain ⟨s', rfl⟩ := Finite.surjective_of_injective hleft.injective s
  exact congrArg (fun s => cipher s roundKey) (hleft s')

theorem invCipher_undoes_cipher (roundKey : RoundKeys) (s : State) :
    invCipher (cipher s roundKey) roundKey = s ∧ cipher (invCipher s roundKey) roundKey = s :=
  ⟨invCipher_cipher s roundKey, cipher_invCipher s roundKey⟩

end Crows.Boot.Aes
