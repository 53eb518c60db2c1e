/-
  Crows.Kernel.Formats — what snprintf makes of a format without %x and %d.

  A `Piece` is a literal character or one of %%, %s, %c and %u with its argument;
  `Piece.text` is what it stands for, %u being the number as Lean prints it.

  Proved: `snprintf_renders`, for any pieces and any limit that is not negative, the call
  ends, returns the smaller one of the limit and the length of the text, and stores as
  many bytes of the text and no others.
-/
import Crows.Kernel.Snprintf

namespace Crows.Kernel.Snprintf

open Crows.Lib

/-! ## Decimal numerals -/

theorem decDigit_eq {r : Nat} (h : r < 10) : decDigit r = chr r.digitChar := by
  interval_cases r <;> rfl

/-- The digits of the digit loop are those of the number in decimal notation. -/
theorem ascii_repr (n : Nat) : ascii n.repr = numeral 10 decDigit n := by
  have hdigits : (Nat.toDigits 10 n).map chr = numeral 10 (chr ∘ Nat.digitChar) n := by
    rw [← numeral_toDigits (by omega), numeral_map]
  unfold ascii
  rw [Nat.toList_repr, hdigits]
  exact (numeral_congr (by omega) (fun _ hr => decDigit_eq hr) n).symm

/-- The value of a decimal digit. -/
def decValue (c : UInt8) : Option Nat :=
  if chr '0' ≤ c ∧ c ≤ chr '9' then some (c.toNat - '0'.toNat) else none

theorem decValue_decDigit {r : Nat} (h : r < 10) : decValue (decDigit r) = some r := by
  interval_cases r <;> decide

theorem digits_numeral {base : Nat} (hbase : 2 ≤ base) (digit : Nat → UInt8) {n : Nat} (hn : n < 2 ^ 32)
    (hpos : n ≠ 0) (tail : List UInt8) : digits base digit 32 n tail = numeral base digit n ++ tail := by
  rw [digits_eq hbase digit hn, numeral, if_neg hpos]

theorem uString_repr (value : UInt64) : uString value = ascii value.toUInt32.toNat.repr := by
  unfold uString
  rw [ascii_repr]
  by_cases hzero : value.toUInt32.toNat = 0
  · rw [if_pos hzero, hzero]
    rfl
  · rw [if_neg hzero, digits_numeral (by omega) _ value.toUInt32.toNat_lt hzero, List.append_nil]

/-! ## Pieces -/

/-- A piece of a format, with what it is to print. -/
inductive Piece where
  | literal (c : UInt8) (notNul : c ≠ 0) (plain : c ≠ chr '%')
  | percent
  | string (s : CString)
  | char (c : UInt8)
  | unsigned (u : UInt32)

namespace Piece

/-- How the piece is written in the format. -/
def format : Piece → List UInt8
  | .literal c _ _ => [c]
  | .percent => [chr '%', chr '%']
  | .string _ => [chr '%', chr 's']
  | .char _ => [chr '%', chr 'c']
  | .unsigned _ => [chr '%', chr 'u']

def text : Piece → List UInt8
  | .literal c _ _ => [c]
  | .percent => [chr '%']
  | .string s => s.chars
  | .char c => [c]
  | .unsigned u => ascii u.toNat.repr

end Piece

/-- The words from argument `k` on are those that the pieces are to print. -/
def PassedFor (call : Call) (m : Mem) : Nat → List Piece → Prop
  | _, [] => True
  | k, .literal _ _ _ :: pieces => PassedFor call m k pieces
  | k, .percent :: pieces => PassedFor call m k pieces
  | k, .string s :: pieces => StringArg call m (call.args k) s ∧ PassedFor call m (k + 1) pieces
  | k, .char c :: pieces => (call.args k).toUInt8 = c ∧ PassedFor call m (k + 1) pieces
  | k, .unsigned u :: pieces => (call.args k).toUInt32 = u ∧ PassedFor call m (k + 1) pieces

/-- The same arguments for `render`. -/
def argsFor (call : Call) : Nat → List Piece → List Arg
  | _, [] => []
  | k, .literal _ _ _ :: pieces => argsFor call k pieces
  | k, .percent :: pieces => argsFor call k pieces
  | k, .string s :: pieces => .string (some s) :: argsFor call (k + 1) pieces
  | k, .char _ :: pieces => .word (call.args k) :: argsFor call (k + 1) pieces
  | k, .unsigned _ :: pieces => .word (call.args k) :: argsFor call (k + 1) pieces

section
variable {call : Call} {m : Mem}

theorem passed_of_pieces {k : Nat} {pieces : List Piece} (h : PassedFor call m k pieces) :
    Passed call m k (argsFor call k pieces) := by
  induction pieces generalizing k with
  | nil => exact trivial
  | cons piece pieces ih =>
    cases piece with
    | literal c hnul hplain => exact ih h
    | percent => exact ih h
    | string s => exact ⟨h.1, ih h.2⟩
    | char c => exact ⟨rfl, ih h.2⟩
    | unsigned u => exact ⟨rfl, ih h.2⟩

theorem render_pieces (locals : Locals) {k cursor : Nat} {pieces : List Piece} (h : PassedFor call m k pieces) :
    render locals cursor (pieces.flatMap Piece.format) (argsFor call k pieces) =
      some (pieces.flatMap Piece.text) := by
  induction pieces generalizing k cursor with
  | nil =>
    show render locals cursor [] [] = some []
    rw [render]
  | cons piece pieces ih =>
    rw [List.flatMap_cons, List.flatMap_cons]
    cases piece with
    | literal c hnul hplain =>
      show render locals cursor (c :: pieces.flatMap Piece.format) (argsFor call k pieces) = _
      rw [render_plain hplain, ih h]
      rfl
    | percent =>
      show render locals cursor (chr '%' :: chr '%' :: pieces.flatMap Piece.format) (argsFor call k pieces) = _
      rw [render_char (by decide) rfl, ih h]
      rfl
    | string s =>
      show render locals cursor (chr '%' :: chr 's' :: pieces.flatMap Piece.format)
        (.string (some s) :: argsFor call (k + 1) pieces) = _
      rw [render_string (by decide) rfl, ih h.2]
      rfl
    | char c =>
      show render locals cursor (chr '%' :: chr 'c' :: pieces.flatMap Piece.format)
        (.word (call.args k) :: argsFor call (k + 1) pieces) = _
      rw [render_char (by decide) rfl, ih h.2, h.1]
      rfl
    | unsigned u =>
      show render locals cursor (chr '%' :: chr 'u' :: pieces.flatMap Piece.format)
        (.word (call.args k) :: argsFor call (k + 1) pieces) = _
      rw [render_string (by decide) rfl, ih h.2, uString_repr, h.1]
      rfl

/-- The text of the pieces, as far as the limit lets it in, and nothing else is stored. -/
theorem snprintf_renders {pieces : List Piece} (hlimit : 0 ≤ call.limit.toInt)
    (hfmt : HasFormat call.fmt 0 (pieces.flatMap Piece.format)) (hargs : PassedFor call m 0 pieces) :
    ∃ m', (∀ ret m'', Prints call m ret m'' ↔
        ret = min call.limit.toInt (pieces.flatMap Piece.text).length ∧ m'' = m') ∧
      m'.read call.str (min call.limit.toInt.toNat (pieces.flatMap Piece.text).length) =
        (pieces.flatMap Piece.text).take call.limit.toInt.toNat ∧
      ∀ a, ¬ InRegion call.str (min call.limit.toInt.toNat (pieces.flatMap Piece.text).length) a → m' a = m a := by
  have hprints := returns_of_snprintf hfmt (passed_of_pieces hargs)
    (snprintf_of_render (render_pieces call.locals hargs) call.limit.toInt)
  have hshort := limit_lt call.limit
  have hlength : ((pieces.flatMap Piece.text).take call.limit.toInt.toNat).length =
      min call.limit.toInt.toNat (pieces.flatMap Piece.text).length := List.length_take
  refine ⟨m.write call.str ((pieces.flatMap Piece.text).take call.limit.toInt.toNat), ?_, ?_, ?_⟩
  · intro ret m''
    have hret : (((pieces.flatMap Piece.text).take call.limit.toInt.toNat).length : Int) =
        min call.limit.toInt (pieces.flatMap Piece.text).length := by omega
    constructor
    · intro h
      have hsame := Returns.unique h hprints
      rw [Left.mk.injEq] at hsame
      exact ⟨hsame.1.trans hret, hsame.2⟩
    · rintro ⟨hr, hm⟩
      subst hm
      rw [hr, ← hret]
      exact hprints
  · rw [← hlength]
    exact m.read_write call.str (by omega)
  · intro a ha
    rw [← hlength] at ha
    exact Mem.write_frame ha

end

/-! ## A call that is cut in the middle of a string -/

/-- A stack of zeros. -/
def clearArrays : Arrays := ⟨.cleared 17, .cleared 11, .cleared 12, .empty⟩

def callOf (fmt : String) (limit : Int32) (args : List UInt64) : Call :=
  ⟨0x1000, limit, NulString.buffer 0 (ascii fmt), NulString.buffer 0 args, fun _ => clearArrays⟩

def examplePieces : List Piece :=
  [.literal (chr 'n') (by decide) (by decide), .unsigned 4096, .percent, .string ⟨ascii "xy", by decide⟩, .char (chr '!')]

def exampleMem : Mem := Mem.write (fun _ => 0) 0x2000 (ascii "xy")

def cutCall : Call := callOf "n%u%%%s%c" 7 [4096, 0x2000, 33]

theorem snprintf_renders_cut :
    ∃ m', Prints cutCall exampleMem 7 m' ∧ m'.read 0x1000 7 = ascii "n4096%x" ∧
      ∀ a, ¬ InRegion 0x1000 7 a → m' a = exampleMem a := by
  have hseparate : Separate 0x2000 3 0x1000 7 := (separate_of_le (by decide) (by decide)).symm
  have hargs : PassedFor cutCall exampleMem 0 examplePieces :=
    ⟨by decide, ⟨by decide, by decide, by decide, hseparate⟩, by decide, trivial⟩
  obtain ⟨m', hprints, hread, hframe⟩ := snprintf_renders (by decide) (by decide) hargs
  have hcut : min cutCall.limit.toInt.toNat (examplePieces.flatMap Piece.text).length = 7 := by decide
  have hstored : (examplePieces.flatMap Piece.text).take cutCall.limit.toInt.toNat = ascii "n4096%x" := by decide
  rw [hcut, hstored] at hread
  rw [hcut] at hframe
  exact ⟨m', (hprints 7 m').mpr ⟨by decide, rfl⟩, hread, hframe⟩

end Crows.Kernel.Snprintf
