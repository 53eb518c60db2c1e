/-
  Crows.Boot.Input — ReadChar16KeyboardInput, the loader's line editor.

  The loop reads keystrokes into a cleared buffer until the end of the line. A keystroke
  is what the firmware answers in one turn of it. `*ResultingBufferLength` is a number of
  bytes, two for each character.

  A backspace clears the cell behind the last character and not the character itself: the
  string in the buffer keeps it until another one is typed over it. Without backspaces
  the string is what was typed:
  - `readChar16KeyboardInput_of_enters`: a line without a backspace that fits is read as
    it was entered, with twice its length.
-/
import Crows.Boot.Efi
import Crows.Lib.NulString

namespace Crows.Boot

open Crows.Lib
open Function (update)

abbrev Char16 := UInt16

/-- A CHAR16 string. -/
abbrev Str16 := NulString UInt16 0

namespace Input

/-- The firmware's answers in one turn of the loop. -/
structure Keystroke where
  waitForEvent : EfiStatus
  readKeyStroke : EfiStatus
  unicodeChar : Char16
  reset : EfiStatus

/-- The firmware's answers during one call, as far as the user has typed. -/
structure Typed where
  reset : EfiStatus
  keys : List Keystroke

inductive LineRead where
  | line (inputBuffer : Str16) (resultingBufferLength : UInt8)
  | failed (status : EfiStatus)
  | panicked
  /-- The line has not been ended. -/
  | waiting

def lineFeed : Char16 := 0x0A

def carriageReturn : Char16 := 0x0D

def backspace : Char16 := 0x08

def isPrintable (c : Char16) : Bool := decide (0x20 ≤ c) && decide (c ≤ 0x7E)

/-- The loop, with the buffer and InputLength. -/
def readKeys (maxLength : UInt8) : List Keystroke → (Nat → Char16) → UInt8 → LineRead
  | [], _, _ => .waiting
  | k :: ks, inputBuffer, inputLength =>
    if k.waitForEvent.isError then .failed k.waitForEvent
    else if k.readKeyStroke = .notReady then readKeys maxLength ks inputBuffer inputLength
    else if k.readKeyStroke = .deviceError ∨ k.readKeyStroke = .unsupported then .panicked
    else if k.readKeyStroke.isError then .failed k.readKeyStroke
    else if k.reset.isError then .failed k.reset
    else if k.unicodeChar = lineFeed ∨ k.unicodeChar = carriageReturn then
      .line (NulString.ofBuffer (update inputBuffer maxLength.toNat 0) (maxLength.toNat + 1)) (inputLength * 2)
    else if k.unicodeChar = backspace then
      readKeys maxLength ks (update inputBuffer inputLength.toNat 0)
        (if 0 < inputLength then inputLength - 1 else inputLength)
    else if isPrintable k.unicodeChar && decide (inputLength < maxLength) then
      readKeys maxLength ks (update inputBuffer inputLength.toNat k.unicodeChar) (inputLength + 1)
    else readKeys maxLength ks inputBuffer inputLength

def readChar16KeyboardInput (maxLength : UInt8) (typed : Typed) : LineRead :=
  if typed.reset.isError then .failed typed.reset
  else readKeys maxLength typed.keys (fun _ => 0) 0

/-! ## Lines without a backspace -/

/-- The firmware gives a key in this turn. -/
def Keystroke.Pressed (k : Keystroke) : Prop :=
  k.waitForEvent.isError = false ∧ k.readKeyStroke.isError = false ∧ k.reset.isError = false

/-- No key is ready in this turn, or one that neither ends the line nor deletes. -/
def Keystroke.Plain (k : Keystroke) : Prop :=
  (k.waitForEvent.isError = false ∧ k.readKeyStroke = .notReady) ∨
    (k.Pressed ∧ k.unicodeChar ≠ lineFeed ∧ k.unicodeChar ≠ carriageReturn ∧ k.unicodeChar ≠ backspace)

/-- What the turn adds to a line with room. -/
def Keystroke.character (k : Keystroke) : Option Char16 :=
  if k.readKeyStroke = .notReady then none
  else if isPrintable k.unicodeChar then some k.unicodeChar
  else none

def Keystroke.Ends (k : Keystroke) : Prop :=
  k.Pressed ∧ (k.unicodeChar = lineFeed ∨ k.unicodeChar = carriageReturn)

/-- The line `w` is entered without a backspace. -/
def Enters (typed : Typed) (w : Str16) : Prop :=
  typed.reset.isError = false ∧ ∃ ks k rest, typed.keys = ks ++ k :: rest ∧ (∀ k' ∈ ks, k'.Plain) ∧ k.Ends ∧
    ks.filterMap Keystroke.character = w.chars

theorem Keystroke.Pressed.ready {k : Keystroke} (h : k.Pressed) :
    k.readKeyStroke ≠ .notReady ∧ ¬ (k.readKeyStroke = .deviceError ∨ k.readKeyStroke = .unsupported) := by
  obtain ⟨-, hread, -⟩ := h
  refine ⟨?_, ?_⟩
  · intro heq
    rw [heq] at hread
    cases hread
  · intro heq
    rcases heq with heq | heq
    · rw [heq] at hread
      cases hread
    · rw [heq] at hread
      cases hread

/-- A turn without a backspace puts its character behind the others. -/
theorem readKeys_plain {maxLength : UInt8} {k : Keystroke} (hk : k.Plain) (ks : List Keystroke) {cs : List Char16}
    (hroom : (cs ++ k.character.toList).length ≤ maxLength.toNat) :
    readKeys maxLength (k :: ks) (NulString.buffer 0 cs) (UInt8.ofNat cs.length) =
      readKeys maxLength ks (NulString.buffer 0 (cs ++ k.character.toList))
        (UInt8.ofNat (cs ++ k.character.toList).length) := by
  rcases hk with ⟨hwait, hread⟩ | ⟨hpressed, hlf, hcr, hbs⟩
  · simp [readKeys, Keystroke.character, hwait, hread]
  · obtain ⟨hready, hnofault⟩ := hpressed.ready
    obtain ⟨hwait, hread, hreset⟩ := hpressed
    have hends : ¬ (k.unicodeChar = lineFeed ∨ k.unicodeChar = carriageReturn) := not_or.mpr ⟨hlf, hcr⟩
    by_cases hprint : isPrintable k.unicodeChar = true
    · have hchar : k.character = some k.unicodeChar := by
        simp only [Keystroke.character, hready, hprint, if_false, if_true]
      rw [hchar] at hroom ⊢
      simp only [Option.toList_some, List.length_append, List.length_singleton] at hroom ⊢
      have hbound := maxLength.toNat_lt
      have hcells : (UInt8.ofNat cs.length).toNat = cs.length := by
        rw [UInt8.toNat_ofNat']
        omega
      have hlt : UInt8.ofNat cs.length < maxLength := by
        rw [UInt8.lt_iff_toNat_lt, hcells]
        omega
      have hsucc : UInt8.ofNat (cs.length + 1) = UInt8.ofNat cs.length + 1 := UInt8.ofNat_add _ _
      simp only [readKeys, hwait, hready, hnofault, hread, hreset, hends, hbs, hprint, hlt, hcells, hsucc, decide_true,
        Bool.and_self, Bool.false_eq_true, if_false, if_true, NulString.update_buffer]
    · have hchar : k.character = none := by
        simp only [Keystroke.character, hready, hprint, if_false, Bool.false_eq_true]
      rw [hchar]
      simp only [readKeys, hwait, hready, hnofault, hread, hreset, hends, hbs, hprint, Option.toList_none,
        List.append_nil, Bool.false_and, Bool.false_eq_true, if_false]

theorem readKeys_end {maxLength : UInt8} {k : Keystroke} (hk : k.Ends) (ks : List Keystroke) {w : Str16}
    (hw : w.length ≤ maxLength.toNat) :
    readKeys maxLength (k :: ks) (NulString.buffer 0 w.chars) (UInt8.ofNat w.length) =
      .line w (UInt8.ofNat w.length * 2) := by
  obtain ⟨hpressed, hend⟩ := hk
  obtain ⟨hready, hnofault⟩ := hpressed.ready
  obtain ⟨hwait, hread, hreset⟩ := hpressed
  have hstring :
      NulString.ofBuffer (update (NulString.buffer 0 w.chars) maxLength.toNat 0) (maxLength.toNat + 1) = w := by
    rw [NulString.update_buffer_nul hw]
    exact NulString.ofBuffer_buffer w (Nat.le_succ_of_le hw)
  simp only [readKeys, hwait, hready, hnofault, hread, hreset, hend, hstring, Bool.false_eq_true, if_false, if_true]

/-- What was typed so far goes before what is still to come. -/
theorem readKeys_line {maxLength : UInt8} {k : Keystroke} (hk : k.Ends) (rest : List Keystroke) {w : Str16}
    (hw : w.length ≤ maxLength.toNat) {ks : List Keystroke} (hks : ∀ k' ∈ ks, k'.Plain) {cs : List Char16}
    (hchars : cs ++ ks.filterMap Keystroke.character = w.chars) :
    readKeys maxLength (ks ++ k :: rest) (NulString.buffer 0 cs) (UInt8.ofNat cs.length) =
      .line w (UInt8.ofNat w.length * 2) := by
  induction ks generalizing cs with
  | nil =>
    simp only [List.filterMap_nil, List.append_nil] at hchars
    subst hchars
    exact readKeys_end hk rest hw
  | cons k' ks ih =>
    have hmore : (cs ++ k'.character.toList) ++ ks.filterMap Keystroke.character = w.chars := by
      rw [← hchars, List.append_assoc]
      congr 1
      cases hchar : k'.character with
      | none => simp [hchar]
      | some c => simp [hchar]
    have hroom : (cs ++ k'.character.toList).length ≤ maxLength.toNat := by
      refine Nat.le_trans ?_ hw
      unfold NulString.length
      rw [← hmore]
      simp
    rw [List.cons_append, readKeys_plain (hks k' List.mem_cons_self) _ hroom]
    exact ih (fun k'' hmem => hks k'' (List.mem_cons_of_mem _ hmem)) hmore

theorem readChar16KeyboardInput_of_enters {maxLength : UInt8} {typed : Typed} {w : Str16} (h : Enters typed w)
    (hw : w.length ≤ maxLength.toNat) :
    readChar16KeyboardInput maxLength typed = .line w (UInt8.ofNat w.length * 2) := by
  obtain ⟨hreset, ks, k, rest, hkeys, hplain, hend, hchars⟩ := h
  unfold readChar16KeyboardInput
  rw [hreset, hkeys]
  have htyped : [] ++ ks.filterMap Keystroke.character = w.chars := hchars
  exact readKeys_line hend rest hw hplain htyped

end Input

end Crows.Boot
