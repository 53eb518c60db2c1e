/-
  Crows.Boot.InputBounds — the bytes that reading a line writes, and the arrays that its
  callers pass for InputBuffer.

  MaxLength counts characters and a terminator comes behind them, so a call that gets past
  the Reset of the console clears 2 * (MaxLength + 1) bytes, and whatever is typed stays
  within these. The array has to have as many:
  - Confirm's UserInput is declared in characters and has;
  - SelectPayload's SelectedPayloadName is declared with a byte for each character;
  - efi_main's Password, which GetPassword clears on its own before the call, is declared
    with a single byte for the terminator.

  Proved, for all keystrokes:
  - `readCells_unwritten`: a cell that is not in the log keeps its character.
  - `keyboardWrites_fit_iff`: one call stays within an array exactly when the Reset fails or
    the array has room for MaxLength + 1 characters.
  - `writes_fit_iff`: which call sites stay within their array.
-/
import Crows.Boot.LineString

namespace Crows.Boot.InputBounds

open Crows.Boot.Input
open Crows.Boot.Select
open Crows.Boot.Menu
open Crows.Boot.Line
open Crows.Boot.LineString
open Function (update update_self update_of_ne)

/-! ## The bytes that one call writes -/

/-- sizeof(CHAR16). -/
def sizeOfChar16 : Nat := 2

/-- The bytes of InputBuffer[i]. -/
def cellBytes (i : Nat) : List Nat := [sizeOfChar16 * i, sizeOfChar16 * i + 1]

/-- The bytes that the loop writes, and the final terminator. -/
def loopWrites (maxLength : UInt8) : List Keystroke → UInt8 → List Nat
  | [], _ => []
  | k :: ks, inputLength =>
    if k.waitForEvent.isError then []
    else if k.readKeyStroke = .notReady then loopWrites maxLength ks inputLength
    else if k.readKeyStroke = .deviceError ∨ k.readKeyStroke = .unsupported then []
    else if k.readKeyStroke.isError then []
    else if k.reset.isError then []
    else if k.unicodeChar = lineFeed ∨ k.unicodeChar = carriageReturn then cellBytes maxLength.toNat
    else if k.unicodeChar = backspace then
      cellBytes inputLength.toNat ++
        loopWrites maxLength ks (if 0 < inputLength then inputLength - 1 else inputLength)
    else if isPrintable k.unicodeChar && decide (inputLength < maxLength) then
      cellBytes inputLength.toNat ++ loopWrites maxLength ks (inputLength + 1)
    else loopWrites maxLength ks inputLength

/-- The bytes of InputBuffer that ReadChar16KeyboardInput writes: SetMem and the loop. -/
def keyboardWrites (maxLength : UInt8) (typed : Typed) : List Nat :=
  if typed.reset.isError then []
  else List.range (sizeOfChar16 * (maxLength.toNat + 1)) ++ loopWrites maxLength typed.keys 0

theorem mem_cellBytes {i j : Nat} : j ∈ cellBytes i ↔ j / 2 = i := by
  simp [cellBytes, sizeOfChar16]
  omega

/-- The cell's first byte is one of its own. -/
theorem ne_of_not_mem_cellBytes {i j : Nat} (h : sizeOfChar16 * i ∉ cellBytes j) : i ≠ j := by
  rintro rfl
  apply h
  simp [cellBytes]

/-- A cell that is not written keeps its character. -/
theorem readCells_unwritten {maxLength : UInt8} {ks : List Keystroke} {inputBuffer inputBuffer' : Nat → Char16}
    {inputLength resultingBufferLength : UInt8}
    (h : readCells maxLength ks inputBuffer inputLength = .line inputBuffer' resultingBufferLength) {i : Nat}
    (hi : sizeOfChar16 * i ∉ loopWrites maxLength ks inputLength) : inputBuffer' i = inputBuffer i := by
  induction ks generalizing inputBuffer inputLength with
  | nil => cases h
  | cons k ks ih =>
    rcases readCells_turn h with ⟨hwait, hnot, hrest⟩ | ⟨hpressed, hend, rfl, -⟩ | ⟨hpressed, hend, hrest⟩
    · simp only [loopWrites, hwait, hnot, Bool.false_eq_true, if_false, if_true] at hi
      exact ih hrest hi
    · obtain ⟨hready, hnofault⟩ := hpressed.ready
      obtain ⟨hwait, hread, hreset⟩ := hpressed
      simp only [loopWrites, hwait, hready, hnofault, hread, hreset, hend, Bool.false_eq_true, if_false, if_true] at hi
      exact update_of_ne (ne_of_not_mem_cellBytes hi) _ _
    · obtain ⟨hready, hnofault⟩ := hpressed.ready
      obtain ⟨hwait, hread, hreset⟩ := hpressed
      simp only [loopWrites, hwait, hready, hnofault, hread, hreset, hend, Bool.false_eq_true, if_false] at hi
      split at hrest
      · rename_i hbs
        rw [if_pos hbs, List.mem_append, not_or] at hi
        rw [ih hrest hi.2]
        exact update_of_ne (ne_of_not_mem_cellBytes hi.1) _ _
      rename_i hbs
      rw [if_neg hbs] at hi
      split at hrest
      · rename_i hput
        rw [if_pos hput, List.mem_append, not_or] at hi
        rw [ih hrest hi.2]
        exact update_of_ne (ne_of_not_mem_cellBytes hi.1) _ _
      · rename_i hput
        rw [if_neg hput] at hi
        exact ih hrest hi

theorem cellBytes_lt {i n : Nat} (h : i ≤ n) : ∀ j ∈ cellBytes i, j < sizeOfChar16 * (n + 1) := by
  intro j hj
  have hcell := mem_cellBytes.mp hj
  show j < 2 * (n + 1)
  omega

/-- By induction on the keystrokes: with InputLength at most MaxLength, what is typed stays within the cells
    that were cleared. -/
theorem loopWrites_lt {maxLength : UInt8} (ks : List Keystroke) {inputLength : UInt8} (hle : inputLength ≤ maxLength) :
    ∀ j ∈ loopWrites maxLength ks inputLength, j < sizeOfChar16 * (maxLength.toNat + 1) := by
  induction ks generalizing inputLength with
  | nil => simp [loopWrites]
  | cons k ks ih =>
    intro j hj
    simp only [loopWrites] at hj
    split at hj
    · cases hj
    split at hj
    · exact ih hle j hj
    split at hj
    · cases hj
    split at hj
    · cases hj
    split at hj
    · cases hj
    split at hj
    · exact cellBytes_lt (Nat.le_refl _) j hj
    split at hj
    · rcases List.mem_append.mp hj with hcell | hrest
      · exact cellBytes_lt hle j hcell
      · exact ih (pred_le hle) j hrest
    split at hj
    · rename_i hput
      have hlt : inputLength < maxLength := of_decide_eq_true (Bool.and_eq_true_iff.mp hput).2
      rcases List.mem_append.mp hj with hcell | hrest
      · exact cellBytes_lt hle j hcell
      · exact ih (succ_le hlt) j hrest
    · exact ih hle j hj

/-- A call stays within an array of `capacity` bytes exactly when it never gets to the array or the array has
    room for MaxLength characters and a terminator. -/
theorem keyboardWrites_fit_iff (maxLength : UInt8) (typed : Typed) (capacity : Nat) :
    (∀ j ∈ keyboardWrites maxLength typed, j < capacity) ↔
      typed.reset.isError = true ∨ sizeOfChar16 * (maxLength.toNat + 1) ≤ capacity := by
  unfold keyboardWrites
  split
  · rename_i hreset
    simp [hreset]
  · rename_i hreset
    constructor
    · intro h
      have hlast : sizeOfChar16 * (maxLength.toNat + 1) - 1 < capacity := by
        apply h
        apply List.mem_append_left
        rw [List.mem_range]
        simp only [sizeOfChar16]
        omega
      simp only [sizeOfChar16] at hlast ⊢
      omega
    · rintro (hfails | hroom) j hj
      · exact absurd hfails hreset
      · apply Nat.lt_of_lt_of_le ?_ hroom
        rcases List.mem_append.mp hj with hclear | hloop
        · exact List.mem_range.mp hclear
        · exact loopWrites_lt typed.keys UInt8.zero_le j hloop

/-! ## The call sites -/

/-- What GetPassword's calls write into Password, and its own ZeroMem before each. -/
def getPasswordWrites : List Typed → List Nat
  | [] => List.range ((mftahMaxPwLen.toNat + 1) * sizeOfChar16)
  | typed :: lines =>
    List.range ((mftahMaxPwLen.toNat + 1) * sizeOfChar16) ++ keyboardWrites mftahMaxPwLen typed ++
      match readChar16KeyboardInput mftahMaxPwLen typed with
      | .line _ passwordLength => if passwordLength = 0 then getPasswordWrites lines else []
      | _ => []

/-- What the calls of SelectPayload's loop write into SelectedPayloadName. -/
def selectLoopWrites (S : EfiStrings) (vol : Volume) (payloadHandles : List Handle) : List Typed → Choice → List Nat
  | [], _ => []
  | typed :: lines, c =>
    if c.isValidSelection then []
    else
      keyboardWrites mftahMaxFilenameLength typed ++
        match selectRound S vol payloadHandles typed c with
        | .returned c' => selectLoopWrites S vol payloadHandles lines c'
        | _ => []

/-- A call site, with what the loop around it works on and what is typed. -/
inductive CallSite where
  | getPassword (lines : List Typed)
  | selectPayload (S : EfiStrings) (vol : Volume) (payloadHandles : List Handle) (operatingPayload : OperatingPayload)
      (payloadFileHandle : Option Handle) (lines : List Typed)
  | confirm (typed : Typed)

/-- The bytes of the array that the caller declares. -/
def CallSite.capacity : CallSite → Nat
  | getPassword _ => mftahMaxPwLen.toNat * sizeOfChar16 + 1
  | selectPayload .. => mftahMaxFilenameLength.toNat + 1
  | confirm _ => 2 * sizeOfChar16

/-- The bytes of it that are written. -/
def CallSite.writes : CallSite → List Nat
  | getPassword lines => getPasswordWrites lines
  | selectPayload S vol payloadHandles operatingPayload payloadFileHandle lines =>
    selectLoopWrites S vol payloadHandles lines ⟨false, payloadFileHandle, operatingPayload.name⟩
  | confirm typed => keyboardWrites 1 typed

/-- The site stays within its array: Confirm always, and SelectPayload where the Reset in its first call fails. -/
def CallSite.Fits : CallSite → Prop
  | getPassword _ => False
  | selectPayload _ _ _ _ _ lines => ∀ typed ∈ lines.head?, typed.reset.isError = true
  | confirm _ => True

/-- GetPassword's ZeroMem alone writes a byte behind the array. -/
theorem last_mem_getPasswordWrites (lines : List Typed) : 65 ∈ getPasswordWrites lines := by
  cases lines with
  | nil => decide
  | cons typed lines =>
    apply List.mem_append_left
    apply List.mem_append_left
    decide

/-- The loop of SelectPayload ends in the round in which the Reset fails. -/
theorem selectLoopWrites_reset {S : EfiStrings} {vol : Volume} {payloadHandles : List Handle} {typed : Typed}
    (h : typed.reset.isError = true) (lines : List Typed) (c : Choice) :
    selectLoopWrites S vol payloadHandles (typed :: lines) c = [] := by
  have hread : readChar16KeyboardInput mftahMaxFilenameLength typed = .failed typed.reset := by
    simp [readChar16KeyboardInput, h]
  simp [selectLoopWrites, selectRound, hread, keyboardWrites, h]

theorem writes_fit_iff (site : CallSite) : (∀ j ∈ site.writes, j < site.capacity) ↔ site.Fits := by
  cases site with
  | getPassword lines =>
    refine ⟨fun h => ?_, False.elim⟩
    exact Nat.lt_irrefl 65 (h 65 (last_mem_getPasswordWrites lines))
  | selectPayload S vol payloadHandles operatingPayload payloadFileHandle lines =>
    cases lines with
    | nil => simp [CallSite.writes, CallSite.Fits, selectLoopWrites]
    | cons typed lines =>
      have hcall := keyboardWrites_fit_iff mftahMaxFilenameLength typed (mftahMaxFilenameLength.toNat + 1)
      constructor
      · intro h first hfirst
        cases hfirst
        have hfits := hcall.mp fun j hj => h j (List.mem_append_left _ hj)
        exact hfits.resolve_right (by decide)
      · intro h j hj
        have hreset : typed.reset.isError = true := h typed rfl
        rw [CallSite.writes, selectLoopWrites_reset hreset] at hj
        cases hj
  | confirm typed =>
    have hcall := keyboardWrites_fit_iff 1 typed (2 * sizeOfChar16)
    exact ⟨fun _ => trivial, fun _ => hcall.mpr (.inr (by decide))⟩

/-- Enter alone, at the password prompt. -/
theorem password_cleared_beyond :
    ¬ ∀ j ∈ (CallSite.getPassword [entered []]).writes, j < (CallSite.getPassword [entered []]).capacity := by
  intro h
  exact Nat.lt_irrefl 65 (h 65 (last_mem_getPasswordWrites _))

end Crows.Boot.InputBounds
