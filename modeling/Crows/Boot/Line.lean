/-
  Crows.Boot.Line — the password line: what ordinary line editing makes of the keys, and
  what GetPassword leaves in the Password array.

  `readCells` is the loop of `readKeys` with the cells of the buffer kept as they are:
  the string in them may have a deleted character behind the line, and the length does
  not count it. `editedLine` is what an editor makes of the same keys: a backspace takes
  the last character away, and what does not fit is not put in.

  Proved, for all keystrokes:
  - `readKeys_eq_readCells`: the string that `readKeys` reads is the one in the cells.
  - `readCells_turn`: what one turn of a call that ends with a line does.
  - `readChar16Cells_editedLine`: as many cells as the length counts hold the edited line.
  - `getPassword_eq_passwordCells`: GetPassword of `Crows.Boot.Menu`, with the cells kept.
  - `getPasswordCells_line`: a password it returns with is the first line of the round that
    is not empty when edited.
-/

import Crows.Boot.Menu

namespace Crows.Boot.Line

open Crows.Lib
open Crows.Boot.Input
open Crows.Boot.Select
open Crows.Boot.Menu
open Function (update update_self update_of_ne)

/-! ## The cells of the buffer -/

inductive CellsRead where
  | line (inputBuffer : Nat → Char16) (resultingBufferLength : UInt8)
  | failed (status : EfiStatus)
  | panicked
  | waiting

/-- The loop of ReadChar16KeyboardInput. -/
def readCells (maxLength : UInt8) : List Keystroke → (Nat → Char16) → UInt8 → CellsRead
  | [], _, _ => .waiting
  | k :: ks, inputBuffer, inputLength =>
    if k.waitForEvent.isError then .failed k.waitForEvent
    else if k.readKeyStroke = .notReady then readCells maxLength ks inputBuffer inputLength
    else if k.readKeyStroke = .deviceError ∨ k.readKeyStroke = .unsupported then .panicked
    else if k.readKeyStroke.isError then .failed k.readKeyStroke
    else if k.reset.isError then .failed k.reset
    else if k.unicodeChar = lineFeed ∨ k.unicodeChar = carriageReturn then
      .line (update inputBuffer maxLength.toNat 0) (inputLength * 2)
    else if k.unicodeChar = backspace then
      readCells maxLength ks (update inputBuffer inputLength.toNat 0)
        (if 0 < inputLength then inputLength - 1 else inputLength)
    else if isPrintable k.unicodeChar && decide (inputLength < maxLength) then
      readCells maxLength ks (update inputBuffer inputLength.toNat k.unicodeChar) (inputLength + 1)
    else readCells maxLength ks inputBuffer inputLength

/-- The string in the cells. -/
def CellsRead.string (maxLength : UInt8) : CellsRead → LineRead
  | .line inputBuffer resultingBufferLength =>
    .line (NulString.ofBuffer inputBuffer (maxLength.toNat + 1)) resultingBufferLength
  | .failed status => .failed status
  | .panicked => .panicked
  | .waiting => .waiting

theorem readKeys_eq_readCells (maxLength : UInt8) (ks : List Keystroke) (inputBuffer : Nat → Char16)
    (inputLength : UInt8) :
    readKeys maxLength ks inputBuffer inputLength =
      (readCells maxLength ks inputBuffer inputLength).string maxLength := by
  induction ks generalizing inputBuffer inputLength with
  | nil => rfl
  | cons k ks ih =>
    simp only [readKeys, readCells]
    repeat' split
    all_goals first
      | rfl
      | exact ih _ _

/-! ## Ordinary line editing -/

/-- What a key does to a line with room for `room` characters. -/
def edit (room : Nat) (line : List Char16) (c : Char16) : List Char16 :=
  if c = backspace then line.dropLast
  else if isPrintable c && decide (line.length < room) then line ++ [c]
  else line

/-- The key, where one is ready. -/
def keyOf (k : Keystroke) : Option Char16 := if k.readKeyStroke = .notReady then none else some k.unicodeChar

def endsLine (c : Char16) : Bool := decide (c = lineFeed ∨ c = carriageReturn)

/-- The keys that are pressed, up to the end of the line. -/
def keysOf (ks : List Keystroke) : List Char16 := (ks.filterMap keyOf).takeWhile fun c => !endsLine c

/-- The line that the keys make in an editor. -/
def editedLine (room : Nat) (ks : List Keystroke) : List Char16 := (keysOf ks).foldl (edit room) []

theorem keysOf_notReady {k : Keystroke} (h : k.readKeyStroke = .notReady) (ks : List Keystroke) :
    keysOf (k :: ks) = keysOf ks := by
  simp [keysOf, keyOf, h]

theorem keysOf_end {k : Keystroke} (h : k.readKeyStroke ≠ .notReady)
    (hend : k.unicodeChar = lineFeed ∨ k.unicodeChar = carriageReturn) (ks : List Keystroke) :
    keysOf (k :: ks) = [] := by
  have hends : endsLine k.unicodeChar = true := decide_eq_true hend
  simp [keysOf, keyOf, h, hends]

theorem keysOf_key {k : Keystroke} (h : k.readKeyStroke ≠ .notReady)
    (hend : ¬ (k.unicodeChar = lineFeed ∨ k.unicodeChar = carriageReturn)) (ks : List Keystroke) :
    keysOf (k :: ks) = k.unicodeChar :: keysOf ks := by
  have hends : endsLine k.unicodeChar = false := decide_eq_false hend
  simp [keysOf, keyOf, h, hends]

theorem edit_length_le {room : Nat} {line : List Char16} (h : line.length ≤ room) (c : Char16) :
    (edit room line c).length ≤ room := by
  unfold edit
  split
  · simp; omega
  · split
    · simp_all
    · exact h

theorem edit_printable {room : Nat} {line : List Char16} (h : ∀ d ∈ line, isPrintable d = true) (c : Char16) :
    ∀ d ∈ edit room line c, isPrintable d = true := by
  unfold edit
  split
  · exact fun d hd => h d (List.mem_of_mem_dropLast hd)
  · split
    · simp_all [or_imp]
    · exact h

/-- An edited line fits and is printable. -/
theorem edited_spec (room : Nat) (keys : List Char16) :
    (keys.foldl (edit room) []).length ≤ room ∧ ∀ c ∈ keys.foldl (edit room) [], isPrintable c = true := by
  have hfold : ∀ (keys : List Char16) (line : List Char16), line.length ≤ room →
      (∀ c ∈ line, isPrintable c = true) →
      (keys.foldl (edit room) line).length ≤ room ∧ ∀ c ∈ keys.foldl (edit room) line, isPrintable c = true := by
    intro keys
    induction keys with
    | nil => exact fun line hlen hprint => ⟨hlen, hprint⟩
    | cons c keys ih => exact fun line hlen hprint => ih _ (edit_length_le hlen c) (edit_printable hprint c)
  exact hfold keys [] (Nat.zero_le _) (by simp)

theorem editedLine_spec (room : Nat) (ks : List Keystroke) :
    (editedLine room ks).length ≤ room ∧ ∀ c ∈ editedLine room ks, isPrintable c = true :=
  edited_spec room (keysOf ks)

/-! ## The cells hold the edited line -/

/-- The characters in the first cells, as many as the length counts. -/
def held (inputBuffer : Nat → Char16) (inputLength : UInt8) : List Char16 :=
  (List.range inputLength.toNat).map inputBuffer

@[simp] theorem held_length (inputBuffer : Nat → Char16) (inputLength : UInt8) :
    (held inputBuffer inputLength).length = inputLength.toNat := by
  simp [held]

/-- A cell behind the line is not part of it. -/
theorem held_update {inputLength : UInt8} {i : Nat} (h : inputLength.toNat ≤ i) (inputBuffer : Nat → Char16)
    (c : Char16) : held (update inputBuffer i c) inputLength = held inputBuffer inputLength := by
  apply List.map_congr_left
  intro j hj
  have hlt := List.mem_range.mp hj
  exact update_of_ne (by omega) _ _

theorem pred_toNat {inputLength : UInt8} (h : 0 < inputLength) : (inputLength - 1).toNat = inputLength.toNat - 1 := by
  rw [UInt8.toNat_sub_of_le]
  · rfl
  · exact h

theorem succ_toNat {inputLength maxLength : UInt8} (h : inputLength < maxLength) :
    (inputLength + 1).toNat = inputLength.toNat + 1 := by
  have hlt : inputLength.toNat < maxLength.toNat := h
  have hbound := maxLength.toNat_lt
  rw [UInt8.toNat_add]
  simp
  omega

/-- A backspace clears the cell behind the line and drops the last character from the count. -/
theorem held_backspace {inputLength : UInt8} (inputBuffer : Nat → Char16) :
    held (update inputBuffer inputLength.toNat 0) (if 0 < inputLength then inputLength - 1 else inputLength) =
      (held inputBuffer inputLength).dropLast := by
  by_cases hpos : 0 < inputLength
  · have hnat : 0 < inputLength.toNat := hpos
    have hpred := pred_toNat hpos
    rw [if_pos hpos, held_update (by omega)]
    obtain ⟨n, hn⟩ := Nat.exists_eq_succ_of_ne_zero (Nat.pos_iff_ne_zero.mp hnat)
    simp [held, hpred, hn, List.range_succ]
  · have hzero : inputLength.toNat = 0 := Nat.eq_zero_of_not_pos hpos
    rw [if_neg hpos]
    simp [held, hzero]

theorem held_snoc {inputLength maxLength : UInt8} (h : inputLength < maxLength) (inputBuffer : Nat → Char16)
    (c : Char16) :
    held (update inputBuffer inputLength.toNat c) (inputLength + 1) = held inputBuffer inputLength ++ [c] := by
  have hsucc := succ_toNat h
  have hbefore := held_update (Nat.le_refl inputLength.toNat) inputBuffer c
  simp only [held] at hbefore ⊢
  rw [hsucc, List.range_succ, List.map_append, hbefore]
  simp

theorem pred_le {inputLength maxLength : UInt8} (h : inputLength ≤ maxLength) :
    (if 0 < inputLength then inputLength - 1 else inputLength) ≤ maxLength := by
  split
  · rename_i hpos
    have hle : inputLength.toNat ≤ maxLength.toNat := h
    rw [UInt8.le_iff_toNat_le, pred_toNat hpos]
    omega
  · exact h

theorem succ_le {inputLength maxLength : UInt8} (h : inputLength < maxLength) : inputLength + 1 ≤ maxLength := by
  rw [UInt8.le_iff_toNat_le, succ_toNat h]
  exact h

/-- What the loop does with a key that does not end the line: the line in the cells is edited. -/
theorem held_key {maxLength : UInt8} (inputBuffer : Nat → Char16) {inputLength : UInt8}
    (hle : inputLength ≤ maxLength) (c : Char16) (ks : List Keystroke) :
    ∃ inputBuffer' inputLength', inputLength' ≤ maxLength ∧
      held inputBuffer' inputLength' = edit maxLength.toNat (held inputBuffer inputLength) c ∧
      (if c = backspace then
          readCells maxLength ks (update inputBuffer inputLength.toNat 0)
            (if 0 < inputLength then inputLength - 1 else inputLength)
        else if isPrintable c && decide (inputLength < maxLength) then
          readCells maxLength ks (update inputBuffer inputLength.toNat c) (inputLength + 1)
        else readCells maxLength ks inputBuffer inputLength) =
        readCells maxLength ks inputBuffer' inputLength' := by
  by_cases hbackspace : c = backspace
  · refine ⟨_, _, pred_le hle, ?_, if_pos hbackspace⟩
    rw [held_backspace, edit, if_pos hbackspace]
  · rw [if_neg hbackspace]
    by_cases hput : (isPrintable c && decide (inputLength < maxLength)) = true
    · obtain ⟨hprint, hroom⟩ := Bool.and_eq_true_iff.mp hput
      have hlt : inputLength < maxLength := of_decide_eq_true hroom
      have hnat : inputLength.toNat < maxLength.toNat := hlt
      refine ⟨_, _, succ_le hlt, ?_, if_pos hput⟩
      rw [held_snoc hlt]
      simp [edit, hbackspace, hprint, hnat]
    · refine ⟨_, _, hle, ?_, if_neg hput⟩
      have hfull : ¬ (isPrintable c && decide ((held inputBuffer inputLength).length < maxLength.toNat)) = true := by
        rw [held_length]
        exact hput
      rw [edit, if_neg hbackspace, if_neg hfull]

/-- What a turn of a call that ends with a line does: nothing, where no key is ready, or it ends the line, or it
    goes on with the key. -/
theorem readCells_turn {maxLength : UInt8} {k : Keystroke} {ks : List Keystroke}
    {inputBuffer inputBuffer' : Nat → Char16}
    {inputLength resultingBufferLength : UInt8}
    (h : readCells maxLength (k :: ks) inputBuffer inputLength = .line inputBuffer' resultingBufferLength) :
    (k.waitForEvent.isError = false ∧ k.readKeyStroke = .notReady ∧
      readCells maxLength ks inputBuffer inputLength = .line inputBuffer' resultingBufferLength) ∨
    (k.Pressed ∧ (k.unicodeChar = lineFeed ∨ k.unicodeChar = carriageReturn) ∧
      inputBuffer' = update inputBuffer maxLength.toNat 0 ∧ resultingBufferLength = inputLength * 2) ∨
    (k.Pressed ∧ ¬ (k.unicodeChar = lineFeed ∨ k.unicodeChar = carriageReturn) ∧
      (if k.unicodeChar = backspace then
          readCells maxLength ks (update inputBuffer inputLength.toNat 0)
            (if 0 < inputLength then inputLength - 1 else inputLength)
        else if isPrintable k.unicodeChar && decide (inputLength < maxLength) then
          readCells maxLength ks (update inputBuffer inputLength.toNat k.unicodeChar) (inputLength + 1)
        else readCells maxLength ks inputBuffer inputLength) = .line inputBuffer' resultingBufferLength) := by
  simp only [readCells] at h
  split at h
  · cases h
  rename_i hwait
  split at h
  · rename_i hnot
    exact .inl ⟨Bool.eq_false_of_not_eq_true hwait, hnot, h⟩
  split at h
  · cases h
  split at h
  · cases h
  rename_i hread
  split at h
  · cases h
  rename_i hreset
  have hpressed : k.Pressed :=
    ⟨Bool.eq_false_of_not_eq_true hwait, Bool.eq_false_of_not_eq_true hread, Bool.eq_false_of_not_eq_true hreset⟩
  split at h
  · rename_i hend
    cases h
    exact .inr (.inl ⟨hpressed, hend, rfl, rfl⟩)
  · rename_i hend
    exact .inr (.inr ⟨hpressed, hend, h⟩)

/-- By induction on the keystrokes: the line in the cells is edited key by key. -/
theorem readCells_held {maxLength : UInt8} {ks : List Keystroke} {inputBuffer inputBuffer' : Nat → Char16}
    {inputLength resultingBufferLength : UInt8} (hle : inputLength ≤ maxLength)
    (h : readCells maxLength ks inputBuffer inputLength = .line inputBuffer' resultingBufferLength) :
    ∃ inputLength', inputLength' ≤ maxLength ∧ resultingBufferLength = inputLength' * 2 ∧
      held inputBuffer' inputLength' = (keysOf ks).foldl (edit maxLength.toNat) (held inputBuffer inputLength) := by
  induction ks generalizing inputBuffer inputLength with
  | nil => cases h
  | cons k ks ih =>
    rcases readCells_turn h with ⟨-, hnot, hrest⟩ | ⟨hpressed, hend, rfl, rfl⟩ | ⟨hpressed, hend, hrest⟩
    · rw [keysOf_notReady hnot]
      exact ih hle hrest
    · rw [keysOf_end hpressed.ready.1 hend]
      exact ⟨inputLength, hle, rfl, held_update hle inputBuffer 0⟩
    · obtain ⟨inputBuffer₁, inputLength₁, hle₁, hedit, hkey⟩ := held_key inputBuffer hle k.unicodeChar ks
      rw [hkey] at hrest
      rw [keysOf_key hpressed.ready.1 hend, List.foldl_cons, ← hedit]
      exact ih hle₁ hrest

/-! ## GetPassword -/

def readChar16Cells (maxLength : UInt8) (typed : Typed) : CellsRead :=
  if typed.reset.isError then .failed typed.reset
  else readCells maxLength typed.keys (fun _ => 0) 0

theorem readChar16KeyboardInput_eq_cells (maxLength : UInt8) (typed : Typed) :
    readChar16KeyboardInput maxLength typed = (readChar16Cells maxLength typed).string maxLength := by
  unfold readChar16KeyboardInput readChar16Cells
  split
  · rfl
  · exact readKeys_eq_readCells _ _ _ _

structure PasswordRead where
  status : EfiStatus
  password : Nat → Char16
  /-- `*PassLen`, where it is set. -/
  passLen : Option UInt8

def passwordString (password : Nat → Char16) : Str16 := NulString.ofBuffer password (mftahMaxPwLen.toNat + 1)

/-- GetPassword, with the Password array as it leaves it. -/
def getPasswordCells (S : EfiStrings) (operatingPayload : OperatingPayload) : List Typed → Outcome PasswordRead
  | [] => .waiting
  | typed :: lines =>
    match readChar16Cells mftahMaxPwLen typed with
    | .waiting => .waiting
    | .panicked => .panicked
    | .failed _ => .panicked
    | .line password passwordLength =>
      if passwordLength = 0 then getPasswordCells S operatingPayload lines
      else if S.strnCmp (passwordString password) quit (2 * 2) = 0 then .shutDown
      else if operatingPayload.fromMultiSelect && decide (S.strnCmp (passwordString password) back (2 * 2) = 0) then
        .returned ⟨.menuGoBack, password, none⟩
      else .returned ⟨.success, password, some passwordLength⟩

/-- What `Menu.getPassword` gives back of it. -/
def PasswordRead.answer (r : PasswordRead) : EfiStatus × Option (Str16 × UInt8) :=
  (r.status, r.passLen.map fun passLen => (passwordString r.password, passLen))

theorem getPassword_eq_passwordCells (S : EfiStrings) (operatingPayload : OperatingPayload) (lines : List Typed) :
    getPassword S operatingPayload lines =
      (getPasswordCells S operatingPayload lines).bind fun r => .returned r.answer := by
  induction lines with
  | nil => rfl
  | cons typed lines ih =>
    have hread := readChar16KeyboardInput_eq_cells mftahMaxPwLen typed
    simp only [getPassword, getPasswordCells, hread]
    cases readChar16Cells mftahMaxPwLen typed with
    | line password passwordLength =>
      simp only [CellsRead.string]
      split
      · exact ih
      · show (if S.strnCmp (passwordString password) quit (2 * 2) = 0 then _ else _) = _
        split
        · rfl
        · show (if _ && decide (S.strnCmp (passwordString password) back (2 * 2) = 0) then _ else _) = _
          split
          · rfl
          · rfl
    | failed status => rfl
    | panicked => rfl
    | waiting => rfl

/-- The first line of a round that is not empty. -/
def roundLine (lines : List Typed) : Option (List Char16) :=
  (lines.map fun typed => editedLine mftahMaxPwLen.toNat typed.keys).find? fun line => !line.isEmpty

theorem roundLine_spec {lines : List Typed} {line : List Char16} (h : roundLine lines = some line) :
    line ≠ [] ∧ ∀ c ∈ line, isPrintable c = true := by
  have hne := List.find?_some h
  obtain ⟨typed, -, rfl⟩ := List.mem_map.mp (List.mem_of_find?_eq_some h)
  refine ⟨?_, (editedLine_spec _ typed.keys).2⟩
  rintro hnil
  simp [hnil] at hne

/-- One call of ReadChar16KeyboardInput reads the edited line. -/
theorem readChar16Cells_editedLine {maxLength : UInt8} {typed : Typed} {password : Nat → Char16}
    {passwordLength : UInt8} (h : readChar16Cells maxLength typed = .line password passwordLength) :
    ∃ inputLength ≤ maxLength, passwordLength = inputLength * 2 ∧
      held password inputLength = editedLine maxLength.toNat typed.keys := by
  unfold readChar16Cells at h
  split at h
  · cases h
  · exact readCells_held UInt8.zero_le h

/-- An empty line is read again. -/
theorem roundLine_cons_nil {typed : Typed} {lines : List Typed} (h : editedLine mftahMaxPwLen.toNat typed.keys = []) :
    roundLine (typed :: lines) = roundLine lines := by
  simp [roundLine, h]

theorem roundLine_cons {typed : Typed} {lines : List Typed} {line : List Char16} (hne : line ≠ [])
    (h : line = editedLine mftahMaxPwLen.toNat typed.keys) : roundLine (typed :: lines) = some line := by
  simp [roundLine, ← h, hne]

/-- The length in bytes does not wrap. -/
theorem byteLength_eq_zero {inputLength : UInt8} (hle : inputLength ≤ mftahMaxPwLen) :
    inputLength * 2 = 0 ↔ inputLength.toNat = 0 := by
  have hnat : inputLength.toNat ≤ 32 := hle
  rw [← UInt8.toNat_inj, UInt8.toNat_mul]
  simp
  omega

theorem getPasswordCells_line {S : EfiStrings} {operatingPayload : OperatingPayload} {lines : List Typed}
    {r : PasswordRead} (h : getPasswordCells S operatingPayload lines = .returned r) :
    (r.status = .menuGoBack ∧ r.passLen = none) ∨
    (r.status = .success ∧ ∃ inputLength ≤ mftahMaxPwLen, r.passLen = some (inputLength * 2) ∧
      0 < inputLength.toNat ∧ roundLine lines = some (held r.password inputLength)) := by
  induction lines with
  | nil => cases h
  | cons typed lines ih =>
    simp only [getPasswordCells] at h
    split at h
    · cases h
    · cases h
    · cases h
    rename_i password passwordLength hread
    obtain ⟨inputLength, hle, hlength, hline⟩ := readChar16Cells_editedLine hread
    have hzero := byteLength_eq_zero hle
    rw [← hlength] at hzero
    split at h
    · rename_i hempty
      have hnil : held password inputLength = [] := by
        rw [← List.length_eq_zero_iff, held_length]
        exact hzero.mp hempty
      rw [roundLine_cons_nil (hline ▸ hnil)]
      exact ih h
    rename_i hnonempty
    split at h
    · cases h
    split at h
    · cases h
      exact .inl ⟨rfl, rfl⟩
    · cases h
      have hpos : 0 < inputLength.toNat := Nat.pos_of_ne_zero fun h0 => hnonempty (hzero.mpr h0)
      have hne : held password inputLength ≠ [] := by
        rw [← List.length_pos_iff_ne_nil, held_length]
        exact hpos
      exact .inr ⟨rfl, inputLength, hle, by rw [hlength], hpos, roundLine_cons hne hline⟩

end Crows.Boot.Line
