/-
  Crows.Boot.LineString — the string and the length that one call of
  ReadChar16KeyboardInput gives back, and whether they are the same line.

  The length always counts the edited line. The string ends where the first cell is clear,
  and a backspace clears the cell behind the line and then steps back: the character it
  takes from the length is still in the buffer. Another backspace clears it, or the next
  character is put over it; at the end of the line nothing does.

  Proved, for every MaxLength up to 127 and every line that is ended:
  - `Cells.inv`: the cells behind the line are clear, but for the first one after a key
    that erased.
  - `readChar16KeyboardInput_ended`: the string and the length that are given back.
  - `reads_line_iff`: the string is the edited line and the length is its length exactly
    when the last key that edits is not a backspace that erases.
-/
import Crows.Boot.Line

namespace Crows.Boot.LineString

open Crows.Lib
open Crows.Boot.Input
open Crows.Boot.Line
open Function (update update_self update_of_ne)

/-! ## The cells after some keys -/

/-- InputBuffer and InputLength. -/
structure Cells where
  inputBuffer : Nat → Char16
  inputLength : UInt8

def Cells.cleared : Cells := ⟨fun _ => 0, 0⟩

/-- What the loop does with a key that does not end the line. -/
def Cells.key (maxLength : UInt8) (b : Cells) (c : Char16) : Cells :=
  if c = backspace then
    ⟨update b.inputBuffer b.inputLength.toNat 0,
      if 0 < b.inputLength then b.inputLength - 1 else b.inputLength⟩
  else if isPrintable c && decide (b.inputLength < maxLength) then
    ⟨update b.inputBuffer b.inputLength.toNat c, b.inputLength + 1⟩
  else b

/-- The cells after the keys of a line. -/
def Cells.typed (maxLength : UInt8) (keys : List Char16) : Cells := keys.foldl (Cells.key maxLength) Cells.cleared

/-- The firmware answers: no key is ready, or there is one. -/
def Keystroke.Answered (k : Keystroke) : Prop :=
  (k.waitForEvent.isError = false ∧ k.readKeyStroke = .notReady) ∨ k.Pressed

/-- The keystrokes of a call that end in Enter. -/
def EndsInEnter (typed : Typed) : Prop :=
  typed.reset.isError = false ∧
    ∃ ks k rest, typed.keys = ks ++ k :: rest ∧ (∀ k' ∈ ks, Keystroke.Answered k') ∧ k.Ends

section Run

variable (maxLength : UInt8)

theorem readCells_notReady {k : Keystroke} (hwait : k.waitForEvent.isError = false)
    (hread : k.readKeyStroke = .notReady) (ks : List Keystroke) (b : Cells) :
    readCells maxLength (k :: ks) b.inputBuffer b.inputLength = readCells maxLength ks b.inputBuffer b.inputLength := by
  simp [readCells, hwait, hread]

theorem readCells_end {k : Keystroke} (hk : k.Pressed)
    (hend : k.unicodeChar = lineFeed ∨ k.unicodeChar = carriageReturn) (ks : List Keystroke) (b : Cells) :
    readCells maxLength (k :: ks) b.inputBuffer b.inputLength =
      .line (update b.inputBuffer maxLength.toNat 0) (b.inputLength * 2) := by
  obtain ⟨hready, hnofault⟩ := hk.ready
  obtain ⟨hwait, hread, hreset⟩ := hk
  simp [readCells, hwait, hready, hnofault, hread, hreset, hend]

theorem readCells_key {k : Keystroke} (hk : k.Pressed)
    (hend : ¬ (k.unicodeChar = lineFeed ∨ k.unicodeChar = carriageReturn)) (ks : List Keystroke) (b : Cells) :
    readCells maxLength (k :: ks) b.inputBuffer b.inputLength =
      readCells maxLength ks (b.key maxLength k.unicodeChar).inputBuffer (b.key maxLength k.unicodeChar).inputLength := by
  obtain ⟨hready, hnofault⟩ := hk.ready
  obtain ⟨hwait, hread, hreset⟩ := hk
  simp only [readCells, hwait, hready, hnofault, hread, hreset, hend, Bool.false_eq_true, if_false]
  unfold Cells.key
  split
  · rfl
  · split
    · rfl
    · rfl

/-- By induction on the keystrokes before Enter: the call ends with the cells after the keys of its line. -/
theorem readCells_ended {ks : List Keystroke} (hks : ∀ k' ∈ ks, Keystroke.Answered k') {k : Keystroke} (hk : k.Ends)
    (rest : List Keystroke) (b : Cells) :
    readCells maxLength (ks ++ k :: rest) b.inputBuffer b.inputLength =
      .line (update ((keysOf (ks ++ k :: rest)).foldl (Cells.key maxLength) b).inputBuffer maxLength.toNat 0)
        (((keysOf (ks ++ k :: rest)).foldl (Cells.key maxLength) b).inputLength * 2) := by
  induction ks generalizing b with
  | nil =>
    obtain ⟨hpressed, hend⟩ := hk
    rw [List.nil_append, keysOf_end hpressed.ready.1 hend]
    exact readCells_end maxLength hpressed hend rest b
  | cons k' ks ih =>
    have hrest := ih fun k'' hmem => hks k'' (List.mem_cons_of_mem _ hmem)
    rw [List.cons_append]
    rcases hks k' List.mem_cons_self with ⟨hwait, hread⟩ | hpressed
    · rw [keysOf_notReady hread, readCells_notReady maxLength hwait hread]
      exact hrest b
    · by_cases hend : k'.unicodeChar = lineFeed ∨ k'.unicodeChar = carriageReturn
      · rw [keysOf_end hpressed.ready.1 hend]
        exact readCells_end maxLength hpressed hend _ b
      · rw [keysOf_key hpressed.ready.1 hend, readCells_key maxLength hpressed hend]
        exact hrest _

end Run

/-! ## The cells behind the line -/

/-- The key does something in an editor. -/
def isEditing (c : Char16) : Bool := decide (c = backspace) || isPrintable c

/-- The last key that edits is a backspace that takes a character from the line. -/
def ErasesLast (room : Nat) (keys : List Char16) : Prop :=
  (keys.filter isEditing).getLast? = some backspace ∧ (keys.filter isEditing).dropLast.foldl (edit room) [] ≠ []

/-- The cells after the keys `keys`. -/
structure Cells.Inv (maxLength : UInt8) (keys : List Char16) (b : Cells) : Prop where
  fits : b.inputLength ≤ maxLength
  line : held b.inputBuffer b.inputLength = keys.foldl (edit maxLength.toNat) []
  /-- The cell for the terminator is never used. -/
  last : b.inputBuffer maxLength.toNat = 0
  behind : ∀ i, b.inputLength.toNat < i → b.inputBuffer i = 0
  erased : b.inputBuffer b.inputLength.toNat ≠ 0 ↔ ErasesLast maxLength.toNat keys

/-- Keys that an editor ignores do not count. -/
theorem erasesLast_ignored {room : Nat} {keys : List Char16} {c : Char16} (hc : isEditing c = false) :
    ErasesLast room (keys ++ [c]) ↔ ErasesLast room keys := by
  simp [ErasesLast, hc]

theorem edit_ignored {room : Nat} {line : List Char16} {c : Char16} (hc : isEditing c = false) :
    edit room line c = line := by
  have hparts := Bool.or_eq_false_iff.mp hc
  simp [edit, hparts.2, of_decide_eq_false hparts.1]

theorem foldl_editing (room : Nat) (keys : List Char16) (line : List Char16) :
    (keys.filter isEditing).foldl (edit room) line = keys.foldl (edit room) line := by
  induction keys generalizing line with
  | nil => rfl
  | cons c keys ih =>
    by_cases hc : isEditing c = true
    · rw [List.filter_cons_of_pos hc, List.foldl_cons, List.foldl_cons]
      exact ih _
    · rw [List.filter_cons_of_neg hc, List.foldl_cons, edit_ignored (Bool.eq_false_of_not_eq_true hc)]
      exact ih _

theorem erasesLast_printable {room : Nat} {keys : List Char16} {c : Char16} (hbs : c ≠ backspace)
    (hc : isPrintable c = true) : ¬ ErasesLast room (keys ++ [c]) := by
  simp [ErasesLast, isEditing, hc, hbs]

/-- A backspace erases where there is something to erase. -/
theorem erasesLast_backspace (room : Nat) (keys : List Char16) :
    ErasesLast room (keys ++ [backspace]) ↔ keys.foldl (edit room) [] ≠ [] := by
  have hediting : isEditing backspace = true := rfl
  unfold ErasesLast
  rw [List.filter_append, List.filter_cons_of_pos hediting, List.filter_nil, List.getLast?_concat,
    List.dropLast_concat, foldl_editing]
  exact ⟨fun h => h.2, fun h => ⟨rfl, h⟩⟩

theorem printable_ne_nul {c : Char16} (h : isPrintable c = true) : c ≠ 0 := by
  rintro rfl
  exact absurd h (by decide)

theorem Cells.inv_cleared (maxLength : UInt8) : Cells.cleared.Inv maxLength [] where
  fits := UInt8.zero_le
  line := rfl
  last := rfl
  behind := fun _ _ => rfl
  erased := by simp [Cells.cleared, ErasesLast]

theorem mem_held {inputBuffer : Nat → Char16} {inputLength : UInt8} {i : Nat} (h : i < inputLength.toNat) :
    inputBuffer i ∈ held inputBuffer inputLength :=
  List.mem_map_of_mem (List.mem_range.mpr h)

/-- A backspace on an empty line clears the first cell. -/
theorem Cells.Inv.backspace_empty {maxLength : UInt8} {keys : List Char16} {b : Cells} (h : b.Inv maxLength keys)
    (hzero : ¬ 0 < b.inputLength) : (b.key maxLength backspace).Inv maxLength (keys ++ [backspace]) := by
  have hnat : b.inputLength.toNat = 0 := Nat.eq_zero_of_not_pos hzero
  have hline : keys.foldl (edit maxLength.toNat) [] = [] := by
    rw [← h.line, ← List.length_eq_zero_iff, held_length]
    exact hnat
  have hkey : b.key maxLength backspace = ⟨update b.inputBuffer 0 0, b.inputLength⟩ := by
    simp [Cells.key, hzero, hnat]
  rw [hkey]
  have hclear : ∀ i, b.inputBuffer i = 0 → update b.inputBuffer 0 0 i = 0 := by
    intro i hi
    by_cases h0 : i = 0
    · rw [h0, update_self]
    · rw [update_of_ne h0]
      exact hi
  refine ⟨h.fits, ?_, hclear _ h.last, fun i hi => hclear i (h.behind i hi), ?_⟩
  · rw [List.foldl_append, hline]
    exact List.length_eq_zero_iff.mp (by rw [held_length]; exact hnat)
  · rw [erasesLast_backspace, hline]
    simp [hnat]

/-- A backspace on a line leaves the erased character behind it. -/
theorem Cells.Inv.backspace_erases {maxLength : UInt8} {keys : List Char16} {b : Cells} (h : b.Inv maxLength keys)
    (hpos : 0 < b.inputLength) : (b.key maxLength backspace).Inv maxLength (keys ++ [backspace]) := by
  have hnat : 0 < b.inputLength.toNat := hpos
  have hpred := pred_toNat hpos
  have hkey : b.key maxLength backspace = ⟨update b.inputBuffer b.inputLength.toNat 0, b.inputLength - 1⟩ := by
    simp [Cells.key, hpos]
  have hbackspace : held (update b.inputBuffer b.inputLength.toNat 0) _ = (held b.inputBuffer b.inputLength).dropLast :=
    held_backspace b.inputBuffer
  have hfits := pred_le h.fits
  rw [if_pos hpos] at hbackspace hfits
  have hclear : ∀ i, b.inputLength.toNat ≤ i → update b.inputBuffer b.inputLength.toNat 0 i = 0 := by
    intro i hi
    by_cases hat : i = b.inputLength.toNat
    · rw [hat, update_self]
    · rw [update_of_ne hat]
      exact h.behind i (by omega)
  -- the character that is erased is one of the line's
  have herased : b.inputBuffer (b.inputLength.toNat - 1) ≠ 0 := by
    have hmem : b.inputBuffer (b.inputLength.toNat - 1) ∈ held b.inputBuffer b.inputLength :=
      mem_held (Nat.sub_lt hnat Nat.one_pos)
    rw [h.line] at hmem
    exact printable_ne_nul ((edited_spec _ keys).2 _ hmem)
  have hne : b.inputLength.toNat - 1 ≠ b.inputLength.toNat := by omega
  rw [hkey]
  refine ⟨hfits, ?_, hclear _ h.fits, ?_, ?_⟩
  · rw [hbackspace, h.line, List.foldl_append]
    rfl
  · intro i hi
    rw [hpred] at hi
    exact hclear i (by omega)
  · show update b.inputBuffer b.inputLength.toNat 0 (b.inputLength - 1).toNat ≠ 0 ↔ _
    rw [erasesLast_backspace, hpred, update_of_ne hne, ← h.line]
    have hheld : held b.inputBuffer b.inputLength ≠ [] := by
      rw [← List.length_pos_iff_ne_nil, held_length]
      exact hnat
    exact ⟨fun _ => hheld, fun _ => herased⟩

/-- A character that fits covers what was left behind the line. -/
theorem Cells.Inv.put {maxLength : UInt8} {keys : List Char16} {b : Cells} (h : b.Inv maxLength keys) {c : Char16}
    (hbs : c ≠ backspace) (hc : isPrintable c = true) (hlt : b.inputLength < maxLength) :
    (b.key maxLength c).Inv maxLength (keys ++ [c]) := by
  have hnat : b.inputLength.toNat < maxLength.toNat := hlt
  have hsucc := succ_toNat hlt
  have hkey : b.key maxLength c = ⟨update b.inputBuffer b.inputLength.toNat c, b.inputLength + 1⟩ := by
    simp [Cells.key, hbs, hc, hlt]
  have hroom : (keys.foldl (edit maxLength.toNat) []).length < maxLength.toNat := by
    rw [← h.line, held_length]
    exact hnat
  have hbehind : ∀ i, b.inputLength.toNat < i → update b.inputBuffer b.inputLength.toNat c i = 0 := by
    intro i hi
    rw [update_of_ne (Nat.ne_of_gt hi)]
    exact h.behind i hi
  rw [hkey]
  refine ⟨succ_le hlt, ?_, hbehind _ hnat, ?_, ?_⟩
  · rw [held_snoc hlt, h.line, List.foldl_append]
    simp [edit, hbs, hc, hroom]
  · intro i hi
    rw [hsucc] at hi
    exact hbehind i (by omega)
  · have hclear : update b.inputBuffer b.inputLength.toNat c (b.inputLength + 1).toNat = 0 := by
      apply hbehind
      omega
    exact ⟨fun hne => absurd hclear hne, fun herases => absurd herases (erasesLast_printable hbs hc)⟩

/-- A character that does not fit finds the last cell clear. -/
theorem Cells.Inv.full {maxLength : UInt8} {keys : List Char16} {b : Cells} (h : b.Inv maxLength keys) {c : Char16}
    (hbs : c ≠ backspace) (hc : isPrintable c = true) (hge : ¬ b.inputLength < maxLength) :
    (b.key maxLength c).Inv maxLength (keys ++ [c]) := by
  have hnat : ¬ b.inputLength.toNat < maxLength.toNat := hge
  have hkey : b.key maxLength c = b := by
    simp [Cells.key, hbs, hge]
  have hroom : ¬ (keys.foldl (edit maxLength.toNat) []).length < maxLength.toNat := by
    rw [← h.line, held_length]
    exact hnat
  have hat : b.inputLength.toNat = maxLength.toNat := Nat.le_antisymm h.fits (Nat.le_of_not_lt hnat)
  rw [hkey]
  refine ⟨h.fits, ?_, h.last, h.behind, ?_⟩
  · rw [h.line, List.foldl_append]
    simp [edit, hbs, hroom]
  · rw [hat]
    exact ⟨fun hne => absurd h.last hne, fun herases => absurd herases (erasesLast_printable hbs hc)⟩

theorem Cells.Inv.ignored {maxLength : UInt8} {keys : List Char16} {b : Cells} (h : b.Inv maxLength keys) {c : Char16}
    (hc : isEditing c = false) : (b.key maxLength c).Inv maxLength (keys ++ [c]) := by
  have hparts := Bool.or_eq_false_iff.mp hc
  have hkey : b.key maxLength c = b := by
    simp [Cells.key, hparts.2, of_decide_eq_false hparts.1]
  rw [hkey]
  refine ⟨h.fits, ?_, h.last, h.behind, ?_⟩
  · rw [h.line, List.foldl_append, List.foldl_cons, List.foldl_nil, edit_ignored hc]
  · rw [erasesLast_ignored hc]
    exact h.erased

theorem Cells.Inv.key {maxLength : UInt8} {keys : List Char16} {b : Cells} (h : b.Inv maxLength keys) (c : Char16) :
    (b.key maxLength c).Inv maxLength (keys ++ [c]) := by
  by_cases hbs : c = backspace
  · subst hbs
    by_cases hpos : 0 < b.inputLength
    · exact h.backspace_erases hpos
    · exact h.backspace_empty hpos
  · by_cases hc : isPrintable c = true
    · by_cases hlt : b.inputLength < maxLength
      · exact h.put hbs hc hlt
      · exact h.full hbs hc hlt
    · apply h.ignored
      simp [isEditing, hbs, hc]

/-- By induction on the keys. -/
theorem Cells.inv (maxLength : UInt8) (keys : List Char16) : (Cells.typed maxLength keys).Inv maxLength keys := by
  induction keys using List.reverseRecOn with
  | nil => exact Cells.inv_cleared maxLength
  | append_singleton keys c ih =>
    have hstep : Cells.typed maxLength (keys ++ [c]) = (Cells.typed maxLength keys).key maxLength c := by
      simp [Cells.typed]
    rw [hstep]
    exact ih.key c

/-! ## What the call gives back -/

section Call

variable {maxLength : UInt8} {typed : Typed}

/-- The final terminator finds its cell clear. -/
theorem readChar16KeyboardInput_ended (h : EndsInEnter typed) :
    readChar16KeyboardInput maxLength typed =
      .line (NulString.ofBuffer (Cells.typed maxLength (keysOf typed.keys)).inputBuffer (maxLength.toNat + 1))
        ((Cells.typed maxLength (keysOf typed.keys)).inputLength * 2) := by
  obtain ⟨hreset, ks, k, rest, hkeys, hks, hk⟩ := h
  have hrun := readCells_ended maxLength hks hk rest Cells.cleared
  rw [← hkeys] at hrun
  have hlast : update (Cells.typed maxLength (keysOf typed.keys)).inputBuffer maxLength.toNat 0 =
      (Cells.typed maxLength (keysOf typed.keys)).inputBuffer := by
    conv_lhs => rw [← (Cells.inv maxLength (keysOf typed.keys)).last]
    exact Function.update_eq_self _ _
  have hcells : readChar16Cells maxLength typed =
      .line (Cells.typed maxLength (keysOf typed.keys)).inputBuffer
        ((Cells.typed maxLength (keysOf typed.keys)).inputLength * 2) := by
    unfold readChar16Cells
    rw [hreset, if_neg Bool.false_ne_true]
    refine hrun.trans ?_
    show CellsRead.line (update (Cells.typed maxLength (keysOf typed.keys)).inputBuffer maxLength.toNat 0) _ = _
    rw [hlast]
    rfl
  rw [readChar16KeyboardInput_eq_cells, hcells]
  rfl

/-- The string is the line in the cells exactly when the cell behind it is clear. -/
theorem Cells.Inv.string_eq_iff {keys : List Char16} {b : Cells} (h : b.Inv maxLength keys) :
    (NulString.ofBuffer b.inputBuffer (maxLength.toNat + 1) : Str16).chars = keys.foldl (edit maxLength.toNat) [] ↔
      b.inputBuffer b.inputLength.toNat = 0 := by
  have hfits : b.inputLength.toNat ≤ maxLength.toNat := h.fits
  have hlay : NulString.overlay (held b.inputBuffer b.inputLength) b.inputBuffer = b.inputBuffer := by
    funext i
    by_cases hi : i < b.inputLength.toNat
    · simp [NulString.overlay, held, hi]
    · simp [NulString.overlay, held, hi]
  have hnul : (0 : Char16) ∉ held b.inputBuffer b.inputLength := by
    intro hmem
    rw [h.line] at hmem
    exact printable_ne_nul ((edited_spec _ keys).2 _ hmem) rfl
  have hiff := NulString.ofBuffer_overlay_eq_iff hnul (b := b.inputBuffer) (n := maxLength.toNat + 1)
    (by rw [held_length]; omega) (by rw [held_length]; omega)
  rw [hlay, held_length] at hiff
  rw [← h.line]
  exact hiff

theorem Cells.Inv.length {keys : List Char16} {b : Cells} (h : b.Inv maxLength keys) (hmax : maxLength ≤ 127) :
    (b.inputLength * 2).toNat = 2 * (keys.foldl (edit maxLength.toNat) []).length := by
  have hfits : b.inputLength.toNat ≤ maxLength.toNat := h.fits
  have hbound : maxLength.toNat ≤ 127 := hmax
  rw [← h.line, held_length, UInt8.toNat_mul]
  simp
  omega

/-- The call leaves the edited line in the buffer, and gives back the length of its string. -/
def ReadsLine (maxLength : UInt8) (typed : Typed) : Prop :=
  ∃ inputBuffer resultingBufferLength,
    readChar16KeyboardInput maxLength typed = .line inputBuffer resultingBufferLength ∧
    inputBuffer.chars = editedLine maxLength.toNat typed.keys ∧
    resultingBufferLength.toNat = 2 * inputBuffer.length

theorem reads_line_iff (hmax : maxLength ≤ 127) (h : EndsInEnter typed) :
    ReadsLine maxLength typed ↔ ¬ ErasesLast maxLength.toNat (keysOf typed.keys) := by
  have hinv := Cells.inv maxLength (keysOf typed.keys)
  have hcell : (Cells.typed maxLength (keysOf typed.keys)).inputBuffer
      (Cells.typed maxLength (keysOf typed.keys)).inputLength.toNat = 0 ↔
      ¬ ErasesLast maxLength.toNat (keysOf typed.keys) := by
    rw [← hinv.erased, not_not]
  rw [← hcell, ← hinv.string_eq_iff]
  constructor
  · rintro ⟨inputBuffer, resultingBufferLength, hread, hline, -⟩
    rw [readChar16KeyboardInput_ended h] at hread
    cases hread
    exact hline
  · intro hline
    refine ⟨_, _, readChar16KeyboardInput_ended h, hline, ?_⟩
    rw [hinv.length hmax, ← hline]
    rfl

end Call

/-- A key on a keyboard without faults. -/
def press (c : Char16) : Keystroke := ⟨.success, .success, c, .success⟩

/-- The keys and Enter, in one call. -/
def entered (keys : List Char16) : Typed := ⟨.success, keys.map press ++ [press carriageReturn]⟩

theorem entered_endsInEnter (keys : List Char16) : EndsInEnter (entered keys) := by
  refine ⟨rfl, keys.map press, press carriageReturn, [], rfl, ?_, ⟨rfl, rfl, rfl⟩, .inr rfl⟩
  intro k hk
  obtain ⟨c, -, rfl⟩ := List.mem_map.mp hk
  exact .inr ⟨rfl, rfl, rfl⟩

/-- "a", a backspace and "b" are read as "b". -/
theorem reads_line_retyped :
    (32 ≤ (127 : UInt8) ∧ EndsInEnter (entered [0x61, backspace, 0x62])) ∧
    (ReadsLine 32 (entered [0x61, backspace, 0x62]) ↔ ¬ ErasesLast 32 [0x61, backspace, 0x62]) := by
  have hmax : 32 ≤ (127 : UInt8) := by decide
  exact ⟨⟨hmax, entered_endsInEnter _⟩, reads_line_iff hmax (entered_endsInEnter _)⟩

/-- "q", "x" and a backspace: the line is "q" with a length of 2, and the string is "qx". -/
theorem erased_character_read :
    (32 ≤ (127 : UInt8) ∧ EndsInEnter (entered [0x71, 0x78, backspace])) ∧
    ¬ ReadsLine 32 (entered [0x71, 0x78, backspace]) := by
  refine ⟨⟨by decide, entered_endsInEnter _⟩, ?_⟩
  rintro ⟨inputBuffer, resultingBufferLength, hread, hline, -⟩
  have hedited : editedLine (32 : UInt8).toNat (entered [0x71, 0x78, backspace]).keys = [0x71] := by decide
  have hstring : readChar16KeyboardInput 32 (entered [0x71, 0x78, backspace]) = .line ⟨[0x71, 0x78], by decide⟩ 2 := rfl
  rw [hread] at hstring
  cases hstring
  rw [hedited] at hline
  exact absurd hline (by decide)

end Crows.Boot.LineString
