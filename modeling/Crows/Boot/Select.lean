/-
  Crows.Boot.Select — SelectPayload, the choice of a payload by its name.

  One round of the loop reads a line, turns it into upper case and scans the payloads:
  the first one whose whole name is the line ends the scan, one whose name agrees with
  the line in SelectedPayloadNameLength characters is a partial match, the second of
  these ends the scan too, and a single one is chosen in the end. That length is what
  ReadChar16KeyboardInput gives, a number of bytes. StrDuplicate is taken to succeed, and
  SelectedPayloadName to have room for its 65 characters (it is declared with 65 bytes).

  Proved, for every list of payloads and every line:
  - `selectRound_returned`: a round settles by the partial matches before the first full
    one, and by that full one when there are none;
  - `round_selects_iff`: for a line typed without a backspace, the round chooses what the
    prompt promises exactly when a payload has the line as its name or the number of
    names that begin with it is not one. `unique_prefix_not_selected`: a unique prefix is
    not found, since a comparison of twice its characters sees its end.
-/
import Crows.Boot.Input

namespace Crows.Boot.Select

open Crows.Lib
open Crows.Boot.Input

/-! ## What SelectPayload takes from gnu-efi and the firmware -/

/-- StrnCmp, and the upper case of one character that StrUpr goes by. -/
structure EfiStrings where
  strnCmp : Str16 → Str16 → Nat → Int
  toUpper : Char16 → Char16
  toUpper_ne_nul : ∀ c, c ≠ 0 → toUpper c ≠ 0

structure EfiStrings.Documented (S : EfiStrings) : Prop where
  strnCmp : ∀ s t n, S.strnCmp s t n = 0 ↔ NulString.agree n s t
  toUpper : ∀ c, S.toUpper (S.toUpper c) = S.toUpper c

def EfiStrings.strUpr (S : EfiStrings) (s : Str16) : Str16 := s.map S.toUpper S.toUpper_ne_nul

/-- An open file, EFI_FILE_PROTOCOL *. -/
abbrev Handle := Nat

/-- The file name that LibFileInfo gives for a handle, and the answer to GetPosition. -/
structure Volume where
  libFileInfo : Handle → Option Str16
  getPosition : Handle → EfiStatus × UInt64

/-- How a call of the loader ends. -/
inductive Outcome (α : Type) where
  | returned (a : α)
  | panicked
  | shutDown
  /-- A NULL pointer was followed. -/
  | faulted
  /-- The user has not typed what it waits for. -/
  | waiting

def Outcome.bind {α β : Type} : Outcome α → (α → Outcome β) → Outcome β
  | .returned a, f => f a
  | .panicked, _ => .panicked
  | .shutDown, _ => .shutDown
  | .faulted, _ => .faulted
  | .waiting, _ => .waiting

theorem Outcome.bind_returned {α β : Type} {x : Outcome α} {f : α → Outcome β} {b : β}
    (h : x.bind f = .returned b) : ∃ a, x = .returned a ∧ f a = .returned b := by
  cases x with
  | returned a => exact ⟨a, rfl, h⟩
  | panicked => cases h
  | shutDown => cases h
  | faulted => cases h
  | waiting => cases h

/-! ## loader.c -/

def mftahMaxFilenameLength : UInt8 := 64

/-- L"q\0". -/
def quit : Str16 := ⟨[0x71], by decide⟩

/-- What a round of the loop leaves to the next one: IsValidSelection, *PayloadFileHandle and
    gOperatingPayload.Name. -/
structure Choice where
  isValidSelection : Bool
  payloadFileHandle : Option Handle
  name : Option Str16

structure Scan extends Choice where
  partialFileMatch : Option Handle
  partialMatchesCount : Nat

/-- The loop over the payloads, with the line in upper case. -/
def scan (S : EfiStrings) (vol : Volume) (selectedPayloadName : Str16) (selectedPayloadNameLength : Nat) :
    List Handle → Scan → Scan
  | [], c => c
  | h :: hs, c =>
    match vol.libFileInfo h with
    | none => scan S vol selectedPayloadName selectedPayloadNameLength hs c
    | some fileName =>
      if S.strnCmp selectedPayloadName (S.strUpr fileName) mftahMaxFilenameLength.toNat ≠ 0 then
        if S.strnCmp selectedPayloadName (S.strUpr fileName) selectedPayloadNameLength = 0 then
          if c.partialMatchesCount + 1 = 1 then
            scan S vol selectedPayloadName selectedPayloadNameLength hs
              { c with
                partialFileMatch := some h
                partialMatchesCount := c.partialMatchesCount + 1
                name := some (S.strUpr fileName) }
          else if c.partialMatchesCount + 1 = 2 then
            { c with
              partialFileMatch := some h
              partialMatchesCount := c.partialMatchesCount + 1
              name := none }
          else
            scan S vol selectedPayloadName selectedPayloadNameLength hs
              { c with partialFileMatch := some h, partialMatchesCount := c.partialMatchesCount + 1 }
        else scan S vol selectedPayloadName selectedPayloadNameLength hs c
      else { c with isValidSelection := true, payloadFileHandle := some h }

/-- A single partial match is used, whatever else the scan found. -/
def usePartialMatch (c : Scan) : Choice :=
  if 1 = c.partialMatchesCount ∧ c.partialFileMatch ≠ none then
    { c.toChoice with payloadFileHandle := c.partialFileMatch, isValidSelection := true }
  else c.toChoice

/-- One round of the loop. -/
def selectRound (S : EfiStrings) (vol : Volume) (payloadHandles : List Handle) (typed : Typed) (c : Choice) :
    Outcome Choice :=
  match readChar16KeyboardInput mftahMaxFilenameLength typed with
  | .waiting => .waiting
  | .panicked => .panicked
  | .failed _ => .panicked
  | .line selectedPayloadName selectedPayloadNameLength =>
    if selectedPayloadNameLength = 0 then .returned c
    else if S.strnCmp selectedPayloadName quit (2 * 2) = 0 then .shutDown
    else
      .returned (usePartialMatch
        (scan S vol (S.strUpr selectedPayloadName) selectedPayloadNameLength.toNat payloadHandles
          { c with partialFileMatch := none, partialMatchesCount := 0 }))

/-- The loop, one round for each line. -/
def selectLoop (S : EfiStrings) (vol : Volume) (payloadHandles : List Handle) : List Typed → Choice → Outcome Choice
  | [], c => if c.isValidSelection then .returned c else .waiting
  | typed :: lines, c =>
    if c.isValidSelection then .returned c
    else (selectRound S vol payloadHandles typed c).bind (selectLoop S vol payloadHandles lines)

/-- What DiscoverPayloads returns with the payloads it found, or the status it failed with. -/
def discoverPayloads : Except EfiStatus (List Handle) → EfiStatus × List Handle
  | .error status => (status, [])
  | .ok payloadHandles =>
    match payloadHandles.length with
    | 0 => (.noPayloadFound, payloadHandles)
    | 1 => (.singlePayloadFound, payloadHandles)
    | _ => (.multiPayloadFound, payloadHandles)

/-- The fields of gOperatingPayload that SelectPayload sets. -/
structure OperatingPayload where
  name : Option Str16
  fromMultiSelect : Bool

structure Selection where
  operatingPayload : OperatingPayload
  payloadFileHandle : Handle
  payloadFileStartingPosition : UInt64

/-- The switch of SelectPayload: gOperatingPayload and *PayloadFileHandle after it. -/
def choosePayload (S : EfiStrings) (vol : Volume) (discovered : EfiStatus × List Handle) (lines : List Typed)
    (operatingPayload : OperatingPayload) (payloadFileHandle : Option Handle) :
    Outcome (OperatingPayload × Option Handle) :=
  match discovered.1 with
  | .multiPayloadFound =>
    (selectLoop S vol discovered.2 lines ⟨false, payloadFileHandle, operatingPayload.name⟩).bind fun c =>
      .returned (⟨c.name, true⟩, c.payloadFileHandle)
  | .singlePayloadFound =>
    match discovered.2 with
    | [] => .faulted
    | h :: _ =>
      match vol.libFileInfo h with
      | none => .faulted
      | some fileName => .returned (⟨some fileName, false⟩, some h)
  | _ => .panicked

def selectPayload (S : EfiStrings) (vol : Volume) (discovered : Except EfiStatus (List Handle)) (lines : List Typed)
    (operatingPayload : OperatingPayload) (payloadFileHandle : Option Handle) : Outcome Selection :=
  (choosePayload S vol (discoverPayloads discovered) lines operatingPayload payloadFileHandle).bind fun chosen =>
    match chosen.2 with
    | none => .faulted
    | some h => if (vol.getPosition h).1.isError then .panicked else .returned ⟨chosen.1, h, (vol.getPosition h).2⟩

/-! ## What a line matches -/

/-- The payloads with a name that can be read. -/
def Volume.files (vol : Volume) (payloadHandles : List Handle) : List (Handle × Str16) :=
  payloadHandles.filterMap fun h => (vol.libFileInfo h).map fun fileName => (h, fileName)

theorem Volume.mem_files {vol : Volume} {payloadHandles : List Handle} {f : Handle × Str16}
    (h : f ∈ vol.files payloadHandles) : f.1 ∈ payloadHandles ∧ vol.libFileInfo f.1 = some f.2 := by
  obtain ⟨handle, hmem, heq⟩ := List.mem_filterMap.mp h
  obtain ⟨fileName, hinfo, hf⟩ := Option.map_eq_some_iff.mp heq
  subst hf
  exact ⟨hmem, hinfo⟩

def fullMatch (S : EfiStrings) (line : Str16) (f : Handle × Str16) : Bool :=
  decide (S.strnCmp line (S.strUpr f.2) mftahMaxFilenameLength.toNat = 0)

def partialMatch (S : EfiStrings) (line : Str16) (n : Nat) (f : Handle × Str16) : Bool :=
  decide (S.strnCmp line (S.strUpr f.2) n = 0)

/-- The partial matches that stand before the first full one. -/
def partialMatches (S : EfiStrings) (line : Str16) (n : Nat) (files : List (Handle × Str16)) : List (Handle × Str16) :=
  (files.takeWhile fun f => !fullMatch S line f).filter (partialMatch S line n)

/-- The choice that the partial matches and the first full match come to. -/
def settle (S : EfiStrings) (c : Choice) : List (Handle × Str16) → Option (Handle × Str16) → Choice
  | [], none => c
  | [], some f => { c with isValidSelection := true, payloadFileHandle := some f.1 }
  | [f], _ => ⟨true, some f.1, some (S.strUpr f.2)⟩
  | _ :: _ :: _, _ => { c with name := none }

/-! ## The scan -/

variable {S : EfiStrings} {vol : Volume}

theorem Volume.files_cons_none {h : Handle} (hinfo : vol.libFileInfo h = none) (hs : List Handle) :
    vol.files (h :: hs) = vol.files hs := by
  simp [Volume.files, hinfo]

theorem Volume.files_cons_some {h : Handle} {fileName : Str16} (hinfo : vol.libFileInfo h = some fileName)
    (hs : List Handle) : vol.files (h :: hs) = (h, fileName) :: vol.files hs := by
  simp [Volume.files, hinfo]

theorem partialMatches_cons_full {line : Str16} {n : Nat} {f : Handle × Str16} (h : fullMatch S line f = true)
    (files : List (Handle × Str16)) : partialMatches S line n (f :: files) = [] := by
  simp [partialMatches, h]

theorem partialMatches_cons_other {line : Str16} {n : Nat} {f : Handle × Str16} (h : fullMatch S line f = false)
    (files : List (Handle × Str16)) :
    partialMatches S line n (f :: files) =
      if partialMatch S line n f then f :: partialMatches S line n files else partialMatches S line n files := by
  simp [partialMatches, h, List.filter_cons]

/-- After one partial match, the scan ends at the next partial or full match. -/
theorem scan_after_match (line : Str16) (n : Nat) (payloadHandles : List Handle) {c : Scan}
    (hcount : c.partialMatchesCount = 1) :
    scan S vol line n payloadHandles c =
      match partialMatches S line n (vol.files payloadHandles),
        (vol.files payloadHandles).find? (fullMatch S line) with
      | [], none => c
      | [], some f => { c with isValidSelection := true, payloadFileHandle := some f.1 }
      | f :: _, _ => { c with partialFileMatch := some f.1, partialMatchesCount := 2, name := none } := by
  induction payloadHandles with
  | nil => rfl
  | cons h hs ih =>
    cases hinfo : vol.libFileInfo h with
    | none => simp only [scan, hinfo, ih, Volume.files_cons_none]
    | some fileName =>
      rw [Volume.files_cons_some hinfo]
      by_cases hfull : S.strnCmp line (S.strUpr fileName) mftahMaxFilenameLength.toNat = 0
      · have hmatch : fullMatch S line (h, fileName) = true := decide_eq_true hfull
        rw [partialMatches_cons_full hmatch, List.find?_cons_of_pos hmatch]
        simp [scan, hinfo, hfull]
      · have hmatch : fullMatch S line (h, fileName) = false := decide_eq_false hfull
        rw [partialMatches_cons_other hmatch, List.find?_cons_of_neg (by simp [hmatch])]
        by_cases hpart : S.strnCmp line (S.strUpr fileName) n = 0
        · have hbegins : partialMatch S line n (h, fileName) = true := decide_eq_true hpart
          simp [scan, hinfo, hfull, hpart, hbegins, hcount]
        · have hbegins : partialMatch S line n (h, fileName) = false := decide_eq_false hpart
          simp only [scan, hinfo, hfull, hpart, hbegins, ih, ne_eq, not_false_eq_true, if_true, if_false,
            Bool.false_eq_true]

/-- What the scan of a round leaves, with its single partial match used. -/
theorem scan_settles (line : Str16) (n : Nat) (payloadHandles : List Handle) {c : Scan}
    (hcount : c.partialMatchesCount = 0) :
    usePartialMatch (scan S vol line n payloadHandles c) =
      settle S c.toChoice (partialMatches S line n (vol.files payloadHandles))
        ((vol.files payloadHandles).find? (fullMatch S line)) := by
  induction payloadHandles with
  | nil => simp [scan, Volume.files, partialMatches, usePartialMatch, settle, hcount]
  | cons h hs ih =>
    cases hinfo : vol.libFileInfo h with
    | none =>
      rw [Volume.files_cons_none hinfo, ← ih]
      simp only [scan, hinfo]
    | some fileName =>
      rw [Volume.files_cons_some hinfo]
      by_cases hfull : S.strnCmp line (S.strUpr fileName) mftahMaxFilenameLength.toNat = 0
      · have hmatch : fullMatch S line (h, fileName) = true := decide_eq_true hfull
        rw [partialMatches_cons_full hmatch, List.find?_cons_of_pos hmatch]
        simp [scan, hinfo, hfull, usePartialMatch, settle, hcount]
      · have hmatch : fullMatch S line (h, fileName) = false := decide_eq_false hfull
        rw [partialMatches_cons_other hmatch, List.find?_cons_of_neg (by simp [hmatch])]
        by_cases hpart : S.strnCmp line (S.strUpr fileName) n = 0
        · -- the first partial match: the rest of the scan is `scan_after_match`
          have hbegins : partialMatch S line n (h, fileName) = true := decide_eq_true hpart
          simp only [scan, hinfo, hfull, hpart, hbegins, hcount, ne_eq, not_false_eq_true, if_true, Nat.zero_add]
          rw [scan_after_match line n hs rfl]
          cases partialMatches S line n (vol.files hs) with
          | nil =>
            cases (vol.files hs).find? (fullMatch S line) with
            | none => simp [usePartialMatch, settle]
            | some f => simp [usePartialMatch, settle]
          | cons f fs => simp [usePartialMatch, settle]
        · have hbegins : partialMatch S line n (h, fileName) = false := decide_eq_false hpart
          simp only [scan, hinfo, hfull, hpart, hbegins, ih, ne_eq, not_false_eq_true, if_true, if_false,
            Bool.false_eq_true]

/-! ## One round -/

/-- The partial matches of the line that is typed. -/
def linePartials (S : EfiStrings) (files : List (Handle × Str16)) (typed : Typed) : List (Handle × Str16) :=
  match readChar16KeyboardInput mftahMaxFilenameLength typed with
  | .line w n => if n = 0 then [] else partialMatches S (S.strUpr w) n.toNat files
  | _ => []

/-- Its first full match. -/
def lineFull (S : EfiStrings) (files : List (Handle × Str16)) (typed : Typed) : Option (Handle × Str16) :=
  match readChar16KeyboardInput mftahMaxFilenameLength typed with
  | .line w n => if n = 0 then none else files.find? (fullMatch S (S.strUpr w))
  | _ => none

/-- A round that ends settles by the matches of its line. -/
theorem selectRound_returned {payloadHandles : List Handle} {typed : Typed} {c c' : Choice}
    (h : selectRound S vol payloadHandles typed c = .returned c') :
    c' = settle S c (linePartials S (vol.files payloadHandles) typed) (lineFull S (vol.files payloadHandles) typed) := by
  unfold selectRound at h
  unfold linePartials lineFull
  cases hread : readChar16KeyboardInput mftahMaxFilenameLength typed with
  | waiting =>
    rw [hread] at h
    cases h
  | panicked =>
    rw [hread] at h
    cases h
  | failed status =>
    rw [hread] at h
    cases h
  | line w n =>
    rw [hread] at h
    simp only at h ⊢
    by_cases hn : n = 0
    · simp only [hn, if_true] at h ⊢
      exact (Outcome.returned.inj h).symm
    · simp only [hn, if_false] at h ⊢
      by_cases hquit : S.strnCmp w quit (2 * 2) = 0
      · rw [if_pos hquit] at h
        cases h
      · rw [if_neg hquit] at h
        rw [← Outcome.returned.inj h]
        exact scan_settles _ _ _ rfl

/-! ## What the prompt promises -/

def sameName (S : EfiStrings) (w : Str16) (f : Handle × Str16) : Bool := decide (S.strUpr f.2 = S.strUpr w)

def beginsWith (S : EfiStrings) (w : Str16) (f : Handle × Str16) : Bool :=
  decide ((S.strUpr w).chars <+: (S.strUpr f.2).chars)

/-- The payload that has the line as its name, else the one whose name begins with the line if there is a
    single one. -/
def promised (S : EfiStrings) (w : Str16) (files : List (Handle × Str16)) : Option (Handle × Str16) :=
  match files.find? (sameName S w) with
  | some f => some f
  | none =>
    match files.filter (beginsWith S w) with
    | [f] => some f
    | _ => none

/-- The round selects the payload, or, for none, leaves the loop to prompt again. -/
def RoundSelects (out : Outcome Choice) (c : Choice) (f : Option (Handle × Str16)) : Prop :=
  ∃ c', out = .returned c' ∧
    match f with
    | some f => c'.isValidSelection = true ∧ c'.payloadFileHandle = some f.1
    | none => c'.isValidSelection = false ∧ c'.payloadFileHandle = c.payloadFileHandle

/-- A full match of names that fit is equality up to case. -/
theorem fullMatch_eq_sameName (hS : S.Documented) {w : Str16} (hw : w.length ≤ 64) {f : Handle × Str16}
    (hf : f.2.length ≤ 64) : fullMatch S (S.strUpr w) f = sameName S w f := by
  have hline : (S.strUpr w).length ≤ 64 := by
    rw [EfiStrings.strUpr, NulString.length_map]
    exact hw
  have hname : (S.strUpr f.2).length ≤ 64 := by
    rw [EfiStrings.strUpr, NulString.length_map]
    exact hf
  have hiff : S.strnCmp (S.strUpr w) (S.strUpr f.2) mftahMaxFilenameLength.toNat = 0 ↔ S.strUpr f.2 = S.strUpr w := by
    rw [hS.strnCmp]
    exact (NulString.agree_of_le hline hname).trans eq_comm
  unfold fullMatch sameName
  exact decide_eq_decide.mpr hiff

/-- Compared in twice its characters, a line agrees only with itself. -/
theorem partialMatch_eq_sameName (hS : S.Documented) {w : Str16} (hw : 0 < w.length) (f : Handle × Str16) :
    partialMatch S (S.strUpr w) (2 * w.length) f = sameName S w f := by
  have hline : (S.strUpr w).length < 2 * w.length := by
    rw [EfiStrings.strUpr, NulString.length_map]
    omega
  have hiff : S.strnCmp (S.strUpr w) (S.strUpr f.2) (2 * w.length) = 0 ↔ S.strUpr f.2 = S.strUpr w := by
    rw [hS.strnCmp]
    exact (NulString.agree_of_lt hline).trans eq_comm
  unfold partialMatch sameName
  exact decide_eq_decide.mpr hiff

/-- A line without a backspace has no partial matches. -/
theorem no_partialMatches (hS : S.Documented) {w : Str16} (hpos : 0 < w.length) (hw : w.length ≤ 64)
    {files : List (Handle × Str16)} (hfiles : ∀ f ∈ files, f.2.length ≤ 64) :
    partialMatches S (S.strUpr w) (2 * w.length) files = [] := by
  unfold partialMatches
  rw [List.filter_eq_nil_iff]
  intro f hf
  have hmem : f ∈ files := (List.takeWhile_sublist _).mem hf
  have hnotfull : (!fullMatch S (S.strUpr w) f) = true :=
    List.mem_takeWhile_imp (p := fun f => !fullMatch S (S.strUpr w) f) hf
  rw [fullMatch_eq_sameName hS hw (hfiles f hmem)] at hnotfull
  rw [partialMatch_eq_sameName hS hpos]
  simpa using hnotfull

/-- The round of a line without a backspace settles by the payload that has it as its name. -/
theorem selectRound_of_enters (hS : S.Documented) {payloadHandles : List Handle}
    (hfiles : ∀ f ∈ vol.files payloadHandles, f.2.length ≤ 64) {typed : Typed} {w : Str16} (htyped : Enters typed w)
    (hpos : 0 < w.length) (hw : w.length ≤ 64) (hquit : w ≠ quit) (c : Choice) :
    selectRound S vol payloadHandles typed c =
      .returned (settle S c [] ((vol.files payloadHandles).find? (sameName S w))) := by
  have hread : readChar16KeyboardInput mftahMaxFilenameLength typed = .line w (UInt8.ofNat w.length * 2) :=
    readChar16KeyboardInput_of_enters htyped hw
  have hlength : (UInt8.ofNat w.length * 2).toNat = 2 * w.length := by
    rw [UInt8.toNat_mul, UInt8.toNat_ofNat']
    simp
    omega
  have hnonzero : UInt8.ofNat w.length * 2 ≠ 0 := by
    intro hzero
    rw [hzero] at hlength
    simp at hlength
    omega
  have hnotquit : S.strnCmp w quit (2 * 2) ≠ 0 := by
    intro hzero
    have hagree := (hS.strnCmp w quit (2 * 2)).mp hzero
    exact hquit ((NulString.agree_of_lt (by decide)).mp hagree.symm).symm
  have hfull : (vol.files payloadHandles).find? (fullMatch S (S.strUpr w)) =
      (vol.files payloadHandles).find? (sameName S w) := by
    refine List.find?_congr ?_
    intro f hf
    exact fullMatch_eq_sameName hS hw (hfiles f hf)
  simp only [selectRound, hread, hnonzero, hnotquit, if_false]
  rw [scan_settles _ _ _ rfl, hlength, no_partialMatches hS hpos hw hfiles, hfull]

/-- A round selects what the prompt promises exactly when a payload has the line as its name, or the number of
    names that begin with it is not one. -/
theorem round_selects_iff (hS : S.Documented) {payloadHandles : List Handle}
    (hfiles : ∀ f ∈ vol.files payloadHandles, f.2.length ≤ 64) {typed : Typed} {w : Str16} (htyped : Enters typed w)
    (hpos : 0 < w.length) (hw : w.length ≤ 64) (hquit : w ≠ quit) {c : Choice} (hc : c.isValidSelection = false) :
    RoundSelects (selectRound S vol payloadHandles typed c) c (promised S w (vol.files payloadHandles)) ↔
      (∃ f ∈ vol.files payloadHandles, S.strUpr f.2 = S.strUpr w) ∨
        ((vol.files payloadHandles).filter (beginsWith S w)).length ≠ 1 := by
  rw [selectRound_of_enters hS hfiles htyped hpos hw hquit]
  unfold promised
  cases hfind : (vol.files payloadHandles).find? (sameName S w) with
  | some f =>
    have hsame : S.strUpr f.2 = S.strUpr w := of_decide_eq_true (List.find?_some (p := sameName S w) hfind)
    refine iff_of_true ⟨_, rfl, rfl, rfl⟩ (Or.inl ⟨f, List.mem_of_find?_eq_some hfind, hsame⟩)
  | none =>
    have hnone : ¬ ∃ f ∈ vol.files payloadHandles, S.strUpr f.2 = S.strUpr w := by
      intro hex
      obtain ⟨f, hf, hsame⟩ := hex
      exact List.find?_eq_none.mp hfind f hf (decide_eq_true hsame)
    -- nothing is settled, which is right unless one name begins with the line
    match hfilter : (vol.files payloadHandles).filter (beginsWith S w) with
    | [f] =>
      refine iff_of_false ?_ (not_or.mpr ⟨hnone, fun hne => hne rfl⟩)
      intro hsel
      obtain ⟨c', hout, hvalid, -⟩ := hsel
      rw [← Outcome.returned.inj hout] at hvalid
      exact absurd (hvalid.symm.trans hc) nofun
    | [] => exact iff_of_true ⟨c, rfl, hc, rfl⟩ (Or.inr nofun)
    | _ :: _ :: _ => exact iff_of_true ⟨c, rfl, hc, rfl⟩ (Or.inr (by simp))

/-! ## Two payloads -/

/-- The first difference of two strings within the first `n` characters, a string's end being 0. -/
def compareChars : List Char16 → List Char16 → Nat → Int
  | _, _, 0 => 0
  | [], [], _ + 1 => 0
  | [], d :: _, _ + 1 => -(d.toNat : Int)
  | c :: _, [], _ + 1 => c.toNat
  | c :: cs, d :: ds, n + 1 => if c = d then compareChars cs ds n else (c.toNat : Int) - d.toNat

theorem compareChars_eq_zero (cs ds : List Char16) (n : Nat) (hcs : 0 ∉ cs) (hds : 0 ∉ ds) :
    compareChars cs ds n = 0 ↔ cs.take n = ds.take n := by
  induction n generalizing cs ds with
  | zero => simp [compareChars]
  | succ n ih =>
    cases cs with
    | nil =>
      cases ds with
      | nil => simp [compareChars]
      | cons d ds =>
        have hd : d.toNat ≠ 0 := by
          intro hzero
          exact hds (by simp [show d = 0 from UInt16.toNat_inj.mp hzero])
        simp only [compareChars, List.take_nil, List.take_succ_cons, reduceCtorEq, iff_false]
        omega
    | cons c cs =>
      cases ds with
      | nil =>
        have hc : c.toNat ≠ 0 := by
          intro hzero
          exact hcs (by simp [show c = 0 from UInt16.toNat_inj.mp hzero])
        simp only [compareChars, List.take_nil, List.take_succ_cons, reduceCtorEq, iff_false]
        omega
      | cons d ds =>
        simp only [compareChars, List.take_succ_cons, List.cons.injEq]
        by_cases hcd : c = d
        · rw [if_pos hcd, ih cs ds (fun h => hcs (List.mem_cons_of_mem _ h)) fun h => hds (List.mem_cons_of_mem _ h)]
          exact ⟨fun h => ⟨hcd, h⟩, fun h => h.2⟩
        · have hne : c.toNat ≠ d.toNat := fun heq => hcd (UInt16.toNat_inj.mp heq)
          rw [if_neg hcd]
          refine iff_of_false ?_ (fun h => hcd h.1)
          omega

def asciiUpper (c : Char16) : Char16 := if 0x61 ≤ c ∧ c ≤ 0x7A then c - 0x20 else c

theorem asciiUpper_ne_nul {c : Char16} (h : c ≠ 0) : asciiUpper c ≠ 0 := by
  unfold asciiUpper
  split
  · next hlower =>
    have hge : (0x61 : Char16).toNat ≤ c.toNat := hlower.1
    intro hzero
    have hsub := congrArg UInt16.toNat hzero
    rw [UInt16.toNat_sub] at hsub
    have hlt := c.toNat_lt
    simp at hge hsub
    omega
  · exact h

theorem asciiUpper_asciiUpper (c : Char16) : asciiUpper (asciiUpper c) = asciiUpper c := by
  unfold asciiUpper
  split
  · next hlower =>
    have hge : (0x61 : Char16).toNat ≤ c.toNat := hlower.1
    have hle : c.toNat ≤ (0x7A : Char16).toNat := hlower.2
    refine if_neg ?_
    intro hupper
    have hge' : (0x61 : Char16).toNat ≤ (c - 0x20).toNat := hupper.1
    rw [UInt16.toNat_sub] at hge'
    simp at hge hle hge'
    omega
  · rfl

/-- gnu-efi's StrnCmp, with the upper case of ASCII. -/
def gnuEfiStrings : EfiStrings where
  strnCmp s t n := compareChars s.chars t.chars n
  toUpper := asciiUpper
  toUpper_ne_nul _ := asciiUpper_ne_nul

theorem gnuEfiStrings_documented : gnuEfiStrings.Documented where
  strnCmp s t n := compareChars_eq_zero s.chars t.chars n s.nul_notMem t.nul_notMem
  toUpper := asciiUpper_asciiUpper

/-- "A.CROWS". -/
def aName : Str16 := ⟨[0x41, 0x2E, 0x43, 0x52, 0x4F, 0x57, 0x53], by decide⟩

/-- "B.CROWS". -/
def bName : Str16 := ⟨[0x42, 0x2E, 0x43, 0x52, 0x4F, 0x57, 0x53], by decide⟩

def smallVolume : Volume where
  libFileInfo h := if h = 1 then some aName else if h = 2 then some bName else none
  getPosition _ := (.success, 0)

def press (c : Char16) : Keystroke := ⟨.success, .success, c, .success⟩

def typedLine (cs : List Char16) : Typed := ⟨.success, cs.map press ++ [press carriageReturn]⟩

theorem enters_typedLine {w : Str16} (hw : w.chars.all isPrintable = true) : Enters (typedLine w.chars) w := by
  rw [List.all_eq_true] at hw
  refine ⟨rfl, w.chars.map press, press carriageReturn, [], rfl, ?_, ⟨⟨rfl, rfl, rfl⟩, Or.inr rfl⟩, ?_⟩
  · intro k hk
    obtain ⟨c, hc, heq⟩ := List.mem_map.mp hk
    subst heq
    have hprint := hw c hc
    refine Or.inr ⟨⟨rfl, rfl, rfl⟩, ?_, ?_, ?_⟩
    · intro hlf
      rw [show c = lineFeed from hlf] at hprint
      exact absurd hprint (by decide)
    · intro hcr
      rw [show c = carriageReturn from hcr] at hprint
      exact absurd hprint (by decide)
    · intro hbs
      rw [show c = backspace from hbs] at hprint
      exact absurd hprint (by decide)
  · rw [List.filterMap_map]
    have hsome : ∀ c ∈ w.chars, (Keystroke.character ∘ press) c = some c := by
      intro c hc
      simp [Keystroke.character, press, hw c hc]
    rw [List.filterMap_congr hsome]
    simp

/-- "b.crows". -/
def lowerName : Str16 := ⟨[0x62, 0x2E, 0x63, 0x72, 0x6F, 0x77, 0x73], by decide⟩

/-- "a". -/
def lowerPrefix : Str16 := ⟨[0x61], by decide⟩

theorem round_selects_iff_lowerName :
    RoundSelects (selectRound gnuEfiStrings smallVolume [1, 2] (typedLine lowerName.chars) ⟨false, none, none⟩)
        ⟨false, none, none⟩ (promised gnuEfiStrings lowerName (smallVolume.files [1, 2])) ↔
      (∃ f ∈ smallVolume.files [1, 2], gnuEfiStrings.strUpr f.2 = gnuEfiStrings.strUpr lowerName) ∨
        ((smallVolume.files [1, 2]).filter (beginsWith gnuEfiStrings lowerName)).length ≠ 1 :=
  round_selects_iff gnuEfiStrings_documented (by decide +kernel) (enters_typedLine rfl) (by decide)
    (by decide) (by decide) rfl

/-- A unique first character selects nothing. -/
theorem unique_prefix_not_selected :
    ∃ (S : EfiStrings) (vol : Volume) (payloadHandles : List Handle) (typed : Typed) (w : Str16) (c : Choice),
      S.Documented ∧ 2 ≤ (vol.files payloadHandles).length ∧
      (vol.files payloadHandles).Pairwise (fun f g => S.strUpr f.2 ≠ S.strUpr g.2) ∧
      (∀ f ∈ vol.files payloadHandles, f.2.length ≤ 64) ∧ Enters typed w ∧ 0 < w.length ∧ w.length ≤ 64 ∧ w ≠ quit ∧
      c.isValidSelection = false ∧
      ¬ RoundSelects (selectRound S vol payloadHandles typed c) c (promised S w (vol.files payloadHandles)) := by
  refine ⟨gnuEfiStrings, smallVolume, [1, 2], typedLine lowerPrefix.chars, lowerPrefix, ⟨false, none, none⟩,
    gnuEfiStrings_documented, by decide +kernel, by decide +kernel, by decide +kernel, enters_typedLine rfl,
    by decide, by decide, by decide, rfl, ?_⟩
  intro h
  obtain ⟨c', hout, hsel⟩ := h
  have hpromised : promised gnuEfiStrings lowerPrefix (smallVolume.files [1, 2]) = some (1, aName) := by
    decide +kernel
  rw [hpromised] at hsel
  have hround : selectRound gnuEfiStrings smallVolume [1, 2] (typedLine lowerPrefix.chars) ⟨false, none, none⟩ =
      .returned ⟨false, none, none⟩ := rfl
  rw [hround] at hout
  rw [← Outcome.returned.inj hout] at hsel
  exact absurd hsel.1 nofun

end Crows.Boot.Select
