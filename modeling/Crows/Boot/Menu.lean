/-
  Crows.Boot.Menu — efi_main's way through payload selection and the password prompt.

  A trip begins at the selection menu, where efi_main clears gOperatingPayload.Name and
  calls SelectPayload, and goes on with the password of the selected payload until it is
  right or the user asks to go back to the menu, which begins the next trip. What the
  user types and what the volume and CheckPassword answer come with the trip. `selected`
  is read by no step: the selections that SelectPayload returned with so far.

  gOperatingPayload.Name is set for a partial match alone:
  - `selections_consistent_iff`: in every run, the selection SelectPayload returns with in
    a trip is consistent exactly when the trip has a single payload, or its first line
    that selects one has a single partial match before its first full one.
    `exact_name_leaves_name_null`: the whole name, typed, leaves it NULL.
-/
import Crows.Lib.Transition
import Crows.Boot.Select

namespace Crows.Boot.Menu

open Crows.Lib
open Crows.Boot.Input
open Crows.Boot.Select

variable {S : EfiStrings} {vol : Volume}

/-! ## main.c -/

def mftahMaxPwLen : UInt8 := 32

/-- L"b\0". -/
def back : Str16 := ⟨[0x62], by decide⟩

/-- GetPassword: its status and, unless the user goes back, the password with its length in bytes. -/
def getPassword (S : EfiStrings) (operatingPayload : OperatingPayload) :
    List Typed → Outcome (EfiStatus × Option (Str16 × UInt8))
  | [] => .waiting
  | typed :: lines =>
    match readChar16KeyboardInput mftahMaxPwLen typed with
    | .waiting => .waiting
    | .panicked => .panicked
    | .failed _ => .panicked
    | .line password passwordLength =>
      if passwordLength = 0 then getPassword S operatingPayload lines
      else if S.strnCmp password quit (2 * 2) = 0 then .shutDown
      else if operatingPayload.fromMultiSelect && decide (S.strnCmp password back (2 * 2) = 0) then
        .returned (.menuGoBack, none)
      else .returned (.success, some (password, passwordLength))

/-- The loop over passwords, one call of GetPassword for each list of lines. -/
def unlock (S : EfiStrings) (operatingPayload : OperatingPayload) (checkPassword : Str16 → UInt8 → EfiStatus) :
    List (List Typed) → Outcome EfiStatus
  | [] => .waiting
  | lines :: attempts =>
    (getPassword S operatingPayload lines).bind fun answer =>
      match answer.2 with
      | none => .returned answer.1
      | some (password, passwordLength) =>
        if checkPassword password passwordLength = .invalidPassword then
          unlock S operatingPayload checkPassword attempts
        else if (checkPassword password passwordLength).isError then .panicked
        else .returned .success

structure Trip where
  discovered : Except EfiStatus (List Handle)
  volume : Volume
  lines : List Typed
  attempts : List (List Typed)
  checkPassword : Handle → Str16 → UInt8 → EfiStatus

structure State where
  operatingPayload : OperatingPayload
  payloadFileHandle : Option Handle
  payloadFileStartingPosition : UInt64
  /-- At Label__PayloadSelectionMenu. -/
  atMenu : Bool
  selected : List (Trip × Selection)

/-- SelectPayload, called with the name cleared. -/
def select (S : EfiStrings) (t : Trip) (s : State) : Outcome Selection :=
  selectPayload S t.volume t.discovered t.lines { s.operatingPayload with name := none } s.payloadFileHandle

def next (S : EfiStrings) (s : State) (t : Trip) : State :=
  match select S t s with
  | .returned sel =>
    match unlock S sel.operatingPayload (t.checkPassword sel.payloadFileHandle) t.attempts with
    | .returned .menuGoBack => ⟨sel.operatingPayload, none, 0, true, s.selected ++ [(t, sel)]⟩
    | .returned _ =>
      ⟨{ sel.operatingPayload with name := none }, some sel.payloadFileHandle, sel.payloadFileStartingPosition, false,
        s.selected ++ [(t, sel)]⟩
    | _ =>
      ⟨sel.operatingPayload, some sel.payloadFileHandle, sel.payloadFileStartingPosition, false,
        s.selected ++ [(t, sel)]⟩
  | _ => { s with operatingPayload := { s.operatingPayload with name := none }, atMenu := false }

def initial : State := ⟨⟨none, false⟩, none, 0, true, []⟩

/-- efi_main from the menu on; an event is a trip. -/
def system (S : EfiStrings) : System State Trip := ⟨(· = initial), fun s _ => s.atMenu = true, next S⟩

/-! ## Consistent selections -/

/-- Name is the name of the selected payload, up to case, and FromMultiSelect says whether there was a choice. -/
structure Consistent (S : EfiStrings) (vol : Volume) (payloadHandles : List Handle) (sel : Selection) : Prop where
  name : ∃ name fileName, sel.operatingPayload.name = some name ∧ vol.libFileInfo sel.payloadFileHandle = some fileName ∧
    S.strUpr name = S.strUpr fileName
  discovered : sel.payloadFileHandle ∈ payloadHandles
  fromMultiSelect : sel.operatingPayload.fromMultiSelect = true ↔ 1 < payloadHandles.length

/-- The line ends the loop: it has a single partial match, or none and a full one. -/
def accepts (S : EfiStrings) (files : List (Handle × Str16)) (typed : Typed) : Bool :=
  match linePartials S files typed, lineFull S files typed with
  | [_], _ => true
  | [], some _ => true
  | _, _ => false

def onePartial (S : EfiStrings) (files : List (Handle × Str16)) (typed : Typed) : Bool :=
  decide ((linePartials S files typed).length = 1)

theorem mem_of_mem_linePartials {files : List (Handle × Str16)} {typed : Typed} {f : Handle × Str16}
    (h : f ∈ linePartials S files typed) : f ∈ files := by
  unfold linePartials at h
  split at h
  · split at h
    · exact absurd h List.not_mem_nil
    · exact (List.takeWhile_sublist _).mem (List.mem_filter.mp h).1
  · exact absurd h List.not_mem_nil

theorem mem_of_lineFull {files : List (Handle × Str16)} {typed : Typed} {f : Handle × Str16}
    (h : lineFull S files typed = some f) : f ∈ files := by
  unfold lineFull at h
  split at h
  · split at h
    · cases h
    · exact List.mem_of_find?_eq_some h
  · cases h

/-- A line that does not end the loop leaves the name cleared. -/
theorem settle_rejected {files : List (Handle × Str16)} {typed : Typed} (h : accepts S files typed = false)
    {c : Choice} (hvalid : c.isValidSelection = false) (hname : c.name = none) :
    (settle S c (linePartials S files typed) (lineFull S files typed)).isValidSelection = false ∧
      (settle S c (linePartials S files typed) (lineFull S files typed)).name = none := by
  unfold accepts at h
  match hpart : linePartials S files typed, hfull : lineFull S files typed with
  | [], none => exact ⟨hvalid, hname⟩
  | [], some f => simp [hpart, hfull] at h
  | [f], full => simp [hpart] at h
  | _ :: _ :: _, _ => exact ⟨hvalid, rfl⟩

/-- A line that ends it selects a payload, and names it if the match was partial. -/
theorem settle_accepted {files : List (Handle × Str16)} {typed : Typed} (h : accepts S files typed = true)
    {c : Choice} (hname : c.name = none) :
    ∃ f ∈ files, settle S c (linePartials S files typed) (lineFull S files typed) =
      ⟨true, some f.1, if onePartial S files typed then some (S.strUpr f.2) else none⟩ := by
  unfold accepts at h
  unfold onePartial
  match hpart : linePartials S files typed, hfull : lineFull S files typed with
  | [], none => simp [hpart, hfull] at h
  | [], some f => exact ⟨f, mem_of_lineFull hfull, by simp [settle, hname]⟩
  | [f], full =>
    have hmem : f ∈ linePartials S files typed := by
      rw [hpart]
      exact List.mem_singleton_self f
    exact ⟨f, mem_of_mem_linePartials hmem, by simp [settle]⟩
  | _ :: _ :: _, _ => simp [hpart] at h

/-- The loop ends with what the first line that ends it selects. -/
theorem selectLoop_returned {payloadHandles : List Handle} {lines : List Typed} {c c' : Choice}
    (hvalid : c.isValidSelection = false) (hname : c.name = none)
    (h : selectLoop S vol payloadHandles lines c = .returned c') :
    ∃ typed, lines.find? (accepts S (vol.files payloadHandles)) = some typed ∧
      ∃ f ∈ vol.files payloadHandles,
        c' = ⟨true, some f.1,
          if onePartial S (vol.files payloadHandles) typed then some (S.strUpr f.2) else none⟩ := by
  induction lines generalizing c with
  | nil =>
    simp only [selectLoop, hvalid, Bool.false_eq_true, if_false] at h
    cases h
  | cons typed lines ih =>
    simp only [selectLoop, hvalid, Bool.false_eq_true, if_false] at h
    obtain ⟨c₁, hround, hrest⟩ := Outcome.bind_returned h
    have hsettle := selectRound_returned hround
    cases haccepts : accepts S (vol.files payloadHandles) typed with
    | true =>
      obtain ⟨f, hf, heq⟩ := settle_accepted haccepts hname
      rw [heq] at hsettle
      have hdone : selectLoop S vol payloadHandles lines c₁ = .returned c₁ := by
        rw [hsettle]
        cases lines with
        | nil => rfl
        | cons _ _ => rfl
      rw [hdone] at hrest
      refine ⟨typed, List.find?_cons_of_pos haccepts, f, hf, ?_⟩
      rw [← Outcome.returned.inj hrest, hsettle]
    | false =>
      obtain ⟨hvalid₁, hname₁⟩ := settle_rejected haccepts hvalid hname
      rw [← hsettle] at hvalid₁ hname₁
      rw [List.find?_cons_of_neg (by simp [haccepts])]
      exact ih hvalid₁ hname₁ hrest

/-! ## Every trip -/

/-- The choice among several payloads, of which `files` has one. -/
theorem selectLoop_chosen {payloadHandles : List Handle} {lines : List Typed} {name : Option Str16}
    {payloadFileHandle : Option Handle} {chosen : OperatingPayload × Option Handle} (hname : name = none)
    (h : ((selectLoop S vol payloadHandles lines ⟨false, payloadFileHandle, name⟩).bind fun c =>
      .returned (⟨c.name, true⟩, c.payloadFileHandle)) = .returned chosen) :
    ∃ typed, lines.find? (accepts S (vol.files payloadHandles)) = some typed ∧
      ∃ f ∈ vol.files payloadHandles,
        chosen = (⟨if onePartial S (vol.files payloadHandles) typed then some (S.strUpr f.2) else none, true⟩,
          some f.1) := by
  obtain ⟨c, hc, hret⟩ := Outcome.bind_returned h
  obtain ⟨typed, hfind, f, hf, heq⟩ := selectLoop_returned rfl hname hc
  have hchosen := Outcome.returned.inj hret
  rw [heq] at hchosen
  exact ⟨typed, hfind, f, hf, hchosen.symm⟩

/-- SelectPayload returns with a payload it chose among several, or with the only one there is. -/
theorem selectPayload_returned {discovered : Except EfiStatus (List Handle)} {lines : List Typed}
    {operatingPayload : OperatingPayload} {payloadFileHandle : Option Handle} {sel : Selection}
    (hname : operatingPayload.name = none)
    (h : selectPayload S vol discovered lines operatingPayload payloadFileHandle = .returned sel) :
    (∃ fileName payloadHandles, discovered = .ok payloadHandles ∧ payloadHandles = [sel.payloadFileHandle] ∧
      vol.libFileInfo sel.payloadFileHandle = some fileName ∧ sel.operatingPayload = ⟨some fileName, false⟩) ∨
    ∃ payloadHandles, discovered = .ok payloadHandles ∧ 1 < payloadHandles.length ∧
      ∃ typed, lines.find? (accepts S (vol.files payloadHandles)) = some typed ∧
        ∃ f ∈ vol.files payloadHandles, sel.payloadFileHandle = f.1 ∧
          sel.operatingPayload =
            ⟨if onePartial S (vol.files payloadHandles) typed then some (S.strUpr f.2) else none, true⟩ := by
  obtain ⟨chosen, hchosen, hpos⟩ := Outcome.bind_returned h
  have hsel : chosen.2 = some sel.payloadFileHandle ∧ sel.operatingPayload = chosen.1 := by
    cases hh : chosen.2 with
    | none =>
      simp only [hh] at hpos
      cases hpos
    | some handle =>
      simp only [hh] at hpos
      split at hpos
      · cases hpos
      · rw [← Outcome.returned.inj hpos]
        exact ⟨rfl, rfl⟩
  have hmulti : ∀ payloadHandles : List Handle,
      ((selectLoop S vol payloadHandles lines ⟨false, payloadFileHandle, operatingPayload.name⟩).bind fun c =>
        .returned (⟨c.name, true⟩, c.payloadFileHandle)) = .returned chosen →
      ∃ typed, lines.find? (accepts S (vol.files payloadHandles)) = some typed ∧
        ∃ f ∈ vol.files payloadHandles, sel.payloadFileHandle = f.1 ∧
          sel.operatingPayload =
            ⟨if onePartial S (vol.files payloadHandles) typed then some (S.strUpr f.2) else none, true⟩ := by
    intro payloadHandles hloop
    obtain ⟨typed, hfind, f, hf, heq⟩ := selectLoop_chosen hname hloop
    rw [heq] at hsel
    exact ⟨typed, hfind, f, hf, (Option.some.inj hsel.1).symm, hsel.2⟩
  cases discovered with
  | error status =>
    simp only [choosePayload, discoverPayloads] at hchosen
    split at hchosen
    · obtain ⟨-, -, f, hf, -⟩ := hmulti [] hchosen
      exact absurd hf List.not_mem_nil
    · cases hchosen
    · cases hchosen
  | ok payloadHandles =>
    match payloadHandles with
    | [] => cases hchosen
    | [handle] =>
      simp only [choosePayload, discoverPayloads, List.length_singleton] at hchosen
      cases hinfo : vol.libFileInfo handle with
      | none =>
        rw [hinfo] at hchosen
        cases hchosen
      | some fileName =>
        rw [hinfo] at hchosen
        rw [← Outcome.returned.inj hchosen] at hsel
        have hhandle : sel.payloadFileHandle = handle := (Option.some.inj hsel.1).symm
        refine Or.inl ⟨fileName, [handle], rfl, ?_, ?_, hsel.2⟩
        · rw [hhandle]
        · rw [hhandle]
          exact hinfo
    | h₁ :: h₂ :: hs => exact Or.inr ⟨h₁ :: h₂ :: hs, rfl, by simp, hmulti _ hchosen⟩

/-- The selection of a trip is consistent. -/
def SelectsConsistently (S : EfiStrings) (t : Trip) (sel : Selection) : Prop :=
  ∃ payloadHandles, t.discovered = .ok payloadHandles ∧ Consistent S t.volume payloadHandles sel

/-- There is a single payload, or the selecting line of the trip matches partially. -/
def NamesSelection (S : EfiStrings) (t : Trip) : Prop :=
  ∃ payloadHandles, t.discovered = .ok payloadHandles ∧
    (payloadHandles.length = 1 ∨
      ∃ typed, t.lines.find? (accepts S (t.volume.files payloadHandles)) = some typed ∧
        onePartial S (t.volume.files payloadHandles) typed = true)

theorem select_consistent_iff (hS : S.Documented) {t : Trip} {s : State} {sel : Selection}
    (hret : select S t s = .returned sel) : SelectsConsistently S t sel ↔ NamesSelection S t := by
  rcases selectPayload_returned rfl hret with ⟨fileName, handles, hdisc, hsingle, hinfo, hop⟩ |
    ⟨handles, hdisc, hlen, typed, hfind, f, hf, hhandle, hop⟩
  · refine iff_of_true ⟨handles, hdisc, ?_⟩ ⟨handles, hdisc, Or.inl (by rw [hsingle]; rfl)⟩
    refine ⟨⟨fileName, fileName, by rw [hop], hinfo, rfl⟩, by rw [hsingle]; exact List.mem_singleton_self _, ?_⟩
    rw [hop, hsingle]
    simp
  · obtain ⟨hmem, hinfo⟩ := Volume.mem_files hf
    cases hpart : onePartial S (t.volume.files handles) typed with
    | true =>
      refine iff_of_true ⟨handles, hdisc, ?_⟩ ⟨handles, hdisc, Or.inr ⟨typed, hfind, hpart⟩⟩
      rw [hpart] at hop
      refine ⟨⟨S.strUpr f.2, f.2, by rw [hop]; rfl, by rw [hhandle]; exact hinfo, ?_⟩, by rw [hhandle]; exact hmem, ?_⟩
      · apply NulString.ext_chars
        show ((f.2.chars.map S.toUpper).map S.toUpper) = f.2.chars.map S.toUpper
        rw [List.map_map]
        exact List.map_congr_left fun c _ => hS.toUpper c
      · rw [hop]
        simp [hlen]
    | false =>
      rw [hpart] at hop
      refine iff_of_false ?_ ?_
      · intro hcon
        obtain ⟨_, -, hconsistent⟩ := hcon
        obtain ⟨name, -, hname, -⟩ := hconsistent.name
        rw [hop] at hname
        cases hname
      · intro hcond
        obtain ⟨handles', hdisc', hcase⟩ := hcond
        have hsame : handles' = handles := Except.ok.inj (hdisc'.symm.trans hdisc)
        subst hsame
        rcases hcase with hone | ⟨typed', hfind', hpart'⟩
        · omega
        · have hline : typed' = typed := Option.some.inj (hfind'.symm.trans hfind)
          rw [hline, hpart] at hpart'
          cases hpart'

/-- A trip adds at most the selection it returns with. -/
theorem next_selected {s : State} {t : Trip} {x : Trip × Selection} (h : x ∈ (next S s t).selected) :
    x ∈ s.selected ∨ x.1 = t ∧ select S t s = .returned x.2 := by
  unfold next at h
  cases hsel : select S t s with
  | returned sel =>
    have hmem : x ∈ s.selected ++ [(t, sel)] := by
      simp only [hsel] at h
      split at h
      · exact h
      · exact h
      · exact h
    rcases List.mem_append.mp hmem with hold | hnew
    · exact Or.inl hold
    · rw [List.mem_singleton] at hnew
      subst hnew
      exact Or.inr ⟨rfl, rfl⟩
  | panicked =>
    simp only [hsel] at h
    exact Or.inl h
  | shutDown =>
    simp only [hsel] at h
    exact Or.inl h
  | faulted =>
    simp only [hsel] at h
    exact Or.inl h
  | waiting =>
    simp only [hsel] at h
    exact Or.inl h

/-- In every run, a trip's selection is consistent exactly when there is a single payload or the selecting line
    matches partially. -/
theorem selections_consistent_iff (hS : S.Documented) {s : State} (hs : Reach (system S) (fun _ _ => True) s) :
    ∀ x ∈ s.selected, (SelectsConsistently S x.1 x.2 ↔ NamesSelection S x.1) := by
  refine Reach.invariant (C := fun _ _ => True)
    (I := fun s => ∀ x ∈ s.selected, (SelectsConsistently S x.1 x.2 ↔ NamesSelection S x.1)) ?_ ?_ hs
  · intro s₀ hinit x hx
    have hempty : s₀ = initial := hinit
    rw [hempty] at hx
    exact absurd hx List.not_mem_nil
  · intro u t _ hu _ _ x hx
    rcases next_selected hx with hold | ⟨htrip, hret⟩
    · exact hu x hold
    · rw [htrip]
      exact select_consistent_iff hS hret

/-! ## Two trips -/

/-- The line is begun, its second character is deleted, and it is ended. -/
def typedAndDeleted (c d : Char16) : Typed :=
  ⟨.success, [press c, press d, press backspace, press carriageReturn]⟩

/-- "b." with the point deleted again, and back to the menu. -/
def partialTrip : Trip where
  discovered := .ok [1, 2]
  volume := smallVolume
  lines := [typedAndDeleted 0x62 0x2E]
  attempts := [[typedLine back.chars]]
  checkPassword _ _ _ := .invalidPassword

/-- "b.crows", with the password "x". -/
def exactTrip : Trip where
  discovered := .ok [1, 2]
  volume := smallVolume
  lines := [typedLine lowerName.chars]
  attempts := [[typedLine [0x78]]]
  checkPassword _ _ _ := .success

/-- The state after both trips. -/
theorem twoTrips_reach : Reach (system gnuEfiStrings) (fun _ _ => True)
    ([partialTrip, exactTrip].foldl (next gnuEfiStrings) initial) :=
  Reach.of_valid rfl ⟨rfl, trivial, rfl, trivial, trivial⟩

theorem selections_consistent_iff_twoTrips :
    (partialTrip, ⟨⟨some bName, true⟩, 2, 0⟩) ∈ ([partialTrip, exactTrip].foldl (next gnuEfiStrings) initial).selected ∧
      (SelectsConsistently gnuEfiStrings partialTrip ⟨⟨some bName, true⟩, 2, 0⟩ ↔
        NamesSelection gnuEfiStrings partialTrip) := by
  have hmem : (partialTrip, ⟨⟨some bName, true⟩, 2, 0⟩) ∈
      ([partialTrip, exactTrip].foldl (next gnuEfiStrings) initial).selected := List.mem_cons_self
  exact ⟨hmem, selections_consistent_iff gnuEfiStrings_documented twoTrips_reach _ hmem⟩

/-- A payload selected by its whole name, with a NULL name to show at the password prompt. -/
theorem exact_name_leaves_name_null :
    ∃ (S : EfiStrings) (s : State), S.Documented ∧ Reach (system S) (fun _ _ => True) s ∧
      ∃ x ∈ s.selected, x.2.operatingPayload.name = none ∧ ¬ SelectsConsistently S x.1 x.2 := by
  refine ⟨gnuEfiStrings, [partialTrip, exactTrip].foldl (next gnuEfiStrings) initial, gnuEfiStrings_documented,
    twoTrips_reach, (exactTrip, ⟨⟨none, true⟩, 2, 0⟩), ?_, rfl, ?_⟩
  · exact List.mem_cons_of_mem _ (List.mem_singleton_self _)
  · intro h
    obtain ⟨_, -, hconsistent⟩ := h
    obtain ⟨name, -, hname, -⟩ := hconsistent.name
    cases hname

end Crows.Boot.Menu
