/-
  Crows.Boot.Jump — JumpToRamdisk: from which volume the loader boots.

  The loader asks the firmware for every handle with a file system, goes through them in
  the firmware's order and starts the boot image of each volume that has the canary file.
  A volume is given by the firmware's answers to the calls made on it, and by whether it
  is the ramdisk that was registered just before: nothing in the loop asks for that.

  Proved, for every list of handles, in any order and with any answers:
  - `jump_starts_ramdisk_iff`: each image started is the ramdisk's exactly when none of
    the volumes the loop comes to, bar the ramdisk's, has both a canary and an image that
    the firmware loads (`Reaches`).
  - `foreign_canary_boots`: a stick with a canary, listed before the ramdisk.
-/
import Crows.Boot.Efi

namespace Crows.Boot.Jump

open Crows.Boot

/-- A handle with a file system, and what the firmware answers to the calls on it. -/
structure FileSystem where
  isRamdisk : Bool
  handleProtocol : EfiStatus
  openVolume : EfiStatus
  /-- The Open of CROWS.CANARY in the volume's root. -/
  openCanary : EfiStatus
  /-- LoadImage of the boot executable by this handle's device path. -/
  loadImage : EfiStatus
  loadedImageProtocol : EfiStatus
  /-- What StartImage returns, if the image gives up control again. -/
  startImage : Option EfiStatus

/-- One turn of the loop. -/
inductive Attempt where
  | returns (status : EfiStatus)
  | passes
  | starts (startImage : Option EfiStatus)

def tryHandle (fs : FileSystem) : Attempt :=
  if fs.handleProtocol.isError then .returns fs.handleProtocol
  else if fs.openVolume.isError then .returns fs.openVolume
  else if fs.openCanary.isError ∧ fs.openCanary ≠ .notFound then .returns fs.openCanary
  else if .success = fs.openCanary then
    if fs.loadImage.isError then .returns fs.loadImage
    else if fs.loadedImageProtocol.isError then .returns fs.loadedImageProtocol
    else .starts fs.startImage
  else .passes

/-- The volumes whose images were started, in order, and the status that JumpToRamdisk returns, if any. -/
structure JumpRun where
  started : List FileSystem
  status : Option EfiStatus

def jumpFrom : List FileSystem → List FileSystem → JumpRun
  | [], started => ⟨started, some .success⟩
  | fs :: handles, started =>
    match tryHandle fs with
    | .returns status => ⟨started, some status⟩
    | .passes => jumpFrom handles started
    | .starts none => ⟨started ++ [fs], none⟩
    | .starts (some status) =>
      if status.isError then ⟨started ++ [fs], some status⟩ else jumpFrom handles (started ++ [fs])

/-- What LocateHandleBuffer answers for each of the three protocols, and the file systems it finds. -/
structure Located where
  blockIo : EfiStatus
  diskIo : EfiStatus
  simpleFileSystem : EfiStatus
  handles : List FileSystem

def jumpToRamdisk (located : Located) : JumpRun :=
  if located.blockIo.isError then ⟨[], some located.blockIo⟩
  else if located.diskIo.isError then ⟨[], some located.diskIo⟩
  else if located.simpleFileSystem.isError then ⟨[], some located.simpleFileSystem⟩
  else jumpFrom located.handles []

/-! ## What happens at one volume -/

/-- The volume is opened and the search for the canary is answered. -/
structure FileSystem.Opens (fs : FileSystem) : Prop where
  handleProtocol : fs.handleProtocol.isError = false
  openVolume : fs.openVolume.isError = false

/-- The volume has the canary and a boot image that is loaded. -/
structure FileSystem.Boots (fs : FileSystem) : Prop extends fs.Opens where
  canary : fs.openCanary = .success
  image : fs.loadImage.isError = false
  protocol : fs.loadedImageProtocol.isError = false

/-- The volume has no canary, as far as the loop can tell. -/
structure FileSystem.Lacks (fs : FileSystem) : Prop extends fs.Opens where
  canary : fs.openCanary ≠ .success
  answer : fs.openCanary.isError = false ∨ fs.openCanary = .notFound

/-- The loop goes on behind the volume: it has no canary, or its image returns without an error. -/
def FileSystem.LetsOn (fs : FileSystem) : Prop :=
  fs.Lacks ∨ fs.Boots ∧ ∃ status, fs.startImage = some status ∧ status.isError = false

theorem not_letsOn {fs : FileSystem} (hlacks : ¬ fs.Lacks)
    (hback : fs.Boots → ¬ ∃ status, fs.startImage = some status ∧ status.isError = false) : ¬ fs.LetsOn := by
  intro h
  rcases h with h | h
  · exact hlacks h
  · exact hback h.1 h.2

/-- What a turn of the loop can do. -/
theorem tryHandle_cases (fs : FileSystem) :
    (∃ status, tryHandle fs = .returns status ∧ ¬ fs.Boots ∧ ¬ fs.Lacks) ∨
    (tryHandle fs = .passes ∧ ¬ fs.Boots ∧ fs.Lacks) ∨
    (tryHandle fs = .starts fs.startImage ∧ fs.Boots ∧ ¬ fs.Lacks) := by
  unfold tryHandle
  cases hprotocol : fs.handleProtocol.isError with
  | true =>
    refine Or.inl ⟨_, if_pos rfl, ?_, ?_⟩ <;> intro h <;> simp [h.handleProtocol] at hprotocol
  | false =>
    cases hvolume : fs.openVolume.isError with
    | true =>
      refine Or.inl ⟨fs.openVolume, by simp, ?_, ?_⟩ <;> intro h <;> simp [h.openVolume] at hvolume
    | false =>
      by_cases hcanary : fs.openCanary = .success
      · have hlacks : ¬ fs.Lacks := fun h => h.canary hcanary
        cases himage : fs.loadImage.isError with
        | true =>
          refine Or.inl ⟨fs.loadImage, by simp [hcanary, EfiStatus.isError], ?_, hlacks⟩
          intro h
          simp [h.image] at himage
        | false =>
          cases hloaded : fs.loadedImageProtocol.isError with
          | true =>
            refine Or.inl ⟨fs.loadedImageProtocol, by simp [hcanary, EfiStatus.isError], ?_, hlacks⟩
            intro h
            simp [h.protocol] at hloaded
          | false =>
            refine Or.inr (Or.inr ⟨by simp [hcanary, EfiStatus.isError], ?_, hlacks⟩)
            exact ⟨⟨hprotocol, hvolume⟩, hcanary, himage, hloaded⟩
      · have hboots : ¬ fs.Boots := fun h => hcanary h.canary
        by_cases herror : fs.openCanary.isError = true ∧ fs.openCanary ≠ .notFound
        · refine Or.inl ⟨fs.openCanary, by simp [herror], hboots, ?_⟩
          intro h
          rcases h.answer with hok | hmissing
          · exact absurd (hok.symm.trans herror.1) (by decide)
          · exact herror.2 hmissing
        · refine Or.inr (Or.inl ⟨by simp [herror, Ne.symm hcanary], hboots, ⟨hprotocol, hvolume⟩, hcanary, ?_⟩)
          by_cases hmissing : fs.openCanary = .notFound
          · exact Or.inr hmissing
          · exact Or.inl (by simpa [hmissing] using herror)

/-! ## The whole list -/

/-- The loop comes to the volume, passing each of those before it. -/
def ComesTo (handles : List FileSystem) (fs : FileSystem) : Prop :=
  ∃ front back, handles = front ++ fs :: back ∧ ∀ g ∈ front, g.LetsOn

theorem comesTo_cons {fs g : FileSystem} {handles : List FileSystem} :
    ComesTo (g :: handles) fs ↔ fs = g ∨ g.LetsOn ∧ ComesTo handles fs := by
  constructor
  · intro h
    obtain ⟨front, back, heq, hfront⟩ := h
    cases front with
    | nil => exact Or.inl (List.cons.inj heq).1.symm
    | cons f front =>
      obtain ⟨hg, hrest⟩ := List.cons.inj heq
      subst hg
      exact Or.inr ⟨hfront g List.mem_cons_self, front, back, hrest, fun f hf => hfront f (List.mem_cons_of_mem g hf)⟩
  · intro h
    rcases h with heq | hrest
    · subst heq
      exact ⟨[], handles, rfl, fun _ hf => absurd hf List.not_mem_nil⟩
    · obtain ⟨hg, front, back, heq, hfront⟩ := hrest
      refine ⟨g :: front, back, by rw [heq, List.cons_append], ?_⟩
      intro f hf
      rcases List.mem_cons.mp hf with hhead | htail
      · exact hhead ▸ hg
      · exact hfront f htail

/-- One volume: its image is started if it boots, and the loop goes on behind it or ends there. -/
theorem jumpFrom_cons (g : FileSystem) (handles started : List FileSystem) :
    ∃ started', (∀ fs, fs ∈ started' ↔ fs ∈ started ∨ fs = g ∧ g.Boots) ∧
      (g.LetsOn ∧ jumpFrom (g :: handles) started = jumpFrom handles started' ∨
        ¬ g.LetsOn ∧ (jumpFrom (g :: handles) started).started = started') := by
  rcases tryHandle_cases g with hreturns | hpasses | hstarts
  · obtain ⟨status, hturn, hboots, hlacks⟩ := hreturns
    have hstays : ¬ g.LetsOn := not_letsOn hlacks fun h => absurd h hboots
    exact ⟨started, by simp [hboots], Or.inr ⟨hstays, by simp only [jumpFrom, hturn]⟩⟩
  · obtain ⟨hturn, hboots, hlacks⟩ := hpasses
    exact ⟨started, by simp [hboots], Or.inl ⟨Or.inl hlacks, by simp only [jumpFrom, hturn]⟩⟩
  · obtain ⟨hturn, hboots, hlacks⟩ := hstarts
    refine ⟨started ++ [g], by simp [hboots], ?_⟩
    by_cases hback : ∃ status, g.startImage = some status ∧ status.isError = false
    · -- the image gives up control without an error, and the loop goes on
      obtain ⟨status, himage, hok⟩ := hback
      exact Or.inl ⟨Or.inr ⟨hboots, status, himage, hok⟩, by simp [jumpFrom, hturn, himage, hok]⟩
    · refine Or.inr ⟨not_letsOn hlacks fun _ => hback, ?_⟩
      cases himage : g.startImage with
      | none => simp [jumpFrom, hturn, himage]
      | some status =>
        have herror : status.isError = true := by
          by_contra hok
          exact hback ⟨status, himage, by simpa using hok⟩
        simp [jumpFrom, hturn, himage, herror]

/-- The images started are those of the volumes that the loop comes to and that boot. -/
theorem mem_jumpFrom {fs : FileSystem} {handles started : List FileSystem} :
    fs ∈ (jumpFrom handles started).started ↔ fs ∈ started ∨ ComesTo handles fs ∧ fs.Boots := by
  induction handles generalizing started with
  | nil =>
    have hnone : ¬ ComesTo [] fs := by
      intro h
      obtain ⟨front, back, heq, -⟩ := h
      cases front <;> cases heq
    simp [jumpFrom, hnone]
  | cons g handles ih =>
    have hboots : fs = g ∧ g.Boots ↔ fs = g ∧ fs.Boots := and_congr_right fun heq => by rw [heq]
    obtain ⟨started', hmem, ⟨hon, hrun⟩ | ⟨hstays, hrun⟩⟩ := jumpFrom_cons g handles started
    · rw [comesTo_cons, hrun, ih, hmem, hboots, or_assoc, ← or_and_right]
      simp only [hon, true_and]
    · rw [comesTo_cons, hrun, hmem, hboots]
      simp only [hstays, false_and, or_false]

/-! ## Where the loader boots from -/

/-- The firmware answers all three searches. -/
structure Located.Answers (located : Located) : Prop where
  blockIo : located.blockIo.isError = false
  diskIo : located.diskIo.isError = false
  simpleFileSystem : located.simpleFileSystem.isError = false

theorem mem_jumpToRamdisk {located : Located} {fs : FileSystem} :
    fs ∈ (jumpToRamdisk located).started ↔
      located.Answers ∧ ComesTo located.handles fs ∧ fs.Boots := by
  unfold jumpToRamdisk
  by_cases hanswers : located.Answers
  · have hempty : fs ∉ ([] : List FileSystem) := List.not_mem_nil
    simp only [hanswers.blockIo, hanswers.diskIo, hanswers.simpleFileSystem, Bool.false_eq_true, if_false]
    rw [mem_jumpFrom]
    simp [hanswers]
  · constructor
    · intro h
      exfalso
      split at h
      · cases h
      · split at h
        · cases h
        · split at h
          · cases h
          · rename_i hblock hdisk hfiles
            exact hanswers ⟨by simpa using hblock, by simpa using hdisk, by simpa using hfiles⟩
    · intro h
      exact absurd h.1 hanswers

/-- A volume other than the ramdisk that the loop comes to and boots from. -/
def Reaches (located : Located) : Prop :=
  located.Answers ∧ ∃ fs, ComesTo located.handles fs ∧ fs.Boots ∧ fs.isRamdisk = false

/-- Each image that JumpToRamdisk starts comes from the ramdisk exactly when no other volume that the loop
    comes to has a canary and a boot image. -/
theorem jump_starts_ramdisk_iff (located : Located) :
    (∀ fs ∈ (jumpToRamdisk located).started, fs.isRamdisk = true) ↔ ¬ Reaches located := by
  constructor
  · intro h hreaches
    obtain ⟨hanswers, fs, hcomes, hboots, hforeign⟩ := hreaches
    have hram := h fs (mem_jumpToRamdisk.mpr ⟨hanswers, hcomes, hboots⟩)
    exact absurd (hforeign.symm.trans hram) (by decide)
  · intro h fs hfs
    obtain ⟨hanswers, hcomes, hboots⟩ := mem_jumpToRamdisk.mp hfs
    by_contra hforeign
    exact h ⟨hanswers, fs, hcomes, hboots, by simpa using hforeign⟩

/-- A volume that the firmware reads, with the canary and a boot image. -/
def bootVolume (isRamdisk : Bool) : FileSystem :=
  ⟨isRamdisk, .success, .success, .success, .success, .success, none⟩

/-- A stick with a canary and an image of its own, which the firmware lists before the ramdisk: its image is
    started, and the ramdisk's is not. -/
theorem foreign_canary_boots :
    (jumpToRamdisk ⟨.success, .success, .success, [bootVolume false, bootVolume true]⟩).started = [bootVolume false] ∧
    ¬ ∀ fs ∈ (jumpToRamdisk ⟨.success, .success, .success, [bootVolume false, bootVolume true]⟩).started,
      fs.isRamdisk = true := by
  refine ⟨rfl, ?_⟩
  intro h
  exact absurd (h (bootVolume false) List.mem_cons_self) (by decide)

end Crows.Boot.Jump
