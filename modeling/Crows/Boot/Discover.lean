/-
  Crows.Boot.Discover — DiscoverPayloads, the payloads in the root directory.

  The loop reads the directory record by record. A record that is larger than the buffer
  is not read: the firmware leaves the size between what it was given and what it needs,
  and the loop doubles it, allocates a new buffer and tries again. The end of the listing
  is a size of 0. A name that ends in the extension, once that many of its characters are
  turned into upper case in place, is opened by the name as it then is. The buffer is
  taken to be allocated again each time.

  Proved, for every listing and every such firmware:
  - `discover_ends`: the loop ends. A record takes at most 51 retries, since its size and
    twice its size are numbers of 64 bits.
  - `hasRoom_turn`: no Read is asked for more than the buffer has room for.
  - `discoverPayloads_finds`: when everything before the loop and every Open succeeds, the
    first 32 payloads of the listing are found, in its order. `takesName_iff` is that the
    test of the upper-case slice is that of the name ignoring case.
-/
import Crows.Boot.LoaderHash
import Crows.Boot.Select

namespace Crows.Boot.Discover

open Crows.Lib
open Crows.Boot.Payload (LoaderFirmware LoaderHashed FileBytes hashLoader)
open Crows.Boot.Select (EfiStrings Handle asciiUpper gnuEfiStrings gnuEfiStrings_documented)

/-! ## What DiscoverPayloads takes from gnu-efi and the firmware -/

structure LoaderStrings extends EfiStrings where
  strCmp : Str16 → Str16 → Int

structure LoaderStrings.Documented (S : LoaderStrings) : Prop extends EfiStrings.Documented S.toEfiStrings where
  strCmp : ∀ s t, S.strCmp s t = 0 ↔ s = t
  ascii : ∀ c : Char16, c.toNat < 128 → S.toUpper c = asciiUpper c

def strLen (s : Str16) : Nat := s.length

def strSize (s : Str16) : Nat := (strLen s + 1) * 2

/-- SIZE_OF_EFI_FILE_INFO, without the name. -/
def sizeOfEfiFileInfo : Nat := 80

/-- One entry of a directory. Its record has the name at its end, and twice its size can be allocated. -/
structure DirEntry where
  fileName : Str16
  size : UInt64
  /-- What Open gives for it. -/
  handle : Handle
  holds_name : sizeOfEfiFileInfo + strSize fileName ≤ size.toNat
  size_lt : size.toNat < 2 ^ 63

/-- The root directory, as an open volume handle reads it. -/
structure RootVolume where
  listing : List DirEntry
  openFile : Str16 → EfiStatus × Handle
  /-- The status of a Read at a position where the buffer is large enough. -/
  readStatus : Nat → EfiStatus
  readStatus_ne : ∀ position, readStatus position ≠ .bufferTooSmall
  /-- *BufferSize after EFI_BUFFER_TOO_SMALL. -/
  tooSmall : DirEntry → UInt64 → UInt64
  le_tooSmall : ∀ e size, size < e.size → size ≤ tooSmall e size
  tooSmall_le : ∀ e size, size < e.size → tooSmall e size ≤ e.size

/-- What a Read leaves: the status, *BufferSize, the name in FileInfo and the position. -/
structure DirRead where
  status : EfiStatus
  bufferSize : UInt64
  fileName : Str16
  position : Nat

def RootVolume.read (vol : RootVolume) (position : Nat) (bufferSize : UInt64) : DirRead :=
  if (vol.readStatus position).isError then ⟨vol.readStatus position, bufferSize, NulString.empty, position⟩
  else
    match vol.listing[position]? with
    | none => ⟨vol.readStatus position, 0, NulString.empty, position⟩
    | some e =>
      if bufferSize < e.size then ⟨.bufferTooSmall, vol.tooSmall e bufferSize, NulString.empty, position⟩
      else ⟨vol.readStatus position, e.size, e.fileName, position + 1⟩

/-! ## loader.c -/

def mftahMaxPayloads : Nat := 32

/-- L".CROWS". -/
def bootPayloadExtensionPattern : Str16 := ⟨[0x2E, 0x43, 0x52, 0x4F, 0x57, 0x53], by decide⟩

/-- `FileInfoSize` at first, and after each record. -/
def fileInfoSize0 : UInt64 := 0x1000

/-- The variables of the loop; HandleCount is the number of the handles. -/
structure DiscoverLoop where
  status : EfiStatus
  payloadHandles : List Handle
  fileInfoSize : UInt64
  /-- The bytes that FileInfo was allocated with. -/
  fileInfo : UInt64
  position : Nat

/-- Where the slice begins that is compared with the extension. -/
def sliceOffset (fileName : Str16) : Nat := strLen fileName - strLen bootPayloadExtensionPattern

def slice (fileName : Str16) : Str16 :=
  ⟨fileName.chars.drop (sliceOffset fileName), fun h => fileName.nul_notMem (List.mem_of_mem_drop h)⟩

/-- The name after StrUpr of the slice in it. -/
def uprSlice (S : LoaderStrings) (fileName : Str16) : Str16 :=
  ⟨fileName.chars.take (sliceOffset fileName) ++ (S.strUpr (slice fileName)).chars, by
    intro h
    rcases List.mem_append.mp h with hstem | hslice
    · exact fileName.nul_notMem (List.mem_of_mem_take hstem)
    · exact (S.strUpr (slice fileName)).nul_notMem hslice⟩

/-- The test of the name in FileInfo. -/
def TakesName (S : LoaderStrings) (fileName : Str16) : Prop :=
  strSize bootPayloadExtensionPattern < strSize fileName ∧
    S.strCmp bootPayloadExtensionPattern (S.strUpr (slice fileName)) = 0

instance (S : LoaderStrings) (fileName : Str16) : Decidable (TakesName S fileName) :=
  inferInstanceAs (Decidable (_ ∧ _))

/-- One turn of the loop over the directory. -/
def discoverTurn (S : LoaderStrings) (vol : RootVolume) (s : DiscoverLoop) :
    Turn DiscoverLoop (Except DiscoverLoop DiscoverLoop) :=
  if s.payloadHandles.length < mftahMaxPayloads then
    let r := vol.read s.position s.fileInfoSize
    if r.status = .bufferTooSmall then
      .again ⟨r.status, s.payloadHandles, r.bufferSize <<< 1, r.bufferSize <<< 1, r.position⟩
    else if r.bufferSize = 0 then .done (.ok ⟨r.status, s.payloadHandles, r.bufferSize, s.fileInfo, r.position⟩)
    else if r.status.isError then
      .done (.error ⟨r.status, s.payloadHandles, r.bufferSize, s.fileInfo, r.position⟩)
    else if TakesName S r.fileName then
      let opened := vol.openFile (uprSlice S r.fileName)
      if opened.1.isError then
        .done (.error ⟨opened.1, s.payloadHandles, r.bufferSize, s.fileInfo, r.position⟩)
      else .again ⟨opened.1, s.payloadHandles ++ [opened.2], fileInfoSize0, s.fileInfo, r.position⟩
    else .again ⟨r.status, s.payloadHandles, fileInfoSize0, s.fileInfo, r.position⟩
  else .done (.ok s)

/-- Where the loop is entered; the status is replaced in its first turn. -/
def discoverStart : DiscoverLoop := ⟨.success, [], fileInfoSize0, fileInfoSize0, 0⟩

/-- A buffer that grows from 4 KiB is large enough before its size has 64 bits. -/
def discoverFuel (vol : RootVolume) : Nat := 64 * (vol.listing.length + 1)

/-- The firmware's answers to DiscoverPayloads before it reads the directory. -/
structure DiscoverFirmware where
  loadedImage : EfiStatus
  simpleFileSystem : EfiStatus
  openVolume : EfiStatus
  /-- *LoadedPayloadHandles and FileInfo are not NULL after AllocatePool. -/
  payloadHandles : Bool
  fileInfo : Bool
  loader : LoaderFirmware

/-- What a call leaves: the status, *LoadedPayloadHandles, *LoadedHandlesCount when it is set, and the hash. -/
structure Discovered where
  status : EfiStatus
  loadedPayloadHandles : List Handle
  loadedHandlesCount : Option Nat
  loadedLoaderHash : List UInt8

/-- The code for a number of handles. -/
def foundStatus : Nat → EfiStatus
  | 0 => .noPayloadFound
  | 1 => .singlePayloadFound
  | _ => .multiPayloadFound

/-- DiscoverPayloads; `wanted` says that LoadedPayloadHandles is not NULL. -/
def discoverPayloads (S : LoaderStrings) (M : MftahProtocol) (fw : DiscoverFirmware) (vol : RootVolume)
    (loader : FileBytes) (wanted : Bool) (hash0 : List UInt8) (mem : Mem) : Option Discovered :=
  if wanted = false then some ⟨.invalidParameter, [], none, hash0⟩
  else if fw.loadedImage.isError then some ⟨fw.loadedImage, [], none, hash0⟩
  else if fw.simpleFileSystem.isError then some ⟨fw.simpleFileSystem, [], none, hash0⟩
  else if fw.openVolume.isError then some ⟨fw.openVolume, [], none, hash0⟩
  else if fw.payloadHandles = false then some ⟨.outOfResources, [], none, hash0⟩
  else if fw.fileInfo = false then some ⟨.outOfResources, [], none, hash0⟩
  else
    let hash := (hashLoader M fw.loader loader hash0 mem).loadedLoaderHash
    (loop (discoverTurn S vol) (discoverFuel vol) discoverStart).map fun r =>
      match r with
      | .error s => ⟨s.status, s.payloadHandles, none, hash⟩
      | .ok s =>
        ⟨if s.status.isError then s.status else foundStatus s.payloadHandles.length, s.payloadHandles,
          some s.payloadHandles.length, hash⟩

/-! ## What one turn does -/

variable {S : LoaderStrings} {vol : RootVolume}

theorem RootVolume.read_end {position : Nat} (hready : (vol.readStatus position).isError = false)
    (hend : vol.listing[position]? = none) (bufferSize : UInt64) :
    vol.read position bufferSize = ⟨vol.readStatus position, 0, NulString.empty, position⟩ := by
  simp [RootVolume.read, hready, hend]

theorem RootVolume.read_tooSmall {position : Nat} {e : DirEntry} {bufferSize : UInt64}
    (hready : (vol.readStatus position).isError = false) (he : vol.listing[position]? = some e)
    (hsmall : bufferSize < e.size) :
    vol.read position bufferSize = ⟨.bufferTooSmall, vol.tooSmall e bufferSize, NulString.empty, position⟩ := by
  simp [RootVolume.read, hready, he, hsmall]

theorem RootVolume.read_entry {position : Nat} {e : DirEntry} {bufferSize : UInt64}
    (hready : (vol.readStatus position).isError = false) (he : vol.listing[position]? = some e)
    (hlarge : ¬ bufferSize < e.size) :
    vol.read position bufferSize = ⟨vol.readStatus position, e.size, e.fileName, position + 1⟩ := by
  simp [RootVolume.read, hready, he, hlarge]

theorem DirEntry.size_ne_zero (e : DirEntry) : e.size ≠ 0 := by
  intro hzero
  have hname := e.holds_name
  rw [hzero] at hname
  cases hname

/-- What a turn comes to. -/
inductive DiscoverTurn (S : LoaderStrings) (vol : RootVolume) (s : DiscoverLoop) :
    Turn DiscoverLoop (Except DiscoverLoop DiscoverLoop) → Prop where
  | full (hfull : mftahMaxPayloads ≤ s.payloadHandles.length) : DiscoverTurn S vol s (.done (.ok s))
  | readFails (r : Except DiscoverLoop DiscoverLoop) (hread : (vol.readStatus s.position).isError = true) :
      DiscoverTurn S vol s (.done r)
  | atEnd (hread : (vol.readStatus s.position).isError = false) (hend : vol.listing[s.position]? = none) :
      DiscoverTurn S vol s (.done (.ok ⟨vol.readStatus s.position, s.payloadHandles, 0, s.fileInfo, s.position⟩))
  | tooSmall (e : DirEntry) (hcap : s.payloadHandles.length < mftahMaxPayloads)
      (he : vol.listing[s.position]? = some e) (hsmall : s.fileInfoSize < e.size) :
      DiscoverTurn S vol s
        (.again ⟨.bufferTooSmall, s.payloadHandles, vol.tooSmall e s.fileInfoSize <<< 1,
          vol.tooSmall e s.fileInfoSize <<< 1, s.position⟩)
  | openFails (e : DirEntry) (r : DiscoverLoop) (he : vol.listing[s.position]? = some e)
      (hopen : (vol.openFile (uprSlice S e.fileName)).1.isError = true) : DiscoverTurn S vol s (.done (.error r))
  | opened (e : DirEntry) (hcap : s.payloadHandles.length < mftahMaxPayloads)
      (he : vol.listing[s.position]? = some e) (htakes : TakesName S e.fileName)
      (hopen : (vol.openFile (uprSlice S e.fileName)).1.isError = false) :
      DiscoverTurn S vol s
        (.again ⟨(vol.openFile (uprSlice S e.fileName)).1,
          s.payloadHandles ++ [(vol.openFile (uprSlice S e.fileName)).2], fileInfoSize0, s.fileInfo, s.position + 1⟩)
  | passed (e : DirEntry) (hcap : s.payloadHandles.length < mftahMaxPayloads)
      (hread : (vol.readStatus s.position).isError = false) (he : vol.listing[s.position]? = some e)
      (hleaves : ¬ TakesName S e.fileName) :
      DiscoverTurn S vol s
        (.again ⟨vol.readStatus s.position, s.payloadHandles, fileInfoSize0, s.fileInfo, s.position + 1⟩)

theorem discoverTurn_spec (S : LoaderStrings) (vol : RootVolume) (s : DiscoverLoop) :
    DiscoverTurn S vol s (discoverTurn S vol s) := by
  unfold discoverTurn
  split
  swap
  · rename_i hfull
    exact DiscoverTurn.full (Nat.le_of_not_lt hfull)
  rename_i hcap
  dsimp only
  cases hread : (vol.readStatus s.position).isError with
  | true =>
    have hfails : vol.read s.position s.fileInfoSize =
        ⟨vol.readStatus s.position, s.fileInfoSize, NulString.empty, s.position⟩ := if_pos hread
    simp only [hfails, vol.readStatus_ne, hread, if_false, if_true]
    split
    · exact DiscoverTurn.readFails _ hread
    · exact DiscoverTurn.readFails _ hread
  | false =>
    cases he : vol.listing[s.position]? with
    | none =>
      simp only [RootVolume.read_end hread he, vol.readStatus_ne, if_false, if_true]
      exact DiscoverTurn.atEnd hread he
    | some e =>
      by_cases hsmall : s.fileInfoSize < e.size
      · simp only [RootVolume.read_tooSmall hread he hsmall, if_true]
        exact DiscoverTurn.tooSmall e hcap he hsmall
      · simp only [RootVolume.read_entry hread he hsmall, vol.readStatus_ne, e.size_ne_zero, hread, if_false,
          Bool.false_eq_true]
        split
        · rename_i htakes
          split
          · rename_i hopen
            exact DiscoverTurn.openFails e _ he hopen
          · rename_i hopen
            exact DiscoverTurn.opened e hcap he htakes (Bool.eq_false_iff.mpr hopen)
        · rename_i hleaves
          exact DiscoverTurn.passed e hcap hread he hleaves

theorem discoverTurn_again {s s' : DiscoverLoop} (h : discoverTurn S vol s = .again s') :
    DiscoverTurn S vol s (.again s') :=
  h ▸ discoverTurn_spec S vol s

/-! ## The loop ends -/

/-- The size after a retry: twice what the firmware left, which 64 bits hold. -/
theorem toNat_retry (vol : RootVolume) {e : DirEntry} {size : UInt64} (h : size < e.size) :
    (vol.tooSmall e size <<< 1).toNat = 2 * (vol.tooSmall e size).toNat ∧
      size.toNat ≤ (vol.tooSmall e size).toNat ∧ (vol.tooSmall e size).toNat ≤ e.size.toNat := by
  have hle : size.toNat ≤ (vol.tooSmall e size).toNat := vol.le_tooSmall e size h
  have hneeds : (vol.tooSmall e size).toNat ≤ e.size.toNat := vol.tooSmall_le e size h
  have hlt := e.size_lt
  refine ⟨?_, hle, hneeds⟩
  rw [UInt64.toNat_shiftLeft]
  show (vol.tooSmall e size).toNat <<< 1 % 2 ^ 64 = _
  rw [Nat.shiftLeft_eq]
  omega

/-- A Read asks for 4 KiB at least, and for no more than there is room for. -/
structure HasRoom (s : DiscoverLoop) : Prop where
  first_le : fileInfoSize0 ≤ s.fileInfoSize
  size_le : s.fileInfoSize ≤ s.fileInfo

theorem hasRoom_turn {s s' : DiscoverLoop} (hs : HasRoom s) (h : discoverTurn S vol s = .again s') : HasRoom s' := by
  have hroom : fileInfoSize0 ≤ s.fileInfo := UInt64.le_trans hs.first_le hs.size_le
  cases discoverTurn_again h with
  | tooSmall e hcap he hsmall =>
    obtain ⟨hdouble, hle, -⟩ := toNat_retry vol hsmall
    refine ⟨?_, UInt64.le_refl _⟩
    have hfirst : fileInfoSize0.toNat ≤ s.fileInfoSize.toNat := hs.first_le
    rw [UInt64.le_iff_toNat_le]
    show fileInfoSize0.toNat ≤ (vol.tooSmall e s.fileInfoSize <<< 1).toNat
    omega
  | opened => exact ⟨UInt64.le_refl _, hroom⟩
  | passed => exact ⟨UInt64.le_refl _, hroom⟩

/-- Records left to read, and how often the size can still be doubled. -/
def discoverMeasure (vol : RootVolume) (s : DiscoverLoop) : Nat :=
  64 * (vol.listing.length - s.position) + (63 - Nat.log 2 s.fileInfoSize.toNat)

theorem log_fileInfoSize {size : UInt64} (h : fileInfoSize0 ≤ size) :
    12 ≤ Nat.log 2 size.toNat ∧ Nat.log 2 size.toNat < 64 := by
  have hfirst : 2 ^ 12 ≤ size.toNat := h
  refine ⟨Nat.le_log_of_pow_le (by decide) hfirst, ?_⟩
  exact Nat.log_lt_of_lt_pow (by omega) size.toNat_lt

theorem discoverMeasure_turn {s s' : DiscoverLoop} (hs : HasRoom s) (h : discoverTurn S vol s = .again s') :
    discoverMeasure vol s' < discoverMeasure vol s := by
  have hs' := hasRoom_turn hs h
  have hlog := log_fileInfoSize hs.first_le
  have hlog' := log_fileInfoSize hs'.first_le
  have hnext : ∀ e, vol.listing[s.position]? = some e → s'.position = s.position + 1 →
      discoverMeasure vol s' < discoverMeasure vol s := by
    intro e he hposition
    have hbefore : s.position < vol.listing.length := (List.getElem?_eq_some_iff.mp he).1
    unfold discoverMeasure
    rw [hposition]
    omega
  cases discoverTurn_again h with
  | tooSmall e hcap he hsmall =>
    -- the size is doubled at least
    obtain ⟨hdouble, hle, -⟩ := toNat_retry vol hsmall
    have hpos : s.fileInfoSize.toNat ≠ 0 := by
      intro hzero
      rw [hzero] at hlog
      exact absurd hlog.1 (by decide)
    have hgrows : Nat.log 2 s.fileInfoSize.toNat + 1 ≤ Nat.log 2 (vol.tooSmall e s.fileInfoSize <<< 1).toNat := by
      rw [← Nat.log_mul_base (by decide) hpos]
      exact Nat.log_mono_right (by omega)
    unfold discoverMeasure
    dsimp only at hlog' ⊢
    omega
  | opened e _ he => exact hnext e he rfl
  | passed e _ _ he => exact hnext e he rfl

theorem hasRoom_start : HasRoom discoverStart := ⟨UInt64.le_refl _, UInt64.le_refl _⟩

theorem discover_ends (S : LoaderStrings) (vol : RootVolume) :
    ∃ r, loop (discoverTurn S vol) (discoverFuel vol) discoverStart = some r := by
  refine loop_of_measure (discoverMeasure vol) ?_ hasRoom_start ?_
  · intro a b ha h
    exact ⟨hasRoom_turn ha h, discoverMeasure_turn ha h⟩
  · have hlog := log_fileInfoSize (UInt64.le_refl fileInfoSize0)
    unfold discoverMeasure discoverFuel discoverStart
    dsimp only
    omega

/-! ## What the loop finds -/

/-- The name is longer than the extension and ends in it, ignoring case. -/
def isPayload (S : LoaderStrings) (fileName : Str16) : Bool :=
  decide (bootPayloadExtensionPattern.length < fileName.length ∧
    bootPayloadExtensionPattern.chars.map S.toUpper <:+ fileName.chars.map S.toUpper)

/-- The handles of the payloads among some entries. -/
def payloads (S : LoaderStrings) (entries : List DirEntry) : List Handle :=
  (entries.filter fun e => isPayload S e.fileName).map DirEntry.handle

/-- The device reads the directory, and a file is opened by its name in any case. -/
structure RootVolume.Works (vol : RootVolume) (S : LoaderStrings) : Prop where
  readStatus : ∀ position, (vol.readStatus position).isError = false
  openFile : ∀ e ∈ vol.listing, ∀ name : Str16, name.chars.map S.toUpper = e.fileName.chars.map S.toUpper →
    (vol.openFile name).1.isError = false ∧ (vol.openFile name).2 = e.handle

theorem LoaderStrings.Documented.upper_pattern (hS : S.Documented) :
    bootPayloadExtensionPattern.chars.map S.toUpper = bootPayloadExtensionPattern.chars := by
  have hascii : bootPayloadExtensionPattern.chars.map S.toUpper = bootPayloadExtensionPattern.chars.map asciiUpper := by
    have hlow : ∀ c ∈ bootPayloadExtensionPattern.chars, c.toNat < 128 := by
      simp [bootPayloadExtensionPattern]
    apply List.map_congr_left
    intro c hc
    exact hS.ascii c (hlow c hc)
  rw [hascii]
  decide +kernel

theorem takesName_iff (hS : S.Documented) (fileName : Str16) : TakesName S fileName ↔ isPayload S fileName = true := by
  have hsizes : strSize bootPayloadExtensionPattern < strSize fileName ↔
      bootPayloadExtensionPattern.length < fileName.length := by
    unfold strSize strLen
    omega
  have hequal : S.strCmp bootPayloadExtensionPattern (S.strUpr (slice fileName)) = 0 ↔
      bootPayloadExtensionPattern.chars.map S.toUpper <:+ fileName.chars.map S.toUpper := by
    rw [hS.strCmp, List.suffix_iff_eq_drop, hS.upper_pattern, List.length_map, ← List.map_drop]
    constructor
    · intro h
      exact congrArg NulString.chars h
    · intro h
      exact NulString.ext_chars h
  unfold TakesName isPayload
  rw [hsizes, hequal, decide_eq_true_eq]

/-- The name that is opened is that of the entry, but for the case of its extension. -/
theorem uprSlice_same (hS : S.Documented) (fileName : Str16) :
    (uprSlice S fileName).chars.map S.toUpper = fileName.chars.map S.toUpper := by
  show (fileName.chars.take (sliceOffset fileName) ++
    (fileName.chars.drop (sliceOffset fileName)).map S.toUpper).map S.toUpper = _
  have hagain : S.toUpper ∘ S.toUpper = S.toUpper := funext hS.toUpper
  rw [List.map_append, List.map_map, hagain, ← List.map_append, List.take_append_drop]

/-- The loop has the payloads among the entries it has read, and not too many of them. -/
structure Discovering (S : LoaderStrings) (vol : RootVolume) (s : DiscoverLoop) : Prop where
  handles : s.payloadHandles = payloads S (vol.listing.take s.position)
  cap : s.payloadHandles.length ≤ mftahMaxPayloads
  status : s.payloadHandles.length = mftahMaxPayloads → s.status.isError = false

theorem discovering_turn (hS : S.Documented) (hvol : vol.Works S) {s s' : DiscoverLoop} (hs : Discovering S vol s)
    (h : discoverTurn S vol s = .again s') : Discovering S vol s' := by
  have hnext : ∀ e, vol.listing[s.position]? = some e →
      payloads S (vol.listing.take (s.position + 1)) =
        payloads S (vol.listing.take s.position) ++ payloads S [e] := by
    intro e he
    rw [List.take_add_one, he]
    simp [payloads]
  cases discoverTurn_again h with
  | tooSmall e hcap he hsmall =>
    refine ⟨hs.handles, hs.cap, ?_⟩
    intro hfull
    exact absurd hfull (Nat.ne_of_lt hcap)
  | opened e hcap he htakes hopen =>
    have hpayload := (takesName_iff hS _).mp htakes
    have hhandle := (hvol.openFile e (List.mem_of_getElem? he) _ (uprSlice_same hS e.fileName)).2
    refine ⟨?_, ?_, fun _ => hopen⟩
    · dsimp only
      rw [hnext e he, hs.handles, hhandle]
      simp [payloads, hpayload]
    · simpa using hcap
  | passed e hcap hread he hleaves =>
    have hother : ¬ isPayload S e.fileName = true := fun hpayload => hleaves ((takesName_iff hS _).mpr hpayload)
    refine ⟨?_, hs.cap, fun _ => hread⟩
    dsimp only
    rw [hnext e he, hs.handles]
    simp [payloads, hother]

/-- The loop ends with the first 32 payloads of the listing. -/
theorem discover_run (hS : S.Documented) (hvol : vol.Works S) :
    ∃ s, loop (discoverTurn S vol) (discoverFuel vol) discoverStart = some (.ok s) ∧ s.status.isError = false ∧
      s.payloadHandles = (payloads S vol.listing).take mftahMaxPayloads := by
  obtain ⟨r, hr⟩ := discover_ends S vol
  have hstart : Discovering S vol discoverStart := ⟨rfl, Nat.zero_le _, fun _ => rfl⟩
  obtain ⟨s, hs, hdone⟩ := Returns.last_turn (fun a b => discovering_turn hS hvol) hstart ⟨_, hr⟩
  have hspec : DiscoverTurn S vol s (.done r) := hdone ▸ discoverTurn_spec S vol s
  cases hspec with
  | full hfull =>
    -- 32 handles: the entries that were not read come behind them
    have hcount : s.payloadHandles.length = mftahMaxPayloads := Nat.le_antisymm hs.cap hfull
    refine ⟨s, hr, hs.status hcount, ?_⟩
    have hall : payloads S vol.listing =
        s.payloadHandles ++ payloads S (vol.listing.drop s.position) := by
      rw [hs.handles]
      unfold payloads
      rw [← List.map_append, ← List.filter_append, List.take_append_drop]
    rw [hall, ← hcount, List.take_left]
  | readFails r hread =>
    rw [hvol.readStatus] at hread
    cases hread
  | atEnd hread hend =>
    refine ⟨_, hr, hread, ?_⟩
    have hall := List.take_of_length_le (List.getElem?_eq_none_iff.mp hend)
    have hfew : (payloads S vol.listing).length ≤ mftahMaxPayloads := by
      rw [← hall, ← hs.handles]
      exact hs.cap
    rw [List.take_of_length_le hfew, ← hall]
    exact hs.handles
  | openFails e r he hopen =>
    rw [(hvol.openFile e (List.mem_of_getElem? he) _ (uprSlice_same hS e.fileName)).1] at hopen
    cases hopen

/-- What comes before the loop succeeds. -/
structure DiscoverFirmware.Succeeds (fw : DiscoverFirmware) : Prop where
  loadedImage : fw.loadedImage.isError = false
  simpleFileSystem : fw.simpleFileSystem.isError = false
  openVolume : fw.openVolume.isError = false
  payloadHandles : fw.payloadHandles = true
  fileInfo : fw.fileInfo = true

theorem discoverPayloads_eq (hS : S.Documented) {fw : DiscoverFirmware} (hfw : fw.Succeeds) (hvol : vol.Works S)
    (M : MftahProtocol) (loader : FileBytes) (hash0 : List UInt8) (mem : Mem) :
    discoverPayloads S M fw vol loader true hash0 mem =
      some ⟨foundStatus ((payloads S vol.listing).take mftahMaxPayloads).length,
        (payloads S vol.listing).take mftahMaxPayloads,
        some ((payloads S vol.listing).take mftahMaxPayloads).length,
        (hashLoader M fw.loader loader hash0 mem).loadedLoaderHash⟩ := by
  obtain ⟨s, hloop, hok, hhandles⟩ := discover_run hS hvol
  unfold discoverPayloads
  rw [hfw.loadedImage, hfw.simpleFileSystem, hfw.openVolume, hfw.payloadHandles, hfw.fileInfo, hloop]
  simp [hok, hhandles]

/-- SelectPayload goes on with what this leaves. -/
theorem select_discoverPayloads (handles : List Handle) :
    Select.discoverPayloads (.ok handles) = (foundStatus handles.length, handles) := by
  cases handles with
  | nil => rfl
  | cons h hs =>
    cases hs with
    | nil => rfl
    | cons h' hs => rfl

/-- For every root directory: DiscoverPayloads gives the handles of the first 32 entries whose name is longer
    than the extension and ends in it ignoring case, in the order of the listing, none of them twice, with their
    number and the code for it. -/
theorem discoverPayloads_finds (hS : S.Documented) {fw : DiscoverFirmware} (hfw : fw.Succeeds) (hvol : vol.Works S)
    (M : MftahProtocol) (loader : FileBytes) (hash0 : List UInt8) (mem : Mem) :
    ∃ r, discoverPayloads S M fw vol loader true hash0 mem = some r ∧
      r.loadedPayloadHandles =
        ((vol.listing.filter fun e => isPayload S e.fileName).take mftahMaxPayloads).map DirEntry.handle ∧
      ((vol.listing.map DirEntry.handle).Nodup → r.loadedPayloadHandles.Nodup) ∧
      r.loadedHandlesCount = some r.loadedPayloadHandles.length ∧
      (r.loadedPayloadHandles.length = 0 → r.status = .noPayloadFound) ∧
      (r.loadedPayloadHandles.length = 1 → r.status = .singlePayloadFound) ∧
      (2 ≤ r.loadedPayloadHandles.length → r.status = .multiPayloadFound) := by
  refine ⟨_, discoverPayloads_eq hS hfw hvol M loader hash0 mem, ?_, ?_, rfl, ?_, ?_, ?_⟩
  · exact List.map_take.symm
  · intro hnodup
    refine hnodup.sublist ?_
    exact ((List.take_sublist _ _).trans (List.filter_sublist.map _))
  · intro hzero
    dsimp only at hzero ⊢
    rw [hzero]
    rfl
  · intro hone
    dsimp only at hone ⊢
    rw [hone]
    rfl
  · intro htwo
    obtain ⟨k, hk⟩ := Nat.exists_eq_add_of_le' htwo
    dsimp only at hk ⊢
    rw [hk]
    rfl

/-- gnu-efi's StrCmp, with its other routines. -/
def gnuEfiLoaderStrings : LoaderStrings := { gnuEfiStrings with strCmp s t := if s = t then 0 else 1 }

theorem gnuEfiLoaderStrings_documented : gnuEfiLoaderStrings.Documented where
  toDocumented := gnuEfiStrings_documented
  strCmp s t := by
    show (if s = t then (0 : Int) else 1) = 0 ↔ s = t
    split <;> simp_all
  ascii _ _ := rfl

/-- "a.Crows", with a record that takes two retries when the size is not updated. -/
def longRecord : DirEntry := ⟨⟨[0x61, 0x2E, 0x43, 0x72, 0x6F, 0x77, 0x73], by decide⟩, 0x3000, 7, by decide, by decide⟩

def oneFile : RootVolume where
  listing := [longRecord]
  openFile _ := (.success, 7)
  readStatus _ := .success
  readStatus_ne _ := by decide
  tooSmall _ size := size
  le_tooSmall _ _ _ := UInt64.le_refl _
  tooSmall_le _ _ h := UInt64.le_of_lt h

def allThere : DiscoverFirmware :=
  ⟨.success, .success, .success, true, true, ⟨Payload.steadyFirmware, .notFound⟩⟩

theorem oneFile_works : oneFile.Works gnuEfiLoaderStrings := by
  refine ⟨fun _ => rfl, ?_⟩
  intro e he name _
  obtain rfl := List.mem_singleton.mp he
  exact ⟨rfl, rfl⟩

theorem discoverPayloads_finds_one :
    ∃ r, discoverPayloads gnuEfiLoaderStrings Payload.plainLib allThere oneFile ⟨[], by decide⟩ true [] (fun _ => 0) =
        some r ∧ r.loadedPayloadHandles = [7] ∧ r.status = .singlePayloadFound := by
  obtain ⟨r, hr, hhandles, -, -, -, hone, -⟩ := discoverPayloads_finds gnuEfiLoaderStrings_documented
    (⟨rfl, rfl, rfl, rfl, rfl⟩ : allThere.Succeeds) oneFile_works Payload.plainLib ⟨[], by decide⟩ [] fun _ => 0
  have hseven : r.loadedPayloadHandles = [7] := hhandles.trans (by decide +kernel)
  exact ⟨r, hr, hseven, hone (congrArg List.length hseven)⟩

end Crows.Boot.Discover
