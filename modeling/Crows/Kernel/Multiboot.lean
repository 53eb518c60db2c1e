/-
  Crows.Kernel.Multiboot — the walk over the tags of a Multiboot2 information block.

  A block is a `total_size` and a reserved word, then its tags one after another, each
  beginning at a multiple of 8 bytes from the block's start: `WellFormed m head tags`
  says that the memory holds such a block at `head` and that its tags are `tags`.
  `multiboot2SeekTag` walks it by adding each header's `size` to the pointer, without
  the rounding to MULTIBOOT_SEARCH_ALIGNMENT that the layout has, so after a tag whose
  size is no multiple of 8 it takes the padding and what follows for a header.

  Proved, for every well-formed block and every requested type:
  - `seek_tag_first_iff`: the walk ends at the first tag of the type (at NULL when
    there is none) exactly when `LeadsToFirst` holds: each tag it comes to before that
    one has a size that is a multiple of 8, or the words misread behind the tag lead
    back to the beginning of a tag without one of them carrying the type.
  - `leadsToFirst_of_padded`: so it does where no tag needs padding.
  - `seek_tag_misses_memory_map`: a block with one 12-byte command line tag, in which
    the memory map is not found.
-/
import Crows.Lib.Memory
import Crows.Lib.Loop

namespace Crows.Kernel.Multiboot

open Crows.Lib

/-! ## The block and its tags -/

/-- MULTIBOOT_SEARCH_ALIGNMENT. -/
def multibootSearchAlignment : Nat := 8

inductive MultibootInfoTagType where
  | mbiEnd | cmdLine | loaderName | modules | basicMem | biosBootDev | memoryMap | vbeInfo
  | framebuffer | elfSymbols | apm | efiSt32 | efiSt64 | smbios | acpi10 | acpi20 | net
  | efiMemoryMap | noExitBootSvcs | imgHnd32 | imgHnd64 | imgLoadBase
  deriving DecidableEq, Repr

/-- The enumerator as the unsigned int that a header's `type` is compared with. -/
def MultibootInfoTagType.value (t : MultibootInfoTagType) : UInt32 := UInt32.ofNat t.ctorIdx

def totalSize (m : Mem) (head : Addr) : UInt32 := m.readU32 head

def tagType (m : Mem) (p : Addr) : UInt32 := m.readU32 p

def tagSize (m : Mem) (p : Addr) : UInt32 := m.readU32 (p + 4)

/-! ## multiboot2_seek_tag -/

/-- One turn of the walk: the pointer has come to `p`, the block ends at `limit`. -/
def seekTurn (m : Mem) (ofType : UInt32) (limit p : Addr) : Turn Addr (Option Addr) :=
  if p < limit then
    if ofType ≠ tagType m p then
      -- the stride is the size as it stands, not rounded up to the alignment
      .again (p + (tagSize m p).toUInt64)
    else .done (some p)
  else .done none

/-- `some none` is the NULL result, `none` a walk that has used up its turns. -/
def multiboot2SeekTag (fuel : Nat) (m : Mem) (ofType : UInt32) (head : Addr) : Option (Option Addr) :=
  if head = 0 then some none
  else loop (seekTurn m ofType (head + (totalSize m head).toUInt64)) fuel (head + 8)

/-! ## Well-formed blocks -/

/-- A tag's header; the size counts the header itself. -/
structure InfoTag where
  type : UInt32
  size : UInt32
  holdsHeader : 8 ≤ size.toNat

/-- What a tag takes up in the block: its size rounded up to the alignment. -/
def InfoTag.stride (t : InfoTag) : Nat :=
  (t.size.toNat + (multibootSearchAlignment - 1)) / multibootSearchAlignment * multibootSearchAlignment

/-- Where tag `k` begins, from the start of the block; for `k` the number of tags, where the block ends. -/
def tagOffset (tags : List InfoTag) (k : Nat) : Nat := 8 + ((tags.take k).map InfoTag.stride).sum

def tagAt (head : Addr) (tags : List InfoTag) (k : Nat) : Addr := head + UInt64.ofNat (tagOffset tags k)

/-- The memory holds at `head` a well-formed block with the tags `tags`. -/
structure WellFormed (m : Mem) (head : Addr) (tags : List InfoTag) : Prop where
  notNull : head ≠ 0
  inSpace : head.toNat + (totalSize m head).toNat < 2 ^ 64
  types : ∀ k (h : k < tags.length), tagType m (tagAt head tags k) = (tags.get ⟨k, h⟩).type
  sizes : ∀ k (h : k < tags.length), tagSize m (tagAt head tags k) = (tags.get ⟨k, h⟩).size
  endTag : ∃ front last, tags = front ++ [last] ∧ last.type = MultibootInfoTagType.mbiEnd.value ∧ last.size = 8
  total : tagOffset tags tags.length = (totalSize m head).toNat

/-- The index of the first tag of a type. -/
def firstOf (tags : List InfoTag) (ofType : UInt32) : Option Nat := tags.findIdx? (·.type = ofType)

/-- The address of the first tag of a type, NULL where the block has none. -/
def firstTag (head : Addr) (tags : List InfoTag) (ofType : UInt32) : Option Addr :=
  (firstOf tags ofType).map (tagAt head tags)

/-- From `p` the words read as headers lead to `q`, none of them before `q` carrying the type. -/
inductive Misread (m : Mem) (ofType : UInt32) (limit : Addr) : Addr → Addr → Prop where
  | stop (q : Addr) : Misread m ofType limit q q
  | on {p q : Addr} : p < limit → tagType m p ≠ ofType →
      Misread m ofType limit (p + (tagSize m p).toUInt64) q → Misread m ofType limit p q

/-- From tag `k` the raw sizes lead to the first tag of the type, or to the end of a block that has none:
    a size that is a multiple of 8 leads to the next tag; behind any other the words that are no
    headers have to lead to some tag again, or past the end. -/
inductive LeadsToFirst (m : Mem) (head : Addr) (tags : List InfoTag) (ofType : UInt32) : Nat → Prop where
  | found {k : Nat} : firstOf tags ofType = some k → LeadsToFirst m head tags ofType k
  | ended : firstOf tags ofType = none → LeadsToFirst m head tags ofType tags.length
  | aligned {k : Nat} (h : k < tags.length) : (tags.get ⟨k, h⟩).type ≠ ofType →
      (tags.get ⟨k, h⟩).size.toNat % multibootSearchAlignment = 0 →
      LeadsToFirst m head tags ofType (k + 1) → LeadsToFirst m head tags ofType k
  | rejoins {k j : Nat} (h : k < tags.length) : (tags.get ⟨k, h⟩).type ≠ ofType →
      (tags.get ⟨k, h⟩).size.toNat % multibootSearchAlignment ≠ 0 → j ≤ tags.length →
      Misread m ofType (tagAt head tags tags.length)
        (tagAt head tags k + (tags.get ⟨k, h⟩).size.toUInt64) (tagAt head tags j) →
      LeadsToFirst m head tags ofType j → LeadsToFirst m head tags ofType k
  | leaves {k : Nat} {q : Addr} (h : k < tags.length) : (tags.get ⟨k, h⟩).type ≠ ofType →
      (tags.get ⟨k, h⟩).size.toNat % multibootSearchAlignment ≠ 0 →
      Misread m ofType (tagAt head tags tags.length)
        (tagAt head tags k + (tags.get ⟨k, h⟩).size.toUInt64) q →
      tagAt head tags tags.length ≤ q → firstOf tags ofType = none → LeadsToFirst m head tags ofType k

/-! ## Offsets -/

theorem InfoTag.size_le_stride (t : InfoTag) : t.size.toNat ≤ t.stride := by
  unfold InfoTag.stride multibootSearchAlignment
  omega

theorem InfoTag.stride_eq_size (t : InfoTag) (h : t.size.toNat % multibootSearchAlignment = 0) :
    t.stride = t.size.toNat := by
  unfold InfoTag.stride multibootSearchAlignment at *
  omega

theorem tagOffset_succ {tags : List InfoTag} {k : Nat} (h : k < tags.length) :
    tagOffset tags (k + 1) = tagOffset tags k + (tags.get ⟨k, h⟩).stride := by
  unfold tagOffset
  rw [List.take_succ_eq_append_getElem h, List.map_append, List.sum_append]
  simp [Nat.add_assoc]

/-- Every tag takes up at least its header. -/
theorem tagOffset_lt {tags : List InfoTag} {k j : Nat} (hkj : k < j) (hj : j ≤ tags.length) :
    tagOffset tags k + 8 ≤ tagOffset tags j := by
  induction j with
  | zero => exact absurd hkj (Nat.not_lt_zero k)
  | succ j ih =>
    have hlt : j < tags.length := hj
    have hstep := tagOffset_succ hlt
    have hsize := (tags.get ⟨j, hlt⟩).holdsHeader
    have hstride := (tags.get ⟨j, hlt⟩).size_le_stride
    rcases Nat.lt_succ_iff_lt_or_eq.mp hkj with hlt' | heq
    · have := ih hlt' (by omega)
      omega
    · subst heq
      omega

section
variable {m : Mem} {head : Addr} {tags : List InfoTag}

theorem tagOffset_le_total (hw : WellFormed m head tags) {k : Nat} (hk : k ≤ tags.length) :
    tagOffset tags k ≤ (totalSize m head).toNat := by
  have htotal := hw.total
  rcases Nat.lt_or_eq_of_le hk with hlt | heq
  · have := tagOffset_lt hlt (Nat.le_refl _)
    omega
  · subst heq
    omega

theorem tagAt_toNat (hw : WellFormed m head tags) {k : Nat} (hk : k ≤ tags.length) :
    (tagAt head tags k).toNat = head.toNat + tagOffset tags k := by
  have hle := tagOffset_le_total hw hk
  have hspace := hw.inSpace
  simp only [tagAt, UInt64.toNat_add, UInt64.toNat_ofNat']
  omega

theorem tagAt_length (hw : WellFormed m head tags) :
    tagAt head tags tags.length = head + (totalSize m head).toUInt64 := by
  unfold tagAt
  rw [hw.total]
  have hlt := (totalSize m head).toNat_lt
  have hsame : UInt64.ofNat (totalSize m head).toNat = (totalSize m head).toUInt64 := by
    apply UInt64.toNat.inj
    rw [UInt64.toNat_ofNat', UInt32.toNat_toUInt64]
    omega
  rw [hsame]

theorem tagAt_inj (hw : WellFormed m head tags) {k j : Nat} (hk : k ≤ tags.length) (hj : j ≤ tags.length)
    (h : tagAt head tags k = tagAt head tags j) : k = j := by
  have hnat := congrArg UInt64.toNat h
  rw [tagAt_toNat hw hk, tagAt_toNat hw hj] at hnat
  rcases Nat.lt_trichotomy k j with hlt | heq | hgt
  · have := tagOffset_lt hlt hj
    omega
  · exact heq
  · have := tagOffset_lt hgt hk
    omega

theorem tagAt_lt_limit (hw : WellFormed m head tags) {k : Nat} (hk : k < tags.length) :
    tagAt head tags k < tagAt head tags tags.length := by
  have hlt := tagOffset_lt hk (Nat.le_refl _)
  rw [UInt64.lt_iff_toNat_lt, tagAt_toNat hw (Nat.le_of_lt hk), tagAt_toNat hw (Nat.le_refl _)]
  omega

/-- A size that needs no padding is the way to the next tag. -/
theorem tagAt_add_size (hw : WellFormed m head tags) {k : Nat} (hk : k < tags.length)
    (hsize : (tags.get ⟨k, hk⟩).size.toNat % multibootSearchAlignment = 0) :
    tagAt head tags k + (tags.get ⟨k, hk⟩).size.toUInt64 = tagAt head tags (k + 1) := by
  have hnow := tagAt_toNat hw (Nat.le_of_lt hk)
  have hnext := tagAt_toNat hw (k := k + 1) hk
  have hle := tagOffset_le_total hw (k := k + 1) hk
  have hspace := hw.inSpace
  have hstep := tagOffset_succ hk
  have hstride := (tags.get ⟨k, hk⟩).stride_eq_size hsize
  apply UInt64.toNat.inj
  rw [UInt64.toNat_add, UInt32.toNat_toUInt64, hnow, hnext]
  omega

end

/-! ## The first tag of a type -/

theorem firstOf_some {tags : List InfoTag} {t : UInt32} {k : Nat} (h : firstOf tags t = some k) :
    ∃ hk : k < tags.length, (tags.get ⟨k, hk⟩).type = t := by
  obtain ⟨hk, htype, -⟩ := List.findIdx?_eq_some_iff_getElem.mp h
  exact ⟨hk, by simpa using htype⟩

theorem firstOf_none {tags : List InfoTag} {t : UInt32} (h : firstOf tags t = none) {k : Nat}
    (hk : k < tags.length) : (tags.get ⟨k, hk⟩).type ≠ t := by
  have hall := List.findIdx?_eq_none_iff.mp h (tags.get ⟨k, hk⟩) (List.get_mem tags ⟨k, hk⟩)
  simpa using hall

/-! ## The walk -/

section
variable {m : Mem} {ofType : UInt32} {limit : Addr}

theorem seekTurn_past {p : Addr} (h : ¬ p < limit) : seekTurn m ofType limit p = .done none := by
  unfold seekTurn
  rw [if_neg h]

theorem seekTurn_match {p : Addr} (h : p < limit) (ht : tagType m p = ofType) :
    seekTurn m ofType limit p = .done (some p) := by
  unfold seekTurn
  rw [if_pos h, if_neg (by simp [ht])]

theorem seekTurn_on {p : Addr} (h : p < limit) (ht : tagType m p ≠ ofType) :
    seekTurn m ofType limit p = .again (p + (tagSize m p).toUInt64) := by
  unfold seekTurn
  rw [if_pos h, if_pos (Ne.symm ht)]

/-- A walk among misread words ends as the walk from where they lead. -/
theorem Misread.returns {p q : Addr} (h : Misread m ofType limit p q) (r : Option Addr) :
    Returns (seekTurn m ofType limit) p r ↔ Returns (seekTurn m ofType limit) q r := by
  induction h with
  | stop q => exact Iff.rfl
  | on hlt htype hrest ih => exact (returns_again (seekTurn_on hlt htype)).trans ih

end

section
variable {m : Mem} {head : Addr} {tags : List InfoTag} {ofType : UInt32}

theorem firstTag_some (h : firstOf tags ofType = some k) :
    firstTag head tags ofType = some (tagAt head tags k) := by
  simp only [firstTag, h, Option.map_some]

theorem firstTag_none (h : firstOf tags ofType = none) : firstTag head tags ofType = none := by
  simp only [firstTag, h, Option.map_none]

/-- The turn at a tag of another type goes on by the tag's size. -/
theorem seekTurn_tag (hw : WellFormed m head tags) {k : Nat} (hk : k < tags.length)
    (ht : (tags.get ⟨k, hk⟩).type ≠ ofType) :
    seekTurn m ofType (tagAt head tags tags.length) (tagAt head tags k) =
      .again (tagAt head tags k + (tags.get ⟨k, hk⟩).size.toUInt64) := by
  rw [← hw.sizes k hk]
  refine seekTurn_on (tagAt_lt_limit hw hk) ?_
  rw [hw.types k hk]
  exact ht

theorem LeadsToFirst.returns (hw : WellFormed m head tags) {k : Nat} (h : LeadsToFirst m head tags ofType k) :
    Returns (seekTurn m ofType (tagAt head tags tags.length)) (tagAt head tags k)
      (firstTag head tags ofType) := by
  induction h with
  | found hfirst =>
    obtain ⟨hk, htype⟩ := firstOf_some hfirst
    refine (returns_done (seekTurn_match (tagAt_lt_limit hw hk) ?_)).mpr (firstTag_some hfirst)
    rw [hw.types _ hk]
    exact htype
  | ended hnone =>
    exact (returns_done (seekTurn_past (UInt64.lt_irrefl _))).mpr (firstTag_none hnone)
  | aligned hk htype hsize hrest ih =>
    rw [returns_again (seekTurn_tag hw hk htype), tagAt_add_size hw hk hsize]
    exact ih
  | rejoins hk htype hsize hj hmis hrest ih =>
    rw [returns_again (seekTurn_tag hw hk htype), hmis.returns]
    exact ih
  | leaves hk htype hsize hmis hpast hnone =>
    rw [returns_again (seekTurn_tag hw hk htype), hmis.returns, firstTag_none hnone]
    exact (returns_done (seekTurn_past (UInt64.not_lt.mpr hpast))).mpr rfl

/-- What is known of a pointer from which the walk ends at the first tag of the type: if it is at a tag,
    that tag leads there, and in any case the words read from it lead to such a tag or past the end. -/
def OnTheWay (m : Mem) (head : Addr) (tags : List InfoTag) (ofType : UInt32) (p : Addr) : Prop :=
  (∀ k, k ≤ tags.length → p = tagAt head tags k → LeadsToFirst m head tags ofType k) ∧
  ∃ q, Misread m ofType (tagAt head tags tags.length) p q ∧
    ((∃ j, j ≤ tags.length ∧ q = tagAt head tags j ∧ LeadsToFirst m head tags ofType j) ∨
      tagAt head tags tags.length ≤ q ∧ firstOf tags ofType = none)

theorem onTheWay_of_match (hw : WellFormed m head tags) {p : Addr}
    (hr : firstTag head tags ofType = some p) : OnTheWay m head tags ofType p := by
  unfold firstTag at hr
  obtain ⟨f, hf, hp⟩ := Option.map_eq_some_iff.mp hr
  obtain ⟨hlt, -⟩ := firstOf_some hf
  have hfle := Nat.le_of_lt hlt
  refine ⟨?_, p, Misread.stop p, Or.inl ⟨f, hfle, hp.symm, LeadsToFirst.found hf⟩⟩
  intro k hk hpk
  have hkf : k = f := tagAt_inj hw hk hfle (hpk.symm.trans hp.symm)
  subst hkf
  exact LeadsToFirst.found hf

theorem onTheWay_of_past (hw : WellFormed m head tags) {p : Addr} (hp : ¬ p < tagAt head tags tags.length)
    (hr : firstTag head tags ofType = none) : OnTheWay m head tags ofType p := by
  have hnone : firstOf tags ofType = none := Option.map_eq_none_iff.mp hr
  refine ⟨?_, p, Misread.stop p, Or.inr ⟨UInt64.not_lt.mp hp, hnone⟩⟩
  intro k hk hpk
  rcases Nat.lt_or_eq_of_le hk with hlt | heq
  · subst hpk
    exact absurd (tagAt_lt_limit hw hlt) hp
  · subst heq
    exact LeadsToFirst.ended hnone

theorem onTheWay_of_step (hw : WellFormed m head tags) {p : Addr} (hp : p < tagAt head tags tags.length)
    (ht : tagType m p ≠ ofType) (ih : OnTheWay m head tags ofType (p + (tagSize m p).toUInt64)) :
    OnTheWay m head tags ofType p := by
  obtain ⟨htags, q, hmis, hq⟩ := ih
  refine ⟨?_, q, Misread.on hp ht hmis, hq⟩
  intro k hk hpk
  subst hpk
  have hlt : k < tags.length := by
    rcases Nat.lt_or_eq_of_le hk with hlt | heq
    · exact hlt
    · subst heq
      exact absurd hp (UInt64.lt_irrefl _)
  rw [hw.types k hlt] at ht
  rw [hw.sizes k hlt] at htags hmis
  by_cases hsize : (tags.get ⟨k, hlt⟩).size.toNat % multibootSearchAlignment = 0
  · exact LeadsToFirst.aligned hlt ht hsize (htags (k + 1) hlt (tagAt_add_size hw hlt hsize))
  · rcases hq with hjoin | hleave
    · obtain ⟨j, hj, hqj, hrest⟩ := hjoin
      subst hqj
      exact LeadsToFirst.rejoins hlt ht hsize hj hmis hrest
    · exact LeadsToFirst.leaves hlt ht hsize hmis hleave.1 hleave.2

theorem onTheWay_of_returns (hw : WellFormed m head tags) {p : Addr}
    (h : Returns (seekTurn m ofType (tagAt head tags tags.length)) p (firstTag head tags ofType)) :
    OnTheWay m head tags ofType p := by
  refine Returns.turns ?_ ?_ h
  · intro p hp
    by_cases hlt : p < tagAt head tags tags.length
    · by_cases ht : tagType m p = ofType
      · rw [seekTurn_match hlt ht] at hp
        exact onTheWay_of_match hw (Turn.done.inj hp).symm
      · rw [seekTurn_on hlt ht] at hp
        cases hp
    · rw [seekTurn_past hlt] at hp
      exact onTheWay_of_past hw hlt (Turn.done.inj hp).symm
  · intro p p' hp ih
    by_cases hlt : p < tagAt head tags tags.length
    · by_cases ht : tagType m p = ofType
      · rw [seekTurn_match hlt ht] at hp
        cases hp
      · rw [seekTurn_on hlt ht] at hp
        have hp' := Turn.again.inj hp
        subst hp'
        exact onTheWay_of_step hw hlt ht ih
    · rw [seekTurn_past hlt] at hp
      cases hp

/-- multiboot2_seek_tag ends at the first tag of the requested type, or at NULL when the block has none,
    exactly when the raw sizes lead there. -/
theorem seek_tag_first_iff (hw : WellFormed m head tags) :
    (∃ fuel, multiboot2SeekTag fuel m ofType head = some (firstTag head tags ofType)) ↔
      LeadsToFirst m head tags ofType 0 := by
  have hstart : tagAt head tags 0 = head + 8 := rfl
  simp only [multiboot2SeekTag, hw.notNull, if_false, ← tagAt_length hw, ← hstart]
  constructor
  · intro h
    exact (onTheWay_of_returns hw h).1 0 (Nat.zero_le _) rfl
  · intro h
    exact h.returns hw

end

/-- In a block whose tags need no padding before the first tag of the type, the sizes lead there. -/
theorem leadsToFirst_of_padded {m : Mem} {head : Addr} {tags : List InfoTag} {ofType : UInt32}
    (h : ∀ k (hk : k < tags.length), (∀ f, firstOf tags ofType = some f → k < f) →
      (tags.get ⟨k, hk⟩).size.toNat % multibootSearchAlignment = 0) :
    LeadsToFirst m head tags ofType 0 := by
  cases hf : firstOf tags ofType with
  | some f =>
    obtain ⟨hlt, -, hbefore⟩ := List.findIdx?_eq_some_iff_getElem.mp hf
    -- from each tag no later than the first, by induction on how far that one still is
    have hall : ∀ d k, k + d = f → LeadsToFirst m head tags ofType k := by
      intro d
      induction d with
      | zero =>
        intro k hk
        exact LeadsToFirst.found (hf.trans (congrArg some hk.symm))
      | succ d ih =>
        intro k hk
        have hkl : k < tags.length := by omega
        have hkf : k < f := by omega
        refine LeadsToFirst.aligned hkl ?_ ?_ (ih (k + 1) (by omega))
        · simpa using hbefore k hkf
        · refine h k hkl ?_
          intro f' hf'
          rw [hf] at hf'
          exact Option.some.inj hf' ▸ hkf
    exact hall f 0 (Nat.zero_add f)
  | none =>
    have hall : ∀ d k, k + d = tags.length → LeadsToFirst m head tags ofType k := by
      intro d
      induction d with
      | zero =>
        intro k hk
        have hk' : k = tags.length := hk
        exact hk' ▸ LeadsToFirst.ended hf
      | succ d ih =>
        intro k hk
        have hkl : k < tags.length := by omega
        refine LeadsToFirst.aligned hkl (firstOf_none hf hkl) ?_ (ih (k + 1) (by omega))
        exact h k hkl (fun f' hf' => absurd (hf.symm.trans hf') nofun)
    exact hall tags.length 0 (Nat.zero_add _)

/-! ## Two blocks with a command line, a memory map without entries and the end tag -/

/-- A block at 0x1000 whose command line tag holds `cmdline` and is padded to 16 bytes. -/
def exampleBlock (size : UInt8) (cmdline : List UInt8) : Mem :=
  Mem.write (fun _ => 0) 0x1000
    ([48, 0, 0, 0, 0, 0, 0, 0, 1, 0, 0, 0, size, 0, 0, 0] ++ cmdline ++
      [6, 0, 0, 0, 16, 0, 0, 0, 24, 0, 0, 0, 0, 0, 0, 0, 0, 0, 0, 0, 8, 0, 0, 0])

def exampleTags (size : UInt32) (h : 8 ≤ size.toNat) : List InfoTag :=
  [⟨1, size, h⟩, ⟨6, 16, by decide⟩, ⟨0, 8, by decide⟩]

theorem seek_tag_first_iff_padded :
    WellFormed (exampleBlock 16 [97, 98, 99, 100, 101, 102, 103, 0]) 0x1000 (exampleTags 16 (by decide)) ∧
    ∃ fuel, multiboot2SeekTag fuel (exampleBlock 16 [97, 98, 99, 100, 101, 102, 103, 0]) 6 0x1000 =
      some (firstTag 0x1000 (exampleTags 16 (by decide)) 6) := by
  have hw : WellFormed (exampleBlock 16 [97, 98, 99, 100, 101, 102, 103, 0]) 0x1000
      (exampleTags 16 (by decide)) :=
    ⟨by decide, by decide, by decide, by decide, ⟨[_, _], _, rfl, rfl, rfl⟩, by decide⟩
  refine ⟨hw, (seek_tag_first_iff hw).mpr (leadsToFirst_of_padded ?_)⟩
  decide

/-- A 12-byte command line tag, padded with zeros: the padding and the type of the memory map are read as a
    header of 6 bytes, and the walk leaves the block without having seen the memory map. -/
theorem seek_tag_misses_memory_map :
    ∃ m head tags, WellFormed m head tags ∧
      firstTag head tags MultibootInfoTagType.memoryMap.value = some 0x1018 ∧
      ¬ ∃ fuel, multiboot2SeekTag fuel m MultibootInfoTagType.memoryMap.value head =
        some (firstTag head tags MultibootInfoTagType.memoryMap.value) := by
  have hw : WellFormed (exampleBlock 12 [97, 98, 99, 0, 0, 0, 0, 0]) 0x1000 (exampleTags 12 (by decide)) :=
    ⟨by decide, by decide, by decide, by decide, ⟨[_, _], _, rfl, rfl, rfl⟩, by decide⟩
  refine ⟨_, 0x1000, _, hw, by decide, ?_⟩
  intro h
  have hnull : Returns (seekTurn (exampleBlock 12 [97, 98, 99, 0, 0, 0, 0, 0]) 6 0x1030) 0x1008 none :=
    ⟨4, by decide⟩
  exact absurd (Returns.unique h hnull) (by decide)

end Crows.Kernel.Multiboot
