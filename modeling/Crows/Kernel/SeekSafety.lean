/-
  Crows.Kernel.SeekSafety — where the walk over a Multiboot2 block reads, and whether it ends.

  The block is any bytes at all: `multiboot2SeekTag` takes its stride from them and tests
  only that a header begins below the end of the block. `ComesTo` says which offsets the
  raw sizes lead to. The walk ends and reads headers of the block only (`SafeWalk`)
  exactly when `WalkFits` holds: at each offset it comes to there is room for a header,
  and a tag it passes has a size other than 0.

  Proved, for every memory, block address and requested type:
  - `seek_tag_safe_iff`: `SafeWalk` and `WalkFits` are the same.
  - `seek_tag_hangs`: a well-formed block whose padding is misread as a header of size 0,
    on which the walk never ends.
-/
import Crows.Kernel.Multiboot

namespace Crows.Kernel.Multiboot

open Crows.Lib

/-! ## What a safe walk is -/

/-- The end of the block, as the loop computes it on every turn. -/
def blockEnd (m : Mem) (head : Addr) : Addr := head + (totalSize m head).toUInt64

/-- multiboot2_seek_tag reads a tag header at `p`: a turn begins there, below the end of the block. -/
def ReadsHeader (m : Mem) (ofType : UInt32) (head p : Addr) : Prop :=
  head ≠ 0 ∧ Visits (seekTurn m ofType (blockEnd m head)) (head + 8) p ∧ p < blockEnd m head

/-- All 8 bytes at `p` lie in the block, behind its own header. -/
def HeaderInside (m : Mem) (head p : Addr) : Prop :=
  ∀ a, InRegion p 8 a → 8 ≤ (a - head).toNat ∧ (a - head).toNat < (totalSize m head).toNat

structure SafeWalk (m : Mem) (ofType : UInt32) (head : Addr) : Prop where
  ends : ∃ fuel r, multiboot2SeekTag fuel m ofType head = some r
  inside : ∀ p, ReadsHeader m ofType head p → HeaderInside m head p

/-! ## When the walk is safe -/

/-- The address `o` bytes from the start of the block. -/
def offsetAddr (head : Addr) (o : Nat) : Addr := head + UInt64.ofNat o

/-- The raw sizes lead from the first tag to offset `o`, none of the tags before it being of the type. -/
inductive ComesTo (m : Mem) (ofType : UInt32) (head : Addr) : Nat → Prop where
  | first : ComesTo m ofType head 8
  | next {o : Nat} : ComesTo m ofType head o → o < (totalSize m head).toNat →
      tagType m (offsetAddr head o) ≠ ofType →
      ComesTo m ofType head (o + (tagSize m (offsetAddr head o)).toNat)

/-- Each tag the raw sizes lead to has room for its header before the end of the block, and one that
    is not of the type has a size, which does not lead over the top of the address space. -/
def WalkFits (m : Mem) (ofType : UInt32) (head : Addr) : Prop :=
  head ≠ 0 → ∀ o, ComesTo m ofType head o → o < (totalSize m head).toNat →
    o + 8 ≤ (totalSize m head).toNat ∧
    (tagType m (offsetAddr head o) ≠ ofType →
      0 < (tagSize m (offsetAddr head o)).toNat ∧
      head.toNat + o + (tagSize m (offsetAddr head o)).toNat < 2 ^ 64)

/-! ## Offsets and addresses -/

section
variable {m : Mem} {ofType : UInt32} {head : Addr}

theorem offsetAddr_toNat {o : Nat} (h : head.toNat + o < 2 ^ 64) :
    (offsetAddr head o).toNat = head.toNat + o := by
  simp only [offsetAddr, UInt64.toNat_add, UInt64.toNat_ofNat']
  omega

theorem offsetAddr_add (o : Nat) (size : UInt32) :
    offsetAddr head o + size.toUInt64 = offsetAddr head (o + size.toNat) := by
  have hsize : size.toUInt64 = UInt64.ofNat size.toNat := by
    apply UInt64.toNat.inj
    have := size.toNat_lt
    rw [UInt32.toNat_toUInt64, UInt64.toNat_ofNat']
    omega
  rw [hsize, offsetAddr, offsetAddr, UInt64.ofNat_add, UInt64.add_assoc]

theorem blockEnd_toNat (hspace : head.toNat + max 8 (totalSize m head).toNat < 2 ^ 64) :
    (blockEnd m head).toNat = head.toNat + (totalSize m head).toNat := by
  unfold blockEnd
  rw [UInt64.toNat_add, UInt32.toNat_toUInt64]
  omega

/-- An offset is below the end of the block when its address is. -/
theorem lt_blockEnd_iff (hspace : head.toNat + max 8 (totalSize m head).toNat < 2 ^ 64) {o : Nat}
    (ho : head.toNat + o < 2 ^ 64) :
    offsetAddr head o < blockEnd m head ↔ o < (totalSize m head).toNat := by
  rw [UInt64.lt_iff_toNat_lt, offsetAddr_toNat ho, blockEnd_toNat hspace]
  omega

theorem toNat_sub_offset {o i : Nat} (h : o + i < 2 ^ 64) :
    (offsetAddr head o + UInt64.ofNat i - head).toNat = o + i := by
  unfold offsetAddr
  rw [UInt64.add_assoc, ← UInt64.ofNat_add]
  exact toNat_offset h

/-- A header at an offset lies inside exactly when the offset is behind the block's header and leaves 8 bytes. -/
theorem headerInside_offset {o : Nat} (ho : o + 8 < 2 ^ 64) :
    HeaderInside m head (offsetAddr head o) ↔ 8 ≤ o ∧ o + 8 ≤ (totalSize m head).toNat := by
  constructor
  · intro h
    have hfirst := h (offsetAddr head o + UInt64.ofNat 0) (inRegion_offset (by omega) (by omega))
    have hlast := h (offsetAddr head o + UInt64.ofNat 7) (inRegion_offset (by omega) (by omega))
    rw [toNat_sub_offset (by omega)] at hfirst hlast
    omega
  · intro h a ha
    have hi : (a - offsetAddr head o).toNat < 8 := ha
    have ha' : a = offsetAddr head o + UInt64.ofNat (a - offsetAddr head o).toNat := by
      rw [UInt64.ofNat_toNat, UInt64.add_comm, UInt64.sub_add_cancel]
    rw [ha', toNat_sub_offset (by omega)]
    omega

theorem comesTo_ge {o : Nat} (h : ComesTo m ofType head o) : 8 ≤ o := by
  induction h with
  | first => exact Nat.le_refl 8
  | next _ _ _ ih => omega

/-! ## The walk -/

/-- What a turn at an offset does: it goes on by the size of a tag that is not of the type. -/
theorem seekTurn_offset (hspace : head.toNat + max 8 (totalSize m head).toNat < 2 ^ 64) {o : Nat}
    (ho : head.toNat + o < 2 ^ 64) (hlt : o < (totalSize m head).toNat)
    (htype : tagType m (offsetAddr head o) ≠ ofType) :
    seekTurn m ofType (blockEnd m head) (offsetAddr head o) =
      .again (offsetAddr head (o + (tagSize m (offsetAddr head o)).toNat)) := by
  rw [← offsetAddr_add]
  exact seekTurn_on ((lt_blockEnd_iff hspace ho).mpr hlt) htype

/-- A turn that goes round again was at a header below the end and of another type. -/
theorem seekTurn_again {limit p q : Addr} (h : seekTurn m ofType limit p = .again q) :
    p < limit ∧ tagType m p ≠ ofType ∧ q = p + (tagSize m p).toUInt64 := by
  by_cases hlt : p < limit
  · by_cases htype : tagType m p = ofType
    · rw [seekTurn_match hlt htype] at h
      cases h
    · rw [seekTurn_on hlt htype] at h
      exact ⟨hlt, htype, (Turn.again.inj h).symm⟩
  · rw [seekTurn_past hlt] at h
    cases h

/-- The invariant of a walk that fits: the pointer is at an offset the raw sizes lead to, and has not
    passed the top of the address space. -/
def AtOffset (m : Mem) (ofType : UInt32) (head p : Addr) : Prop :=
  ∃ o, ComesTo m ofType head o ∧ p = offsetAddr head o ∧ head.toNat + o < 2 ^ 64

theorem atOffset_first (hspace : head.toNat + max 8 (totalSize m head).toNat < 2 ^ 64) :
    AtOffset m ofType head (head + 8) :=
  ⟨8, ComesTo.first, rfl, by omega⟩

/-- A turn of a walk that fits keeps the invariant, and what is left of the block gets less. -/
theorem atOffset_turn (hspace : head.toNat + max 8 (totalSize m head).toNat < 2 ^ 64) (hnull : head ≠ 0)
    (hfits : WalkFits m ofType head) {p q : Addr} (hp : AtOffset m ofType head p)
    (hturn : seekTurn m ofType (blockEnd m head) p = .again q) :
    AtOffset m ofType head q ∧
      (blockEnd m head).toNat - q.toNat < (blockEnd m head).toNat - p.toNat := by
  obtain ⟨o, hcomes, hpo, ho⟩ := hp
  subst hpo
  obtain ⟨hlt, htype, hq⟩ := seekTurn_again hturn
  have hin := (lt_blockEnd_iff hspace ho).mp hlt
  obtain ⟨-, hsize⟩ := hfits hnull o hcomes hin
  obtain ⟨hpos, htop⟩ := hsize htype
  rw [offsetAddr_add] at hq
  subst hq
  refine ⟨⟨_, ComesTo.next hcomes hin htype, rfl, by omega⟩, ?_⟩
  rw [offsetAddr_toNat (by omega), offsetAddr_toNat ho, blockEnd_toNat hspace]
  omega

theorem safeWalk_of_fits (hspace : head.toNat + max 8 (totalSize m head).toNat < 2 ^ 64)
    (hfits : WalkFits m ofType head) : SafeWalk m ofType head := by
  by_cases hnull : head = 0
  · refine ⟨⟨0, none, by simp [multiboot2SeekTag, hnull]⟩, ?_⟩
    intro p hp
    exact absurd hnull hp.1
  refine ⟨?_, ?_⟩
  · obtain ⟨r, fuel, hr⟩ := returns_of_measure (fun p => (blockEnd m head).toNat - p.toNat)
      (fun p q => atOffset_turn hspace hnull hfits) (atOffset_first hspace)
    refine ⟨fuel, r, ?_⟩
    unfold multiboot2SeekTag
    rw [if_neg hnull]
    exact hr
  · intro p hp
    obtain ⟨-, hvisit, hlt⟩ := hp
    obtain ⟨o, hcomes, hpo, ho⟩ := hvisit.invariant (atOffset_first hspace)
      (fun a b ha hab => (atOffset_turn hspace hnull hfits ha hab).1)
    subst hpo
    have hin := (lt_blockEnd_iff hspace ho).mp hlt
    have htotal := (totalSize m head).toNat_lt
    exact (headerInside_offset (by omega)).mpr ⟨comesTo_ge hcomes, (hfits hnull o hcomes hin).1⟩

/-- A header read outside the block is what a size leading over the top of the address space ends in. -/
theorem no_wrap_of_inside (hspace : head.toNat + max 8 (totalSize m head).toNat < 2 ^ 64) {o : Nat}
    (hlow : o < 2 ^ 33)
    (hinside : offsetAddr head o < blockEnd m head → HeaderInside m head (offsetAddr head o)) :
    head.toNat + o < 2 ^ 64 := by
  by_contra hwrap
  have hhead := head.toNat_lt
  have haddr : (offsetAddr head o).toNat = head.toNat + o - 2 ^ 64 := by
    simp only [offsetAddr, UInt64.toNat_add, UInt64.toNat_ofNat']
    omega
  have hbelow : offsetAddr head o < blockEnd m head := by
    rw [UInt64.lt_iff_toNat_lt, haddr, blockEnd_toNat hspace]
    omega
  have hin := (headerInside_offset (by omega)).mp (hinside hbelow)
  omega

/-- A safe walk begins a turn at every offset the raw sizes lead to. -/
theorem visits_of_comesTo (hspace : head.toNat + max 8 (totalSize m head).toNat < 2 ^ 64) (hnull : head ≠ 0)
    (hsafe : SafeWalk m ofType head) {o : Nat} (h : ComesTo m ofType head o) :
    Visits (seekTurn m ofType (blockEnd m head)) (head + 8) (offsetAddr head o) ∧
      head.toNat + o < 2 ^ 64 := by
  induction h with
  | first => exact ⟨Visits.entry, by omega⟩
  | @next o hcomes hin htype ih =>
    obtain ⟨hvisit, ho⟩ := ih
    have hnext := Visits.turn hvisit (seekTurn_offset hspace ho hin htype)
    have htotal := (totalSize m head).toNat_lt
    have hsize := (tagSize m (offsetAddr head o)).toNat_lt
    refine ⟨hnext, no_wrap_of_inside hspace (by omega) ?_⟩
    intro hlt
    exact hsafe.inside _ ⟨hnull, hnext, hlt⟩

theorem fits_of_safeWalk (hspace : head.toNat + max 8 (totalSize m head).toNat < 2 ^ 64)
    (hsafe : SafeWalk m ofType head) : WalkFits m ofType head := by
  intro hnull o hcomes hin
  obtain ⟨hvisit, ho⟩ := visits_of_comesTo hspace hnull hsafe hcomes
  have htotal := (totalSize m head).toNat_lt
  have hread : ReadsHeader m ofType head (offsetAddr head o) :=
    ⟨hnull, hvisit, (lt_blockEnd_iff hspace ho).mpr hin⟩
  refine ⟨((headerInside_offset (by omega)).mp (hsafe.inside _ hread)).2, ?_⟩
  intro htype
  have hturn := seekTurn_offset hspace ho hin htype
  obtain ⟨-, hnext⟩ := visits_of_comesTo hspace hnull hsafe (ComesTo.next hcomes hin htype)
  refine ⟨?_, by omega⟩
  by_contra hzero
  -- a size of 0 leaves the pointer where it is
  have hstay : o + (tagSize m (offsetAddr head o)).toNat = o := by omega
  rw [hstay] at hturn
  obtain ⟨fuel, r, hr⟩ := hsafe.ends
  unfold multiboot2SeekTag at hr
  rw [if_neg hnull] at hr
  exact hvisit.not_returns hturn ⟨fuel, hr⟩

/-- multiboot2_seek_tag ends and reads the block's own bytes as headers exactly when at every offset its
    raw sizes lead to there is room for a header and a tag it passes has a size. -/
theorem seek_tag_safe_iff (hspace : head.toNat + max 8 (totalSize m head).toNat < 2 ^ 64) :
    SafeWalk m ofType head ↔ WalkFits m ofType head :=
  ⟨fits_of_safeWalk hspace, safeWalk_of_fits hspace⟩

end

/-! ## A walk that ends and one that does not -/

theorem seek_tag_safe_iff_padded :
    SafeWalk (exampleBlock 16 [97, 98, 99, 100, 101, 102, 103, 0]) MultibootInfoTagType.memoryMap.value 0x1000 := by
  refine (seek_tag_safe_iff (by decide)).mpr ?_
  -- the walk comes to the command line and, behind it, to the memory map
  have hcomes : ∀ o, ComesTo (exampleBlock 16 [97, 98, 99, 100, 101, 102, 103, 0])
      MultibootInfoTagType.memoryMap.value 0x1000 o → o = 8 ∨ o = 24 := by
    intro o h
    induction h with
    | first => exact Or.inl rfl
    | next _ _ htype ih =>
      rcases ih with h8 | h24
      · subst h8
        exact Or.inr (by decide)
      · subst h24
        exact absurd (by decide) htype
  intro _ o h _
  rcases hcomes o h with h8 | h24
  · subst h8
    decide
  · subst h24
    decide

/-- A block at 0x1000 whose only tag before the end tag is a command line of 75 characters, padded with zeros. -/
def hangingBlock : Mem :=
  Mem.write (fun _ => 0) 0x1000
    ([104, 0, 0, 0, 0, 0, 0, 0, 1, 0, 0, 0, 84, 0, 0, 0] ++ List.replicate 75 97 ++ [0, 0, 0, 0, 0] ++
      [0, 0, 0, 0, 8, 0, 0, 0])

def hangingTags : List InfoTag := (exampleTags 84 (by decide)).eraseIdx 1

/-- The padding behind the command line and the type of the end tag are read as a header of size 0. -/
theorem seek_tag_hangs :
    WellFormed hangingBlock 0x1000 hangingTags ∧
    (¬ ∃ fuel r, multiboot2SeekTag fuel hangingBlock MultibootInfoTagType.memoryMap.value 0x1000 = some r) ∧
    ¬ SafeWalk hangingBlock MultibootInfoTagType.memoryMap.value 0x1000 := by
  have hw : WellFormed hangingBlock 0x1000 hangingTags :=
    ⟨by decide, by decide, by decide, by decide, ⟨[_], _, rfl, rfl, rfl⟩, by decide⟩
  have hvisit : Visits (seekTurn hangingBlock MultibootInfoTagType.memoryMap.value 0x1068) 0x1008 0x105c :=
    Visits.turn Visits.entry ((seekTurn_on (by decide) (by decide)).trans (congrArg Turn.again (by decide)))
  have hself : seekTurn hangingBlock MultibootInfoTagType.memoryMap.value 0x1068 0x105c = .again 0x105c :=
    (seekTurn_on (by decide) (by decide)).trans (congrArg Turn.again (by decide))
  have hhang : ¬ ∃ fuel r,
      multiboot2SeekTag fuel hangingBlock MultibootInfoTagType.memoryMap.value 0x1000 = some r := by
    intro h
    obtain ⟨fuel, r, hr⟩ := h
    exact hvisit.not_returns hself ⟨fuel, hr⟩
  exact ⟨hw, hhang, fun h => hhang h.ends⟩

end Crows.Kernel.Multiboot
