/-
  Crows.Lib.NulString — strings that end at a terminator in a buffer.

  `NulString α nul` is what such a string holds, the characters before its terminator.
  `ofBuffer` reads one from a buffer, `buffer` is a buffer that holds one and is cleared
  behind it. `agree n s t` is what a comparison of at most `n` characters can tell: the
  comparison stops early where a string ends, so that with more characters than one
  string has it is equality (`agree_of_lt`), and so it is with as many as both have
  (`agree_of_le`).

  `overlay text b` is a buffer in which text was stored without a terminator: it is read
  back as stored exactly when the buffer held a terminator behind it
  (`ofBuffer_overlay_eq_iff`), and where several texts are stored one after another that
  depends on the lengths of all the earlier ones (`afterTexts_eq_nul`).
-/
import Mathlib

namespace Crows.Lib

open Function (update update_self update_of_ne)

structure NulString (α : Type) (nul : α) where
  chars : List α
  nul_notMem : nul ∉ chars
  deriving DecidableEq

namespace NulString

variable {α : Type} {nul : α}

theorem ext_chars {s t : NulString α nul} (h : s.chars = t.chars) : s = t := by
  cases s
  cases t
  simp only at h
  subst h
  rfl

def length (s : NulString α nul) : Nat := s.chars.length

def empty : NulString α nul := ⟨[], List.not_mem_nil⟩

/-- Each character replaced by another one, never by the terminator. -/
def map (f : α → α) (hf : ∀ c, c ≠ nul → f c ≠ nul) (s : NulString α nul) : NulString α nul where
  chars := s.chars.map f
  nul_notMem := by
    intro h
    obtain ⟨c, hc, heq⟩ := List.mem_map.mp h
    refine hf c ?_ heq
    intro hnul
    subst hnul
    exact s.nul_notMem hc

theorem length_map (f : α → α) (hf : ∀ c, c ≠ nul → f c ≠ nul) (s : NulString α nul) :
    (s.map f hf).length = s.length := List.length_map f

/-! ## In a buffer -/

/-- The string in the first `n` cells of a buffer. -/
def ofBuffer [DecidableEq α] (b : Nat → α) (n : Nat) : NulString α nul where
  chars := ((List.range n).map b).takeWhile (· ≠ nul)
  nul_notMem := by
    intro h
    have hne := List.mem_takeWhile_imp h
    simp at hne

/-- A cleared buffer with the characters at its beginning. -/
def buffer (nul : α) (cs : List α) : Nat → α := fun i => cs.getD i nul

/-- The next character goes into the first cleared cell. -/
theorem update_buffer (cs : List α) (c : α) : update (buffer nul cs) cs.length c = buffer nul (cs ++ [c]) := by
  funext i
  by_cases hi : i = cs.length
  · subst hi
    simp [buffer]
  · rw [update_of_ne hi]
    rcases Nat.lt_or_gt_of_ne hi with hlt | hgt
    · simp [buffer, List.getElem?_append_left hlt]
    · have hlong : cs.length + 1 ≤ i := hgt
      simp [buffer, List.getElem?_eq_none (Nat.le_of_lt hgt),
        List.getElem?_eq_none (show (cs ++ [c]).length ≤ i by simpa using hlong)]

/-- Clearing a cleared cell changes nothing. -/
theorem update_buffer_nul {cs : List α} {i : Nat} (hi : cs.length ≤ i) :
    update (buffer nul cs) i nul = buffer nul cs := by
  funext j
  by_cases hj : j = i
  · subst hj
    simp [buffer, List.getElem?_eq_none hi]
  · rw [update_of_ne hj]

/-! ## Laid over a buffer -/

/-- A buffer after text was stored at its beginning, the terminator not with it. -/
def overlay (text : List α) (b : Nat → α) : Nat → α := fun i => text[i]?.getD (b i)

theorem overlay_of_lt {text : List α} {b : Nat → α} {i : Nat} (h : i < text.length) :
    overlay text b i = text.get ⟨i, h⟩ := by
  simp [overlay, h]

theorem overlay_of_le {text : List α} {b : Nat → α} {i : Nat} (h : text.length ≤ i) :
    overlay text b i = b i := by
  simp [overlay, List.getElem?_eq_none h]

theorem overlay_eq_nul {text : List α} (htext : nul ∉ text) {b : Nat → α} {i : Nat} :
    overlay text b i = nul ↔ text.length ≤ i ∧ b i = nul := by
  by_cases hlt : i < text.length
  · rw [overlay_of_lt hlt]
    constructor
    · intro h
      exact absurd (h ▸ List.get_mem text ⟨i, hlt⟩) htext
    · intro h
      exact absurd h.1 (Nat.not_le_of_lt hlt)
  · have hge := Nat.le_of_not_lt hlt
    rw [overlay_of_le hge]
    exact ⟨fun h => ⟨hge, h⟩, fun h => h.2⟩

theorem map_overlay_range (text : List α) (b : Nat → α) {n : Nat} (h : text.length ≤ n) :
    (List.range n).map (overlay text b) =
      text ++ (List.range (n - text.length)).map fun i => b (text.length + i) := by
  apply List.ext_getElem
  · simp only [List.length_map, List.length_range, List.length_append]
    omega
  · intro i hi _
    rw [List.getElem_map, List.getElem_range]
    by_cases hlt : i < text.length
    · rw [overlay_of_lt hlt, List.getElem_append_left hlt]
      rfl
    · have hge := Nat.le_of_not_lt hlt
      rw [overlay_of_le hge, List.getElem_append_right hge, List.getElem_map, List.getElem_range,
        Nat.add_sub_cancel' hge]

theorem ofBuffer_congr [DecidableEq α] {b b' : Nat → α} {n : Nat} (h : ∀ i < n, b i = b' i) :
    (ofBuffer b n : NulString α nul) = ofBuffer b' n := by
  apply ext_chars
  show ((List.range n).map b).takeWhile (· ≠ nul) = ((List.range n).map b').takeWhile (· ≠ nul)
  rw [List.map_congr_left fun i hi => h i (List.mem_range.mp hi)]

/-- What is read back is the text, and behind it whatever the buffer held there up to a terminator. -/
theorem ofBuffer_overlay [DecidableEq α] {text : List α} (htext : nul ∉ text) (b : Nat → α) {n : Nat}
    (h : text.length ≤ n) :
    (ofBuffer (overlay text b) n : NulString α nul).chars =
      text ++ (ofBuffer (fun i => b (text.length + i)) (n - text.length) : NulString α nul).chars := by
  have hall : ∀ c ∈ text, decide (c ≠ nul) = true := by
    intro c hc
    rw [decide_eq_true_eq]
    intro hnul
    subst hnul
    exact htext hc
  show ((List.range n).map (overlay text b)).takeWhile (· ≠ nul) = _
  rw [map_overlay_range text b h, List.takeWhile_append_of_pos hall]
  rfl

/-- Nothing is read from a buffer exactly when it begins with a terminator. -/
theorem ofBuffer_eq_nil [DecidableEq α] {b : Nat → α} {n : Nat} (hn : n = 0 → b 0 = nul) :
    (ofBuffer b n : NulString α nul).chars = [] ↔ b 0 = nul := by
  cases n with
  | zero => exact ⟨fun _ => hn rfl, fun _ => rfl⟩
  | succ n =>
    show ((List.range (n + 1)).map b).takeWhile (· ≠ nul) = [] ↔ _
    rw [List.range_succ_eq_map, List.map_cons, List.takeWhile_cons]
    by_cases h0 : b 0 = nul
    · simp [h0]
    · simp [h0]

/-- The text is read back as it was stored exactly when the buffer held a terminator behind it. -/
theorem ofBuffer_overlay_eq_iff [DecidableEq α] {text : List α} (htext : nul ∉ text) {b : Nat → α} {n : Nat}
    (h : text.length ≤ n) (hn : text.length = n → b n = nul) :
    (ofBuffer (overlay text b) n : NulString α nul).chars = text ↔ b text.length = nul := by
  rw [ofBuffer_overlay htext b h, List.append_right_eq_self, ofBuffer_eq_nil]
  · rfl
  · intro hzero
    have heq : text.length = n := by omega
    rw [Nat.add_zero, heq]
    exact hn heq

theorem ofBuffer_buffer [DecidableEq α] (s : NulString α nul) {n : Nat} (hn : s.length ≤ n) :
    ofBuffer (buffer nul s.chars) n = s := by
  have hlay : buffer nul s.chars = overlay s.chars fun _ => nul := by
    funext i
    rw [buffer, overlay, List.getD_eq_getElem?_getD]
  apply ext_chars
  rw [hlay]
  exact (ofBuffer_overlay_eq_iff s.nul_notMem hn fun _ => rfl).mpr rfl

/-! ## Reading cell by cell -/

/-- The characters from cell `i` on, at most `n` of them, up to the first terminator. -/
def scan [DecidableEq α] (nul : α) (b : Nat → α) : Nat → Nat → List α
  | 0, _ => []
  | n + 1, i => if b i = nul then [] else b i :: scan nul b n (i + 1)

theorem scan_eq_ofBuffer [DecidableEq α] (b : Nat → α) (n i : Nat) :
    scan nul b n i = (ofBuffer (fun k => b (i + k)) n : NulString α nul).chars := by
  induction n generalizing i with
  | zero => rfl
  | succ n ih =>
    show _ = ((List.range (n + 1)).map fun k => b (i + k)).takeWhile (· ≠ nul)
    rw [List.range_succ_eq_map, List.map_cons, List.takeWhile_cons, List.map_map]
    show _ = if decide (b i ≠ nul) = true then _ else _
    by_cases hi : b i = nul
    · simp [scan, hi]
    · have hshift : ((fun k => b (i + k)) ∘ Nat.succ) = fun k => b (i + 1 + k) := by
        funext k
        show b (i + (k + 1)) = b (i + 1 + k)
        congr 1
        omega
      rw [scan, if_neg hi, if_pos (decide_eq_true hi), ih (i + 1), hshift]
      rfl

/-! ## One text after another in the same buffer -/

/-- The buffer after the first `j` of the texts, cell 0 being cleared before each one. -/
def afterTexts (nul : α) (texts : Nat → List α) (b : Nat → α) : Nat → Nat → α
  | 0 => b
  | j + 1 => overlay (texts j) (update (afterTexts nul texts b j) 0 nul)

/-- Behind cell 0 a terminator is what was there before, and is there as long as no text has covered it. -/
theorem afterTexts_eq_nul {texts : Nat → List α} (htexts : ∀ j, nul ∉ texts j) {b : Nat → α} {i : Nat}
    (hi : i ≠ 0) (j : Nat) :
    afterTexts nul texts b j i = nul ↔ b i = nul ∧ ∀ k < j, (texts k).length ≤ i := by
  induction j with
  | zero =>
    show b i = nul ↔ _
    exact ⟨fun h => ⟨h, fun k hk => absurd hk (Nat.not_lt_zero k)⟩, fun h => h.1⟩
  | succ j ih =>
    rw [afterTexts, overlay_eq_nul (htexts j), update_of_ne hi, ih]
    constructor
    · intro h
      refine ⟨h.2.1, ?_⟩
      intro k hk
      rcases Nat.lt_succ_iff_lt_or_eq.mp hk with hlt | heq
      · exact h.2.2 k hlt
      · exact heq ▸ h.1
    · intro h
      exact ⟨h.2 j (Nat.lt_succ_self j), h.1, fun k hk => h.2 k (Nat.lt_succ_of_lt hk)⟩

/-! ## Comparing the first characters -/

/-- No difference shows within the first `n` characters. -/
def agree (n : Nat) (s t : NulString α nul) : Prop := s.chars.take n = t.chars.take n

instance [DecidableEq α] (n : Nat) (s t : NulString α nul) : Decidable (agree n s t) :=
  inferInstanceAs (Decidable (s.chars.take n = t.chars.take n))

theorem agree_of_lt {n : Nat} {s t : NulString α nul} (h : s.length < n) : agree n s t ↔ s = t := by
  constructor
  · intro hag
    have htake : s.chars = t.chars.take n := by
      have hself : s.chars.take n = s.chars := List.take_of_length_le (Nat.le_of_lt h)
      rw [← hself]
      exact hag
    have hlen : s.length = min n t.length := by
      unfold length
      rw [← List.length_take, ← htake]
    have hshort : t.length ≤ n := by omega
    apply ext_chars
    rw [htake, List.take_of_length_le hshort]
  · intro heq
    subst heq
    rfl

theorem agree_of_le {n : Nat} {s t : NulString α nul} (hs : s.length ≤ n) (ht : t.length ≤ n) :
    agree n s t ↔ s = t := by
  unfold agree
  rw [List.take_of_length_le hs, List.take_of_length_le ht]
  exact ⟨ext_chars, congrArg chars⟩

end NulString

end Crows.Lib
