/-
  Crows.Kernel.FormatScan — how snprintf reads its format.

  `ScansFormat` is what the scanner is for: the call ends, it looks at the format no
  further than its NUL, and a conversion with a width is evaluated once the zero and the
  width have been consumed. In case '0' the loop that is to skip the width skips what is
  no digit instead: behind a "%0" it runs on to the next digit, or past the NUL where there
  is none, and a digit other than '0' is then no token.

  Proved: `scanner_iff`, a format and a limit are scanned as they should be, whatever the
  arguments, exactly when `ScansInside` holds: no conversion with a width is come to with
  room left, and any other "%0" that is come to has a digit from 1 on behind it.
  `width_fails`: a format with a width that fails, and one that is read past its NUL.
-/
import Crows.Kernel.Conversions

namespace Crows.Kernel.Snprintf

open Crows.Lib
open State (goto_cursorInto put_cursorInto)

/-! ## What the scanner is for -/

def IsDigit (c : UInt8) : Prop := chr '0' ≤ c ∧ c ≤ chr '9'

instance (c : UInt8) : Decidable (IsDigit c) := inferInstanceAs (Decidable (_ ∧ _))

/-- The conversions that take a width. -/
def sized : List UInt8 := [chr 's', chr 'c', chr 'x', chr 'X', chr 'u', chr 'd']

/-- Behind a "%0", a width and its conversion come next. -/
structure Width (fmt width : List UInt8) (conv : UInt8) (behind : List UInt8) : Prop where
  splits : fmt = width ++ conv :: behind
  nonempty : width ≠ []
  digits : ∀ c ∈ width, IsDigit c
  sized : conv ∈ sized

structure ScansFormat (call : Call) (m : Mem) (length : Nat) : Prop where
  ends : ∃ ret m', Prints call m ret m'
  inside : ∀ s, Visits (turn call) (entry m) s → s.cursor ≤ length
  widths : ∀ s fmt width conv behind, Visits (turn call) (entry m) s → s.point = .main →
    (s.cursorInto : Int) < call.limit.toInt → HasFormat call.fmt s.cursor (chr '%' :: chr '0' :: fmt) →
    Width fmt width conv behind →
    ∃ s', Visits (turn call) s s' ∧ s'.point = .token ∧ s'.cursor = s.cursor + 2 + width.length

/-- The format from some place on is scanned as it should be when there is room for `room` more bytes, each
    token but a %s taking one at least. -/
def ScansInside (room : Nat) : List UInt8 → Prop
  | [] => True
  | c :: fmt =>
    if room = 0 then True
    else if c = chr '%' then
      match fmt with
      | [] => True
      | token :: fmt =>
        if token = chr '0' then
          (∃ c ∈ fmt, chr '0' < c ∧ c ≤ chr '9') ∧ ¬ ∃ width conv behind, Width fmt width conv behind
        else if token = chr 's' then ScansInside room fmt
        else if token ∈ supported then ScansInside (room - 1) fmt
        else True
    else ScansInside (room - 1) fmt

/-! ## The format in place -/

section
variable {f : Nat → UInt8}

theorem HasFormat.unique {k : Nat} {fmt fmt' : List UInt8} (h : HasFormat f k fmt) (h' : HasFormat f k fmt') :
    fmt = fmt' := by
  induction fmt generalizing k fmt' with
  | nil =>
    cases fmt' with
    | nil => rfl
    | cons c' fmt' => exact absurd (h'.1.symm.trans h) h'.2.1
  | cons c fmt ih =>
    cases fmt' with
    | nil => exact absurd (h.1.symm.trans h') h.2.1
    | cons c' fmt' =>
      have hhead : c = c' := h.1.symm.trans h'.1
      rw [hhead, ih h.2.2 h'.2.2]

theorem hasFormat_buffer (s : CString) : HasFormat (NulString.buffer 0 s.chars) 0 s.chars := by
  have hfrom : ∀ k front rest, s.chars = front ++ rest → front.length = k →
      HasFormat (NulString.buffer 0 s.chars) k rest := by
    intro k front rest
    induction rest generalizing k front with
    | nil =>
      intro hsplit hk
      show NulString.buffer 0 s.chars k = 0
      rw [hsplit, ← hk]
      simp [NulString.buffer]
    | cons c rest ih =>
      intro hsplit hk
      refine ⟨?_, ?_, ih (k + 1) (front ++ [c]) (by simp [hsplit]) (by simp [hk])⟩
      · rw [hsplit, ← hk]
        simp [NulString.buffer]
      · intro hzero
        refine s.nul_notMem ?_
        rw [hsplit, ← hzero]
        exact List.mem_append_right _ List.mem_cons_self
  exact hfrom 0 [] s.chars rfl rfl

end

/-! ## A format that is scanned as it should be -/

/-- What holds where a turn begins: the cursor is in the format, and no conversion with a width is next. -/
def Fine (call : Call) (length : Nat) (s : State) : Prop :=
  s.cursor ≤ length ∧
    (s.point = .main → (s.cursorInto : Int) < call.limit.toInt →
      ∀ fmt, HasFormat call.fmt s.cursor (chr '%' :: chr '0' :: fmt) →
        ¬ ∃ width conv behind, Width fmt width conv behind)

/-- How many bytes a token stores at least. -/
def least (token : UInt8) : Nat := if token = chr 's' then 0 else 1

section
variable {call : Call} {length : Nat}

theorem fine_of_ne {s : State} (hcursor : s.cursor ≤ length) (h : s.point ≠ .main) : Fine call length s :=
  ⟨hcursor, fun hmain => absurd hmain h⟩

theorem length_dString_pos (value : UInt64) (tail : CString) : 0 < (dString value tail).length := by
  by_cases hneg : 0 ≤ value.toUInt32.toInt32.toInt
  · obtain ⟨n, hn⟩ := Int.eq_ofNat_of_zero_le hneg
    rw [dString_repr hneg, hn]
    show 0 < (ascii n.repr).length
    rw [ascii_repr]
    exact List.length_pos_iff.mpr (numeral_ne_nil (by omega) n)
  · have hzero : value.toUInt32.toInt32.toInt ≠ 0 := by omega
    unfold dString
    rw [if_neg hzero, if_pos (by omega)]
    exact Nat.succ_pos _

theorem turn_copy {s : State} {src : Source} {i : Nat} (h : s.point = .copy src i) :
    turn call s =
      if i < src.strlen s.mem ∧ (s.cursorInto : Int) < call.limit.toInt then
        .again ((s.put call.str (src.byte s.mem i)).goto (.copy src (i + 1)))
      else .again (s.on.goto .main) := by
  unfold turn
  rw [h]

/-- The copying loop ends whatever is copied, as long as there is no harm in what comes behind it. -/
theorem copy_within {s : State} {src : Source} {i : Nat} (hpoint : s.point = .copy src i) (hcursor : s.cursor ≤ length)
    (hnext : ∀ b : State, b.point = .main → b.cursor = s.cursor + 1 → s.cursorInto ≤ b.cursorInto →
      EndsWithin (turn call) (Fine call length) b) : EndsWithin (turn call) (Fine call length) s := by
  -- there is less room with every turn
  induction hn : call.limit.toInt.toNat - s.cursorInto using Nat.strong_induction_on generalizing s i with
  | h n ih =>
    have hfine : Fine call length s := fine_of_ne hcursor (by rw [hpoint]; simp)
    by_cases hgoes : i < src.strlen s.mem ∧ (s.cursorInto : Int) < call.limit.toInt
    · refine EndsWithin.again ((turn_copy hpoint).trans (if_pos hgoes)) hfine ?_
      refine ih _ ?_ rfl hcursor ?_ rfl
      · rw [goto_cursorInto, put_cursorInto]
        omega
      · intro b hb hbc hbi
        rw [goto_cursorInto, put_cursorInto] at hbi
        exact hnext b hb hbc (by omega)
    · refine EndsWithin.again ((turn_copy hpoint).trans (if_neg hgoes)) hfine ?_
      exact hnext _ rfl rfl (Nat.le_refl _)

/-- A text that is not empty takes room if there is any. -/
theorem copy_array_within {s : State} {text : List UInt8} (hpoint : s.point = .copy (.array text) 0)
    (htext : 0 < text.length) (hroom : (s.cursorInto : Int) < call.limit.toInt) (hcursor : s.cursor ≤ length)
    (hnext : ∀ b : State, b.point = .main → b.cursor = s.cursor + 1 → s.cursorInto + 1 ≤ b.cursorInto →
      EndsWithin (turn call) (Fine call length) b) : EndsWithin (turn call) (Fine call length) s := by
  have hgoes : 0 < (Source.array text).strlen s.mem ∧ (s.cursorInto : Int) < call.limit.toInt := ⟨htext, hroom⟩
  refine EndsWithin.again ((turn_copy hpoint).trans (if_pos hgoes)) (fine_of_ne hcursor (by rw [hpoint]; simp)) ?_
  exact copy_within rfl hcursor hnext

/-- Behind a token that is supported the loop over the format goes on with as much less room at least. -/
theorem token_within {s : State} (hpoint : s.point = .token) (hcursor : s.cursor ≤ length)
    (hroom : (s.cursorInto : Int) < call.limit.toInt) (hsupported : call.fmt s.cursor ∈ supported)
    (hzero : call.fmt s.cursor ≠ chr '0')
    (hnext : ∀ b : State, b.point = .main → b.cursor = s.cursor + 1 →
      s.cursorInto + least (call.fmt s.cursor) ≤ b.cursorInto → EndsWithin (turn call) (Fine call length) b) :
    EndsWithin (turn call) (Fine call length) s := by
  have hfine : Fine call length s := fine_of_ne hcursor (by rw [hpoint]; simp)
  have hturn : turn call s = evaluate call s := turn_token_of hpoint
  unfold evaluate at hturn
  by_cases hpercent : call.fmt s.cursor = chr '%'
  · simp only [hpercent, if_true] at hturn hnext
    exact EndsWithin.again hturn hfine (hnext _ rfl rfl (Nat.le_refl _))
  simp only [hpercent, hzero, if_false] at hturn
  by_cases hs : call.fmt s.cursor = chr 's'
  · simp only [hs, if_true] at hturn hnext
    by_cases hnull : call.args s.arg = 0
    · rw [if_pos hnull] at hturn
      exact EndsWithin.again hturn hfine (hnext _ rfl rfl (Nat.le_refl _))
    · rw [if_neg hnull] at hturn
      exact EndsWithin.again hturn hfine (copy_within rfl hcursor hnext)
  have hleast : least (call.fmt s.cursor) = 1 := if_neg hs
  rw [hleast] at hnext
  simp only [hs, if_false] at hturn
  by_cases hc : call.fmt s.cursor = chr 'c'
  · rw [if_pos hc] at hturn
    exact EndsWithin.again hturn hfine (hnext _ rfl rfl (Nat.le_refl _))
  rw [if_neg hc] at hturn
  by_cases hx : call.fmt s.cursor = chr 'x' ∨ call.fmt s.cursor = chr 'X'
  · rw [if_pos hx, hexText_eq] at hturn
    exact EndsWithin.again hturn hfine (copy_array_within rfl (length_hexString_pos _ _ _) hroom hcursor hnext)
  rw [if_neg hx] at hturn
  by_cases hu : call.fmt s.cursor = chr 'u'
  · rw [if_pos hu, uText_eq] at hturn
    exact EndsWithin.again hturn hfine (copy_array_within rfl (length_uString_pos _) hroom hcursor hnext)
  rw [if_neg hu] at hturn
  by_cases hd : call.fmt s.cursor = chr 'd'
  · rw [if_pos hd, dText_eq] at hturn
    exact EndsWithin.again hturn hfine (copy_array_within rfl (length_dString_pos _ _) hroom hcursor hnext)
  · -- there are no other supported tokens
    rw [not_or] at hx
    simp [supported, hpercent, hzero, hs, hc, hx.1, hx.2, hu, hd] at hsupported

/-- Case '0' stops at a digit from 1 on. -/
theorem zeros_within {s : State} {fmt : List UInt8} (hpoint : s.point = .zeros)
    (hfmt : HasFormat call.fmt s.cursor fmt) (hlength : s.cursor + fmt.length = length)
    (hdigit : ∃ c ∈ fmt, chr '0' < c ∧ c ≤ chr '9') : EndsWithin (turn call) (Fine call length) s := by
  induction fmt generalizing s with
  | nil =>
    obtain ⟨c, hmem, -⟩ := hdigit
    cases hmem
  | cons c fmt ih =>
    obtain ⟨hc, -, hrest⟩ := hfmt
    rw [List.length_cons] at hlength
    have hfine : Fine call length s := fine_of_ne (by omega) (by rw [hpoint]; simp)
    -- a digit further on is what the loop goes on to
    have hlater : ¬ (chr '0' < c ∧ c ≤ chr '9') → ∃ c ∈ fmt, chr '0' < c ∧ c ≤ chr '9' := by
      intro hnot
      obtain ⟨c', hmem, hc'⟩ := hdigit
      rcases List.mem_cons.mp hmem with heq | hmem'
      · exact absurd (heq ▸ hc') hnot
      · exact ⟨c', hmem', hc'⟩
    by_cases hskip : call.fmt s.cursor < chr '0' ∨ chr '9' < call.fmt s.cursor
    · refine EndsWithin.again (turn_skip hpoint hskip) hfine (ih hpoint hrest ?_ (hlater ?_))
      · show s.cursor + 1 + fmt.length = length
        omega
      · rintro ⟨hlow, hhigh⟩
        rw [hc] at hskip
        rcases hskip with h | h
        · exact absurd hlow (UInt8.lt_asymm h)
        · exact absurd hhigh (UInt8.not_le.mpr h)
    · refine EndsWithin.again (turn_digit hpoint hskip) hfine ?_
      have htoken : Fine call length (s.goto .token) := fine_of_ne hfine.1 (by simp)
      rw [not_or, UInt8.not_lt, UInt8.not_lt] at hskip
      by_cases hzero : call.fmt s.cursor = chr '0'
      · refine EndsWithin.again (turn_zero rfl hzero) htoken (ih rfl hrest ?_ (hlater ?_))
        · show s.cursor + 1 + fmt.length = length
          omega
        · rintro ⟨hlow, -⟩
          rw [← hc, hzero] at hlow
          exact absurd hlow (by decide)
      · exact EndsWithin.done
          (turn_unsupported rfl (digit_unsupported ⟨UInt8.lt_of_le_of_ne hskip.1 (Ne.symm hzero), hskip.2⟩)) htoken

theorem turn_main_of {s : State} (h : s.point = .main) :
    turn call s =
      if call.fmt s.cursor ≠ 0 ∧ (s.cursorInto : Int) < call.limit.toInt then
        if call.fmt s.cursor = chr '%' then .again (s.on.goto .token)
        else .again (s.put call.str (call.fmt s.cursor)).on
      else .done ⟨s.cursorInto, s.mem⟩ := by
  unfold turn
  rw [h]

/-- Without room the loop over the format is left. -/
theorem within_of_free {s : State} (hpoint : s.point = .main) (hcursor : s.cursor ≤ length)
    (h : (s.cursorInto : Int) < call.limit.toInt → EndsWithin (turn call) (Fine call length) s) :
    EndsWithin (turn call) (Fine call length) s := by
  by_cases hfree : (s.cursorInto : Int) < call.limit.toInt
  · exact h hfree
  · have hend : ¬ (call.fmt s.cursor ≠ 0 ∧ (s.cursorInto : Int) < call.limit.toInt) := fun h => hfree h.2
    refine EndsWithin.done ((turn_main_of hpoint).trans (if_neg hend)) ⟨hcursor, ?_⟩
    intro _ hlt
    exact absurd hlt hfree

theorem fine_main {s : State} {fmt : List UInt8} (hcursor : s.cursor ≤ length) (hfmt : HasFormat call.fmt s.cursor fmt)
    (hwidth : ∀ rest, fmt = chr '%' :: chr '0' :: rest → ¬ ∃ width conv behind, Width rest width conv behind) :
    Fine call length s := by
  refine ⟨hcursor, ?_⟩
  intro _ _ rest hrest
  exact hwidth rest (hfmt.unique hrest)

theorem percent_within {s : State} (hpoint : s.point = .main) (hfine : Fine call length s)
    (hc : call.fmt s.cursor = chr '%') (hroom : (s.cursorInto : Int) < call.limit.toInt)
    (h : EndsWithin (turn call) (Fine call length) (s.on.goto .token)) :
    EndsWithin (turn call) (Fine call length) s := by
  have hne : call.fmt s.cursor ≠ 0 := by
    rw [hc]
    decide
  exact EndsWithin.again ((turn_main_of hpoint).trans ((if_pos ⟨hne, hroom⟩).trans (if_pos hc))) hfine h

/-- Behind a '%' and a supported token but '0', the loop over the format goes on with the rest. -/
theorem supported_within {s : State} {token : UInt8} {fmt : List UInt8} (hpoint : s.point = .main)
    (hfmt : HasFormat call.fmt s.cursor (chr '%' :: token :: fmt))
    (hlength : s.cursor + (chr '%' :: token :: fmt).length = length)
    (hfree : (s.cursorInto : Int) < call.limit.toInt) (hsupported : token ∈ supported) (hzero : token ≠ chr '0')
    (hnext : ∀ b : State, b.point = .main → HasFormat call.fmt b.cursor fmt → b.cursor + fmt.length = length →
      s.cursorInto + least token ≤ b.cursorInto → EndsWithin (turn call) (Fine call length) b) :
    EndsWithin (turn call) (Fine call length) s := by
  rw [List.length_cons, List.length_cons] at hlength
  have hfine : Fine call length s :=
    fine_main (by omega) hfmt fun rest h => absurd (List.cons.inj (List.cons.inj h).2).1 hzero
  obtain ⟨hc, -, htoken, -, hrest⟩ := hfmt
  have hat : call.fmt (s.on.goto .token).cursor = token := htoken
  refine percent_within hpoint hfine hc hfree (token_within rfl ?_ hfree (hat ▸ hsupported) (hat ▸ hzero) ?_)
  · show s.cursor + 1 ≤ length
    omega
  · intro b hb hbc hbi
    rw [hat] at hbi
    refine hnext b hb (hbc ▸ hrest) ?_ hbi
    rw [hbc]
    show s.cursor + 1 + 1 + fmt.length = length
    omega

/-- A token that is not supported ends the call. -/
theorem unsupported_within {s : State} (hpoint : s.point = .main) (hfine : Fine call length s)
    (hc : call.fmt s.cursor = chr '%') (hfree : (s.cursorInto : Int) < call.limit.toInt)
    (hcursor : s.cursor + 1 ≤ length) (htoken : call.fmt (s.cursor + 1) ∉ supported) :
    EndsWithin (turn call) (Fine call length) s := by
  apply percent_within hpoint hfine hc hfree
  apply EndsWithin.done (turn_unsupported rfl htoken)
  apply fine_of_ne hcursor
  simp

/-- A "%0" that is no width, with a digit from 1 on somewhere behind it. -/
theorem zero_within {s : State} {fmt : List UInt8} (hpoint : s.point = .main)
    (hfmt : HasFormat call.fmt s.cursor (chr '%' :: chr '0' :: fmt))
    (hlength : s.cursor + (chr '%' :: chr '0' :: fmt).length = length)
    (hfree : (s.cursorInto : Int) < call.limit.toInt) (hdigit : ∃ c ∈ fmt, chr '0' < c ∧ c ≤ chr '9')
    (hwidth : ¬ ∃ width conv behind, Width fmt width conv behind) : EndsWithin (turn call) (Fine call length) s := by
  rw [List.length_cons, List.length_cons] at hlength
  have hfine : Fine call length s := by
    apply fine_main (by omega) hfmt
    intro rest h
    exact (List.cons.inj (List.cons.inj h).2).2 ▸ hwidth
  obtain ⟨hc, -, hzero, -, hrest⟩ := hfmt
  have htoken : Fine call length (s.on.goto .token) := by
    apply fine_of_ne
    · show s.cursor + 1 ≤ length
      omega
    · simp
  apply percent_within hpoint hfine hc hfree
  apply EndsWithin.again (turn_zero rfl hzero) htoken
  apply zeros_within rfl hrest
  · show s.cursor + 1 + 1 + fmt.length = length
    omega
  · exact hdigit

/-- A format that is scanned as it should be with some room is so with less, whatever is in store for it. -/
theorem main_within {room : Nat} {fmt : List UInt8} (hscans : ScansInside room fmt) {s : State}
    (hpoint : s.point = .main) (hfmt : HasFormat call.fmt s.cursor fmt) (hlength : s.cursor + fmt.length = length)
    (hroom : call.limit.toInt.toNat - s.cursorInto ≤ room) : EndsWithin (turn call) (Fine call length) s := by
  fun_induction ScansInside room fmt generalizing s with
  | case1 room =>
    -- the NUL
    have hend : ¬ (call.fmt s.cursor ≠ 0 ∧ (s.cursorInto : Int) < call.limit.toInt) := fun h => h.1 hfmt
    refine EndsWithin.done ((turn_main_of hpoint).trans (if_neg hend)) ?_
    exact fine_main (Nat.le_of_eq hlength) hfmt fun rest h => by cases h
  | case2 c fmt =>
    rw [List.length_cons] at hlength
    refine within_of_free hpoint (by omega) ?_
    intro hfree
    omega
  | case3 room hpos =>
    -- a '%' that is the last character
    have hlast : s.cursor + 1 = length := hlength
    refine within_of_free hpoint (by omega) ?_
    intro hfree
    have hnul : call.fmt (s.cursor + 1) ∉ supported := by
      rw [show call.fmt (s.cursor + 1) = 0 from hfmt.2.2]
      decide
    have hfine : Fine call length s := fine_main (by omega) hfmt fun rest h => by cases h
    exact unsupported_within hpoint hfine hfmt.1 hfree (Nat.le_of_eq hlast) hnul
  | case4 room hpos fmt =>
    refine within_of_free hpoint (hlength ▸ Nat.le_add_right _ _) ?_
    intro hfree
    exact zero_within hpoint hfmt hlength hfree hscans.1 hscans.2
  | case5 room hpos fmt hzero ih =>
    refine within_of_free hpoint (hlength ▸ Nat.le_add_right _ _) ?_
    intro hfree
    refine supported_within hpoint hfmt hlength hfree (by decide) hzero ?_
    intro b hb hbfmt hblength hbi
    rw [least, if_pos rfl] at hbi
    exact ih hscans hb hbfmt hblength (by omega)
  | case6 room hpos token fmt hzero hs hsupported ih =>
    refine within_of_free hpoint (hlength ▸ Nat.le_add_right _ _) ?_
    intro hfree
    refine supported_within hpoint hfmt hlength hfree hsupported hzero ?_
    intro b hb hbfmt hblength hbi
    rw [least, if_neg hs] at hbi
    exact ih hscans hb hbfmt hblength (by omega)
  | case7 room hpos token fmt hzero hs hsupported =>
    rw [List.length_cons, List.length_cons] at hlength
    refine within_of_free hpoint (by omega) ?_
    intro hfree
    have hfine : Fine call length s :=
      fine_main (by omega) hfmt fun rest h => absurd (List.cons.inj (List.cons.inj h).2).1 hzero
    obtain ⟨hc, -, htoken, -, -⟩ := hfmt
    exact unsupported_within hpoint hfine hc hfree (by omega) (htoken ▸ hsupported)
  | case8 room c fmt hpos hplain ih =>
    rw [List.length_cons] at hlength
    refine within_of_free hpoint (by omega) ?_
    intro hfree
    have hfine : Fine call length s := fine_main (by omega) hfmt fun rest h => absurd (List.cons.inj h).1 hplain
    obtain ⟨hc, hne, hrest⟩ := hfmt
    subst hc
    refine EndsWithin.again ((turn_main_of hpoint).trans ((if_pos ⟨hne, hfree⟩).trans (if_neg hplain))) hfine ?_
    refine ih hscans hpoint hrest ?_ ?_
    · show s.cursor + 1 + fmt.length = length
      omega
    · show call.limit.toInt.toNat - (s.cursorInto + 1) ≤ room - 1
      omega

/-! ## Behind a "%0" -/

/-- Where no digit from 1 on is left, the loop of case '0' runs past the NUL. -/
theorem zeros_overrun {s : State} {fmt : List UInt8} (hpoint : s.point = .zeros)
    (hfmt : HasFormat call.fmt s.cursor fmt) (hnone : ¬ ∃ c ∈ fmt, chr '0' < c ∧ c ≤ chr '9') :
    ∃ s', Visits (turn call) s s' ∧ s'.cursor = s.cursor + fmt.length + 1 := by
  induction fmt generalizing s with
  | nil =>
    have hskip : call.fmt s.cursor < chr '0' ∨ chr '9' < call.fmt s.cursor := by
      rw [show call.fmt s.cursor = 0 from hfmt]
      decide
    exact ⟨s.on, Visits.turn Visits.entry (turn_skip hpoint hskip), rfl⟩
  | cons c fmt ih =>
    obtain ⟨hc, -, hrest⟩ := hfmt
    have hrestNone : ¬ ∃ c ∈ fmt, chr '0' < c ∧ c ≤ chr '9' := by
      rintro ⟨c', hmem, hdigit⟩
      exact hnone ⟨c', List.mem_cons_of_mem c hmem, hdigit⟩
    rw [List.length_cons]
    by_cases hskip : call.fmt s.cursor < chr '0' ∨ chr '9' < call.fmt s.cursor
    · obtain ⟨s', hvisits, hcursor⟩ := ih (s := s.on) hpoint hrest hrestNone
      refine ⟨s', Visits.head (turn_skip hpoint hskip) hvisits, ?_⟩
      rw [hcursor]
      show s.cursor + 1 + fmt.length + 1 = _
      omega
    · have hzero : call.fmt s.cursor = chr '0' := by
        have hdigit := hskip
        rw [not_or, UInt8.not_lt, UInt8.not_lt] at hdigit
        by_contra hne
        exact hnone ⟨c, List.mem_cons_self, hc ▸ ⟨UInt8.lt_of_le_of_ne hdigit.1 (Ne.symm hne), hdigit.2⟩⟩
      obtain ⟨s', hvisits, hcursor⟩ := ih (s := (s.goto .token).on.goto .zeros) rfl hrest hrestNone
      refine ⟨s', Visits.head (turn_digit hpoint hskip) (Visits.head (turn_zero rfl hzero) hvisits), ?_⟩
      rw [hcursor]
      show s.cursor + 1 + fmt.length + 1 = _
      omega

/-- What is evaluated behind a "%0" is a digit, never a conversion. -/
theorem zeros_tokens {s s' : State} (hpoint : s.point = .zeros) (h : Visits (turn call) s s') :
    s'.point = .zeros ∨ (s'.point = .token ∧ IsDigit (call.fmt s'.cursor)) := by
  refine h.invariant (I := fun s => s.point = .zeros ∨ (s.point = .token ∧ IsDigit (call.fmt s.cursor)))
    (Or.inl hpoint) ?_
  rintro a b (hzeros | ⟨htoken, hdigit⟩) hab
  · by_cases hskip : call.fmt a.cursor < chr '0' ∨ chr '9' < call.fmt a.cursor
    · rw [turn_skip hzeros hskip] at hab
      exact Or.inl (Turn.again.inj hab ▸ hzeros)
    · rw [turn_digit hzeros hskip] at hab
      rw [not_or, UInt8.not_lt, UInt8.not_lt] at hskip
      exact Or.inr (Turn.again.inj hab ▸ ⟨rfl, hskip⟩)
  · by_cases hzero : call.fmt a.cursor = chr '0'
    · rw [turn_zero htoken hzero] at hab
      exact Or.inl (Turn.again.inj hab ▸ rfl)
    · have hunsupported := digit_unsupported ⟨UInt8.lt_of_le_of_ne hdigit.1 (Ne.symm hzero), hdigit.2⟩
      rw [turn_unsupported htoken hunsupported] at hab
      cases hab

theorem HasFormat.at_append {f : Nat → UInt8} {k : Nat} {front behind : List UInt8} {c : UInt8}
    (h : HasFormat f k (front ++ c :: behind)) : f (k + front.length) = c := by
  induction front generalizing k with
  | nil => exact h.1
  | cons c' front ih =>
    have hat := ih h.2.2
    rwa [Nat.add_assoc, Nat.add_comm 1] at hat

/-- A conversion with a width is never evaluated behind it. -/
theorem width_missed {m : Mem} {fmt width behind : List UInt8} {conv : UInt8} {cursor arg : Nat} {bytes : List UInt8}
    (hfmt : HasFormat call.fmt cursor (chr '%' :: chr '0' :: fmt)) (hwidth : Width fmt width conv behind)
    (hfree : (bytes.length : Int) < call.limit.toInt) :
    ¬ ∃ s', Visits (turn call) (stateAt call m .main cursor arg bytes) s' ∧ s'.point = .token ∧
      s'.cursor = cursor + 2 + width.length := by
  rintro ⟨s', hvisits, htoken, hcursor⟩
  obtain ⟨hc, -, hzero, -, hrest⟩ := hfmt
  rw [hwidth.splits] at hrest
  rcases hvisits.eq_or_next with heq | ⟨a, hturn, hvisits⟩
  · rw [← heq] at htoken
    cases htoken
  · rw [turn_percent hc hfree] at hturn
    have ha := Turn.again.inj hturn
    subst ha
    rcases hvisits.eq_or_next with heq | ⟨b, hturn, hvisits⟩
    · rw [← heq] at hcursor
      have hsame : cursor + 1 = cursor + 2 + width.length := hcursor
      omega
    · rw [turn_zero rfl hzero] at hturn
      have hb := Turn.again.inj hturn
      subst hb
      rcases zeros_tokens rfl hvisits with hzeros | ⟨-, hdigit⟩
      · rw [hzeros] at htoken
        cases htoken
      · rw [hcursor, hrest.at_append] at hdigit
        have hall : ∀ c ∈ sized, ¬ IsDigit c := by decide +kernel
        exact hall conv hwidth.sized hdigit

end

/-! ## Arguments that print as little as there can be -/

/-- A call with the format, whose arguments are all 0. -/
def zeroCall (fmt : CString) (limit : Int32) : Call :=
  ⟨0x1000, limit, NulString.buffer 0 fmt.chars, fun _ => 0, fun _ => clearArrays⟩

section
variable {text : CString} {limit : Int32} {m : Mem} {cursor arg : Nat} {bytes : List UInt8}

theorem Follows.char_least {call : Call} {c : UInt8} {args : List Arg}
    (h : Follows call m cursor arg bytes (.char c args)) :
    ∃ arg' bytes', Visits (turn call) (stateAt call m .token cursor arg bytes)
      (stateAt call m .main (cursor + 1) arg' bytes') ∧ bytes'.length = bytes.length + 1 := by
  obtain ⟨arg', -, hvisits⟩ := h
  exact ⟨arg', _, hvisits, by simp⟩

theorem Follows.string_least {call : Call} {s : List UInt8} {args : List Arg} {n : Nat} (hs : s.length = n)
    (hn : n ≤ 1) (hfree : (bytes.length : Int) < call.limit.toInt)
    (h : Follows call m cursor arg bytes (.string s args)) :
    ∃ arg' bytes', Visits (turn call) (stateAt call m .token cursor arg bytes)
      (stateAt call m .main (cursor + 1) arg' bytes') ∧ bytes'.length = bytes.length + n := by
  obtain ⟨arg', -, hvisits⟩ := h
  refine ⟨arg', _, hvisits, ?_⟩
  rw [putString_eq _ _ _ (by omega), List.length_take, List.length_append, hs]
  omega

/-- Over zeros a supported token but '0' stores no more than it has to. -/
theorem token_least (m : Mem) (arg : Nat) {token : UInt8} (htoken : (zeroCall text limit).fmt cursor = token)
    (hsupported : token ∈ supported)
    (hzero : token ≠ chr '0') (hfree : (bytes.length : Int) < (zeroCall text limit).limit.toInt) :
    ∃ arg' bytes', Visits (turn (zeroCall text limit)) (stateAt (zeroCall text limit) m .token cursor arg bytes)
        (stateAt (zeroCall text limit) m .main (cursor + 1) arg' bytes') ∧
      bytes'.length = bytes.length + least token := by
  have hword : Passed (zeroCall text limit) m arg [.word 0] := ⟨rfl, trivial⟩
  have hnull : Passed (zeroCall text limit) m arg [.string none] := ⟨rfl, trivial⟩
  have hfollows := token_follows htoken hword hfree hzero
  simp only [supported, List.mem_cons, List.not_mem_nil, or_false] at hsupported
  rcases hsupported with h | h | h | h | h | h | h | h
  · subst h
    exact Follows.char_least hfollows
  · exact absurd h hzero
  · subst h
    exact Follows.string_least (s := []) rfl (by decide) hfree (token_follows htoken hnull hfree hzero)
  · subst h
    exact Follows.char_least hfollows
  · subst h
    exact Follows.string_least (s := [chr '0']) rfl (by decide) hfree hfollows
  · subst h
    exact Follows.string_least (s := [chr '0']) rfl (by decide) hfree hfollows
  · subst h
    exact Follows.string_least (s := [chr '0']) rfl (by decide) hfree hfollows
  · subst h
    exact Follows.string_least (s := [chr '0']) rfl (by decide) hfree hfollows

theorem free_of_room {room : Nat} (hpos : ¬ room = 0) (hroom : limit.toInt.toNat - bytes.length = room) :
    (bytes.length : Int) < (zeroCall text limit).limit.toInt := by
  show (bytes.length : Int) < limit.toInt
  omega

/-- Over zeros the loop over the format goes on behind a supported token with as much less room as it has to. -/
theorem supported_least {s : State} {token : UInt8} {fmt : List UInt8}
    (hfmt : HasFormat (zeroCall text limit).fmt cursor (chr '%' :: token :: fmt)) (hsupported : token ∈ supported)
    (hzero : token ≠ chr '0') (hfree : (bytes.length : Int) < (zeroCall text limit).limit.toInt)
    (hvisits : Visits (turn (zeroCall text limit)) s (stateAt (zeroCall text limit) m .main cursor arg bytes)) :
    ∃ arg' bytes', HasFormat (zeroCall text limit).fmt (cursor + 2) fmt ∧
      Visits (turn (zeroCall text limit)) s (stateAt (zeroCall text limit) m .main (cursor + 2) arg' bytes') ∧
      bytes'.length = bytes.length + least token := by
  obtain ⟨hc, -, htoken, -, hrest⟩ := hfmt
  obtain ⟨arg', bytes', hstep, hbytes⟩ := token_least m arg htoken hsupported hzero hfree
  exact ⟨arg', bytes', hrest, (Visits.turn hvisits (turn_percent hc hfree)).trans hstep, hbytes⟩

/-- A call over zeros comes to whatever a format can lead to. -/
theorem scansInside_of_zeroCall (arg : Nat) (bytes : List UInt8)
    (hscans : ScansFormat (zeroCall text limit) m text.length) {room : Nat}
    {fmt : List UInt8} (hfmt : HasFormat (zeroCall text limit).fmt cursor fmt)
    (hlength : cursor + fmt.length = text.length)
    (hvisits : Visits (turn (zeroCall text limit)) (entry m) (stateAt (zeroCall text limit) m .main cursor arg bytes))
    (hroom : limit.toInt.toNat - bytes.length = room) : ScansInside room fmt := by
  fun_induction ScansInside room fmt generalizing cursor arg bytes with
  | case1 room => exact trivial
  | case2 c fmt => exact trivial
  | case3 room hpos => exact trivial
  | case4 room hpos fmt =>
    have hfree : (bytes.length : Int) < (zeroCall text limit).limit.toInt := free_of_room hpos hroom
    obtain ⟨hc, -, hzero, -, hrest⟩ := id hfmt
    have hbehind := Visits.turn (Visits.turn hvisits (turn_percent hc hfree)) (turn_zero rfl hzero)
    constructor
    · by_contra hnone
      obtain ⟨s', hover, hcursor⟩ := zeros_overrun
        (s := (stateAt (zeroCall text limit) m .token (cursor + 1) arg bytes).on.goto .zeros) rfl hrest hnone
      have hinside := hscans.inside s' (hbehind.trans hover)
      rw [hcursor] at hinside
      have hbeyond : cursor + 1 + 1 + fmt.length + 1 ≤ text.length := hinside
      rw [List.length_cons, List.length_cons] at hlength
      omega
    · rintro ⟨width, conv, behind, hwidth⟩
      exact width_missed hfmt hwidth hfree (hscans.widths _ _ _ _ _ hvisits rfl hfree hfmt hwidth)
  | case5 room hpos fmt hzero ih =>
    have hfree : (bytes.length : Int) < (zeroCall text limit).limit.toInt := free_of_room hpos hroom
    obtain ⟨arg', bytes', hrest, hbehind, hbytes⟩ := supported_least hfmt (by decide) hzero hfree hvisits
    rw [List.length_cons, List.length_cons] at hlength
    rw [least, if_pos rfl] at hbytes
    exact ih arg' bytes' hrest (by omega) hbehind (by omega)
  | case6 room hpos token fmt hzero hs hsupported ih =>
    have hfree : (bytes.length : Int) < (zeroCall text limit).limit.toInt := free_of_room hpos hroom
    obtain ⟨arg', bytes', hrest, hbehind, hbytes⟩ := supported_least hfmt hsupported hzero hfree hvisits
    rw [List.length_cons, List.length_cons] at hlength
    rw [least, if_neg hs] at hbytes
    exact ih arg' bytes' hrest (by omega) hbehind (by omega)
  | case7 room hpos token fmt hzero hs hsupported => exact trivial
  | case8 room c fmt hpos hplain ih =>
    have hfree : (bytes.length : Int) < (zeroCall text limit).limit.toInt := free_of_room hpos hroom
    obtain ⟨hc, hne, hrest⟩ := hfmt
    rw [List.length_cons] at hlength
    refine ih arg (bytes ++ [c]) hrest (by omega) (Visits.turn hvisits (turn_literal hc hne hplain hfree)) ?_
    rw [List.length_append, List.length_singleton]
    omega

end

/-! ## The scanner -/

/-- A format and a limit are scanned as they should be, whatever the arguments and the memory, exactly when no
    "%0" that is come to is a conversion with a width, and each has a digit from 1 on behind it. -/
theorem scanner_iff (text : CString) (limit : Int32) :
    (∀ (call : Call) (m : Mem), call.limit = limit → HasFormat call.fmt 0 text.chars →
      ScansFormat call m text.length) ↔ ScansInside limit.toInt.toNat text.chars := by
  constructor
  · intro h
    have hscans := h (zeroCall text limit) (fun _ => 0) rfl (hasFormat_buffer text)
    refine scansInside_of_zeroCall 0 [] hscans (hasFormat_buffer text) (Nat.zero_add _) ?_ rfl
    rw [← entry_eq]
    exact Visits.entry
  · intro hscans call m hlimit hfmt
    subst hlimit
    have hwithin : EndsWithin (turn call) (Fine call text.length) (entry m) :=
      main_within hscans rfl hfmt (Nat.zero_add _) (Nat.sub_le _ _)
    refine ⟨?_, fun s hs => (hwithin.within s hs).1, ?_⟩
    · obtain ⟨r, hr⟩ := hwithin.ends
      exact ⟨r.ret, r.mem, hr⟩
    · intro s fmt width conv behind hs hmain hfree hat hwidth
      exact absurd ⟨width, conv, behind, hwidth⟩ ((hwithin.within s hs).2 hmain hfree fmt hat)

/-- "%08x" returns -1 at the 8, and "%0x" has the loop of case '0' run past the NUL. -/
theorem width_fails :
    (∃ m', Prints (callOf "%08x" 16 [255]) (fun _ => 0) (-1) m') ∧
    ¬ ScansFormat (callOf "%08x" 16 [255]) (fun _ => 0) 4 ∧
    ¬ ScansFormat (callOf "%0x" 16 [255]) (fun _ => 0) 3 := by
  have hargs : Passed (callOf "%08x" 16 [255]) (fun _ => 0) 0 [.word 255] := ⟨rfl, trivial⟩
  have hprinted : snprintf (callOf "%08x" 16 [255]).locals 16 (ascii "%08x") [.word 255] = some ⟨[], -1⟩ := by decide
  refine ⟨⟨_, returns_of_snprintf (by decide) hargs hprinted⟩, ?_, ?_⟩
  · intro h
    have hfmt : HasFormat (callOf "%08x" 16 [255]).fmt 0 [chr '%', chr '0', chr '8', chr 'x'] := by decide
    have hwidth : Width [chr '8', chr 'x'] [chr '8'] (chr 'x') [] := ⟨rfl, by decide, by decide +kernel, by decide⟩
    have hevaluated := h.widths _ _ _ _ _ Visits.entry rfl (by decide) hfmt hwidth
    rw [entry_eq (callOf "%08x" 16 [255])] at hevaluated
    exact width_missed hfmt hwidth (by decide) hevaluated
  · intro h
    have hfmt : HasFormat (callOf "%0x" 16 [255]).fmt 0 [chr '%', chr '0', chr 'x'] := by decide
    have hzeros : Visits (turn (callOf "%0x" 16 [255])) (entry fun _ => 0)
        (stateAt (callOf "%0x" 16 [255]) (fun _ => 0) .zeros 2 0 []) := by
      rw [entry_eq (callOf "%0x" 16 [255])]
      exact Visits.turn (Visits.turn Visits.entry (turn_percent hfmt.1 (by decide))) (turn_zero rfl hfmt.2.2.1)
    have hnone : ¬ ∃ c ∈ [chr 'x'], chr '0' < c ∧ c ≤ chr '9' := by decide +kernel
    obtain ⟨s', hover, hcursor⟩ := zeros_overrun
      (s := stateAt (callOf "%0x" 16 [255]) (fun _ => 0) .zeros 2 0 []) rfl hfmt.2.2.2.2 hnone
    have hinside := h.inside s' (hzeros.trans hover)
    rw [hcursor] at hinside
    exact absurd hinside (by decide)

end Crows.Kernel.Snprintf
