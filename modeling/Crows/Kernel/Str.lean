/-
  Crows.Kernel.Str — the kernel's snprintf.

  `snprintf` goes through the format with a cursor into it and one into `str`. It stores
  no NUL behind the text, keeps 32 bits of every number, stops in the middle of a token
  when `limit` is reached, and hands %x and %d the strings in local arrays that are not
  cleared to their ends: `Locals` has what stands there.

  Proved:
  - `snprintf_of_render`: where the tokens and arguments fit together, the bytes stored are
    the text's first `limit` ones and their number is returned (`render` is the text).
  - `digits_eq`: a number's string is its digits, most significant first.
-/
import Crows.Lib.NulString

namespace Crows.Kernel

open Crows.Lib

/-- A C string, as its bytes before the NUL. -/
abbrev CString := NulString UInt8 0

def chr (c : Char) : UInt8 := UInt8.ofNat c.toNat

/-- The bytes of a string literal. -/
def ascii (s : String) : List UInt8 := s.toList.map chr

/-! ## Numbers -/

/-- The digit loops: the digits of `x`, the last one first, each put before the string so far. -/
def digits (base : Nat) (digit : Nat → UInt8) : Nat → Nat → List UInt8 → List UInt8
  | 0, _, str => str
  | fuel + 1, x, str =>
    if x > 0 then digits base digit fuel (x / base) (digit (x % base) :: str)
    else str

def decDigit (rem : Nat) : UInt8 := UInt8.ofNat ('0'.toNat + rem)

def hexDigit (token : UInt8) (rem : Nat) : UInt8 :=
  if rem > 9 then UInt8.ofNat ((if token = chr 'X' then 'A' else 'a').toNat + (rem - 10))
  else UInt8.ofNat ('0'.toNat + rem)

/-- What stands in the uninitialised ends of the local arrays when the token at a place of the format is
    printed: from `hex_as_str[16]` on, and behind the '-' of a negative number, up to the next NUL. -/
structure Locals where
  hexTail : Nat → CString
  dTail : Nat → CString

/-- `str_to_print` of a %x or %X: the argument is kept in an unsigned int. -/
def hexString (token : UInt8) (value : UInt64) (tail : CString) : List UInt8 :=
  let hex := value.toUInt32.toNat
  if hex = 0 then [chr '0'] else digits 16 (hexDigit token) 32 hex tail.chars

def uString (value : UInt64) : List UInt8 :=
  let u := value.toUInt32.toNat
  if u = 0 then [chr '0'] else digits 10 decDigit 32 u []

/-- The digit loop does not run for a negative number, whose string is a '-' and what stands behind it. -/
def dString (value : UInt64) (tail : CString) : List UInt8 :=
  let d := value.toUInt32.toInt32.toInt
  if d = 0 then [chr '0']
  else if d < 0 then chr '-' :: tail.chars
  else digits 10 decDigit 32 d.toNat []

/-! ## snprintf -/

inductive Arg where
  | word (value : UInt64)
  /-- `none` is a NULL pointer. -/
  | string (s : Option CString)

/-- What the switch finds for a token, with the arguments that are left. -/
inductive Conversion where
  /-- One character, stored at once. -/
  | char (c : UInt8) (args : List Arg)
  /-- A `str_to_print`. -/
  | string (s : List UInt8) (args : List Arg)
  | unsupported
  /-- An argument that is missing or of another kind. -/
  | undefined

def conversion (locals : Locals) (cursor : Nat) (token : UInt8) (args : List Arg) : Conversion :=
  if token = chr '%' then .char (chr '%') args
  else if token = chr 's' then
    match args with
    | .string s :: args => .string ((s.map NulString.chars).getD []) args
    | _ => .undefined
  else if token = chr 'c' then
    match args with
    | .word value :: args => .char value.toUInt8 args
    | _ => .undefined
  else if token = chr 'x' ∨ token = chr 'X' then
    match args with
    | .word value :: args => .string (hexString token value (locals.hexTail cursor)) args
    | _ => .undefined
  else if token = chr 'u' then
    match args with
    | .word value :: args => .string (uString value) args
    | _ => .undefined
  else if token = chr 'd' then
    match args with
    | .word value :: args => .string (dString value (locals.dTail cursor)) args
    | _ => .undefined
  else .unsupported

/-- Case '0': the loop skips what is not a digit, and a digit other than '0' is then no token. `none` when
    the loop runs past the end of the format. -/
def leadingZeros : List UInt8 → Option Conversion
  | [] => none
  | c :: fmt => if chr '0' < c ∧ c ≤ chr '9' then some .unsupported else leadingZeros fmt

/-- The loop that copies a `str_to_print`. -/
def putString (limit : Int) : List UInt8 → List UInt8 → List UInt8
  | [], str => str
  | c :: s, str => if (str.length : Int) < limit then putString limit s (str ++ [c]) else str

/-- The bytes stored from `str[0]` on and the value returned. -/
structure Printed where
  bytes : List UInt8
  ret : Int
  deriving DecidableEq

/-- The main loop, at the rest of the format. `none` where its behaviour is undefined. -/
def snprintfLoop (locals : Locals) (limit : Int) :
    Nat → List UInt8 → List Arg → List UInt8 → Option Printed
  | _, [], _, str => some ⟨str, str.length⟩
  | cursor, c :: fmt, args, str =>
    if (str.length : Int) < limit then
      if c = chr '%' then
        match fmt with
        | [] => some ⟨str, -1⟩
        | token :: rest =>
          if token = chr '0' then (leadingZeros rest).map fun _ => ⟨str, -1⟩
          else
            match conversion locals (cursor + 1) token args with
            | .char c args => snprintfLoop locals limit (cursor + 2) rest args (str ++ [c])
            | .string s args => snprintfLoop locals limit (cursor + 2) rest args (putString limit s str)
            | .unsupported => some ⟨str, -1⟩
            | .undefined => none
      else snprintfLoop locals limit (cursor + 1) fmt args (str ++ [c])
    else some ⟨str, str.length⟩

def snprintf (locals : Locals) (limit : Int) (fmt : List UInt8) (args : List Arg) : Option Printed :=
  snprintfLoop locals limit 0 fmt args []

/-! ## The text of a format -/

/-- The whole text, as it would be stored if there were room for it; `none` where a token is unsupported or
    has no argument of its kind. -/
def render (locals : Locals) : Nat → List UInt8 → List Arg → Option (List UInt8)
  | _, [], _ => some []
  | cursor, c :: fmt, args =>
    if c = chr '%' then
      match fmt with
      | [] => none
      | token :: rest =>
        if token = chr '0' then none
        else
          match conversion locals (cursor + 1) token args with
          | .char c args => (render locals (cursor + 2) rest args).map ([c] ++ ·)
          | .string s args => (render locals (cursor + 2) rest args).map (s ++ ·)
          | .unsupported => none
          | .undefined => none
    else (render locals (cursor + 1) fmt args).map ([c] ++ ·)

theorem render_plain {locals : Locals} {c : UInt8} (hc : c ≠ chr '%') (cursor : Nat) (fmt : List UInt8)
    (args : List Arg) :
    render locals cursor (c :: fmt) args = (render locals (cursor + 1) fmt args).map ([c] ++ ·) := by
  conv_lhs => unfold render
  exact if_neg hc

theorem putString_eq (limit : Int) (s str : List UInt8) (hstr : str.length ≤ limit.toNat) :
    putString limit s str = (str ++ s).take limit.toNat := by
  induction s generalizing str with
  | nil =>
    rw [List.append_nil, List.take_of_length_le hstr]
    rfl
  | cons c s ih =>
    by_cases hlt : (str.length : Int) < limit
    · rw [putString, if_pos hlt, ih (str ++ [c]) (by simp; omega), List.append_assoc]
      rfl
    · rw [putString, if_neg hlt, List.take_append_of_le_length (by omega), List.take_of_length_le (by omega)]

/-- A text that has reached the limit is cut there, whatever was to follow. -/
theorem take_of_full {limit : Int} {str text : List UInt8} (hstr : str.length ≤ limit.toNat)
    (hfull : ¬ (str.length : Int) < limit) : (str ++ text).take limit.toNat = str := by
  have hlen : str.length = limit.toNat := by omega
  rw [← hlen, List.take_left']
  rfl

/-- What is stored of a text: as much as the limit lets in. -/
def Printed.cut (limit : Int) (text : List UInt8) : Printed :=
  ⟨text.take limit.toNat, (text.take limit.toNat).length⟩

theorem cut_of_full {limit : Int} {str text : List UInt8} (hstr : str.length ≤ limit.toNat)
    (hfull : ¬ (str.length : Int) < limit) : Printed.cut limit (str ++ text) = ⟨str, str.length⟩ := by
  unfold Printed.cut
  rw [take_of_full hstr hfull]

/-- A string cut at the limit, and what is stored behind it. -/
theorem cut_putString {limit : Int} {s str text : List UInt8} (hstr : str.length ≤ limit.toNat) :
    Printed.cut limit (putString limit s str ++ text) = Printed.cut limit (str ++ (s ++ text)) := by
  unfold Printed.cut
  have hsame : (putString limit s str ++ text).take limit.toNat = (str ++ (s ++ text)).take limit.toNat := by
    rw [putString_eq limit s str hstr, ← List.append_assoc]
    by_cases hfits : (str ++ s).length ≤ limit.toNat
    · rw [List.take_of_length_le hfits]
    · have hlong : limit.toNat ≤ (str ++ s).length := by omega
      rw [List.take_append_of_le_length hlong, List.take_append_of_le_length, List.take_take, Nat.min_self]
      rw [List.length_take, Nat.min_eq_left hlong]
  rw [hsame]

theorem snprintfLoop_of_render {locals : Locals} {limit : Int} {fmt : List UInt8} {args : List Arg}
    {cursor : Nat} {str text : List UInt8} (hstr : str.length ≤ limit.toNat)
    (h : render locals cursor fmt args = some text) :
    snprintfLoop locals limit cursor fmt args str = some (Printed.cut limit (str ++ text)) := by
  fun_induction snprintfLoop locals limit cursor fmt args str generalizing text with
  | case1 cursor args str =>
    have htext : text = [] := (Option.some.inj h).symm
    subst htext
    unfold Printed.cut
    rw [List.append_nil, List.take_of_length_le hstr]
  | case2 cursor args str hlt => simp [render] at h
  | case3 cursor args str hlt fmt => simp [render] at h
  | case4 cursor args str hlt token fmt hzero c args' hconv ih =>
    -- a character that is stored at once
    simp only [render, if_true, hzero, if_false, hconv, Option.map_eq_some_iff] at h
    obtain ⟨behind, hrest, htext⟩ := h
    subst htext
    rw [ih (by simp; omega) hrest, List.append_assoc]
  | case5 cursor args str hlt token fmt hzero s args' hconv ih =>
    -- a str_to_print, perhaps cut
    simp only [render, if_true, hzero, if_false, hconv, Option.map_eq_some_iff] at h
    obtain ⟨behind, hrest, htext⟩ := h
    subst htext
    have hroom : (putString limit s str).length ≤ limit.toNat := by
      rw [putString_eq limit s str hstr]
      exact List.length_take_le _ _
    rw [ih hroom hrest, cut_putString hstr]
  | case6 cursor args str hlt token fmt hzero hconv => simp [render, hzero, hconv] at h
  | case7 cursor args str hlt token fmt hzero hconv => simp [render, hzero, hconv] at h
  | case8 cursor c fmt args str hlt hplain ih =>
    rw [render_plain hplain] at h
    obtain ⟨behind, hrest, htext⟩ := Option.map_eq_some_iff.mp h
    subst htext
    rw [ih (by simp; omega) hrest, List.append_assoc]
  | case9 cursor c fmt args str hfull => rw [cut_of_full hstr hfull]

theorem snprintf_of_render {locals : Locals} {fmt : List UInt8} {args : List Arg} {text : List UInt8}
    (h : render locals 0 fmt args = some text) (limit : Int) :
    snprintf locals limit fmt args = some (Printed.cut limit text) :=
  snprintfLoop_of_render (Nat.zero_le _) h

/-! ## The text, piece by piece -/

section
variable {locals : Locals} {cursor : Nat} {fmt : List UInt8} {args : List Arg}

theorem render_literal {s : List UInt8} (hs : chr '%' ∉ s) :
    render locals cursor (s ++ fmt) args = (render locals (cursor + s.length) fmt args).map (s ++ ·) := by
  induction s generalizing cursor with
  | nil => simp
  | cons c s ih =>
    simp only [List.mem_cons, not_or] at hs
    rw [List.cons_append]
    rw [render_plain (Ne.symm hs.1), ih hs.2, Option.map_map, List.length_cons, Nat.add_right_comm]
    rfl

theorem render_end {s : List UInt8} (hs : chr '%' ∉ s) : render locals cursor s args = some s := by
  have hnil : render locals (cursor + s.length) [] args = some [] := by rw [render]
  have hall : render locals cursor (s ++ []) args =
      (render locals (cursor + s.length) [] args).map (s ++ ·) := render_literal hs
  rw [List.append_nil, hnil, Option.map_some, List.append_nil] at hall
  exact hall

theorem render_string {token : UInt8} {s : List UInt8} {rest : List Arg} (hzero : token ≠ chr '0')
    (h : conversion locals (cursor + 1) token args = .string s rest) :
    render locals cursor (chr '%' :: token :: fmt) args =
      (render locals (cursor + 2) fmt rest).map (s ++ ·) := by
  simp only [render, if_true, hzero, if_false, h]

theorem render_char {token c : UInt8} {rest : List Arg} (hzero : token ≠ chr '0')
    (h : conversion locals (cursor + 1) token args = .char c rest) :
    render locals cursor (chr '%' :: token :: fmt) args =
      (render locals (cursor + 2) fmt rest).map ([c] ++ ·) := by
  simp only [render, if_true, hzero, if_false, h]

end

/-! ## The strings of numbers -/

/-- 32 turns are enough for a number of 32 bits: the string is its digits, most significant first. -/
theorem digits_eq {base : Nat} (hbase : 2 ≤ base) (digit : Nat → UInt8) {fuel x : Nat} (hx : x < 2 ^ fuel)
    (str : List UInt8) : digits base digit fuel x str = (Nat.digits base x).reverse.map digit ++ str := by
  induction fuel generalizing x str with
  | zero =>
    have hzero : x = 0 := by omega
    subst hzero
    simp [digits]
  | succ fuel ih =>
    by_cases hpos : x > 0
    · have hless : x / base < 2 ^ fuel := by
        have hhalf : x / base ≤ x / 2 := Nat.div_le_div_left hbase (by omega)
        omega
      rw [digits, if_pos hpos, ih hless, Nat.digits_def' (by omega) hpos, List.reverse_cons, List.map_append,
        List.append_assoc]
      rfl
    · have hzero : x = 0 := by omega
      subst hzero
      simp [digits]

/-- An unsigned int taken as an int. -/
theorem toInt_toInt32 (x : UInt32) :
    x.toInt32.toInt = if 2 * x.toNat < 2 ^ 32 then (x.toNat : Int) else x.toNat - 2 ^ 32 :=
  BitVec.toInt_eq_toNat_cond x.toBitVec

theorem decDigit_ne_zero {rem : Nat} (h : rem < 10) : decDigit rem ≠ 0 := by
  unfold decDigit
  interval_cases rem <;> decide

theorem hexDigit_ne_zero (token : UInt8) {rem : Nat} (h : rem < 16) : hexDigit token rem ≠ 0 := by
  unfold hexDigit
  by_cases hupper : token = chr 'X'
  · rw [if_pos hupper]
    interval_cases rem <;> decide
  · rw [if_neg hupper]
    interval_cases rem <;> decide

theorem zero_notMem_digits {base : Nat} (hbase : 2 ≤ base) {digit : Nat → UInt8}
    (hdigit : ∀ rem < base, digit rem ≠ 0) (fuel x : Nat) {str : List UInt8} (hstr : 0 ∉ str) :
    0 ∉ digits base digit fuel x str := by
  induction fuel generalizing x str with
  | zero => exact hstr
  | succ fuel ih =>
    by_cases hpos : x > 0
    · rw [digits, if_pos hpos]
      refine ih _ ?_
      rw [List.mem_cons]
      intro h
      rcases h with hhead | htail
      · exact hdigit _ (Nat.mod_lt x (by omega)) hhead.symm
      · exact hstr htail
    · rw [digits, if_neg hpos]
      exact hstr

theorem zero_notMem_hexString (token : UInt8) (value : UInt64) (tail : CString) :
    0 ∉ hexString token value tail := by
  unfold hexString
  by_cases hzero : value.toUInt32.toNat = 0
  · rw [if_pos hzero]
    decide
  · rw [if_neg hzero]
    exact zero_notMem_digits (by omega) (fun rem => hexDigit_ne_zero token) _ _ tail.nul_notMem

theorem zero_notMem_uString (value : UInt64) : 0 ∉ uString value := by
  unfold uString
  by_cases hzero : value.toUInt32.toNat = 0
  · rw [if_pos hzero]
    decide
  · rw [if_neg hzero]
    exact zero_notMem_digits (by omega) (fun rem => decDigit_ne_zero) _ _ (by simp)

theorem zero_notMem_dString (value : UInt64) (tail : CString) : 0 ∉ dString value tail := by
  unfold dString
  by_cases hzero : value.toUInt32.toInt32.toInt = 0
  · rw [if_pos hzero]
    decide
  · by_cases hneg : value.toUInt32.toInt32.toInt < 0
    · rw [if_neg hzero, if_pos hneg, List.mem_cons]
      intro h
      rcases h with hminus | htail
      · exact absurd hminus (by decide)
      · exact tail.nul_notMem htail
    · rw [if_neg hzero, if_neg hneg]
      exact zero_notMem_digits (by omega) (fun rem => decDigit_ne_zero) _ _ (by simp)

/-! ## How long they are -/

theorem length_digits_le {base : Nat} (hbase : 2 ≤ base) (digit : Nat → UInt8) {x k : Nat} (hx : x < 2 ^ 32)
    (hk : x < base ^ k) (str : List UInt8) : (digits base digit 32 x str).length ≤ k + str.length := by
  have hlen := (Nat.digits_length_le_iff hbase x).mpr hk
  rw [digits_eq hbase digit hx, List.length_append, List.length_map, List.length_reverse]
  omega

theorem length_hexString_le (token : UInt8) (value : UInt64) (tail : CString) :
    (hexString token value tail).length ≤ 8 + tail.length := by
  have hlt := value.toUInt32.toNat_lt
  unfold hexString
  by_cases hzero : value.toUInt32.toNat = 0
  · rw [if_pos hzero, List.length_singleton]
    omega
  · rw [if_neg hzero]
    exact length_digits_le (by omega) _ hlt (by omega) _

theorem length_dString_le (value : UInt64) (tail : CString) : (dString value tail).length ≤ 10 + tail.length := by
  have hlt := value.toUInt32.toNat_lt
  have hint := toInt_toInt32 value.toUInt32
  unfold dString
  by_cases hzero : value.toUInt32.toInt32.toInt = 0
  · rw [if_pos hzero, List.length_singleton]
    omega
  · by_cases hneg : value.toUInt32.toInt32.toInt < 0
    · rw [if_neg hzero, if_pos hneg, List.length_cons]
      show tail.length + 1 ≤ 10 + tail.length
      omega
    · have hsmall : value.toUInt32.toInt32.toInt.toNat < 2 ^ 32 := by
        split at hint <;> omega
      have hten : (digits 10 decDigit 32 value.toUInt32.toInt32.toInt.toNat []).length ≤ 10 + 0 :=
        length_digits_le (by omega) decDigit hsmall (by omega) []
      rw [if_neg hzero, if_neg hneg]
      omega

theorem length_uString_pos (value : UInt64) : 0 < (uString value).length := by
  have hlt := value.toUInt32.toNat_lt
  unfold uString
  by_cases hzero : value.toUInt32.toNat = 0
  · rw [if_pos hzero, List.length_singleton]
    exact Nat.one_pos
  · rw [if_neg hzero, digits_eq (by omega) _ hlt, List.append_nil, List.length_map, List.length_reverse]
    exact List.length_pos_of_ne_nil (Nat.digits_ne_nil_iff_ne_zero.mpr hzero)

end Crows.Kernel
