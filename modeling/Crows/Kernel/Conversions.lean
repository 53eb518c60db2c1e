/-
  Crows.Kernel.Conversions — the texts that snprintf emits for %d and for %x and %X.

  `Emits` says what one token of a format stores, from any state in which the loop over the
  format comes to it. A %d is right exactly for the numbers that are not negative: for
  the others the loop over the digits does not run, and `d_at` is used as the stack left
  it. A %x keeps 32 bits of its 64, and its text goes on with what the stack holds at
  `hex_as_str[16]`.

  Proved, for every call, place in it, argument and contents of the stack:
  - `decimal_faithful_iff`: what a %d emits is the number's decimal numeral, and the array is
    indexed in range by assigned variables, exactly when the number is not negative.
  - `hex_faithful_iff`: what a %x or %X emits is the hexadecimal numeral of its 64-bit
    argument exactly when `HexFits` holds.
  - `minus_one_unassigned`, `hex_loses_high_word`: one number each that goes wrong.
-/
import Crows.Kernel.Formats

namespace Crows.Kernel.Snprintf

open Crows.Lib

/-! ## What a token emits -/

/-- From a state at the '%' of a token, the loop comes to the character behind the token and has stored `text`
    at the place reached in `str`, and nothing else. -/
def Emits (call : Call) (s : State) (text : List UInt8) : Prop :=
  ∃ s', Visits (turn call) s s' ∧ s'.point = .main ∧ s'.cursor = s.cursor + 2 ∧
    s'.cursorInto = s.cursorInto + text.length ∧
    s'.mem = s.mem.write (call.str + UInt64.ofNat s.cursorInto) text

section
variable {call : Call}

/-- A token emits one text. -/
theorem Emits.unique {s : State} {text text' : List UInt8} (hlen : text.length < 2 ^ 64)
    (h : Emits call s text) (h' : Emits call s text') : text = text' := by
  obtain ⟨a, ha, ham, hac, hai, hamem⟩ := h
  obtain ⟨b, hb, hbm, hbc, hbi, hbmem⟩ := h'
  have hsame := main_unique ha hb ham hbm (hac.trans hbc.symm)
  subst hsame
  have hlength : text.length = text'.length := by omega
  have hread := Mem.read_write s.mem (call.str + UInt64.ofNat s.cursorInto) (Nat.le_of_lt hlen)
  have hread' := Mem.read_write s.mem (call.str + UInt64.ofNat s.cursorInto) (Nat.le_of_lt (hlength ▸ hlen))
  rw [← hread, ← hread', ← hamem, ← hbmem, hlength]

/-- Any state is one of a call that began with the memory as it is now. -/
theorem eq_stateAt (call : Call) (s : State) :
    s = stateAt call s.mem s.point s.cursor s.arg (s.mem.read call.str s.cursorInto) := by
  have hmem : s.mem.write call.str (s.mem.read call.str s.cursorInto) = s.mem := by
    funext a
    by_cases ha : InRegion call.str s.cursorInto a
    · rw [Mem.write_read ha, UInt64.add_comm, UInt64.sub_add_cancel]
    · exact Mem.write_frame (by rwa [Mem.length_read])
  unfold stateAt
  rw [hmem, Mem.length_read]

/-- A token whose text fits emits it. -/
theorem emits_of_string {s : State} {token : UInt8} {text : List UInt8} (hmain : s.point = .main)
    (hpercent : call.fmt s.cursor = chr '%') (htoken : call.fmt (s.cursor + 1) = token) (hzero : token ≠ chr '0')
    (hconv : conversion call.locals (s.cursor + 1) token [.word (call.args s.arg)] = .string text [])
    (hpos : 0 < text.length) (hroom : (s.cursorInto + text.length : Int) ≤ call.limit.toInt) :
    Emits call s text := by
  have hshort := limit_lt call.limit
  have heq := eq_stateAt call s
  rw [hmain] at heq
  have hlength : (s.mem.read call.str s.cursorInto).length = s.cursorInto := Mem.length_read _ _ _
  have hfree : ((s.mem.read call.str s.cursorInto).length : Int) < call.limit.toInt := by omega
  have hfollows : Follows call s.mem (s.cursor + 1) s.arg (s.mem.read call.str s.cursorInto)
      (conversion call.locals (s.cursor + 1) token [.word (call.args s.arg)]) :=
    token_follows htoken ⟨rfl, trivial⟩ hfree hzero
  rw [hconv] at hfollows
  obtain ⟨arg', -, hvisits⟩ := hfollows
  have hput : putString call.limit.toInt text (s.mem.read call.str s.cursorInto) =
      s.mem.read call.str s.cursorInto ++ text := by
    rw [putString_eq _ _ _ (by omega), List.take_of_length_le]
    rw [List.length_append]
    omega
  rw [hput] at hvisits
  have hwrite : (s.mem.write call.str (s.mem.read call.str s.cursorInto)).write
      (call.str + UInt64.ofNat (s.mem.read call.str s.cursorInto).length) text = _ :=
    s.mem.write_append call.str (by omega)
  have hmem : s.mem.write call.str (s.mem.read call.str s.cursorInto) = s.mem := (congrArg State.mem heq).symm
  rw [hmem, hlength] at hwrite
  have hfirst : turn call (stateAt call s.mem .main s.cursor s.arg (s.mem.read call.str s.cursorInto)) = _ :=
    turn_percent hpercent hfree
  rw [← heq] at hfirst
  refine ⟨_, Visits.head hfirst hvisits, rfl, rfl, ?_, hwrite.symm⟩
  · show (s.mem.read call.str s.cursorInto ++ text).length = _
    rw [List.length_append, hlength]

end

/-! ## %d -/

/-- The number that a decimal numeral with an optional sign denotes. -/
def readInt (text : List UInt8) : Option Int :=
  if text.head? = some (chr '-') then (valueOf 10 decValue text.tail).map fun (n : Nat) => -(n : Int)
  else (valueOf 10 decValue text).map fun (n : Nat) => (n : Int)

theorem value_ascii_repr (n : Nat) : valueOf 10 decValue (ascii n.repr) = some n := by
  rw [ascii_repr]
  exact valueOf_numeral (by omega) (fun _ hr => decValue_decDigit hr) n

theorem readInt_repr (d : Int) : readInt (ascii d.repr) = some d := by
  cases d with
  | ofNat n =>
    show readInt (ascii n.repr) = _
    have hhead : (ascii n.repr).head? ≠ some (chr '-') := by
      rw [ascii_repr]
      intro hminus
      obtain ⟨r, hr, hdigit⟩ := mem_numeral (by omega) (List.mem_of_mem_head? hminus)
      revert hdigit
      interval_cases r <;> decide
    rw [readInt, if_neg hhead, value_ascii_repr]
    rfl
  | negSucc n =>
    have hminus : ascii (Int.negSucc n).repr = chr '-' :: ascii (n + 1).repr := by
      show ascii ("-" ++ (n + 1).repr) = _
      simp [ascii]
    rw [hminus, readInt, if_pos List.head?_cons, List.tail_cons, value_ascii_repr]
    rfl

theorem dString_repr {value : UInt64} {tail : CString} (h : 0 ≤ value.toUInt32.toInt32.toInt) :
    dString value tail = ascii value.toUInt32.toInt32.toInt.repr := by
  have hsmall := value.toUInt32.toInt32.toInt_lt
  obtain ⟨n, hn⟩ := Int.eq_ofNat_of_zero_le h
  unfold dString
  rw [hn] at hsmall ⊢
  show (if (n : Int) = 0 then [chr '0'] else if (n : Int) < 0 then _ else digits 10 decDigit 32 n []) = ascii n.repr
  rw [ascii_repr]
  by_cases hzero : n = 0
  · subst hzero
    rfl
  · have hne : (n : Int) ≠ 0 := by omega
    have hpos : ¬ (n : Int) < 0 := by omega
    rw [if_neg hne, if_neg hpos, digits_numeral (by omega) _ (by omega) hzero, List.append_nil]

/-- What a %d at `s` is to do with its argument: print its numeral, from which it can be read back, through an
    array that is indexed in range by variables that were assigned. -/
structure DecimalFaithful (call : Call) (s : State) : Prop where
  emits : Emits call s (ascii (call.args s.arg).toUInt32.toInt32.toInt.repr)
  readBack : readInt (ascii (call.args s.arg).toUInt32.toInt32.toInt.repr) =
    some (call.args s.arg).toUInt32.toInt32.toInt
  inRange : (dScratch (call.args s.arg).toUInt32.toInt32.toInt (call.arrays (s.cursor + 1)).d).InRange

/-- A %d is printed as it should be exactly when its number is not negative. -/
theorem decimal_faithful_iff {call : Call} {s : State} (hmain : s.point = .main)
    (hpercent : call.fmt s.cursor = chr '%') (htoken : call.fmt (s.cursor + 1) = chr 'd')
    (hroom : (s.cursorInto + (ascii (call.args s.arg).toUInt32.toInt32.toInt.repr).length : Int) ≤
      call.limit.toInt) :
    DecimalFaithful call s ↔ 0 ≤ (call.args s.arg).toUInt32.toInt32 := by
  have hsmall := (call.args s.arg).toUInt32.toInt32.toInt_lt
  have hsign : 0 ≤ (call.args s.arg).toUInt32.toInt32 ↔ 0 ≤ (call.args s.arg).toUInt32.toInt32.toInt :=
    Int32.le_iff_toInt_le
  rw [hsign]
  constructor
  · intro h
    exact (dScratch_inRange_iff hsmall _).mp h.inRange
  · intro h
    refine ⟨?_, readInt_repr _, (dScratch_inRange_iff hsmall _).mpr h⟩
    have hconv : conversion call.locals (s.cursor + 1) (chr 'd') [.word (call.args s.arg)] =
        .string (dString (call.args s.arg) (call.locals.dTail (s.cursor + 1))) [] := rfl
    rw [dString_repr h] at hconv
    refine emits_of_string hmain hpercent htoken (by decide) hconv ?_ hroom
    obtain ⟨n, hn⟩ := Int.eq_ofNat_of_zero_le h
    rw [hn]
    show 0 < (ascii n.repr).length
    rw [ascii_repr]
    exact List.length_pos_iff.mpr (numeral_ne_nil (by omega) n)

theorem decimal_faithful_iff_int_max :
    DecimalFaithful (callOf "top %d." 16 [0x7fffffff]) ⟨.main, 4, 0, 4, fun _ => 0⟩ :=
  (decimal_faithful_iff rfl (by decide) (by decide) (by decide)).mpr (by decide)

def minusOne : Call := callOf "%d" 16 [0xffffffff]

/-- A %d of -1: nothing is assigned to `d_at` before it is used, and over zeros the text is a '-' alone. -/
theorem minus_one_unassigned :
    (∃ m', Prints minusOne (fun _ => 0) 1 m' ∧ m'.read 0x1000 2 = [chr '-', 0]) ∧
    ¬ DecimalFaithful minusOne (entry fun _ => 0) := by
  have hargs : Passed minusOne (fun _ => 0) 0 [.word 0xffffffff] := ⟨rfl, trivial⟩
  have hprinted : snprintf minusOne.locals 16 (ascii "%d") [.word 0xffffffff] = some ⟨[chr '-'], 1⟩ := by decide
  refine ⟨⟨_, returns_of_snprintf (by decide) hargs hprinted, by decide⟩, ?_⟩
  intro h
  have hnone : none ∈ (dScratch (-1) clearArrays.d).stores := dScratch_of_neg (by decide) _
  obtain ⟨i, hi, -⟩ := h.inRange none hnone
  cases hi

/-! ## %x and %X -/

/-- The hexadecimal numeral of a number in the case that the token asks for. -/
def hexNumeral (token : UInt8) (n : Nat) : List UInt8 :=
  ((Nat.toDigits 16 n).map fun c => if token = chr 'X' then c.toUpper else c).map chr

/-- The value of a hexadecimal digit of either case. -/
def hexValue (c : UInt8) : Option Nat :=
  if chr '0' ≤ c ∧ c ≤ chr '9' then some (c.toNat - '0'.toNat)
  else if chr 'a' ≤ c ∧ c ≤ chr 'f' then some (c.toNat - 'a'.toNat + 10)
  else if chr 'A' ≤ c ∧ c ≤ chr 'F' then some (c.toNat - 'A'.toNat + 10)
  else none

theorem hexDigit_eq (token : UInt8) {r : Nat} (h : r < 16) :
    hexDigit token r = chr (if token = chr 'X' then r.digitChar.toUpper else r.digitChar) := by
  unfold hexDigit
  by_cases hupper : token = chr 'X'
  · simp only [hupper, if_true]
    interval_cases r <;> decide
  · simp only [hupper, if_false]
    interval_cases r <;> decide

theorem hexValue_hexDigit (token : UInt8) {r : Nat} (h : r < 16) : hexValue (hexDigit token r) = some r := by
  unfold hexDigit
  by_cases hupper : token = chr 'X'
  · simp only [hupper, if_true]
    interval_cases r <;> decide
  · simp only [hupper, if_false]
    interval_cases r <;> decide

theorem hexNumeral_eq (token : UInt8) (n : Nat) : hexNumeral token n = numeral 16 (hexDigit token) n := by
  unfold hexNumeral
  rw [← numeral_toDigits (by omega), List.map_map, numeral_map]
  exact (numeral_congr (by omega) (fun _ hr => hexDigit_eq token hr) n).symm

theorem hexNumeral_inj {token : UInt8} {n k : Nat} (h : hexNumeral token n = hexNumeral token k) : n = k := by
  rw [hexNumeral_eq, hexNumeral_eq] at h
  exact numeral_inj (by omega) (fun _ hr => hexValue_hexDigit token hr) h

theorem hexNumeral_zero (token : UInt8) : hexNumeral token 0 = [chr '0'] := by
  unfold hexNumeral
  by_cases hupper : token = chr 'X'
  · simp only [hupper, if_true]
    rfl
  · simp only [hupper, if_false]
    rfl

/-- What has to stand behind the numeral of the lower bits to make it that of the whole. -/
theorem hexNumeral_append_iff {token : UInt8} {n low : Nat} {tail : List UInt8} (hlow : 0 < low) :
    hexNumeral token n = hexNumeral token low ++ tail ↔
      n / 16 ^ tail.length = low ∧ tail = lastDigits 16 (hexDigit token) tail.length n := by
  rw [hexNumeral_eq, hexNumeral_eq]
  exact numeral_append_iff (by omega) (fun _ hr => hexValue_hexDigit token hr) hlow

theorem hexString_of_zero {token : UInt8} {value : UInt64} {tail : CString} (h : value.toUInt32.toNat = 0) :
    hexString token value tail = hexNumeral token 0 := by
  rw [hexNumeral_zero]
  exact if_pos h

theorem hexString_of_pos {token : UInt8} {value : UInt64} {tail : CString} (h : 0 < value.toUInt32.toNat) :
    hexString token value tail = hexNumeral token value.toUInt32.toNat ++ tail.chars := by
  rw [hexNumeral_eq, ← digits_numeral (by omega) _ value.toUInt32.toNat_lt (Nat.ne_of_gt h)]
  exact if_neg (Nat.ne_of_gt h)

/-- What a %x or %X at `s` is to do with its argument. -/
structure HexFaithful (call : Call) (s : State) : Prop where
  emits : Emits call s (hexNumeral (call.fmt (s.cursor + 1)) (call.args s.arg).toNat)
  readBack : valueOf 16 hexValue (hexNumeral (call.fmt (s.cursor + 1)) (call.args s.arg).toNat) =
    some (call.args s.arg).toNat

/-- The argument fits into 32 bits and the array ends there, or its upper bits happen to be made up for: what
    the stack holds behind the array's end are the digits that the lower 32 bits lack. -/
def HexFits (token : UInt8) (value : UInt64) (hex : StackBuffer 17) : Prop :=
  value = 0 ∨
  (value.toNat < 2 ^ 32 ∧ hex.cells 16 = 0) ∨
  (2 ^ 32 ≤ value.toNat ∧ 0 < value.toUInt32.toNat ∧
    value.toNat / 16 ^ (hex.stringFrom 16).length = value.toUInt32.toNat ∧
    hex.stringFrom 16 = lastDigits 16 (hexDigit token) (hex.stringFrom 16).length value.toNat)

/-- A number of 32 bits needs nothing behind its digits. -/
theorem small_tail_iff {n : Nat} {tail : List UInt8} {digit : Nat → UInt8} (hn : 0 < n) :
    n / 16 ^ tail.length = n ∧ tail = lastDigits 16 digit tail.length n ↔ tail = [] := by
  constructor
  · rintro ⟨hquot, -⟩
    by_contra hne
    have hlen := List.length_pos_iff.mpr hne
    have hless : n / 16 ^ tail.length < n := Nat.div_lt_self hn (Nat.one_lt_pow (by omega) (by omega))
    omega
  · intro h
    subst h
    exact ⟨by simp, rfl⟩

theorem hexString_eq_iff (token : UInt8) (value : UInt64) (arrays : Arrays) :
    hexString token value arrays.hexTail = hexNumeral token value.toNat ↔ HexFits token value arrays.hex := by
  have hlow := UInt64.toNat_toUInt32 value
  have hzero : value = 0 ↔ value.toNat = 0 := by
    rw [← UInt64.toNat_inj]
    rfl
  unfold HexFits
  rw [hzero]
  rcases Nat.eq_zero_or_pos value.toUInt32.toNat with hlower | hlower
  · -- the text is "0"
    rw [hexString_of_zero hlower]
    constructor
    · intro h
      exact Or.inl (hexNumeral_inj h).symm
    · rintro (hz | ⟨hsmall, -⟩ | ⟨-, hpos, -⟩)
      · rw [hz]
      · rw [show value.toNat = 0 by omega]
      · omega
  · rw [hexString_of_pos hlower, eq_comm, hexNumeral_append_iff hlower]
    have htail : arrays.hexTail.chars = arrays.hex.stringFrom 16 := rfl
    rw [htail]
    by_cases hsmall : value.toNat < 2 ^ 32
    · have hsame : value.toUInt32.toNat = value.toNat := by omega
      rw [hsame, small_tail_iff (by omega), StackBuffer.stringFrom_eq_nil (by omega)]
      constructor
      · intro h
        exact Or.inr (Or.inl ⟨hsmall, h⟩)
      · rintro (hz | ⟨-, h⟩ | ⟨hbig, -⟩)
        · omega
        · exact h
        · omega
    · constructor
      · intro h
        exact Or.inr (Or.inr ⟨by omega, hlower, h⟩)
      · rintro (hz | ⟨hless, -⟩ | ⟨-, -, h⟩)
        · omega
        · omega
        · exact h

theorem length_hexString_pos (token : UInt8) (value : UInt64) (tail : CString) :
    0 < (hexString token value tail).length := by
  rcases Nat.eq_zero_or_pos value.toUInt32.toNat with hlower | hlower
  · rw [hexString_of_zero hlower, hexNumeral_zero]
    exact Nat.one_pos
  · have hne : numeral 16 (hexDigit token) value.toUInt32.toNat ≠ [] := numeral_ne_nil (by omega) _
    have hpos := List.length_pos_iff.mpr hne
    rw [hexString_of_pos hlower, hexNumeral_eq, List.length_append]
    omega

/-- A %x or %X is printed as it should be exactly when its 64-bit argument fits the 32 bits and the array, or
    the stack makes up for it. -/
theorem hex_faithful_iff {call : Call} {s : State} (hmain : s.point = .main)
    (hpercent : call.fmt s.cursor = chr '%')
    (htoken : call.fmt (s.cursor + 1) = chr 'x' ∨ call.fmt (s.cursor + 1) = chr 'X')
    (hroom : (s.cursorInto +
      (hexText (call.fmt (s.cursor + 1)) (call.args s.arg) (call.arrays (s.cursor + 1)).hex).length : Int) ≤
        call.limit.toInt) :
    HexFaithful call s ↔
      HexFits (call.fmt (s.cursor + 1)) (call.args s.arg) (call.arrays (s.cursor + 1)).hex := by
  have hshort := limit_lt call.limit
  rw [hexText_eq] at hroom
  have hemits : Emits call s (hexString (call.fmt (s.cursor + 1)) (call.args s.arg)
      (call.arrays (s.cursor + 1)).hexTail) := by
    rcases htoken with hlower | hupper
    · rw [hlower] at hroom ⊢
      exact emits_of_string hmain hpercent hlower (by decide) rfl (length_hexString_pos _ _ _) hroom
    · rw [hupper] at hroom ⊢
      exact emits_of_string hmain hpercent hupper (by decide) rfl (length_hexString_pos _ _ _) hroom
  rw [← hexString_eq_iff]
  constructor
  · intro h
    exact hemits.unique (by omega) h.emits
  · intro h
    refine ⟨h ▸ hemits, ?_⟩
    rw [hexNumeral_eq]
    exact valueOf_numeral (by omega) (fun _ hr => hexValue_hexDigit _ hr) _

theorem hex_faithful_iff_small :
    HexFaithful (callOf "at 0x%X" 32 [0xbeef0042]) ⟨.main, 5, 0, 5, fun _ => 0⟩ :=
  (hex_faithful_iff rfl (by decide) (by decide) (by decide)).mpr (Or.inr (Or.inl ⟨by decide, by decide⟩))

/-- A stack with a 'Z' where `hex_as_str` ends. -/
def staleArrays : Arrays := { clearArrays with hex := (StackBuffer.cleared 17).put 16 (chr 'Z') }

def wideCall : Call := callOf "%X" 32 [0x100000000]

def staleCall : Call := { callOf "%X" 32 [10] with arrays := fun _ => staleArrays }

/-- 4 GiB is printed as "0", and over a stack that was used before 10 is printed as "AZ". -/
theorem hex_loses_high_word :
    (∃ m', Prints wideCall (fun _ => 0) 1 m' ∧ m'.read 0x1000 2 = [chr '0', 0]) ∧
    ¬ HexFaithful wideCall (entry fun _ => 0) ∧ ¬ HexFaithful staleCall (entry fun _ => 0) := by
  have hargs : Passed wideCall (fun _ => 0) 0 [.word 0x100000000] := ⟨rfl, trivial⟩
  have hprinted : snprintf wideCall.locals 32 (ascii "%X") [.word 0x100000000] = some ⟨[chr '0'], 1⟩ := by decide
  have hwide : hexString (chr 'X') 0x100000000 clearArrays.hexTail = [chr '0'] := by decide
  have hstale : hexString (chr 'X') 10 staleArrays.hexTail = [chr 'A', chr 'Z'] := by decide
  refine ⟨⟨_, returns_of_snprintf (by decide) hargs hprinted, by decide⟩, ?_, ?_⟩
  · intro h
    have hemits : Emits wideCall (entry fun _ => 0) [chr '0'] :=
      emits_of_string rfl rfl rfl (by decide) (congrArg (fun t => Conversion.string t []) hwide) (by decide) (by decide)
    exact absurd (hemits.unique (by decide) h.emits) (by decide)
  · intro h
    have hemits : Emits staleCall (entry fun _ => 0) [chr 'A', chr 'Z'] :=
      emits_of_string rfl rfl rfl (by decide) (congrArg (fun t => Conversion.string t []) hstale) (by decide) (by decide)
    exact absurd (hemits.unique (by decide) h.emits) (by decide)

end Crows.Kernel.Snprintf
