/-
  Crows.Kernel.Snprintf — snprintf turn by turn, with its cursors and the memory it writes to.

  A `State` is a place in the function (`Point`), the cursors into the format and into
  `str`, the number of arguments taken and memory. The format is what its bytes say, those
  behind its NUL with them; a %s goes through its pointer on every turn of the copying
  loop, a number through an array on the stack. The lengths are those of formats and
  strings that an int can count; leading_zeros, which only its own loop reads, is left out.

  `returns_of_snprintf`: where `snprintf` of Crows.Kernel.Str says what is printed, the
  machine comes to an end with it, and memory is as it was but for the bytes stored. Its
  assumptions are that the arguments are passed (`Passed`) and the format is there
  (`HasFormat`). `main_unique`: the loop over the format comes to each place of it once.
-/
import Crows.Lib.Loop
import Crows.Kernel.Scratch

namespace Crows.Kernel.Snprintf

open Crows.Lib

/-! ## The machine -/

/-- A call: its parameters, the words that va_arg finds, and what the stack holds when the token at a place of
    the format is printed. -/
structure Call where
  str : Addr
  limit : Int32
  fmt : Nat → UInt8
  args : Nat → UInt64
  arrays : Nat → Arrays

/-- What `str_to_print` points to. -/
inductive Source where
  /-- A literal or an array on the stack, up to its NUL. -/
  | array (s : List UInt8)
  | pointer (a : Addr)

inductive Point where
  /-- The test of the loop over the format. -/
  | main
  /-- snprintf__RepeatEvaluation. -/
  | token
  /-- The test of the loop in case '0'. -/
  | zeros
  /-- The test of the loop that copies `str_to_print`. -/
  | copy (src : Source) (m : Nat)

structure State where
  point : Point
  cursor : Nat
  arg : Nat
  cursorInto : Nat
  mem : Mem

/-- What the function returns, and memory as it leaves it. -/
structure Left where
  ret : Int
  mem : Mem

def Source.strlen (m : Mem) : Source → Nat
  | .array s => s.length
  | .pointer a => (memString m a).length

def Source.byte (m : Mem) (i : Nat) : Source → UInt8
  | .array s => s.getD i 0
  | .pointer a => m (a + UInt64.ofNat i)

namespace State

def goto (s : State) (point : Point) : State := { s with point := point }

/-- `++cursor` -/
def on (s : State) : State := { s with cursor := s.cursor + 1 }

/-- va_arg. -/
def take (s : State) : State := { s with arg := s.arg + 1 }

/-- `str[cursor_into] = c` and `++cursor_into`. -/
def put (str : Addr) (c : UInt8) (s : State) : State :=
  { s with
    mem := s.mem.write (str + UInt64.ofNat s.cursorInto) [c],
    cursorInto := s.cursorInto + 1 }

@[simp] theorem goto_point (s : State) (point : Point) : (s.goto point).point = point := rfl
@[simp] theorem goto_cursor (s : State) (point : Point) : (s.goto point).cursor = s.cursor := rfl
@[simp] theorem goto_cursorInto (s : State) (point : Point) : (s.goto point).cursorInto = s.cursorInto := rfl
@[simp] theorem on_point (s : State) : s.on.point = s.point := rfl
@[simp] theorem on_cursor (s : State) : s.on.cursor = s.cursor + 1 := rfl
@[simp] theorem on_cursorInto (s : State) : s.on.cursorInto = s.cursorInto := rfl
@[simp] theorem take_point (s : State) : s.take.point = s.point := rfl
@[simp] theorem take_cursor (s : State) : s.take.cursor = s.cursor := rfl
@[simp] theorem take_cursorInto (s : State) : s.take.cursorInto = s.cursorInto := rfl
@[simp] theorem put_point (s : State) (str : Addr) (c : UInt8) : (s.put str c).point = s.point := rfl
@[simp] theorem put_cursor (s : State) (str : Addr) (c : UInt8) : (s.put str c).cursor = s.cursor := rfl
@[simp] theorem put_cursorInto (s : State) (str : Addr) (c : UInt8) :
    (s.put str c).cursorInto = s.cursorInto + 1 := rfl

end State

/-- The switch. -/
def evaluate (call : Call) (s : State) : Turn State Left :=
  let token := call.fmt s.cursor
  let word := call.args s.arg
  if token = chr '%' then .again ((s.put call.str (chr '%')).on.goto .main)
  else if token = chr '0' then .again (s.on.goto .zeros)
  else if token = chr 's' then
    if word = 0 then .again (s.take.on.goto .main)
    else .again (s.take.goto (.copy (.pointer word) 0))
  else if token = chr 'c' then .again ((s.take.put call.str word.toUInt8).on.goto .main)
  else if token = chr 'x' ∨ token = chr 'X' then
    .again (s.take.goto (.copy (.array (hexText token word (call.arrays s.cursor).hex)) 0))
  else if token = chr 'u' then .again (s.take.goto (.copy (.array (uText word (call.arrays s.cursor).u)) 0))
  else if token = chr 'd' then .again (s.take.goto (.copy (.array (dText word (call.arrays s.cursor))) 0))
  else .done ⟨-1, s.mem⟩

def turn (call : Call) (s : State) : Turn State Left :=
  match s.point with
  | .main =>
    if call.fmt s.cursor ≠ 0 ∧ (s.cursorInto : Int) < call.limit.toInt then
      if call.fmt s.cursor = chr '%' then .again (s.on.goto .token)
      else .again (s.put call.str (call.fmt s.cursor)).on
    else .done ⟨s.cursorInto, s.mem⟩
  | .token => evaluate call s
  | .zeros =>
    if call.fmt s.cursor < chr '0' ∨ chr '9' < call.fmt s.cursor then .again s.on
    else .again (s.goto .token)
  | .copy src m =>
    if m < src.strlen s.mem ∧ (s.cursorInto : Int) < call.limit.toInt then
      .again ((s.put call.str (src.byte s.mem m)).goto (.copy src (m + 1)))
    else .again (s.on.goto .main)

def entry (m : Mem) : State := ⟨.main, 0, 0, 0, m⟩

/-- The call returns `ret` and leaves memory `m'`. -/
def Prints (call : Call) (m : Mem) (ret : Int) (m' : Mem) : Prop := Returns (turn call) (entry m) ⟨ret, m'⟩

/-! ## The format and the arguments -/

/-- The bytes from place `k` on are the format and its NUL. -/
def HasFormat (f : Nat → UInt8) : Nat → List UInt8 → Prop
  | k, [] => f k = 0
  | k, c :: fmt => f k = c ∧ c ≠ 0 ∧ HasFormat f (k + 1) fmt

instance : (f : Nat → UInt8) → (k : Nat) → (fmt : List UInt8) → Decidable (HasFormat f k fmt)
  | f, k, [] => inferInstanceAs (Decidable (f k = 0))
  | f, k, c :: fmt =>
    have := instDecidableHasFormat f (k + 1) fmt
    inferInstanceAs (Decidable (f k = c ∧ c ≠ 0 ∧ HasFormat f (k + 1) fmt))

/-- Memory holds the string at an address other than NULL, none of it where the call writes. -/
structure StringArg (call : Call) (m : Mem) (a : Addr) (s : CString) : Prop where
  notNull : a ≠ 0
  fits : s.length < 2 ^ 64
  holds : m.read a (s.length + 1) = s.chars ++ [0]
  separate : Separate a (s.length + 1) call.str call.limit.toInt.toNat

/-- The words from argument `k` on are the arguments. -/
def Passed (call : Call) (m : Mem) : Nat → List Arg → Prop
  | _, [] => True
  | k, .word value :: args => call.args k = value ∧ Passed call m (k + 1) args
  | k, .string none :: args => call.args k = 0 ∧ Passed call m (k + 1) args
  | k, .string (some s) :: args => StringArg call m (call.args k) s ∧ Passed call m (k + 1) args

/-- The stale contents of the arrays, as Crows.Kernel.Str has them. -/
def Call.locals (call : Call) : Locals :=
  ⟨fun k => (call.arrays k).hexTail, fun k => (call.arrays k).behindMinus⟩

/-! ## What has been stored -/

section
variable {call : Call} {m : Mem}

/-- The state once `bytes` have been stored into the memory that the call began with. -/
def stateAt (call : Call) (m : Mem) (point : Point) (cursor arg : Nat) (bytes : List UInt8) : State :=
  ⟨point, cursor, arg, bytes.length, m.write call.str bytes⟩

theorem entry_eq (call : Call) (m : Mem) : entry m = stateAt call m .main 0 0 [] := by
  simp [entry, stateAt]

@[simp] theorem stateAt_on (point : Point) (cursor arg : Nat) (bytes : List UInt8) :
    (stateAt call m point cursor arg bytes).on = stateAt call m point (cursor + 1) arg bytes := rfl

@[simp] theorem stateAt_take (point : Point) (cursor arg : Nat) (bytes : List UInt8) :
    (stateAt call m point cursor arg bytes).take = stateAt call m point cursor (arg + 1) bytes := rfl

@[simp] theorem stateAt_goto (point point' : Point) (cursor arg : Nat) (bytes : List UInt8) :
    (stateAt call m point cursor arg bytes).goto point' = stateAt call m point' cursor arg bytes := rfl

theorem limit_lt (limit : Int32) : limit.toInt < 2 ^ 31 := limit.toInt_lt

theorem stateAt_put (point : Point) (cursor arg : Nat) {bytes : List UInt8} (c : UInt8)
    (h : (bytes.length : Int) < call.limit.toInt) :
    (stateAt call m point cursor arg bytes).put call.str c = stateAt call m point cursor arg (bytes ++ [c]) := by
  have hlimit := limit_lt call.limit
  have hwrite : (m.write call.str bytes).write (call.str + UInt64.ofNat bytes.length) [c] = _ :=
    m.write_append call.str (by simp; omega)
  unfold State.put stateAt
  rw [hwrite, List.length_append, List.length_singleton]

/-! ## One turn -/

variable {cursor arg : Nat} {bytes : List UInt8}

theorem turn_end (h : call.fmt cursor = 0 ∨ ¬ (bytes.length : Int) < call.limit.toInt) :
    turn call (stateAt call m .main cursor arg bytes) = .done ⟨bytes.length, m.write call.str bytes⟩ := by
  have hnot : ¬ (call.fmt cursor ≠ 0 ∧ (bytes.length : Int) < call.limit.toInt) := by
    rintro ⟨hne, hroom⟩
    rcases h with hzero | hfull
    · exact hne hzero
    · exact hfull hroom
  exact if_neg hnot

theorem turn_literal {c : UInt8} (hc : call.fmt cursor = c) (hne : c ≠ 0) (hplain : c ≠ chr '%')
    (hroom : (bytes.length : Int) < call.limit.toInt) :
    turn call (stateAt call m .main cursor arg bytes) =
      .again (stateAt call m .main (cursor + 1) arg (bytes ++ [c])) := by
  show (if call.fmt cursor ≠ 0 ∧ (bytes.length : Int) < call.limit.toInt then
    if call.fmt cursor = chr '%' then _
    else Turn.again ((stateAt call m .main cursor arg bytes).put call.str (call.fmt cursor)).on else _) = _
  rw [hc, if_pos ⟨hne, hroom⟩, if_neg hplain, stateAt_put _ _ _ _ hroom, stateAt_on]

theorem turn_percent (hc : call.fmt cursor = chr '%') (hroom : (bytes.length : Int) < call.limit.toInt) :
    turn call (stateAt call m .main cursor arg bytes) =
      .again (stateAt call m .token (cursor + 1) arg bytes) := by
  have hne : chr '%' ≠ 0 := by decide
  show (if call.fmt cursor ≠ 0 ∧ (bytes.length : Int) < call.limit.toInt then
    if call.fmt cursor = chr '%' then _ else _ else _) = _
  rw [hc, if_pos ⟨hne, hroom⟩, if_pos rfl]
  rfl

/-- The text of a pointer or an array, whatever has been stored at `str`. -/
def Holds (call : Call) (m : Mem) (src : Source) (text : List UInt8) : Prop :=
  ∀ bytes : List UInt8, bytes.length ≤ call.limit.toInt.toNat →
    src.strlen (m.write call.str bytes) = text.length ∧
    ∀ i (hi : i < text.length), src.byte (m.write call.str bytes) i = text.get ⟨i, hi⟩

theorem holds_array (text : List UInt8) : Holds call m (.array text) text := by
  intro bytes _
  refine ⟨rfl, ?_⟩
  intro i hi
  simp [Source.byte, hi]

/-- The copying loop does what `putString` does, and the loop over the format goes on behind the token. -/
theorem copy_visits {src : Source} {text : List UInt8} (hsrc : Holds call m src text) {i : Nat} {rest : List UInt8}
    (hrest : text.drop i = rest) (hbytes : bytes.length ≤ call.limit.toInt.toNat) :
    Visits (turn call) (stateAt call m (.copy src i) cursor arg bytes)
      (stateAt call m .main (cursor + 1) arg (putString call.limit.toInt rest bytes)) := by
  induction rest generalizing i bytes with
  | nil =>
    have hlen : text.length ≤ i := List.drop_eq_nil_iff.mp hrest
    refine Visits.turn Visits.entry ?_
    show (if i < src.strlen (m.write call.str bytes) ∧ (bytes.length : Int) < call.limit.toInt then _ else _) = _
    rw [(hsrc bytes hbytes).1, if_neg]
    · rfl
    · rintro ⟨hlt, -⟩
      omega
  | cons c rest ih =>
    have hi : i < text.length := by
      by_contra hge
      rw [List.drop_eq_nil_of_le (by omega)] at hrest
      cases hrest
    rw [List.drop_eq_getElem_cons hi] at hrest
    obtain ⟨hc, hrest⟩ := List.cons.inj hrest
    obtain ⟨hlen, hbyte⟩ := hsrc bytes hbytes
    rw [putString]
    by_cases hroom : (bytes.length : Int) < call.limit.toInt
    · have hturn : turn call (stateAt call m (.copy src i) cursor arg bytes) =
          .again (stateAt call m (.copy src (i + 1)) cursor arg (bytes ++ [c])) := by
        show (if i < src.strlen (m.write call.str bytes) ∧ (bytes.length : Int) < call.limit.toInt then
          Turn.again (((stateAt call m (.copy src i) cursor arg bytes).put call.str
            (src.byte (m.write call.str bytes) i)).goto (.copy src (i + 1))) else _) = _
        rw [hlen, if_pos ⟨hi, hroom⟩, hbyte i hi, stateAt_put _ _ _ _ hroom, ← hc]
        rfl
      rw [if_pos hroom]
      refine Visits.head hturn (ih hrest ?_)
      rw [List.length_append, List.length_singleton]
      omega
    · refine Visits.turn Visits.entry ?_
      show (if i < src.strlen (m.write call.str bytes) ∧ (bytes.length : Int) < call.limit.toInt then _ else _) = _
      rw [if_neg (fun h => hroom h.2), if_neg hroom]
      rfl

/-! ## One token -/

theorem memString_of_read {a : Addr} {s : CString} (hfits : s.length < 2 ^ 64)
    (h : m.read a (s.length + 1) = s.chars ++ [0]) : memString m a = s.chars := by
  have hcell : ∀ i ≤ s.chars.length, (s.chars ++ [0])[i]? = some (m (a + UInt64.ofNat i)) := by
    intro i hi
    have hlt : i < s.length + 1 := Nat.lt_succ_of_le hi
    rw [← h, m.getElem?_read a hlt]
  have hover : (fun i => m (a + UInt64.ofNat (0 + i))) =
      NulString.overlay s.chars fun i => m (a + UInt64.ofNat (0 + i)) := by
    funext i
    rw [Nat.zero_add]
    by_cases hi : i < s.chars.length
    · have hin := hcell i (Nat.le_of_lt hi)
      rw [List.getElem?_append_left hi] at hin
      simp [NulString.overlay, hin]
    · rw [NulString.overlay_of_le (Nat.le_of_not_lt hi), Nat.zero_add]
  have hnul := hcell s.chars.length (Nat.le_refl _)
  rw [List.getElem?_append_right (Nat.le_refl _), Nat.sub_self] at hnul
  unfold memString
  rw [NulString.scan_eq_ofBuffer, hover]
  refine (NulString.ofBuffer_overlay_eq_iff s.nul_notMem (Nat.le_of_lt hfits) ?_).mpr ?_
  · intro heq
    exact absurd heq (Nat.ne_of_lt hfits)
  · rw [Nat.zero_add]
    exact (Option.some.inj hnul).symm

theorem holds_pointer {a : Addr} {s : CString} (h : StringArg call m a s) : Holds call m (.pointer a) s.chars := by
  intro bytes hbytes
  have hfits := h.fits
  have hkept : (m.write call.str bytes).read a (s.length + 1) = s.chars ++ [0] := by
    rw [← h.holds]
    exact Mem.read_write_separate (by omega) fun x hx hw => h.separate x hx (hw.mono hbytes)
  refine ⟨congrArg List.length (memString_of_read hfits hkept), ?_⟩
  intro i hi
  have hlong : i < s.length + 1 := Nat.lt_succ_of_lt hi
  have hcell := (m.write call.str bytes).getElem?_read a hlong
  rw [hkept, List.getElem?_append_left hi, List.getElem?_eq_getElem hi] at hcell
  exact (Option.some.inj hcell).symm

/-- What the switch does at a token, told by what it finds there. -/
def Follows (call : Call) (m : Mem) (cursor arg : Nat) (bytes : List UInt8) : Conversion → Prop
  | .char c args => ∃ arg', Passed call m arg' args ∧
      Visits (turn call) (stateAt call m .token cursor arg bytes)
        (stateAt call m .main (cursor + 1) arg' (bytes ++ [c]))
  | .string s args => ∃ arg', Passed call m arg' args ∧
      Visits (turn call) (stateAt call m .token cursor arg bytes)
        (stateAt call m .main (cursor + 1) arg' (putString call.limit.toInt s bytes))
  | .unsupported => turn call (stateAt call m .token cursor arg bytes) = .done ⟨-1, m.write call.str bytes⟩
  | .undefined => True

theorem follows_source {src : Source} {text : List UInt8} {args : List Arg} (hsrc : Holds call m src text)
    (hargs : Passed call m (arg + 1) args) (hbytes : bytes.length ≤ call.limit.toInt.toNat)
    (h : evaluate call (stateAt call m .token cursor arg bytes) =
      .again (stateAt call m (.copy src 0) cursor (arg + 1) bytes)) :
    Follows call m cursor arg bytes (.string text args) :=
  ⟨arg + 1, hargs, Visits.head h (copy_visits hsrc (List.drop_zero) hbytes)⟩

/-- The switch, with the texts as Crows.Kernel.Str has them. -/
theorem evaluate_eq (call : Call) (m : Mem) {cursor : Nat} (arg : Nat) (bytes : List UInt8) {token : UInt8}
    (h : call.fmt cursor = token) :
    evaluate call (stateAt call m .token cursor arg bytes) =
      if token = chr '%' then
        .again (((stateAt call m .token cursor arg bytes).put call.str (chr '%')).on.goto .main)
      else if token = chr '0' then .again (stateAt call m .zeros (cursor + 1) arg bytes)
      else if token = chr 's' then
        if call.args arg = 0 then .again (stateAt call m .main (cursor + 1) (arg + 1) bytes)
        else .again (stateAt call m (.copy (.pointer (call.args arg)) 0) cursor (arg + 1) bytes)
      else if token = chr 'c' then
        .again (((stateAt call m .token cursor (arg + 1) bytes).put call.str (call.args arg).toUInt8).on.goto .main)
      else if token = chr 'x' ∨ token = chr 'X' then
        .again (stateAt call m
          (.copy (.array (hexString token (call.args arg) (call.arrays cursor).hexTail)) 0) cursor (arg + 1) bytes)
      else if token = chr 'u' then
        .again (stateAt call m (.copy (.array (uString (call.args arg))) 0) cursor (arg + 1) bytes)
      else if token = chr 'd' then
        .again (stateAt call m (.copy (.array (dString (call.args arg) (call.arrays cursor).behindMinus)) 0)
          cursor (arg + 1) bytes)
      else .done ⟨-1, m.write call.str bytes⟩ := by
  subst h
  rw [← hexText_eq, ← uText_eq, ← dText_eq]
  rfl

/-- The switch finds what `conversion` says. -/
theorem token_follows {args : List Arg} {token : UInt8} (htoken : call.fmt cursor = token)
    (hargs : Passed call m arg args) (hroom : (bytes.length : Int) < call.limit.toInt) (hzero : token ≠ chr '0') :
    Follows call m cursor arg bytes (conversion call.locals cursor token args) := by
  have hbytes : bytes.length ≤ call.limit.toInt.toNat := by omega
  have heval := evaluate_eq call m arg bytes htoken
  unfold conversion
  by_cases hpercent : token = chr '%'
  · rw [if_pos hpercent] at heval ⊢
    rw [stateAt_put _ _ _ _ hroom] at heval
    exact ⟨arg, hargs, Visits.head heval Visits.entry⟩
  rw [if_neg hpercent] at heval ⊢
  rw [if_neg hzero] at heval
  by_cases hs : token = chr 's'
  · rw [if_pos hs] at heval ⊢
    rcases args with _ | ⟨_ | s, args⟩
    · exact trivial
    · exact trivial
    · cases s with
      | none =>
        rw [if_pos hargs.1] at heval
        exact ⟨arg + 1, hargs.2, Visits.head heval Visits.entry⟩
      | some s =>
        rw [if_neg hargs.1.notNull] at heval
        exact follows_source (holds_pointer hargs.1) hargs.2 hbytes heval
  rw [if_neg hs] at heval ⊢
  by_cases hc : token = chr 'c'
  · rw [if_pos hc] at heval ⊢
    rcases args with _ | ⟨value | _, args⟩
    · exact trivial
    · rw [stateAt_put _ _ _ _ hroom, hargs.1] at heval
      exact ⟨arg + 1, hargs.2, Visits.head heval Visits.entry⟩
    · exact trivial
  rw [if_neg hc] at heval ⊢
  by_cases hx : token = chr 'x' ∨ token = chr 'X'
  · rw [if_pos hx] at heval ⊢
    rcases args with _ | ⟨value | _, args⟩
    · exact trivial
    · rw [hargs.1] at heval
      exact follows_source (holds_array _) hargs.2 hbytes heval
    · exact trivial
  rw [if_neg hx] at heval ⊢
  by_cases hu : token = chr 'u'
  · rw [if_pos hu] at heval ⊢
    rcases args with _ | ⟨value | _, args⟩
    · exact trivial
    · rw [hargs.1] at heval
      exact follows_source (holds_array _) hargs.2 hbytes heval
    · exact trivial
  rw [if_neg hu] at heval ⊢
  by_cases hd : token = chr 'd'
  · rw [if_pos hd] at heval ⊢
    rcases args with _ | ⟨value | _, args⟩
    · exact trivial
    · rw [hargs.1] at heval
      exact follows_source (holds_array _) hargs.2 hbytes heval
    · exact trivial
  rw [if_neg hd] at heval ⊢
  exact heval

/-! ## Case '0' -/

theorem turn_skip {s : State} (hpoint : s.point = .zeros)
    (h : call.fmt s.cursor < chr '0' ∨ chr '9' < call.fmt s.cursor) : turn call s = .again s.on := by
  unfold turn
  rw [hpoint]
  exact if_pos h

theorem turn_digit {s : State} (hpoint : s.point = .zeros)
    (h : ¬ (call.fmt s.cursor < chr '0' ∨ chr '9' < call.fmt s.cursor)) : turn call s = .again (s.goto .token) := by
  unfold turn
  rw [hpoint]
  exact if_neg h

theorem turn_token_of {s : State} (hpoint : s.point = .token) : turn call s = evaluate call s := by
  unfold turn
  rw [hpoint]

theorem turn_zero {s : State} (hpoint : s.point = .token) (h : call.fmt s.cursor = chr '0') :
    turn call s = .again (s.on.goto .zeros) := by
  have hpercent : chr '0' ≠ chr '%' := by decide
  rw [turn_token_of hpoint, evaluate]
  simp only [h, hpercent, if_true, if_false]

/-- The tokens that the switch has cases for. -/
def supported : List UInt8 := [chr '%', chr '0', chr 's', chr 'c', chr 'x', chr 'X', chr 'u', chr 'd']

theorem turn_unsupported {s : State} (hpoint : s.point = .token) (h : call.fmt s.cursor ∉ supported) :
    turn call s = .done ⟨-1, s.mem⟩ := by
  simp only [supported, List.mem_cons, List.not_mem_nil, or_false, not_or] at h
  obtain ⟨hpercent, hzero, hs, hc, hlower, hupper, hu, hd⟩ := h
  rw [turn_token_of hpoint, evaluate]
  simp only [hpercent, hzero, hs, hc, hlower, hupper, hu, hd, or_self, if_false]

theorem digit_unsupported {c : UInt8} (h : chr '0' < c ∧ c ≤ chr '9') : c ∉ supported := by
  have hall : ∀ c ∈ supported, ¬ (chr '0' < c ∧ c ≤ chr '9') := by decide +kernel
  exact fun hmem => hall c hmem h

/-- Where the loop finds a digit, the call returns -1 in the end. -/
theorem zeros_returns {rest : List UInt8} {conv : Conversion} (hfmt : HasFormat call.fmt cursor rest)
    (h : leadingZeros rest = some conv) :
    Returns (turn call) (stateAt call m .zeros cursor arg bytes) ⟨-1, m.write call.str bytes⟩ := by
  induction rest generalizing cursor with
  | nil => cases h
  | cons c rest ih =>
    obtain ⟨hc, -, hrest⟩ := hfmt
    rw [leadingZeros] at h
    by_cases hdigit : chr '0' < c ∧ c ≤ chr '9'
    · have hstop : ¬ (c < chr '0' ∨ chr '9' < c) := by
        rintro (hlow | hhigh)
        · exact absurd hdigit.1 (UInt8.lt_asymm hlow)
        · exact absurd hdigit.2 (UInt8.not_le.mpr hhigh)
      subst hc
      rw [returns_again (turn_digit rfl hstop)]
      exact (returns_done (turn_unsupported rfl (digit_unsupported hdigit))).mpr rfl
    · rw [if_neg hdigit] at h
      by_cases hskip : c < chr '0' ∨ chr '9' < c
      · subst hc
        rw [returns_again (turn_skip rfl hskip)]
        exact ih hrest h
      · -- another '0', which is a case of its own
        have hzero : c = chr '0' := by
          rw [not_or, UInt8.not_lt, UInt8.not_lt] at hskip
          by_contra hne
          exact hdigit ⟨UInt8.lt_of_le_of_ne hskip.1 (Ne.symm hne), hskip.2⟩
        have hat := hc.trans hzero
        subst hc
        rw [returns_again (turn_digit rfl hskip), returns_again (turn_zero rfl hat)]
        exact ih hrest h

/-! ## The cursor -/

theorem evaluate_cursor {a b : State} (h : evaluate call a = .again b) : a.cursor ≤ b.cursor := by
  simp only [evaluate] at h
  repeat' split at h
  all_goals first
    | (rw [← Turn.again.inj h]; simp)
    | cases h

/-- A turn never takes the cursor back, and the loop over the format takes it on. -/
theorem turn_cursor {a b : State} (h : turn call a = .again b) :
    a.cursor ≤ b.cursor ∧ (a.point = .main → a.cursor < b.cursor) := by
  unfold turn at h
  cases hpoint : a.point with
  | main =>
    simp only [hpoint] at h
    repeat' split at h
    all_goals first
      | (rw [← Turn.again.inj h]; simp)
      | cases h
  | token =>
    simp only [hpoint] at h
    exact ⟨evaluate_cursor h, fun hmain => by cases hmain⟩
  | zeros =>
    simp only [hpoint] at h
    split at h
    all_goals (rw [← Turn.again.inj h]; simp)
  | copy src i =>
    simp only [hpoint] at h
    split at h
    all_goals (rw [← Turn.again.inj h]; simp)

theorem visits_cursor {a b : State} (h : Visits (turn call) a b) : a.cursor ≤ b.cursor :=
  h.invariant (I := fun s => a.cursor ≤ s.cursor) (Nat.le_refl _) fun _ _ hc hcd =>
    Nat.le_trans hc (turn_cursor hcd).1

/-- The loop over the format comes to each place once. -/
theorem main_unique {s a b : State} (ha : Visits (turn call) s a) (hb : Visits (turn call) s b)
    (hmain : a.point = .main) (hmain' : b.point = .main) (hcursor : a.cursor = b.cursor) : a = b := by
  have hfrom : ∀ {a b : State}, Visits (turn call) a b → a.point = .main → a.cursor = b.cursor → a = b := by
    intro a b hab ham heq
    rcases hab.eq_or_next with hsame | ⟨c, hturn, hafter⟩
    · exact hsame
    · have hlt := (turn_cursor hturn).2 ham
      have hle := visits_cursor hafter
      omega
  rcases ha.linear hb with hab | hba
  · exact hfrom hab hmain hcursor
  · exact (hfrom hba hmain' hcursor.symm).symm

/-! ## A call -/

theorem returns_of_snprintfLoop {fmt : List UInt8} {args : List Arg} {printed : Printed}
    (hfmt : HasFormat call.fmt cursor fmt) (hargs : Passed call m arg args)
    (hbytes : bytes.length ≤ call.limit.toInt.toNat)
    (h : snprintfLoop call.locals call.limit.toInt cursor fmt args bytes = some printed) :
    Returns (turn call) (stateAt call m .main cursor arg bytes) ⟨printed.ret, m.write call.str printed.bytes⟩ := by
  fun_induction snprintfLoop call.locals call.limit.toInt cursor fmt args bytes generalizing arg with
  | case1 cursor args bytes =>
    -- the NUL
    have hprinted := Option.some.inj h
    subst hprinted
    exact (returns_done (turn_end (Or.inl hfmt))).mpr rfl
  | case2 cursor args bytes hroom =>
    -- a '%' that is the last character
    have hprinted := Option.some.inj h
    subst hprinted
    obtain ⟨hc, -, hend⟩ := hfmt
    have hnul : call.fmt (cursor + 1) ∉ supported := by
      rw [show call.fmt (cursor + 1) = 0 from hend]
      decide
    rw [returns_again (turn_percent hc hroom)]
    exact (returns_done (turn_unsupported rfl hnul)).mpr rfl
  | case3 cursor args bytes hroom rest =>
    obtain ⟨hc, -, hzero, -, hrest⟩ := hfmt
    obtain ⟨conv, hconv, hprinted⟩ := Option.map_eq_some_iff.mp h
    subst hprinted
    rw [returns_again (turn_percent hc hroom), returns_again (turn_zero rfl hzero)]
    exact zeros_returns hrest hconv
  | case4 cursor args bytes hroom token rest hzero c args' hconv ih =>
    obtain ⟨hc, -, htoken, -, hrest⟩ := hfmt
    have hfollows := token_follows htoken hargs hroom hzero
    rw [hconv] at hfollows
    obtain ⟨arg', hargs', hvisits⟩ := hfollows
    rw [returns_again (turn_percent hc hroom), hvisits.returns]
    refine ih hrest hargs' ?_ h
    rw [List.length_append, List.length_singleton]
    omega
  | case5 cursor args bytes hroom token rest hzero s args' hconv ih =>
    obtain ⟨hc, -, htoken, -, hrest⟩ := hfmt
    have hfollows := token_follows htoken hargs hroom hzero
    rw [hconv] at hfollows
    obtain ⟨arg', hargs', hvisits⟩ := hfollows
    rw [returns_again (turn_percent hc hroom), hvisits.returns]
    refine ih hrest hargs' ?_ h
    rw [putString_eq _ _ _ hbytes]
    exact List.length_take_le _ _
  | case6 cursor args bytes hroom token rest hzero hconv =>
    have hprinted := Option.some.inj h
    subst hprinted
    obtain ⟨hc, -, htoken, -, hrest⟩ := hfmt
    have hfollows := token_follows htoken hargs hroom hzero
    rw [hconv] at hfollows
    rw [returns_again (turn_percent hc hroom)]
    exact (returns_done hfollows).mpr rfl
  | case7 cursor args bytes hroom token rest hzero hconv => cases h
  | case8 cursor c rest args bytes hroom hplain ih =>
    obtain ⟨hc, hne, hrest⟩ := hfmt
    rw [returns_again (turn_literal hc hne hplain hroom)]
    refine ih hrest hargs ?_ h
    rw [List.length_append, List.length_singleton]
    omega
  | case9 cursor c rest args bytes hfull =>
    have hprinted := Option.some.inj h
    subst hprinted
    exact (returns_done (turn_end (Or.inr hfull))).mpr rfl

/-- The machine does what `snprintf` says, and stores those bytes and no others. -/
theorem returns_of_snprintf {fmt : List UInt8} {args : List Arg} {printed : Printed}
    (hfmt : HasFormat call.fmt 0 fmt) (hargs : Passed call m 0 args)
    (h : snprintf call.locals call.limit.toInt fmt args = some printed) :
    Prints call m printed.ret (m.write call.str printed.bytes) := by
  unfold Prints
  rw [entry_eq call m]
  exact returns_of_snprintfLoop hfmt hargs (Nat.zero_le _) h

end

end Crows.Kernel.Snprintf
