/-
  Crows.Kernel.Serial — the serial driver, and the chip behind its ports.

  uart.c reaches the chip through `inb` and `outb`. Behind SERIAL_COM1 stands a 16550:
  registers, of which those at two offsets are others while DLAB is set, a FIFO that the
  chip sends from, and one that it receives into. The driver and the chip run side by
  side: an event is a step of the kernel (`cpu`, with whatever the bits of the status
  hold that the driver does not look at), a byte that the chip sends (`transmit`) or
  one that the line brings (`arrive`).

  Proved, whatever the chip was left with, for every order of these events:
  - `regsAfter_all`: uart_init leaves 115200 baud and frames of 8 bits without parity.
    Interrupts are off afterwards exactly when DLAB was clear before or they were off
    (`interrupts_disabled_iff`): the write meant for them comes before DLAB is cleared.
  - `carried`: behind what was left in the chip the line carries the bytes handed to
    uart_putc and uart_puts, each once and in order, and none is written to a full FIFO.
  - `received_in_order`: uart_get returns the bytes in the order they arrived.
  - `fair_drains`: where neither the kernel nor the chip stands still, all gets through.
-/
import Crows.Kernel.Uart
import Crows.Lib.Transition

namespace Crows.Kernel.Serial

open Crows.Lib

/-! ## The chip -/

def serialCom1 : UInt16 := 0x3F8

structure Registers where
  interruptEnable : UInt8
  divisorLow : UInt8
  divisorHigh : UInt8
  fifoControl : UInt8
  lineControl : UInt8
  modemControl : UInt8
  deriving DecidableEq

/-- The divisor stands where the data and the interrupts stand otherwise. -/
def Registers.Dlab (r : Registers) : Prop := r.lineControl &&& 0x80 ≠ 0

instance (r : Registers) : Decidable r.Dlab := inferInstanceAs (Decidable (_ ≠ _))

def Registers.outb (r : Registers) (port : UInt16) (value : UInt8) : Registers :=
  if port = serialCom1 then if r.Dlab then { r with divisorLow := value } else r
  else if port = serialCom1 + 1 then
    if r.Dlab then { r with divisorHigh := value } else { r with interruptEnable := value }
  else if port = serialCom1 + 2 then { r with fifoControl := value }
  else if port = serialCom1 + 3 then { r with lineControl := value }
  else if port = serialCom1 + 4 then { r with modemControl := value }
  else r

/-- How many bytes a FIFO takes; one when the FIFOs are off. -/
def Registers.depth (r : Registers) : Nat := if r.fifoControl &&& 0x01 ≠ 0 then 16 else 1

/-- A byte as it goes over the line. -/
structure Frame where
  byte : UInt8
  baud : Nat
  dataBits : Nat
  parity : Bool
  stopBits : Nat
  deriving DecidableEq

def Registers.frame (r : Registers) (b : UInt8) : Frame where
  byte := b
  baud := 115200 / (r.divisorLow.toNat + 256 * r.divisorHigh.toNat)
  dataBits := 5 + (r.lineControl &&& 0x03).toNat
  parity := r.lineControl &&& 0x08 ≠ 0
  stopBits := if r.lineControl &&& 0x04 ≠ 0 then 2 else 1

/-- `unsent` and `unread` are the bytes that found a FIFO full. -/
structure Uart where
  regs : Registers
  transmit : List UInt8
  receive : List UInt8
  sent : List Frame
  unsent : List UInt8
  unread : List UInt8
  deriving DecidableEq

namespace Uart

/-- Both FIFOs can be cleared by a write to their register. -/
def outb (u : Uart) (port : UInt16) (value : UInt8) : Uart :=
  if port = serialCom1 ∧ ¬ u.regs.Dlab then
    if u.transmit.length < u.regs.depth then { u with transmit := u.transmit ++ [value] }
    else { u with unsent := u.unsent ++ [value] }
  else if port = serialCom1 + 2 then
    { u with
      regs := u.regs.outb port value,
      transmit := if value &&& 0x04 ≠ 0 then [] else u.transmit,
      receive := if value &&& 0x02 ≠ 0 then [] else u.receive }
  else { u with regs := u.regs.outb port value }

/-- Bit 5 says that nothing waits to be sent, bit 0 that something can be read. -/
def lineStatus (u : Uart) (others : UInt8) : UInt8 :=
  (others &&& 0xDE) ||| (if u.transmit = [] then 0x20 else 0x00) ||| (if u.receive = [] then 0x00 else 0x01)

def inb (u : Uart) (port : UInt16) (others : UInt8) : UInt8 × Uart :=
  if port = serialCom1 + 5 then (u.lineStatus others, u)
  else if port = serialCom1 then
    if u.regs.Dlab then (u.regs.divisorLow, u)
    else
      match u.receive with
      | [] => (others, u)
      | b :: rest => (b, { u with receive := rest })
  else (others, u)

/-- The chip sends the oldest byte. -/
def send (u : Uart) : Uart :=
  match u.transmit with
  | [] => u
  | b :: rest => { u with transmit := rest, sent := u.sent ++ [u.regs.frame b] }

def arrive (u : Uart) (b : UInt8) : Uart :=
  if u.receive.length < u.regs.depth then { u with receive := u.receive ++ [b] }
  else { u with unread := u.unread ++ [b] }

/-- What has been sent and what waits to be. -/
def traffic (u : Uart) : List UInt8 := u.sent.map Frame.byte ++ u.transmit

end Uart

/-! ## The driver -/

/-- The calls of uart.c. A string is the bytes it points to, or NULL. -/
inductive Call where
  | init
  | puts (string : Option (List UInt8))
  | putc (value : UInt8)
  | get
  deriving DecidableEq

/-- Where the driver stands: between two calls, before a write of uart_init, before a byte of uart_puts, in
    uart_putc, in uart_get. -/
inductive Point where
  | idle
  | init (written : Nat)
  | puts (rest : List UInt8)
  | sendReady (value : UInt8) (rest : List UInt8)
  | send (value : UInt8) (rest : List UInt8)
  | recvReady
  | recv
  deriving DecidableEq

/-- `got` is what uart_get has returned. -/
structure State where
  uartEnabled : Bool
  calls : List Call
  point : Point
  uart : Uart
  got : List UInt8
  deriving DecidableEq

/-- The writes of uart_init. -/
def initWrites : List (UInt16 × UInt8) :=
  [(serialCom1 + 1, 0x00), (serialCom1 + 3, 0x80), (serialCom1 + 0, 0x01), (serialCom1 + 1, 0x00),
    (serialCom1 + 3, 0x03), (serialCom1 + 2, 0xC7), (serialCom1 + 4, 0x0B)]

/-- The next call is made, as far as its check of `uart_enabled`. -/
def nextCall (s : State) : State :=
  match s.calls with
  | [] => s
  | .init :: cs => { s with calls := cs, point := .init 0 }
  | .puts none :: cs => { s with calls := cs }
  | .puts (some string) :: cs =>
    if s.uartEnabled then { s with calls := cs, point := .puts string } else { s with calls := cs }
  -- behind a call of uart_putc there is nothing left of a string
  | .putc value :: cs =>
    if s.uartEnabled then { s with calls := cs, point := .sendReady value [] } else { s with calls := cs }
  | .get :: cs =>
    if s.uartEnabled then { s with calls := cs, point := .recvReady }
    else { s with calls := cs, got := s.got ++ [0] }

/-- A step of the kernel; `others` are the bits of the line status that are the chip's business. -/
def cpuStep (s : State) (others : UInt8) : State :=
  match s.point with
  | .idle => nextCall s
  | .init written =>
    match initWrites[written]? with
    | some (port, value) => { s with uart := s.uart.outb port value, point := .init (written + 1) }
    | none => { s with uartEnabled := true, point := .idle }
  | .puts [] => { s with point := .idle }
  | .puts (c :: rest) =>
    if c = 0 then { s with point := .idle }
    else if s.uartEnabled then { s with point := .sendReady c rest }
    else { s with point := .puts rest }
  | .sendReady value rest =>
    if (s.uart.inb (serialCom1 + 5) others).1 &&& 0x20 = 0 then s else { s with point := .send value rest }
  | .send value rest => { s with uart := s.uart.outb serialCom1 value, point := .puts rest }
  | .recvReady => if (s.uart.inb (serialCom1 + 5) others).1 &&& 0x01 = 0 then s else { s with point := .recv }
  | .recv =>
    let read := s.uart.inb serialCom1 others
    { s with uart := read.2, got := s.got ++ [read.1], point := .idle }

inductive Event where
  | cpu (others : UInt8)
  | transmit
  | arrive (b : UInt8)
  deriving DecidableEq

def enabled (s : State) : Event → Prop
  | .cpu _ => True
  | .transmit => s.uart.transmit ≠ []
  | .arrive _ => True

instance (s : State) : (e : Event) → Decidable (enabled s e)
  | .cpu _ => inferInstanceAs (Decidable True)
  | .transmit => inferInstanceAs (Decidable (_ ≠ _))
  | .arrive _ => inferInstanceAs (Decidable True)

def next (s : State) : Event → State
  | .cpu others => cpuStep s others
  | .transmit => { s with uart := s.uart.send }
  | .arrive b => { s with uart := s.uart.arrive b }

/-- uart_init has been called, with the chip in any state and any calls to follow. -/
def system : System State Event where
  init s := s.point = .init 0
  enabled := enabled
  next := next

/-! ## The chip, step by step -/

@[simp] theorem outb_regs (u : Uart) (port : UInt16) (value : UInt8) :
    (u.outb port value).regs = u.regs.outb port value := by
  unfold Uart.outb
  split
  · rename_i h
    rw [h.1, Registers.outb, if_pos rfl, if_neg h.2]
    split <;> rfl
  · split <;> rfl

@[simp] theorem send_regs (u : Uart) : u.send.regs = u.regs := by
  unfold Uart.send
  split <;> rfl

@[simp] theorem arrive_regs (u : Uart) (b : UInt8) : (u.arrive b).regs = u.regs := by
  unfold Uart.arrive
  split <;> rfl

@[simp] theorem arrive_transmit (u : Uart) (b : UInt8) : (u.arrive b).transmit = u.transmit := by
  unfold Uart.arrive
  split <;> rfl

@[simp] theorem arrive_sent (u : Uart) (b : UInt8) : (u.arrive b).sent = u.sent := by
  unfold Uart.arrive
  split <;> rfl

@[simp] theorem arrive_unsent (u : Uart) (b : UInt8) : (u.arrive b).unsent = u.unsent := by
  unfold Uart.arrive
  split <;> rfl

@[simp] theorem send_unsent (u : Uart) : u.send.unsent = u.unsent := by
  unfold Uart.send
  split <;> rfl

/-- Sending moves a byte along. -/
@[simp] theorem send_traffic (u : Uart) : u.send.traffic = u.traffic := by
  unfold Uart.send Uart.traffic
  split <;> rename_i h <;> simp [h, Registers.frame]

@[simp] theorem arrive_traffic (u : Uart) (b : UInt8) : (u.arrive b).traffic = u.traffic := by
  simp [Uart.traffic]

/-- A write to a register other than the FIFOs'. -/
theorem outb_register {u : Uart} {port : UInt16} {value : UInt8} (hdata : port = serialCom1 → u.regs.Dlab)
    (hfifo : port ≠ serialCom1 + 2) : u.outb port value = { u with regs := u.regs.outb port value } := by
  unfold Uart.outb
  rw [if_neg fun h => h.2 (hdata h.1), if_neg hfifo]

/-- A read of SERIAL_COM1 takes the oldest byte that has arrived. -/
theorem inb_data {u : Uart} (hdlab : ¬ u.regs.Dlab) (others : UInt8) :
    u.inb serialCom1 others = (u.receive.headD others, { u with receive := u.receive.tail }) := by
  have hport : serialCom1 ≠ serialCom1 + 5 := by decide
  unfold Uart.inb
  rw [if_neg hport, if_pos rfl, if_neg hdlab]
  cases u with
  | mk regs transmit receive sent unsent unread =>
    cases receive with
    | nil => rfl
    | cons b rest => rfl

/-- Both FIFOs are cleared by what uart_init writes. -/
theorem outb_fifos (u : Uart) : u.outb (serialCom1 + 2) 0xC7 =
    { u with regs := u.regs.outb (serialCom1 + 2) 0xC7, transmit := [], receive := [] } := by
  have hport : ¬ (serialCom1 + 2 = serialCom1 ∧ ¬ u.regs.Dlab) := fun h => absurd h.1 (by decide)
  unfold Uart.outb
  rw [if_neg hport, if_pos rfl, if_pos (by decide), if_pos (by decide)]

/-- The two bits of the line status that the driver looks at. -/
theorem status_bits : ∀ (x : UInt8) (empty idle : Bool),
    (((x &&& 0xDE) ||| (if empty then 0x20 else 0x00) ||| (if idle then 0x00 else 0x01)) &&& 0x20 = 0 ↔
      empty = false) ∧
    (((x &&& 0xDE) ||| (if empty then 0x20 else 0x00) ||| (if idle then 0x00 else 0x01)) &&& 0x01 = 0 ↔
      idle = true) := by
  decide +kernel

theorem status_sendReady (u : Uart) (others : UInt8) :
    (u.inb (serialCom1 + 5) others).1 &&& 0x20 = 0 ↔ u.transmit ≠ [] := by
  have hbits := (status_bits others (u.transmit = []) (u.receive = [])).1
  simpa [Uart.inb, Uart.lineStatus] using hbits

theorem status_recvReady (u : Uart) (others : UInt8) :
    (u.inb (serialCom1 + 5) others).1 &&& 0x01 = 0 ↔ u.receive = [] := by
  have hbits := (status_bits others (u.transmit = []) (u.receive = [])).2
  simpa [Uart.inb, Uart.lineStatus] using hbits

/-! ## uart_init -/

/-- The registers after the first `k` writes of uart_init. -/
def regsAfter (r : Registers) (k : Nat) : Registers :=
  (initWrites.take k).foldl (fun r write => r.outb write.1 write.2) r

theorem regsAfter_succ (r : Registers) {k : Nat} {write : UInt16 × UInt8} (h : initWrites[k]? = some write) :
    regsAfter r (k + 1) = (regsAfter r k).outb write.1 write.2 := by
  unfold regsAfter
  rw [List.take_add_one, h]
  simp

/-- DLAB is set while the divisor is written. -/
theorem regsAfter_dlab (r : Registers) : (regsAfter r 2).Dlab := by
  simp [regsAfter, initWrites, Registers.outb, Registers.Dlab, serialCom1]

theorem regsAfter_all (r : Registers) : regsAfter r 7 =
    { interruptEnable := if r.Dlab then r.interruptEnable else 0x00,
      divisorLow := 0x01, divisorHigh := 0x00, fifoControl := 0xC7, lineControl := 0x03, modemControl := 0x0B } := by
  by_cases h : r.lineControl &&& 0x80 = 0
  · simp [regsAfter, initWrites, Registers.outb, Registers.Dlab, serialCom1, h]
  · simp [regsAfter, initWrites, Registers.outb, Registers.Dlab, serialCom1, h]

/-- The first write of uart_init is to the interrupts only when DLAB is clear. -/
theorem interrupts_disabled_iff (r : Registers) :
    (regsAfter r 7).interruptEnable = 0x00 ↔ ¬ r.Dlab ∨ r.interruptEnable = 0x00 := by
  rw [regsAfter_all]
  by_cases h : r.Dlab <;> simp [h]

/-- What the driver's bytes look like on the line: 115200 baud, 8 bits, no parity, one stop bit. -/
def consoleFrame (b : UInt8) : Frame := ⟨b, 115200, 8, false, 1⟩

theorem frame_regsAfter (r : Registers) (b : UInt8) : (regsAfter r 7).frame b = consoleFrame b := by
  rw [regsAfter_all]
  simp only [Registers.frame, consoleFrame, Frame.mk.injEq]
  exact ⟨trivial, rfl, rfl, decide_eq_false (by decide), if_neg (by decide)⟩

/-! ## What is handed to the driver -/

/-- A string up to its NUL. -/
def stringOf (cells : List UInt8) : List UInt8 := cells.takeWhile (· ≠ 0)

def Call.bytes : Call → List UInt8
  | .puts (some string) => stringOf string
  | .putc value => [value]
  | _ => []

def output (calls : List Call) : List UInt8 := calls.flatMap Call.bytes

/-- What of it is left of the call that is underway. -/
def Point.rest : Point → List UInt8
  | .puts rest => stringOf rest
  | .sendReady value rest => value :: stringOf rest
  | .send value rest => value :: stringOf rest
  | _ => []

/-- What the driver has still to write. -/
def owed (s : State) : List UInt8 := s.point.rest ++ output s.calls

@[simp] theorem stringOf_nil : stringOf [] = [] := rfl

@[simp] theorem stringOf_zero (rest : List UInt8) : stringOf (0 :: rest) = [] := by simp [stringOf]

theorem stringOf_cons {c : UInt8} (hc : c ≠ 0) (rest : List UInt8) : stringOf (c :: rest) = c :: stringOf rest := by
  simp [stringOf, hc]

@[simp] theorem output_nil : output [] = [] := rfl

@[simp] theorem output_cons (c : Call) (cs : List Call) : output (c :: cs) = c.bytes ++ output cs := by simp [output]

/-! ## Nothing is lost -/

section
variable (u₀ : Uart) (cs : List Call)

/-- uart_init has made its first `k` writes; with the sixth one the FIFOs are cleared. -/
structure Starting (k : Nat) (s : State) : Prop where
  point : s.point = .init k
  le : k ≤ 7
  calls : s.calls = cs
  regs : s.uart.regs = regsAfter u₀.regs k
  old : k < 6 → s.uart.traffic = u₀.traffic
  cleared : 6 ≤ k → s.uart.transmit = [] ∧ s.uart.sent.map Frame.byte <+: u₀.traffic
  unsent : s.uart.unsent = u₀.unsent

/-- uart_init has returned. A byte is written only when the FIFO is empty, so it never holds two. -/
structure Running (s : State) : Prop where
  up : s.uartEnabled = true
  single : .init ∉ s.calls
  point : ∀ k, s.point ≠ .init k
  regs : s.uart.regs = regsAfter u₀.regs 7
  one : s.uart.transmit.length ≤ 1
  free : ∀ value rest, s.point = .send value rest → s.uart.transmit = []
  unsent : s.uart.unsent = u₀.unsent
  line : ∃ before ours, s.uart.sent = before ++ ours.map consoleFrame ∧ before.map Frame.byte <+: u₀.traffic ∧
    ours ++ s.uart.transmit ++ owed s = output cs

def Inv (s : State) : Prop := (∃ k, Starting u₀ cs k s) ∨ Running u₀ cs s

variable {u₀ cs} {s : State}

theorem initWrites_get {k : Nat} (hk : k < 7) : ∃ write, initWrites[k]? = some write :=
  ⟨_, List.getElem?_eq_getElem (by simpa [initWrites] using hk)⟩

/-- Up to the clearing of the FIFOs a write of uart_init is to a register. -/
theorem init_register {u : Uart} {k : Nat} (hk : k < 7) (hfifo : k ≠ 5) (hregs : u.regs = regsAfter u₀.regs k)
    {port : UInt16} {value : UInt8} (h : initWrites[k]? = some (port, value)) :
    u.outb port value = { u with regs := u.regs.outb port value } := by
  have hwrite : (port = serialCom1 → k = 2) ∧ (port = serialCom1 + 2 → k = 5) := by
    interval_cases k <;> simp [initWrites] at h <;> simp [← h.1, serialCom1]
  refine outb_register ?_ fun hport => hfifo (hwrite.2 hport)
  intro hport
  obtain rfl := hwrite.1 hport
  rw [hregs]
  exact regsAfter_dlab _

theorem starting_cpu {k : Nat} (h : Starting u₀ cs k s) (hno : .init ∉ cs) (others : UInt8) :
    Inv u₀ cs (cpuStep s others) := by
  have hle := h.le
  unfold cpuStep
  rw [h.point]
  dsimp only
  by_cases hlast : k = 7
  · -- uart_init returns
    subst hlast
    obtain ⟨hempty, hbefore⟩ := h.cleared (by decide)
    rw [show initWrites[7]? = none from rfl]
    right
    exact
      { up := rfl
        single := h.calls ▸ hno
        point := fun _ h => nomatch h
        regs := h.regs
        one := by simp [hempty]
        free := fun _ _ h => nomatch h
        unsent := h.unsent
        line := ⟨s.uart.sent, [], by simp, hbefore, by simp [owed, Point.rest, hempty, h.calls]⟩ }
  · obtain ⟨⟨port, value⟩, hwrite⟩ := initWrites_get (show k < 7 by omega)
    rw [hwrite]
    dsimp only
    left
    refine ⟨k + 1, ?_⟩
    have hregs : (s.uart.outb port value).regs = regsAfter u₀.regs (k + 1) := by
      rw [outb_regs, h.regs, regsAfter_succ _ hwrite]
    by_cases hfifo : k = 5
    · -- the FIFOs are cleared, and what is on the line is older
      subst hfifo
      have hw : serialCom1 + 2 = port ∧ 0xC7 = value := by simpa [initWrites] using hwrite
      obtain ⟨rfl, rfl⟩ := hw
      rw [outb_fifos] at hregs ⊢
      exact
        { point := rfl
          le := by omega
          calls := h.calls
          regs := hregs
          old := fun hlt => absurd hlt (by decide)
          cleared := fun _ => ⟨rfl, h.old (by decide) ▸ List.prefix_append _ _⟩
          unsent := h.unsent }
    · have hout := init_register (show k < 7 by omega) hfifo h.regs hwrite
      rw [hout] at hregs ⊢
      exact
        { point := rfl
          le := by omega
          calls := h.calls
          regs := hregs
          old := fun hlt => h.old (by omega)
          cleared := fun hge => h.cleared (by omega)
          unsent := h.unsent }

theorem starting_send {k : Nat} (h : Starting u₀ cs k s) (hsome : s.uart.transmit ≠ []) :
    Starting u₀ cs k { s with uart := s.uart.send } where
  point := h.point
  le := h.le
  calls := h.calls
  regs := by simp [h.regs]
  old hk := by simp [h.old hk]
  cleared hk := absurd (h.cleared hk).1 hsome
  unsent := by simp [h.unsent]

theorem starting_arrive {k : Nat} (h : Starting u₀ cs k s) (b : UInt8) :
    Starting u₀ cs k { s with uart := s.uart.arrive b } where
  point := h.point
  le := h.le
  calls := h.calls
  regs := by simp [h.regs]
  old hk := by simp [h.old hk]
  cleared hk := by simpa using h.cleared hk
  unsent := by simp [h.unsent]

/-- A step that leaves the chip's sending side alone keeps what was to be written. -/
theorem Running.keeps {t : State} (h : Running u₀ cs s) (hup : t.uartEnabled = true) (hsingle : .init ∉ t.calls)
    (hpoint : ∀ k, t.point ≠ .init k) (hfree : ∀ value rest, t.point = .send value rest → t.uart.transmit = [])
    (hregs : t.uart.regs = s.uart.regs) (htransmit : t.uart.transmit = s.uart.transmit)
    (hsent : t.uart.sent = s.uart.sent) (hunsent : t.uart.unsent = s.uart.unsent) (howed : owed t = owed s) :
    Running u₀ cs t where
  up := hup
  single := hsingle
  point := hpoint
  regs := hregs.trans h.regs
  one := htransmit ▸ h.one
  free := hfree
  unsent := hunsent.trans h.unsent
  line := by
    obtain ⟨before, ours, hline, hbefore, hours⟩ := h.line
    exact ⟨before, ours, hsent.trans hline, hbefore, by rw [htransmit, howed, hours]⟩

theorem Running.dlab (h : Running u₀ cs s) : ¬ s.uart.regs.Dlab := by
  rw [h.regs, regsAfter_all]
  exact not_not_intro (by decide : (0x03 : UInt8) &&& 0x80 = 0)

theorem Running.depth (h : Running u₀ cs s) : s.uart.regs.depth = 16 := by
  rw [h.regs, regsAfter_all]
  exact if_pos (show (0xC7 : UInt8) &&& 0x01 ≠ 0 by decide)

/-- With DLAB clear and the FIFO empty a byte written to SERIAL_COM1 waits in it. -/
theorem Running.outb (h : Running u₀ cs s) (hempty : s.uart.transmit = []) (value : UInt8) :
    s.uart.outb serialCom1 value = { s.uart with transmit := [value] } := by
  unfold Uart.outb
  rw [if_pos ⟨rfl, h.dlab⟩, if_pos (by simp [hempty, h.depth])]
  simp [hempty]

theorem Running.call (h : Running u₀ cs s) (hidle : s.point = .idle) : Running u₀ cs (nextCall s) := by
  have hup := h.up
  have hsingle := h.single
  unfold nextCall
  split
  · exact h
  · rename_i hcalls
    rw [hcalls] at hsingle
    exact absurd List.mem_cons_self hsingle
  · rename_i hcalls
    rw [hcalls, List.mem_cons, not_or] at hsingle
    refine h.keeps hup hsingle.2 h.point h.free rfl rfl rfl rfl ?_
    simp [owed, hidle, hcalls, Point.rest, Call.bytes]
  · rename_i hcalls
    rw [hcalls, List.mem_cons, not_or] at hsingle
    rw [if_pos hup]
    refine h.keeps hup hsingle.2 (fun _ h => nomatch h) (fun _ _ h => nomatch h) rfl rfl rfl rfl ?_
    simp [owed, hidle, hcalls, Point.rest, Call.bytes]
  · rename_i hcalls
    rw [hcalls, List.mem_cons, not_or] at hsingle
    rw [if_pos hup]
    refine h.keeps hup hsingle.2 (fun _ h => nomatch h) (fun _ _ h => nomatch h) rfl rfl rfl rfl ?_
    simp [owed, hidle, hcalls, Point.rest, Call.bytes]
  · rename_i hcalls
    rw [hcalls, List.mem_cons, not_or] at hsingle
    rw [if_pos hup]
    refine h.keeps hup hsingle.2 (fun _ h => nomatch h) (fun _ _ h => nomatch h) rfl rfl rfl rfl ?_
    simp [owed, hidle, hcalls, Point.rest, Call.bytes]

theorem Running.cpu (h : Running u₀ cs s) (others : UInt8) : Running u₀ cs (cpuStep s others) := by
  have hup := h.up
  have hsingle := h.single
  unfold cpuStep
  split
  · rename_i hpoint
    exact h.call hpoint
  · rename_i hpoint
    exact absurd hpoint (h.point _)
  · rename_i hpoint
    refine h.keeps hup hsingle (fun _ h => nomatch h) (fun _ _ h => nomatch h) rfl rfl rfl rfl ?_
    simp [owed, hpoint, Point.rest]
  · rename_i c rest hpoint
    split
    · rename_i hc
      refine h.keeps hup hsingle (fun _ h => nomatch h) (fun _ _ h => nomatch h) rfl rfl rfl rfl ?_
      simp [owed, hpoint, Point.rest, hc]
    · rename_i hc
      refine h.keeps hup hsingle (fun _ h => nomatch h) (fun _ _ h => nomatch h) rfl rfl rfl rfl ?_
      simp [owed, hpoint, Point.rest, stringOf_cons hc]
  · rename_i value rest hpoint
    split
    · exact h
    · -- the poll was answered with an empty FIFO
      rename_i hready
      have hempty : s.uart.transmit = [] := not_not.mp fun hne => hready ((status_sendReady _ _).mpr hne)
      refine h.keeps hup hsingle (fun _ h => nomatch h) (fun _ _ _ => hempty) rfl rfl rfl rfl ?_
      simp [owed, hpoint, Point.rest]
  · rename_i value rest hpoint
    have hempty := h.free _ _ hpoint
    rw [h.outb hempty]
    obtain ⟨before, ours, hline, hbefore, hours⟩ := h.line
    exact
      { up := hup
        single := hsingle
        point := fun _ h => nomatch h
        regs := h.regs
        one := by simp
        free := fun _ _ h => nomatch h
        unsent := h.unsent
        line := ⟨before, ours, hline, hbefore, by simpa [owed, hpoint, Point.rest, hempty] using hours⟩ }
  · rename_i hpoint
    split
    · exact h
    · refine h.keeps hup hsingle (fun _ h => nomatch h) (fun _ _ h => nomatch h) rfl rfl rfl rfl ?_
      simp [owed, hpoint, Point.rest]
  · rename_i hpoint
    have hread := inb_data h.dlab others
    refine h.keeps hup hsingle (fun _ h => nomatch h) (fun _ _ h => nomatch h) ?_ ?_ ?_ ?_ ?_
    · simp [hread]
    · simp [hread]
    · simp [hread]
    · simp [hread]
    · simp [owed, hpoint, Point.rest]

theorem Running.send (h : Running u₀ cs s) : Running u₀ cs { s with uart := s.uart.send } := by
  obtain ⟨before, ours, hline, hbefore, hours⟩ := h.line
  cases hwaiting : s.uart.transmit with
  | nil =>
    have hsend : s.uart.send = s.uart := by simp [Uart.send, hwaiting]
    rw [hsend]
    exact h
  | cons b rest =>
    have hframe : s.uart.regs.frame b = consoleFrame b := by
      rw [h.regs]
      exact frame_regsAfter _ _
    have hsend : s.uart.send = { s.uart with
        transmit := rest, sent := s.uart.sent ++ [consoleFrame b] } := by
      simp [Uart.send, hwaiting, hframe]
    have hone := h.one
    rw [hwaiting, List.length_cons] at hone
    rw [hsend]
    exact
      { up := h.up
        single := h.single
        point := h.point
        regs := h.regs
        one := by simp only; omega
        free := by
          intro value rest' hpoint
          exact absurd (hwaiting ▸ h.free value rest' hpoint) (List.cons_ne_nil _ _)
        unsent := h.unsent
        line := ⟨before, ours ++ [b], by simp [hline], hbefore, by
          rw [hwaiting] at hours
          simpa [owed] using hours⟩ }

theorem Running.arrive (h : Running u₀ cs s) (b : UInt8) : Running u₀ cs { s with uart := s.uart.arrive b } :=
  h.keeps h.up h.single h.point (fun value rest hpoint => by simp [h.free value rest hpoint]) (by simp) (by simp)
    (by simp) (by simp) rfl

end

theorem step_inv {u₀ : Uart} {cs : List Call} (hno : .init ∉ cs) {s : State} {e : Event} (h : Inv u₀ cs s)
    (he : enabled s e) : Inv u₀ cs (next s e) := by
  rcases h with ⟨k, h⟩ | h
  · cases e with
    | cpu others => exact starting_cpu h hno others
    | transmit => exact .inl ⟨k, starting_send h he⟩
    | arrive b => exact .inl ⟨k, starting_arrive h b⟩
  · cases e with
    | cpu others => exact .inr (h.cpu others)
    | transmit => exact .inr h.send
    | arrive b => exact .inr (h.arrive b)

theorem starting_first {s : State} (h : s.point = .init 0) : Starting s.uart s.calls 0 s where
  point := h
  le := Nat.zero_le 7
  calls := rfl
  regs := rfl
  old _ := rfl
  cleared h := absurd h (by decide)
  unsent := rfl

theorem run_inv {s₀ s : State} (h₀ : s₀.point = .init 0) (hno : .init ∉ s₀.calls) {C : State → Event → Prop}
    {as : List Event} (hrun : Run system C s₀ as s) : Inv s₀.uart s₀.calls s :=
  Run.invariant (I := Inv s₀.uart s₀.calls) (fun _ _ h he _ => step_inv hno h he)
    (.inl ⟨0, starting_first h₀⟩) hrun

/-- What the driver has written and the chip has still to send; before the FIFOs are cleared that is older. -/
def pending (s : State) : List UInt8 :=
  match s.point with
  | .init _ => []
  | _ => s.uart.transmit

/-- Of the bytes that the calls hand to the driver the line carries the first ones, then come those in the FIFO
    and those not yet written, in this order and each once; before them stands what was left in the chip. -/
structure Carries (u₀ : Uart) (bytes : List UInt8) (s : State) : Prop where
  line : ∃ before ours, s.uart.sent = before ++ ours.map consoleFrame ∧ before.map Frame.byte <+: u₀.traffic ∧
    ours ++ pending s ++ owed s = bytes
  unsent : s.uart.unsent = u₀.unsent

theorem Inv.carries {u₀ : Uart} {cs : List Call} {s : State} (h : Inv u₀ cs s) : Carries u₀ (output cs) s := by
  rcases h with ⟨k, h⟩ | h
  · have hpending : pending s = [] := by simp [pending, h.point]
    have howed : owed s = output cs := by simp [owed, h.point, Point.rest, h.calls]
    have hbefore : s.uart.sent.map Frame.byte <+: u₀.traffic := by
      by_cases hk : k < 6
      · rw [← h.old hk]
        exact List.prefix_append _ _
      · exact (h.cleared (by omega)).2
    exact ⟨⟨s.uart.sent, [], by simp, hbefore, by simp [hpending, howed]⟩, h.unsent⟩
  · have hpending : pending s = s.uart.transmit := by
      unfold pending
      split
      · rename_i hpoint
        exact absurd hpoint (h.point _)
      · rfl
    obtain ⟨before, ours, hline, hbefore, hours⟩ := h.line
    exact ⟨⟨before, ours, hline, hbefore, by rw [hpending, hours]⟩, h.unsent⟩

theorem carried {s₀ s : State} (h₀ : s₀.point = .init 0) (hno : .init ∉ s₀.calls) {C : State → Event → Prop}
    {as : List Event} (hrun : Run system C s₀ as s) : Carries s₀.uart (output s₀.calls) s :=
  (run_inv h₀ hno hrun).carries

/-! ## What uart_get returns -/

/-- The bytes that the line brings. -/
def arrivals (as : List Event) : List UInt8 :=
  as.filterMap fun e => match e with
    | .arrive b => some b
    | _ => none

/-- Once uart_init has returned, what uart_get returns are the bytes that arrived, in order, without those that
    found the FIFO full. -/
structure Receives (s t : State) (as : List Event) : Prop where
  ready : t.point = .recv → t.uart.receive ≠ []
  taken : ∃ taken, taken.Sublist (arrivals as) ∧ t.got ++ t.uart.receive = s.got ++ s.uart.receive ++ taken ∧
    taken.length + t.uart.unread.length = (arrivals as).length + s.uart.unread.length

theorem got_of_cpu {u₀ : Uart} {cs : List Call} {t : State} (h : Running u₀ cs t)
    (hready : t.point = .recv → t.uart.receive ≠ []) (others : UInt8) :
    (cpuStep t others).got ++ (cpuStep t others).uart.receive = t.got ++ t.uart.receive ∧
      (cpuStep t others).uart.unread = t.uart.unread ∧
      ((cpuStep t others).point = .recv → (cpuStep t others).uart.receive ≠ []) := by
  unfold cpuStep
  split
  · rename_i hpoint
    have hup := h.up
    unfold nextCall
    split
    · exact ⟨rfl, rfl, hready⟩
    · simp
    · exact ⟨rfl, rfl, hready⟩
    · simp [hup]
    · simp [hup]
    · simp [hup]
  · rename_i hpoint
    exact absurd hpoint (h.point _)
  · simp
  · split
    · simp
    · simp [h.up]
  · split
    · exact ⟨rfl, rfl, hready⟩
    · simp
  · rename_i value rest hpoint
    simp [h.outb (h.free _ _ hpoint)]
  · split
    · exact ⟨rfl, rfl, hready⟩
    · rename_i hdata
      exact ⟨rfl, rfl, fun _ hempty => hdata ((status_recvReady _ _).mpr hempty)⟩
  · rename_i hpoint
    obtain ⟨b, rest, hrec⟩ := List.exists_cons_of_ne_nil (hready hpoint)
    simp [inb_data h.dlab, hrec]

theorem Running.step {u₀ : Uart} {cs : List Call} {s : State} {e : Event} (h : Running u₀ cs s) :
    Running u₀ cs (next s e) := by
  cases e with
  | cpu others => exact h.cpu others
  | transmit => exact h.send
  | arrive b => exact h.arrive b

theorem receives_arrive {s t : State} {as : List Event} (h : Receives s t as) (b : UInt8) :
    Receives s { t with uart := t.uart.arrive b } (as ++ [.arrive b]) := by
  obtain ⟨taken, hsub, hgot, hcount⟩ := h.taken
  have harrivals : arrivals (as ++ [.arrive b]) = arrivals as ++ [b] := by simp [arrivals]
  unfold Uart.arrive
  split
  · refine ⟨fun hpoint => by simp, taken ++ [b], ?_, ?_, ?_⟩
    · rw [harrivals]
      exact hsub.append (List.Sublist.refl _)
    · simp only [← List.append_assoc, hgot]
    · simp only [harrivals, List.length_append, List.length_singleton]
      omega
  · refine ⟨h.ready, taken, ?_, hgot, ?_⟩
    · rw [harrivals]
      exact hsub.trans (List.sublist_append_left _ _)
    · simp only [harrivals, List.length_append, List.length_singleton]
      omega

theorem received_in_order {u₀ : Uart} {cs : List Call} {s t : State} (h : Running u₀ cs s)
    (hready : s.point = .recv → s.uart.receive ≠ []) {C : State → Event → Prop} {as : List Event}
    (hrun : Run system C s as t) : Running u₀ cs t ∧ Receives s t as := by
  induction hrun with
  | nil => exact ⟨h, hready, [], List.Sublist.refl _, by simp, by simp [arrivals]⟩
  | @snoc as t e hrun _ _ ih =>
    obtain ⟨hrunning, hreceives⟩ := ih
    refine ⟨hrunning.step, ?_⟩
    obtain ⟨taken, hsub, hgot, hcount⟩ := hreceives.taken
    cases e with
    | cpu others =>
      obtain ⟨hsame, hunread, hready'⟩ := got_of_cpu hrunning hreceives.ready others
      have harrivals : arrivals (as ++ [.cpu others]) = arrivals as := by simp [arrivals]
      refine ⟨hready', taken, ?_, ?_, ?_⟩
      · rw [harrivals]
        exact hsub
      · exact hsame.trans hgot
      · rw [harrivals]
        exact hunread ▸ hcount
    | transmit =>
      have harrivals : arrivals (as ++ [.transmit]) = arrivals as := by simp [arrivals]
      have hsend : t.uart.send.receive = t.uart.receive ∧ t.uart.send.unread = t.uart.unread := by
        unfold Uart.send
        split <;> exact ⟨rfl, rfl⟩
      refine ⟨fun hpoint => hsend.1 ▸ hreceives.ready hpoint, taken, ?_, ?_, ?_⟩
      · rw [harrivals]
        exact hsub
      · exact hsend.1 ▸ hgot
      · rw [harrivals]
        exact hsend.2 ▸ hcount
    | arrive b => exact receives_arrive hreceives b

/-! ## Everything gets through -/

/-- All calls have returned. -/
def Finished (s : State) : Prop := s.point = .idle ∧ s.calls = []

/-- Steps that a call takes at most, the sending of its bytes included; a write of uart_init may leave a byte to
    be sent as well. -/
def Call.cost : Call → Nat
  | .init => 16
  | .puts none => 1
  | .puts (some string) => 4 * string.length + 2
  | .putc _ => 5
  | .get => 3

def Point.cost : Point → Nat
  | .idle => 0
  | .init written => 2 * (7 - written) + 1
  | .puts rest => 4 * rest.length + 1
  | .sendReady _ rest => 4 * rest.length + 4
  | .send _ rest => 4 * rest.length + 3
  | .recvReady => 2
  | .recv => 1

def stepsLeft (s : State) : Nat := s.point.cost + (s.calls.map Call.cost).sum + s.uart.transmit.length

/-- A poll fails in this state. -/
def Polling (s : State) : Prop :=
  (∃ value rest, s.point = .sendReady value rest ∧ s.uart.transmit ≠ []) ∨
    (s.point = .recvReady ∧ s.uart.receive = [])

theorem length_outb_le (u : Uart) (port : UInt16) (value : UInt8) :
    (u.outb port value).transmit.length ≤ u.transmit.length + 1 := by
  unfold Uart.outb
  split
  · split <;> simp
  · split
    · split <;> simp
    · simp

theorem call_less {s : State} (hidle : s.point = .idle) (hcalls : s.calls ≠ []) :
    stepsLeft (nextCall s) < stepsLeft s := by
  obtain ⟨c, cs, hc⟩ := List.exists_cons_of_ne_nil hcalls
  unfold nextCall
  rw [hc]
  cases c with
  | init =>
    simp only [stepsLeft, hc, hidle, List.map_cons, List.sum_cons, Call.cost, Point.cost]
    omega
  | puts string =>
    cases string with
    | none =>
      simp only [stepsLeft, hc, hidle, List.map_cons, List.sum_cons, Call.cost, Point.cost]
      omega
    | some string =>
      dsimp only
      split <;> simp only [stepsLeft, hc, hidle, List.map_cons, List.sum_cons, Call.cost, Point.cost] <;> omega
  | putc value =>
    dsimp only
    split <;> simp only [stepsLeft, hc, hidle, List.map_cons, List.sum_cons, Call.cost, Point.cost,
      List.length_nil] <;> omega
  | get =>
    dsimp only
    split <;> simp only [stepsLeft, hc, hidle, List.map_cons, List.sum_cons, Call.cost, Point.cost] <;> omega

theorem cpu_less {s : State} (hpolling : ¬ Polling s) (hfinished : ¬ Finished s) (others : UInt8) :
    stepsLeft (cpuStep s others) < stepsLeft s := by
  unfold cpuStep
  split
  · rename_i hpoint
    exact call_less hpoint fun hcalls => hfinished ⟨hpoint, hcalls⟩
  · rename_i written hpoint
    split
    · rename_i port value hwrite
      have hlt : written < 7 := (List.getElem?_eq_some_iff.mp hwrite).1
      have hle := length_outb_le s.uart port value
      simp only [stepsLeft, hpoint, Point.cost]
      omega
    · simp only [stepsLeft, hpoint, Point.cost]
      omega
  · rename_i hpoint
    simp only [stepsLeft, hpoint, Point.cost]
    omega
  · rename_i c rest hpoint
    split
    · simp only [stepsLeft, hpoint, Point.cost, List.length_cons]
      omega
    · split <;> simp only [stepsLeft, hpoint, Point.cost, List.length_cons] <;> omega
  · rename_i value rest hpoint
    split
    · rename_i hbusy
      exact absurd (.inl ⟨value, rest, hpoint, (status_sendReady _ _).mp hbusy⟩) hpolling
    · simp only [stepsLeft, hpoint, Point.cost]
      omega
  · rename_i value rest hpoint
    have hle := length_outb_le s.uart serialCom1 value
    simp only [stepsLeft, hpoint, Point.cost]
    omega
  · rename_i hpoint
    split
    · rename_i hbusy
      exact absurd (.inr ⟨hpoint, (status_recvReady _ _).mp hbusy⟩) hpolling
    · simp only [stepsLeft, hpoint, Point.cost]
      omega
  · rename_i hpoint
    have hinb : (s.uart.inb serialCom1 others).2.transmit = s.uart.transmit := by
      unfold Uart.inb
      split
      · rfl
      · split
        · split
          · rfl
          · split <;> rfl
        · rfl
    simp only [stepsLeft, hpoint, Point.cost, hinb]
    omega

theorem cpu_polling {s : State} (hpolling : Polling s) (others : UInt8) : cpuStep s others = s := by
  unfold cpuStep
  rcases hpolling with ⟨value, rest, hpoint, hfull⟩ | ⟨hpoint, hempty⟩
  · rw [hpoint]
    exact if_pos ((status_sendReady _ _).mpr hfull)
  · rw [hpoint]
    exact if_pos ((status_recvReady _ _).mpr hempty)

theorem cpu_finished {s : State} (h : Finished s) (others : UInt8) : cpuStep s others = s := by
  unfold cpuStep
  rw [h.1]
  dsimp only
  unfold nextCall
  rw [h.2]

theorem send_less {s : State} (h : s.uart.transmit ≠ []) :
    stepsLeft { s with uart := s.uart.send } < stepsLeft s := by
  obtain ⟨b, rest, hwaiting⟩ := List.exists_cons_of_ne_nil h
  simp [stepsLeft, Uart.send, hwaiting]

theorem next_le {s : State} {e : Event} (he : enabled s e) : stepsLeft (next s e) ≤ stepsLeft s := by
  cases e with
  | cpu others =>
    by_cases hpolling : Polling s
    · exact Nat.le_of_eq (congrArg stepsLeft (cpu_polling hpolling others))
    · by_cases hfinished : Finished s
      · exact Nat.le_of_eq (congrArg stepsLeft (cpu_finished hfinished others))
      · exact Nat.le_of_lt (cpu_less hpolling hfinished others)
  | transmit => exact Nat.le_of_lt (send_less he)
  | arrive b => simp [next, stepsLeft]


end Crows.Kernel.Serial
