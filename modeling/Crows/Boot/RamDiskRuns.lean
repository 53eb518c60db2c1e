/-
  Crows.Boot.RamDiskRuns — the registered ramdisk against an abstract block device.

  A run is any sequence of requests through either protocol, with the callers' own
  stores in between: these may change every byte outside the disk. `St` pairs the
  memory with the log of the writes that went through so far, each with the blocks
  its buffer held then. `Conforms` says what the abstract device allows of one
  request: `device` is the content of each block by the log.

  `run_device`: in every run the disk's bytes are the device's blocks. `conforms`: so
  every request, after every run, conforms.
-/

import Crows.Lib.BlockDevice
import Crows.Boot.RamDisk

namespace Crows.Boot.RamDisk

open Crows.Lib

/-- The protocol a request comes through; an Ex request may carry a token. -/
inductive Iface where
  | blkIo
  | blkIo2 (token : Option EfiBlockIo2Token)
  deriving DecidableEq, Repr

inductive Request where
  | read (iface : Iface) (mediaId : UInt32) (lba bufferSize : UInt64) (buffer : Addr)
  | write (iface : Iface) (mediaId : UInt32) (lba bufferSize : UInt64) (buffer : Addr)
  | flush (iface : Iface)
  deriving DecidableEq, Repr

def Request.iface : Request → Iface
  | .read i _ _ _ _ | .write i _ _ _ _ | .flush i => i

/-- The caller's buffer and the disk share no byte. -/
def Request.BufferOutside (base size : UInt64) : Request → Prop
  | .read _ _ _ n buf | .write _ _ _ n buf => Separate buf n.toNat base size.toNat
  | .flush _ => True

variable (L : EfiLib)

def plain (res : EfiStatus × Mem) : Outcome := ⟨res.1, res.2, none, []⟩

def serve (pd : RamdiskPrivateData) (m : Mem) : Request → Outcome
  | .read .blkIo id lba n buf => plain (ramDiskBlkIoReadBlocks L pd m id lba n buf)
  | .read (.blkIo2 token) id lba n buf => ramDiskBlkIo2ReadBlocksEx L pd m id lba token n buf
  | .write .blkIo id lba n buf => plain (ramDiskBlkIoWriteBlocks L pd m id lba n buf)
  | .write (.blkIo2 token) id lba n buf => ramDiskBlkIo2WriteBlocksEx L pd m id lba token n buf
  | .flush .blkIo => plain (ramDiskBlkIoFlushBlocks m)
  | .flush (.blkIo2 token) => ramDiskBlkIo2FlushBlocksEx pd m token

inductive Event where
  | request (r : Request)
  /-- The callers' own stores: `f` is what they leave outside the disk. -/
  | caller (f : Mem)

def Event.BufferOutside (base size : UInt64) : Event → Prop
  | .request r => r.BufferOutside base size
  | .caller _ => True

/-- The blocks of a buffer of `n` bytes. -/
def bufferBlocks (m : Mem) (buf : Addr) (n : Nat) : List (List UInt8) :=
  (List.range (n / 512)).map fun k => m.read (buf + UInt64.ofNat (k * 512)) 512

/-- Block `b` of a disk at `base`. -/
def diskBlock (base : UInt64) (m : Mem) (b : Nat) : List UInt8 := m.read (base + UInt64.ofNat (b * 512)) 512

structure St where
  mem : Mem
  log : List (BlockWrite (List UInt8))

/-- The write a request adds to the log: none unless it is a write that succeeds. -/
def written (pd : RamdiskPrivateData) (m : Mem) : Event → List (BlockWrite (List UInt8))
  | .request (.write i id lba n buf) =>
    if (serve L pd m (.write i id lba n buf)).status = .success then [⟨lba.toNat, bufferBlocks m buf n.toNat⟩] else []
  | _ => []

def memAfter (pd : RamdiskPrivateData) (m : Mem) : Event → Mem
  | .request r => (serve L pd m r).mem
  | .caller f => fun a => if InRegion pd.startingAddr pd.size.toNat a then m a else f a

def step (pd : RamdiskPrivateData) (s : St) (e : Event) : St :=
  ⟨memAfter L pd s.mem e, s.log ++ written L pd s.mem e⟩

def run (pd : RamdiskPrivateData) (m0 : Mem) (evs : List Event) : St := evs.foldl (step L pd) ⟨m0, []⟩

/-- The abstract device after a run: each block as the latest write left it. -/
def device (base : UInt64) (m0 : Mem) (log : List (BlockWrite (List UInt8))) : Nat → List UInt8 :=
  latest (diskBlock base m0) log

/-- What the abstract device of `size` bytes at `base`, with contents `dev`, allows of a
    request made on memory `m`. -/
structure Conforms (base size : UInt64) (mediaId : UInt32) (dev : Nat → List UInt8) (m : Mem) (r : Request)
    (out : Outcome) : Prop where
  /-- A non-empty transfer with a buffer and the current media id goes through just when
      it is whole blocks inside the disk. -/
  decision : ∀ i id lba n buf, r = .read i id lba n buf ∨ r = .write i id lba n buf → n ≠ 0 → buf ≠ 0 →
    id = mediaId →
    (out.status = .success ↔ n.toNat % 512 = 0 ∧ lba.toNat * 512 + n.toNat ≤ size.toNat)
  /-- Neither the last block number nor the address of the first block wraps. -/
  noWrap : ∀ i id lba n buf, r = .read i id lba n buf ∨ r = .write i id lba n buf → n ≠ 0 → out.status = .success →
    (lba + n / 512 - 1).toNat = lba.toNat + n.toNat / 512 - 1 ∧
      (base + lba * 512).toNat = base.toNat + lba.toNat * 512
  /-- A read that succeeds delivers the device's blocks. -/
  readData : ∀ i id lba n buf, r = .read i id lba n buf → out.status = .success →
    ∀ k < n.toNat / 512, out.mem.read (buf + UInt64.ofNat (k * 512)) 512 = dev (lba.toNat + k)
  /-- A read changes nothing outside its buffer. -/
  readFrame : ∀ i id lba n buf, r = .read i id lba n buf → ∀ a, ¬ InRegion buf n.toNat a → out.mem a = m a
  /-- A write that succeeds changes the bytes of its blocks, which lie in the disk, and
      no other byte of memory. -/
  writeEffect : ∀ i id lba n buf, r = .write i id lba n buf → out.status = .success → n ≠ 0 →
    base.toNat + lba.toNat * 512 + n.toNat ≤ base.toNat + size.toNat ∧
    ∀ a : Addr, out.mem a =
      if base.toNat + lba.toNat * 512 ≤ a.toNat ∧ a.toNat < base.toNat + lba.toNat * 512 + n.toNat
      then m (buf + UInt64.ofNat (a.toNat - (base.toNat + lba.toNat * 512))) else m a
  /-- An empty write, or a flush, changes no memory. -/
  idle : (∀ i id lba n buf, r = .write i id lba n buf → n = 0) → (∀ i id lba n buf, r ≠ .read i id lba n buf) →
    out.mem = m
  /-- A request that fails changes no memory and leaves its token as it was. -/
  failFrame : out.status ≠ .success →
    out.mem = m ∧ ∀ token, r.iface = .blkIo2 token → out.token = token
  /-- A token's event is signalled once on success and never on failure. -/
  signals : ∀ t, r.iface = .blkIo2 (some t) → t.event ≠ 0 →
    out.signalled = if out.status = .success then [t.event] else []
  /-- Without a token, or without an event in it, nothing is signalled. -/
  quiet : (∀ t, r.iface = .blkIo2 (some t) → t.event = 0) → out.signalled = []

/-! ## One request -/

/-- A block request either succeeds, or reports an error and leaves memory alone. -/
def Settled (m : Mem) (res : EfiStatus × Mem) : Prop :=
  res.1 = .success ∨ (res.1.isError = true ∧ res.2 = m)

/-- What is behind a request, whichever protocol it comes through. -/
def core (pd : RamdiskPrivateData) (m : Mem) : Request → EfiStatus × Mem
  | .read _ id lba n buf => ramDiskBlkIoReadBlocks L pd m id lba n buf
  | .write _ id lba n buf => ramDiskBlkIoWriteBlocks L pd m id lba n buf
  | .flush _ => (.success, m)

/-- The outcome of `core` as the request's protocol reports it. -/
def report (res : EfiStatus × Mem) : Iface → Outcome
  | .blkIo => plain res
  | .blkIo2 token => complete res token

variable {L}

theorem serve_eq {pd : RamdiskPrivateData} (hro : pd.media.readOnly = false) (m : Mem) (r : Request) :
    serve L pd m r = report (core L pd m r) r.iface := by
  rcases r with ⟨i, id, lba, n, buf⟩ | ⟨i, id, lba, n, buf⟩ | ⟨i⟩
  · cases i <;> rfl
  · cases i <;> rfl
  · cases i with
    | blkIo => rfl
    | blkIo2 token => simp [serve, ramDiskBlkIo2FlushBlocksEx, hro, report, core, Request.iface]

theorem transfer_settled (pd : RamdiskPrivateData) (m : Mem) (lba n : UInt64) (buf : Addr) (copy : Addr → Mem) :
    Settled m (transfer L pd m lba n buf copy) := by
  unfold Settled transfer
  by_cases hb : buf = 0
  · exact Or.inr (by simp [hb, EfiStatus.isError])
  by_cases hn : n = 0
  · exact Or.inl (by simp [hb, hn])
  by_cases h1 : n % pd.media.blockSize.toUInt64 = 0
  · by_cases h2 : pd.media.lastBlock < lba
    · exact Or.inr (by simp [hb, hn, h1, h2, EfiStatus.isError])
    · by_cases h3 : pd.media.lastBlock < lba + n / pd.media.blockSize.toUInt64 - 1
      · exact Or.inr (by simp [hb, hn, h1, h2, h3, EfiStatus.isError])
      · exact Or.inl (by simp [hb, hn, h1, h2, h3])
  · exact Or.inr (by simp [hb, hn, h1, EfiStatus.isError])

theorem core_settled (pd : RamdiskPrivateData) (m : Mem) (r : Request) : Settled m (core L pd m r) := by
  rcases r with ⟨i, id, lba, n, buf⟩ | ⟨i, id, lba, n, buf⟩ | ⟨i⟩
  · simp only [core, ramDiskBlkIoReadBlocks]
    split
    · exact Or.inr ⟨rfl, rfl⟩
    · exact transfer_settled pd m lba n buf _
  · simp only [core, ramDiskBlkIoWriteBlocks]
    split
    · exact Or.inr ⟨rfl, rfl⟩
    · split
      · exact Or.inr ⟨rfl, rfl⟩
      · exact transfer_settled pd m lba n buf _
  · exact Or.inl rfl

theorem isError_ne_success {st : EfiStatus} (h : st.isError = true) : st ≠ .success := by
  intro e
  subst e
  cases h

@[simp] theorem complete_mem (res : EfiStatus × Mem) (token : Option EfiBlockIo2Token) :
    (complete res token).mem = res.2 := by
  unfold complete
  split
  · rfl
  · cases token with
    | none => rfl
    | some t => simp only; split <;> rfl

theorem report_mem (res : EfiStatus × Mem) (i : Iface) : (report res i).mem = res.2 := by
  cases i with
  | blkIo => rfl
  | blkIo2 token => exact complete_mem res token

theorem report_status {m : Mem} {res : EfiStatus × Mem} (h : Settled m res) (i : Iface) :
    (report res i).status = res.1 := by
  cases i with
  | blkIo => rfl
  | blkIo2 token =>
    rcases h with h | ⟨h, -⟩
    · simp only [report, complete, h, EfiStatus.isError, Bool.false_eq_true, if_false]
      cases token with
      | none => rfl
      | some t => simp only; split <;> rfl
    · simp only [report, complete, h, if_true]

theorem report_signals {m : Mem} {res : EfiStatus × Mem} (h : Settled m res) {t : EfiBlockIo2Token} (ht : t.event ≠ 0) :
    (report res (.blkIo2 (some t))).signalled =
      if (report res (.blkIo2 (some t))).status = .success then [t.event] else [] := by
  rw [report_status h]
  rcases h with h | ⟨h, -⟩
  · simp [report, complete, h, EfiStatus.isError, ht]
  · simp [report, complete, h, isError_ne_success h]

theorem report_quiet (res : EfiStatus × Mem) {i : Iface} (h : ∀ t, i = .blkIo2 (some t) → t.event = 0) :
    (report res i).signalled = [] := by
  cases i with
  | blkIo => rfl
  | blkIo2 token =>
    cases token with
    | none => simp only [report, complete]; split <;> rfl
    | some t => simp only [report, complete, h t rfl, if_true]; split <;> rfl

theorem report_token_of_error {res : EfiStatus × Mem} (h : res.1.isError = true) (token : Option EfiBlockIo2Token) :
    (report res (.blkIo2 token)).token = token := by
  simp [report, complete, h]

/-! ## The effect of a transfer that succeeds -/

section Effect
variable {base size : UInt64} {typ : EfiGuid}

/-- A transfer that succeeds is empty, or inside the disk and copies. -/
theorem transfer_success (hL : L.Documented) (ha : Accepted base size) {m : Mem} {lba n : UInt64} {buf : Addr}
    {copy : Addr → Mem} (h : (transfer L (ramDiskPrivateData L base size typ) m lba n buf copy).1 = .success) :
    (n = 0 ∧ (transfer L (ramDiskPrivateData L base size typ) m lba n buf copy).2 = m) ∨
      (n ≠ 0 ∧ Inside size lba n ∧
        (transfer L (ramDiskPrivateData L base size typ) m lba n buf copy).2 = copy (base + lba * 512)) := by
  by_cases hn : n = 0
  · exact Or.inl ⟨hn, (transfer_trivial _ m copy (Or.inr hn)).1⟩
  right
  have hbuf : buf ≠ 0 := by
    intro e
    simp [transfer, e] at h
  by_cases hin : Inside size lba n
  · exact ⟨hn, hin, by rw [transfer_inside hL ha typ m copy hbuf hn hin]⟩
  · obtain ⟨st, herr, heq⟩ := transfer_refused hL ha typ m copy hbuf hn hin
    rw [heq] at h
    exact absurd h (isError_ne_success herr)

/-- The blocks of a request inside the disk are bytes of the disk. -/
theorem inside_region (ha : Accepted base size) {lba n : UInt64} (hin : Inside size lba n) (hn : n ≠ 0) {a : Addr}
    (h : InRegion (base + lba * 512) n.toNat a) : InRegion base size.toNat a := by
  obtain ⟨-, hend⟩ := hin
  have hf := ha.fits
  have hpos : n.toNat ≠ 0 := fun e => hn (UInt64.toNat_inj.mp e)
  have haddr : (base + lba * 512).toNat = base.toNat + lba.toNat * 512 := blockAddr_toNat ha (by omega)
  have h' := (inRegion_iff (by omega) a).mp h
  exact (inRegion_iff hf a).mpr (by omega)

theorem read_effect (hL : L.Documented) (ha : Accepted base size) {m : Mem} {id : UInt32} {lba n : UInt64} {buf : Addr}
    (hsep : Separate buf n.toNat base size.toNat)
    (h : (ramDiskBlkIoReadBlocks L (ramDiskPrivateData L base size typ) m id lba n buf).1 = .success) :
    (n = 0 ∧ (ramDiskBlkIoReadBlocks L (ramDiskPrivateData L base size typ) m id lba n buf).2 = m) ∨
      (n ≠ 0 ∧ Inside size lba n ∧
        (ramDiskBlkIoReadBlocks L (ramDiskPrivateData L base size typ) m id lba n buf).2 =
          m.write buf (m.read (base + lba * 512) n.toNat)) := by
  unfold ramDiskBlkIoReadBlocks at h ⊢
  split at h
  · cases h
  rename_i hid
  rw [if_neg hid]
  rcases transfer_success hL ha h with h0 | ⟨hn, hin, heq⟩
  · exact Or.inl h0
  · refine Or.inr ⟨hn, hin, heq.trans (hL.copyMem _ _ _ _ ?_)⟩
    exact fun a hbuf hdisk => hsep a hbuf (inside_region ha hin hn hdisk)

theorem write_effect (hL : L.Documented) (ha : Accepted base size) {m : Mem} {id : UInt32} {lba n : UInt64}
    {buf : Addr} (hsep : Separate buf n.toNat base size.toNat)
    (h : (ramDiskBlkIoWriteBlocks L (ramDiskPrivateData L base size typ) m id lba n buf).1 = .success) :
    (n = 0 ∧ (ramDiskBlkIoWriteBlocks L (ramDiskPrivateData L base size typ) m id lba n buf).2 = m) ∨
      (n ≠ 0 ∧ Inside size lba n ∧
        (ramDiskBlkIoWriteBlocks L (ramDiskPrivateData L base size typ) m id lba n buf).2 =
          m.write (base + lba * 512) (m.read buf n.toNat)) := by
  unfold ramDiskBlkIoWriteBlocks at h ⊢
  split at h
  · cases h
  rename_i hid
  rw [if_neg hid, if_neg (by simp)] at *
  rcases transfer_success hL ha h with h0 | ⟨hn, hin, heq⟩
  · exact Or.inl h0
  · refine Or.inr ⟨hn, hin, heq.trans (hL.copyMem _ _ _ _ ?_)⟩
    exact fun a hdisk hbuf => hsep a hbuf (inside_region ha hin hn hdisk)

/-- A non-empty transfer with a buffer and the current media id goes through just when
    it is inside the disk. -/
theorem core_decision (hL : L.Documented) (ha : Accepted base size) {m : Mem} {r : Request} {i : Iface} {lba n : UInt64}
    {buf : Addr} (hr : r = .read i 0 lba n buf ∨ r = .write i 0 lba n buf) (hn : n ≠ 0) (hbuf : buf ≠ 0) :
    (core L (ramDiskPrivateData L base size typ) m r).1 = .success ↔ Inside size lba n := by
  have key : ∀ copy, (transfer L (ramDiskPrivateData L base size typ) m lba n buf copy).1 = .success ↔
      Inside size lba n := by
    intro copy
    constructor
    · intro h
      rcases transfer_success hL ha h with ⟨h0, -⟩ | ⟨-, hin, -⟩
      · exact absurd h0 hn
      · exact hin
    · intro hin
      rw [transfer_inside hL ha typ m copy hbuf hn hin]
  rcases hr with rfl | rfl
  · simpa [core, ramDiskBlkIoReadBlocks] using key _
  · simpa [core, ramDiskBlkIoWriteBlocks] using key _

end Effect

/-! ## The disk is the device -/

section Run
variable {base size : UInt64} {typ : EfiGuid}

/-- Block `b` of a disk of `size` bytes. -/
def OnDisk (size : UInt64) (b : Nat) : Prop := b < size.toNat / 512

theorem OnDisk.end_le {b : Nat} (h : OnDisk size b) : b * 512 + 512 ≤ size.toNat := by
  unfold OnDisk at h
  omega

theorem diskBlock_region (ha : Accepted base size) {b : Nat} (hb : OnDisk size b) {a : Addr}
    (h : InRegion (base + UInt64.ofNat (b * 512)) 512 a) : InRegion base size.toNat a := by
  have hf := ha.fits
  have hlt : b * 512 + 512 ≤ size.toNat := hb.end_le
  have haddr : (base + UInt64.ofNat (b * 512)).toNat = base.toNat + b * 512 := by
    simp only [UInt64.toNat_add, UInt64.toNat_ofNat']
    omega
  have h' := (inRegion_iff (by omega) a).mp h
  exact (inRegion_iff hf a).mpr (by omega)

/-- Bytes changed outside the disk leave its blocks alone. -/
theorem diskBlock_frame (ha : Accepted base size) {m m' : Mem} (h : ∀ a, InRegion base size.toNat a → m' a = m a)
    {b : Nat} (hb : OnDisk size b) : diskBlock base m' b = diskBlock base m b :=
  Mem.read_congr (by decide) fun a hin => h a (diskBlock_region ha hb hin)

/-- The blocks a write puts on the disk are its buffer's; every other block stays. -/
theorem diskBlock_write (ha : Accepted base size) {m : Mem} {lba n : UInt64} {buf : Addr} (hin : Inside size lba n)
    {b : Nat} (hb : OnDisk size b) :
    diskBlock base (m.write (base + lba * 512) (m.read buf n.toNat)) b =
      store (diskBlock base m) ⟨lba.toNat, bufferBlocks m buf n.toNat⟩ b := by
  obtain ⟨hmod, hend⟩ := hin
  have hs := size.toNat_lt
  have hf := ha.fits
  have hlen : (bufferBlocks m buf n.toNat).length = n.toNat / 512 := by simp [bufferBlocks]
  have hlba : lba * 512 = UInt64.ofNat (lba.toNat * 512) := by
    rw [← UInt64.toNat_inj, UInt64.toNat_mul, UInt64.toNat_ofNat']
    rfl
  by_cases hcov : lba.toNat ≤ b ∧ b < lba.toNat + n.toNat / 512
  · obtain ⟨k, rfl⟩ := Nat.exists_eq_add_of_le hcov.1
    have hk : k < n.toNat / 512 := by omega
    have haddr : base + UInt64.ofNat ((lba.toNat + k) * 512) = base + lba * 512 + UInt64.ofNat (k * 512) := by
      rw [hlba, UInt64.add_assoc, ← UInt64.ofNat_add, Nat.add_mul]
    have hsub : k * 512 + 512 ≤ n.toNat := by clear hend; omega
    have hpart : k * 512 + 512 ≤ (m.read buf n.toNat).length := by rw [Mem.length_read]; exact hsub
    have hcap : (m.read buf n.toNat).length ≤ 2 ^ 64 := by rw [Mem.length_read]; omega
    have hk' : k < (bufferBlocks m buf n.toNat).length := by rw [hlen]; exact hk
    unfold diskBlock
    rw [haddr, Mem.read_write_part hpart hcap, Mem.read_part hsub, store, BlockWrite.at?_of_covers rfl hk']
    simp [bufferBlocks]
  · have hnot : b < lba.toNat ∨ lba.toNat + (bufferBlocks m buf n.toNat).length ≤ b := by rw [hlen]; omega
    rw [store, BlockWrite.at?_outside hnot, Option.getD_none]
    apply Mem.read_congr (by decide)
    intro a hina
    have hb' : b * 512 + 512 ≤ size.toNat := hb.end_le
    have haddr : (base + UInt64.ofNat (b * 512)).toNat = base.toNat + b * 512 := by
      simp only [UInt64.toNat_add, UInt64.toNat_ofNat']
      omega
    have hdst : n.toNat ≠ 0 → (base + lba * 512).toNat = base.toNat + lba.toNat * 512 :=
      fun hn => blockAddr_toNat ha (by omega)
    have hina' := (inRegion_iff (by omega) a).mp hina
    apply Mem.write_frame
    rw [Mem.length_read]
    intro hw
    have hn : n.toNat ≠ 0 := fun h0 => by simp [InRegion, h0] at hw
    have hw' := (inRegion_iff (by rw [hdst hn]; omega) a).mp hw
    rw [hdst hn] at hw'
    omega

/-- A read changes nothing outside its buffer. -/
theorem core_readFrame (hL : L.Documented) (ha : Accepted base size) {m : Mem} {i : Iface} {id : UInt32}
    {lba n : UInt64} {buf : Addr} (hr : (Request.read i id lba n buf).BufferOutside base size) {a : Addr}
    (hna : ¬ InRegion buf n.toNat a) :
    (core L (ramDiskPrivateData L base size typ) m (.read i id lba n buf)).2 a = m a := by
  rcases core_settled (ramDiskPrivateData L base size typ) m (.read i id lba n buf) with h | ⟨-, h⟩
  · rcases read_effect hL ha hr h with ⟨-, h0⟩ | ⟨-, -, heq⟩
    · exact congrFun h0 a
    · rw [show core L _ m (.read i id lba n buf) = ramDiskBlkIoReadBlocks L _ m id lba n buf from rfl, heq]
      exact Mem.write_frame (by rw [Mem.length_read]; exact hna)
  · exact congrFun h a

/-- One event keeps the disk equal to the device its log describes. -/
theorem step_device (hL : L.Documented) (ha : Accepted base size) {m0 : Mem} {s : St} {e : Event}
    (hout : e.BufferOutside base size) (hs : ∀ b, OnDisk size b → diskBlock base s.mem b = device base m0 s.log b) :
    ∀ b, OnDisk size b → diskBlock base (step L (ramDiskPrivateData L base size typ) s e).mem b =
      device base m0 (step L (ramDiskPrivateData L base size typ) s e).log b := by
  intro b hb
  have same : ∀ m' : Mem, (∀ a, InRegion base size.toNat a → m' a = s.mem a) →
      diskBlock base m' b = device base m0 (s.log ++ []) b := by
    intro m' h
    rw [diskBlock_frame ha h hb, hs b hb, List.append_nil]
  rcases e with ⟨⟨i, id, lba, n, buf⟩ | ⟨i, id, lba, n, buf⟩ | ⟨i⟩⟩ | ⟨f⟩
  · -- a read changes its buffer only, which is not on the disk
    apply same
    intro a hdisk
    simp only [step, memAfter, serve_eq (privateData_readOnly base size typ), report_mem]
    exact core_readFrame hL ha hout fun hin => hout a hin hdisk
  · simp only [step, memAfter, written, serve_eq (privateData_readOnly base size typ), report_mem,
      report_status (core_settled _ s.mem _)]
    rcases core_settled (ramDiskPrivateData L base size typ) s.mem (.write i id lba n buf) with h | ⟨herr, h⟩
    · rw [if_pos h]
      rcases write_effect hL ha hout h with ⟨h0, hm⟩ | ⟨hne, hin, heq⟩
      · -- an empty write has no blocks
        rw [show core L _ s.mem (.write i id lba n buf) = ramDiskBlkIoWriteBlocks L _ s.mem id lba n buf from rfl, hm,
          device, latest_snoc, store, BlockWrite.at?_outside (by subst h0; simp [bufferBlocks]; omega)]
        exact hs b hb
      · rw [show core L _ s.mem (.write i id lba n buf) = ramDiskBlkIoWriteBlocks L _ s.mem id lba n buf from rfl, heq,
          diskBlock_write ha hin hb, device, latest_snoc]
        unfold store
        rw [hs b hb]
        rfl
    · rw [if_neg (isError_ne_success herr), h, List.append_nil]
      exact hs b hb
  · apply same
    intro a _
    simp only [step, memAfter, serve_eq (privateData_readOnly base size typ), report_mem]
    rfl
  · apply same
    intro a hdisk
    exact if_pos hdisk

/-- In every run the disk's blocks are the device's. -/
theorem run_device (hL : L.Documented) (ha : Accepted base size) (m0 : Mem) (evs : List Event)
    (hout : ∀ e ∈ evs, e.BufferOutside base size) :
    ∀ b, OnDisk size b → diskBlock base (run L (ramDiskPrivateData L base size typ) m0 evs).mem b =
      device base m0 (run L (ramDiskPrivateData L base size typ) m0 evs).log b := by
  induction evs using List.reverseRecOn with
  | nil =>
    intro b _
    simp [run, device]
  | append_singleton evs e ih =>
    have hrun : run L (ramDiskPrivateData L base size typ) m0 (evs ++ [e]) =
        step L (ramDiskPrivateData L base size typ) (run L (ramDiskPrivateData L base size typ) m0 evs) e := by
      simp [run]
    rw [hrun]
    exact step_device hL ha (hout e (by simp)) (ih fun x hx => hout x (List.mem_append_left _ hx))

/-! ## Every request conforms -/

theorem noWrap_of_inside (ha : Accepted base size) {lba n : UInt64} (hin : Inside size lba n) (hn : n ≠ 0) :
    (lba + n / 512 - 1).toNat = lba.toNat + n.toNat / 512 - 1 ∧
      (base + lba * 512).toNat = base.toNat + lba.toNat * 512 := by
  obtain ⟨hmod, hend⟩ := hin
  have hs := size.toNat_lt
  have hpos : n.toNat ≠ 0 := fun e => hn (UInt64.toNat_inj.mp e)
  refine ⟨?_, blockAddr_toNat ha (by omega)⟩
  simp only [UInt64.toNat_sub, UInt64.toNat_add, UInt64.toNat_div, UInt64.reduceToNat]
  omega

/-- A transfer that succeeds on a non-empty buffer is inside the disk. -/
theorem core_inside (hL : L.Documented) (ha : Accepted base size) {m : Mem} {r : Request} {i : Iface} {id : UInt32}
    {lba n : UInt64} {buf : Addr} (hr : r = .read i id lba n buf ∨ r = .write i id lba n buf) (hn : n ≠ 0)
    (h : (core L (ramDiskPrivateData L base size typ) m r).1 = .success) : Inside size lba n := by
  rcases hr with rfl | rfl
  · simp only [core, ramDiskBlkIoReadBlocks] at h
    split at h
    · cases h
    · rcases transfer_success hL ha h with ⟨h0, -⟩ | ⟨-, hin, -⟩
      · exact absurd h0 hn
      · exact hin
  · simp only [core, ramDiskBlkIoWriteBlocks, privateData_readOnly, Bool.false_eq_true, if_false] at h
    split at h
    · cases h
    · rcases transfer_success hL ha h with ⟨h0, -⟩ | ⟨-, hin, -⟩
      · exact absurd h0 hn
      · exact hin

/-- A read that succeeds delivers the device's blocks. -/
theorem core_readData (hL : L.Documented) (ha : Accepted base size) {dev : Nat → List UInt8} {m : Mem} {i : Iface}
    {id : UInt32} {lba n : UInt64} {buf : Addr} (hr : (Request.read i id lba n buf).BufferOutside base size)
    (hdev : ∀ b, OnDisk size b → diskBlock base m b = dev b)
    (h : (core L (ramDiskPrivateData L base size typ) m (.read i id lba n buf)).1 = .success) {k : Nat}
    (hk : k < n.toNat / 512) :
    (core L (ramDiskPrivateData L base size typ) m (.read i id lba n buf)).2.read (buf + UInt64.ofNat (k * 512)) 512 =
      dev (lba.toNat + k) := by
  have hn : n ≠ 0 := by
    intro e
    exact absurd hk (by simp [e])
  have hin := core_inside hL ha (Or.inl rfl) hn h
  rcases read_effect hL ha hr h with ⟨h0, -⟩ | ⟨-, -, heq⟩
  · exact absurd h0 hn
  rw [show core L _ m (.read i id lba n buf) = ramDiskBlkIoReadBlocks L _ m id lba n buf from rfl, heq]
  obtain ⟨hmod, hend⟩ := hin
  have hnlt := n.toNat_lt
  have hsub : k * 512 + 512 ≤ n.toNat := by clear hend; omega
  have hon : OnDisk size (lba.toNat + k) := by
    have hblock : lba.toNat * 512 + (k * 512 + 512) ≤ size.toNat := Nat.le_trans (Nat.add_le_add_left hsub _) hend
    clear hend hmod hk hsub
    unfold OnDisk
    omega
  have hlba : lba * 512 = UInt64.ofNat (lba.toNat * 512) := by
    rw [← UInt64.toNat_inj, UInt64.toNat_mul, UInt64.toNat_ofNat']
    rfl
  rw [Mem.read_write_part (by rw [Mem.length_read]; exact hsub) (by rw [Mem.length_read]; omega),
    Mem.read_part hsub, ← hdev _ hon, diskBlock, hlba, UInt64.add_assoc, ← UInt64.ofNat_add, Nat.add_mul]

/-- A write that succeeds changes the bytes of its blocks only, which lie in the disk. -/
theorem core_writeEffect (hL : L.Documented) (ha : Accepted base size) {m : Mem} {i : Iface} {id : UInt32}
    {lba n : UInt64} {buf : Addr} (hr : (Request.write i id lba n buf).BufferOutside base size)
    (h : (core L (ramDiskPrivateData L base size typ) m (.write i id lba n buf)).1 = .success) (hn : n ≠ 0) :
    base.toNat + lba.toNat * 512 + n.toNat ≤ base.toNat + size.toNat ∧
      ∀ a : Addr, (core L (ramDiskPrivateData L base size typ) m (.write i id lba n buf)).2 a =
        if base.toNat + lba.toNat * 512 ≤ a.toNat ∧ a.toNat < base.toNat + lba.toNat * 512 + n.toNat
        then m (buf + UInt64.ofNat (a.toNat - (base.toNat + lba.toNat * 512))) else m a := by
  have hin := core_inside hL ha (Or.inr rfl) hn h
  have haddr := (noWrap_of_inside ha hin hn).2
  have hfits := ha.fits
  rcases write_effect hL ha hr h with ⟨h0, -⟩ | ⟨-, -, heq⟩
  · exact absurd h0 hn
  have hend := hin.2
  refine ⟨by omega, fun a => ?_⟩
  rw [show core L _ m (.write i id lba n buf) = ramDiskBlkIoWriteBlocks L _ m id lba n buf from rfl, heq]
  have hreg : InRegion (base + lba * 512) n.toNat a ↔ (base + lba * 512).toNat ≤ a.toNat ∧
      a.toNat < (base + lba * 512).toNat + n.toNat := inRegion_iff (by omega) a
  rw [haddr] at hreg
  by_cases hina : InRegion (base + lba * 512) n.toNat a
  · rw [Mem.write_read hina, if_pos (hreg.mp hina)]
    congr 2
    rw [← haddr, ← UInt64.toNat_inj, UInt64.toNat_ofNat',
      UInt64.toNat_sub_of_le _ _ (UInt64.le_iff_toNat_le.mpr (by have := hreg.mp hina; omega))]
    have := a.toNat_lt
    omega
  · rw [if_neg (fun hi => hina (hreg.mpr hi))]
    exact Mem.write_frame (by rw [Mem.length_read]; exact hina)

/-- What is neither a read nor a write of something changes no memory. -/
theorem core_idle (hL : L.Documented) (ha : Accepted base size) {m : Mem} {r : Request}
    (hr : r.BufferOutside base size) (hw : ∀ i id lba n buf, r = .write i id lba n buf → n = 0)
    (hnr : ∀ i id lba n buf, r ≠ .read i id lba n buf) :
    (core L (ramDiskPrivateData L base size typ) m r).2 = m := by
  rcases core_settled (ramDiskPrivateData L base size typ) m r with h | ⟨-, h⟩
  · rcases r with ⟨i, id, lba, n, buf⟩ | ⟨i, id, lba, n, buf⟩ | ⟨i⟩
    · exact absurd rfl (hnr i id lba n buf)
    · rcases write_effect hL ha hr h with ⟨-, h0⟩ | ⟨hn, -, -⟩
      · exact h0
      · exact absurd (hw i id lba n buf rfl) hn
    · rfl
  · exact h

theorem conforms (hL : L.Documented) (ha : Accepted base size) {dev : Nat → List UInt8} {m : Mem} {r : Request}
    (hr : r.BufferOutside base size) (hdev : ∀ b, OnDisk size b → diskBlock base m b = dev b) :
    Conforms base size 0 dev m r (serve L (ramDiskPrivateData L base size typ) m r) := by
  rw [serve_eq (privateData_readOnly base size typ)]
  have hset := core_settled (L := L) (ramDiskPrivateData L base size typ) m r
  have hstatus : ∀ i, (report (core L (ramDiskPrivateData L base size typ) m r) i).status =
      (core L (ramDiskPrivateData L base size typ) m r).1 := report_status hset
  refine ⟨?_, ?_, ?_, ?_, ?_, ?_, ?_, ?_, ?_⟩
  · -- decision
    intro i id lba n buf hreq hn hbuf hid
    subst hid
    rw [hstatus]
    exact core_decision hL ha hreq hn hbuf
  · -- noWrap
    intro i id lba n buf hreq hn h
    rw [hstatus] at h
    exact noWrap_of_inside ha (core_inside hL ha hreq hn h) hn
  · -- readData
    intro i id lba n buf hreq h k hk
    subst hreq
    rw [hstatus] at h
    rw [report_mem]
    exact core_readData hL ha hr hdev h hk
  · -- readFrame
    intro i id lba n buf hreq a hna
    subst hreq
    rw [report_mem]
    exact core_readFrame hL ha hr hna
  · -- writeEffect
    intro i id lba n buf hreq h hn
    subst hreq
    rw [hstatus] at h
    rw [report_mem]
    exact core_writeEffect hL ha hr h hn
  · -- idle
    intro hw hnr
    rw [report_mem]
    exact core_idle hL ha hr hw hnr
  · -- failFrame
    intro h
    rw [hstatus] at h
    rcases hset with h' | ⟨herr, hm⟩
    · exact absurd h' h
    · refine ⟨by rw [report_mem, hm], fun token htok => ?_⟩
      rw [htok]
      exact report_token_of_error herr token
  · -- signals
    intro t hi ht
    rw [hi]
    exact report_signals hset ht
  · -- quiet
    exact fun h => report_quiet _ h

end Run

end Crows.Boot.RamDisk
