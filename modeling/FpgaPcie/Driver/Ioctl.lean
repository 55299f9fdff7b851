import FpgaPcie.Driver.ProbeBalance
import FpgaPcie.Driver.SgFailure

/-!
# `fpga_ioctl`

The handler takes the ID of the device, the BAR and the register from user space and uses them unchecked: an index
into the table of devices, an index into the array of BARs, and a word offset that it shifts as an `int`. The
commands that transfer data access the registers of their channel in BAR 0.
-/

namespace FpgaPcie

/-- What the handler uses of `struct fpga_pdev`. -/
structure FpgaPdev where
  /-- `bar[i]` is not NULL -/
  bar : Fin 6 → Bool
  barLen : Fin 6 → BitVec 64
  dmaAddr : Chan → BitVec 64
  sgBuf : Chan → Option CoherentBuffer

/-- `struct fpga_iodev`; `timeout` is the time of the wait. -/
structure FpgaIodev where
  id : BitVec 32
  barId : BitVec 32
  regaddr : BitVec 32
  regdata : BitVec 32
  c2hByteBuf : BitVec 64
  c2hByteBufsize : BitVec 32
  c2hSdramAddr : BitVec 64
  h2cByteBuf : BitVec 64
  h2cByteBufsize : BitVec 32
  h2cSdramAddr : BitVec 64

inductive MmioOp
  | iowrite32 (wdata : BitVec 32)
  | ioread32

/-- What the handler accesses. -/
inductive IoctlAccess
  /-- `fpga_devices[id]` -/
  | slot (id : ℤ)
  /-- what the slot holds is dereferenced -/
  | device (fpdev : Option FpgaPdev)
  /-- a register of `fpdev->bar[barId]`, with the word offset and the byte offset -/
  | mmio (fpdev : FpgaPdev) (barId offset byte : ℤ) (op : MmioOp)

namespace FpgaPdev

variable (d : FpgaPdev)

/-- `fpdev->bar[bar_id] + (offset << 2)`; the offset is an `int`. -/
def access (op : MmioOp) (offset barId : BitVec 32) : IoctlAccess :=
  .mmio d barId.toInt offset.toInt (offset <<< 2).toInt op

/-- `write_reg`. -/
def writeReg (offset wdata barId : BitVec 32) : IoctlAccess := d.access (.iowrite32 wdata) offset barId

/-- `read_reg`. -/
def readReg (offset barId : BitVec 32) : IoctlAccess := d.access .ioread32 offset barId

end FpgaPdev

/-! ### The commands -/

inductive IoctlCmd
  | blWr
  | blRd
  | sgWr
  | sgRd
  | wrReg
  | rdReg
  deriving DecidableEq

/-- `_IOW(MAJOR_NUM, nr, fpga_iodev *)` and `_IOR` of it, with a pointer of 8 bytes. -/
def ioc (dir nr : BitVec 32) : BitVec 32 := dir <<< 30 ||| 8 <<< 16 ||| 100 <<< 8 ||| nr

def ioctlCmd (ioctlnum : BitVec 32) : Option IoctlCmd :=
  if ioctlnum = ioc 1 4 then some .blWr
  else if ioctlnum = ioc 2 5 then some .blRd
  else if ioctlnum = ioc 1 6 then some .sgWr
  else if ioctlnum = ioc 2 7 then some .sgRd
  else if ioctlnum = ioc 1 2 then some .wrReg
  else if ioctlnum = ioc 2 3 then some .rdReg
  else none

/-- A call of the handler, with the table of devices that it finds and what the kernel answers to it. -/
structure IoctlCall where
  fpgaDevices : Fin 32 → Option FpgaPdev
  ioctlnum : BitVec 32
  /-- what `copy_from_user` copies, unless it fails -/
  copied : Option FpgaIodev
  /-- the `copy_to_user` of `IOCTL_RD_REG` succeeds -/
  copiedBack : Bool
  sgKernel : SgKernel

/-- How the handler goes on: it has returned, it has used what is no device, or it is in a transfer call. -/
inductive IoctlRun
  | done (accs : List IoctlAccess) (ret : ℤ)
  | fault (accs : List IoctlAccess)
  | call (accs : List IoctlAccess) (fpdev : FpgaPdev) (x : SgCall)

/-- The element of the table, if there is one. -/
def deviceAt (fpgaDevices : Fin 32 → Option FpgaPdev) (id : BitVec 32) : Option (Option FpgaPdev) :=
  if h : 0 ≤ id.toInt ∧ id.toInt < 32 then some (fpgaDevices ⟨id.toInt.toNat, by omega⟩) else none

def fpgaIoctl (q : IoctlCall) : IoctlRun :=
  match ioctlCmd q.ioctlnum with
  | none => .done [] 0
  | some cmd =>
    match q.copied with
    | none => .done [] (-efault)
    | some io =>
      match deviceAt q.fpgaDevices io.id with
      | none => .fault [.slot io.id.toInt]
      | some none => .fault [.slot io.id.toInt, .device none]
      | some (some d) =>
        let accs := [.slot io.id.toInt, .device (some d)]
        match cmd with
        | .blWr => .call accs d
          ⟨⟨.c2hBl, io.c2hByteBufsize, io.c2hSdramAddr⟩, io.c2hByteBuf, d.sgBuf .c2hBl, q.sgKernel⟩
        | .blRd => .call accs d
          ⟨⟨.h2cBl, io.h2cByteBufsize, io.h2cSdramAddr⟩, io.h2cByteBuf, d.sgBuf .h2cBl, q.sgKernel⟩
        | .sgWr => .call accs d
          ⟨⟨.c2hSg, io.c2hByteBufsize, io.c2hSdramAddr⟩, io.c2hByteBuf, d.sgBuf .c2hSg, q.sgKernel⟩
        | .sgRd => .call accs d
          ⟨⟨.h2cSg, io.h2cByteBufsize, io.h2cSdramAddr⟩, io.h2cByteBuf, d.sgBuf .h2cSg, q.sgKernel⟩
        | .wrReg => .done (accs ++ [d.writeReg io.regaddr io.regdata io.barId]) 0
        | .rdReg => .done (accs ++ [d.readReg io.regaddr io.barId]) (if q.copiedBack then 0 else -efault)

/-! ### The registers that a transfer call accesses -/

def DrvOp.regs : DrvOp → List (ChanReg × MmioOp)
  | .writeReg r v => [(r, .iowrite32 v)]
  | .copyFromUser _ | .copyToUser _ | .getSgList | .clearFlag | .freeSgBuf | .ret _ => []

def CallEvent.regs : CallEvent → List (ChanReg × MmioOp)
  | .readStatus _ => [(.status, .ioread32)]
  | .exec _ | .wake | .timeout | .signal | .testFlag _ => []

/-- The runs of `SgCall.Runs`, with the registers that they have accessed. -/
inductive SgCall.Touches (x : SgCall) (dmaAddr : BitVec 64) : List (ChanReg × MmioOp) → CallPc → Prop
  | enter : Touches x dmaAddr [] (.ofOps (x.args.entry dmaAddr))
  | exec {regs : List (ChanReg × MmioOp)} {op : DrvOp} {ops : List DrvOp} (answer : Option ℕ)
      (hanswer : op = .getSgList → answer = x.answer) : Touches x dmaAddr regs (.run (op :: ops)) →
      Touches x dmaAddr (regs ++ op.regs) (.after dmaAddr x.args op answer ops)
  | step {regs : List (ChanReg × MmioOp)} {pc pc' : CallPc} (e : CallEvent) (he : ∀ answer, e ≠ .exec answer) :
      Touches x dmaAddr regs pc → pc.step dmaAddr x.args e = some pc' → Touches x dmaAddr (regs ++ e.regs) pc'

/-- The register in BAR 0. -/
def FpgaPdev.chanAccess (d : FpgaPdev) (c : Chan) (r : ChanReg × MmioOp) : Option IoctlAccess :=
  (r.1.offset c).map fun n => d.access r.2 (BitVec.ofNat 32 n) 0

def CallPc.ret : CallPc → Option ℤ
  | .returned (.transferred n) => some n.toInt
  | .returned (.error e) => some e
  | .run _ | .waiting | .woken | .reading | .oops => none

/-- The handler has made these accesses, and has returned this value if it has returned. -/
inductive IoctlRun.Makes : IoctlRun → List IoctlAccess → Option ℤ → Prop
  | done (accs : List IoctlAccess) (ret : ℤ) : Makes (.done accs ret) accs (some ret)
  | fault (accs : List IoctlAccess) : Makes (.fault accs) accs none
  | call (accs : List IoctlAccess) (d : FpgaPdev) (x : SgCall) {regs : List (ChanReg × MmioOp)} {pc : CallPc}
      (h : x.Touches (d.dmaAddr x.args.chan) regs pc) :
      Makes (.call accs d x) (accs ++ regs.filterMap (d.chanAccess x.args.chan)) pc.ret

/-! ### What may be accessed -/

/-- An element of the table, a live device, a word of a mapped BAR. -/
def IoctlAccess.Valid : IoctlAccess → Prop
  | .slot id => 0 ≤ id ∧ id < 32
  | .device fpdev => fpdev.isSome = true
  | .mmio d barId offset byte _ => ∃ i : Fin 6, barId = (i : ℕ) ∧ d.bar i = true ∧ byte = offset * 4 ∧ 0 ≤ byte ∧
      offset * 4 + 4 ≤ (d.barLen i).toNat

/-- The call returns an error and accesses nothing, or it accesses only what it may. -/
def IoctlCall.Safe (q : IoctlCall) : Prop := ∀ accs ret, (fpgaIoctl q).Makes accs ret →
  accs = [] ∧ (∃ e, ret = some e ∧ e < 0) ∨ ∀ a ∈ accs, a.Valid

/-- The device has the register. -/
def FpgaPdev.HasReg (d : FpgaPdev) (offset barId : BitVec 32) : Prop :=
  ∃ i : Fin 6, barId.toInt = (i : ℕ) ∧ d.bar i = true ∧ 0 ≤ offset.toInt ∧ offset.toInt < 2 ^ 29 ∧
    offset.toInt * 4 + 4 ≤ (d.barLen i).toNat

/-- The call ends before its first register. -/
def SgCall.Registerless (x : SgCall) : Prop :=
  x.args.chan = .h2cBl ∧ x.args.bufsize = 0 ∨ x.args.chan.isSg = true ∧ ¬x.Accepted

/-- The last register of the channel that its call accesses. -/
def Chan.lastReg : Chan → ChanReg
  | .c2hBl | .h2cBl => .sdramHo
  | .c2hSg | .h2cSg => .sdramLo

def Chan.lastOffset : Chan → ℕ
  | .c2hBl => 0x0b
  | .h2cBl => 0x0d
  | .c2hSg => 0x1b
  | .h2cSg => 0x1d

lemma Chan.offset_lastReg (c : Chan) : c.lastReg.offset c = some c.lastOffset := by
  cases c <;> rfl

lemma ChanReg.offset_le {c : Chan} {r : ChanReg} {n : ℕ} (h : r.offset c = some n) : n ≤ c.lastOffset := by
  cases c <;> cases r <;> cases h <;> decide

lemma Chan.lastOffset_lt (c : Chan) : c.lastOffset < 2 ^ 29 := by
  cases c <;> decide

lemma valid_slot_iff {id : BitVec 32} (fpgaDevices : Fin 32 → Option FpgaPdev) :
    (IoctlAccess.slot id.toInt).Valid ↔ deviceAt fpgaDevices id ≠ none := by
  simp [IoctlAccess.Valid, deviceAt]

/-- A shift that does not leave the `int`. -/
lemma toInt_shiftLeft_two {offset : BitVec 32} (h0 : 0 ≤ offset.toInt) (h : offset.toInt < 2 ^ 29) :
    (offset <<< 2).toInt = offset.toInt * 4 := by
  have hnat : offset.toNat < 2 ^ 29 := by
    rw [BitVec.toInt_eq_toNat_cond] at h h0
    split_ifs at h h0 with hc <;> omega
  have hoffset : offset.toInt = offset.toNat := by
    rw [BitVec.toInt_eq_toNat_cond, if_pos (by omega)]
  have hshift : (offset <<< 2).toNat = offset.toNat * 4 := by
    rw [BitVec.toNat_shiftLeft, Nat.shiftLeft_eq]
    exact Nat.mod_eq_of_lt (by omega)
  rw [BitVec.toInt_eq_toNat_cond, hshift, if_pos (by omega), hoffset]
  push_cast
  rfl

lemma valid_access_iff {d : FpgaPdev} {op : MmioOp} {offset barId : BitVec 32} :
    (d.access op offset barId).Valid ↔ d.HasReg offset barId := by
  have hlt : (offset <<< 2).toInt < 2 ^ 31 := BitVec.toInt_lt
  constructor
  · rintro ⟨i, hi, hbar, hbyte, h0, hlen⟩
    exact ⟨i, hi, hbar, by omega, by omega, hlen⟩
  · rintro ⟨i, hi, hbar, h0, hmax, hlen⟩
    have hbyte := toInt_shiftLeft_two h0 hmax
    exact ⟨i, hi, hbar, hbyte, by omega, hlen⟩

/-! ### The transfer calls -/

namespace SgCall

variable {x : SgCall} {dmaAddr : BitVec 64}

/-- The next operations write registers. -/
lemma Touches.writes {regs : List (ChanReg × MmioOp)} {rest : List DrvOp} (ws : List (ChanReg × BitVec 32))
    (h : x.Touches dmaAddr regs (.ofOps (ws.map (fun w => .writeReg w.1 w.2) ++ rest))) :
    x.Touches dmaAddr (regs ++ ws.map fun w => (w.1, .iowrite32 w.2)) (.ofOps rest) := by
  induction ws generalizing regs with
  | nil => simpa using h
  | cons w ws ih =>
    have hnext := ih (h.exec none (by intro h; cases h))
    simpa [DrvOp.regs] using hnext

/-- A list that is accepted is built. -/
lemma Touches.listed {mappedNents : ℕ} (hanswer : x.answer = some mappedNents)
    (hentry : x.args.entry dmaAddr = [.getSgList]) :
    x.Touches dmaAddr [] (.ofOps (x.args.program dmaAddr mappedNents)) := by
  have henter : x.Touches dmaAddr [] (.run [.getSgList]) := by
    have h := @Touches.enter x dmaAddr
    rwa [hentry] at h
  have hlist := henter.exec (some mappedNents) fun _ => hanswer.symm
  simpa [DrvOp.regs, CallPc.after] using hlist

lemma answer_eq_some (h : x.Accepted) : ∃ mappedNents, x.answer = some mappedNents := by
  obtain ⟨m, hm⟩ := Option.isSome_iff_exists.mp (getSgList_isSome_iff.mpr h)
  exact ⟨m.mappedNents, congrArg (Option.map _) hm⟩

/-- A call that is not refused gets as far as the last register of its channel. -/
theorem exists_touches (h : ¬x.Registerless) :
    ∃ regs pc op, x.Touches dmaAddr regs pc ∧ (x.args.chan.lastReg, op) ∈ regs := by
  have henter := @Touches.enter x dmaAddr
  cases hc : x.args.chan with
  | c2hBl =>
    simp only [CallArgs.entry, hc, CallArgs.writeSdramLo, CallArgs.writeSdramHo] at henter
    exact ⟨_, _, .iowrite32 (upper32Bits x.args.sdramAddr), Touches.writes
      [(.sdramLo, lower32Bits x.args.sdramAddr), (.sdramHo, upper32Bits x.args.sdramAddr)] henter,
      by simp [Chan.lastReg]⟩
  | h2cBl =>
    have hsize : x.args.bufsize ≠ 0 := fun h0 => h (.inl ⟨hc, h0⟩)
    simp only [CallArgs.entry, hc, if_pos hsize, CallArgs.writeSdramLo, CallArgs.writeSdramHo,
      CallArgs.writeAddrLo, CallArgs.writeAddrHo] at henter
    have hcopied : x.Touches dmaAddr [] _ := henter.exec (some 0) (by intro h; cases h)
    exact ⟨_, _, .iowrite32 (upper32Bits x.args.sdramAddr),
      Touches.writes [(_, _), (_, _), (_, _), (.sdramHo, upper32Bits x.args.sdramAddr)] hcopied,
      by simp [Chan.lastReg]⟩
  | c2hSg =>
    have hacc : x.Accepted := by
      by_contra hacc
      exact h (.inr ⟨by rw [hc]; rfl, hacc⟩)
    obtain ⟨n, hn⟩ := answer_eq_some hacc
    have hlist := @Touches.listed x dmaAddr n hn (by rw [CallArgs.entry, hc])
    simp only [CallArgs.program, hc, CallArgs.writeSdramLo, CallArgs.writeSdramHo, CallArgs.writeLength,
      CallArgs.writeAddrLo, CallArgs.writeAddrHo] at hlist
    exact ⟨_, _, .iowrite32 (lower32Bits x.args.sdramAddr),
      Touches.writes [(_, _), (_, _), (_, _), (_, _), (_, _), (.sdramLo, lower32Bits x.args.sdramAddr)] hlist,
      by simp [Chan.lastReg]⟩
  | h2cSg =>
    have hacc : x.Accepted := by
      by_contra hacc
      exact h (.inr ⟨by rw [hc]; rfl, hacc⟩)
    have hsize : x.args.bufsize ≠ 0 := by
      intro hzero
      apply hacc.length_ne
      rw [hzero]
      rfl
    obtain ⟨n, hn⟩ := answer_eq_some hacc
    have hlist := @Touches.listed x dmaAddr n hn (by rw [CallArgs.entry, hc]; exact if_neg hsize)
    simp only [CallArgs.program, hc, CallArgs.writeSdramLo, CallArgs.writeSdramHo, CallArgs.writeLength,
      CallArgs.writeAddrLo, CallArgs.writeAddrHo] at hlist
    exact ⟨_, _, .iowrite32 (lower32Bits x.args.sdramAddr),
      Touches.writes [(_, _), (_, _), (_, _), (_, _), (_, _), (.sdramLo, lower32Bits x.args.sdramAddr)] hlist,
      by simp [Chan.lastReg]⟩

/-- A call that is refused accesses no register. -/
theorem Touches.nil_of_registerless (hidle : x.Registerless) {regs : List (ChanReg × MmioOp)} {pc : CallPc}
    (h : x.Touches dmaAddr regs pc) : regs = [] := by
  -- the call is at its only operation, or behind it
  have hentry : (∃ e, x.args.entry dmaAddr = [.ret (.error e)]) ∨
      x.args.entry dmaAddr = [.getSgList] ∧ x.answer = none := by
    rcases hidle with ⟨hc, hsize⟩ | ⟨hsg, hacc⟩
    · exact .inl ⟨-einval, by rw [CallArgs.entry, hc]; exact if_neg (not_not.mpr hsize)⟩
    · cases hc : x.args.chan with
      | c2hBl => simp [hc, Chan.isSg] at hsg
      | h2cBl => simp [hc, Chan.isSg] at hsg
      | c2hSg => exact .inr ⟨by rw [CallArgs.entry, hc], answer_eq_none hacc⟩
      | h2cSg =>
        by_cases hsize : x.args.bufsize = 0
        · exact .inl ⟨-eperm, by rw [CallArgs.entry, hc]; exact if_pos hsize⟩
        · exact .inr ⟨by rw [CallArgs.entry, hc]; exact if_neg hsize, answer_eq_none hacc⟩
  have hends : regs = [] ∧ (pc = .ofOps (x.args.entry dmaAddr) ∨ pc = .oops ∨ ∃ r, pc = .returned r) := by
    induction h with
    | enter => exact ⟨rfl, .inl rfl⟩
    | @exec regs op ops answer hanswer _ ih =>
      obtain ⟨rfl, hpc | hpc | ⟨r, hpc⟩⟩ := ih
      · rcases hentry with ⟨e, he⟩ | ⟨he, hnone⟩
        · rw [he] at hpc
          cases hpc
          exact ⟨rfl, .inr (.inr ⟨_, rfl⟩)⟩
        · rw [he] at hpc
          cases hpc
          rw [hanswer rfl, hnone]
          exact ⟨rfl, .inr (.inl rfl)⟩
      · cases hpc
      · cases hpc
    | @step regs pc pc' e he _ hstep ih =>
      obtain ⟨rfl, rfl | rfl | ⟨r, rfl⟩⟩ := ih
      · rcases hentry with ⟨_, heq⟩ | ⟨heq, -⟩ <;> rw [heq] at hstep <;> cases e with
        | exec answer => exact absurd rfl (he answer)
        | _ => cases hstep
      · cases e <;> cases hstep
      · cases e <;> cases hstep
  exact hends.1

end SgCall

/-! ### When the handler is safe -/

namespace FpgaPdev

variable {d : FpgaPdev}

lemma HasReg.mono {m n : ℕ} (hmn : m ≤ n) (hn : n < 2 ^ 29) (h : d.HasReg (BitVec.ofNat 32 n) 0) :
    d.HasReg (BitVec.ofNat 32 m) 0 := by
  have htoInt : ∀ k, k < 2 ^ 29 → (BitVec.ofNat 32 k).toInt = k := by
    intro k hk
    rw [BitVec.toInt_ofNat', Int.bmod_eq_of_le] <;> omega
  obtain ⟨i, hi, hbar, h0, hlt, hlen⟩ := h
  rw [htoInt n hn] at h0 hlt hlen
  refine ⟨i, hi, hbar, ?_⟩
  rw [htoInt m (by omega)]
  omega

/-- The registers of a transfer call are there when the last one of its channel is. -/
theorem call_valid_iff (x : SgCall) : (∀ regs pc, x.Touches (d.dmaAddr x.args.chan) regs pc →
      ∀ a ∈ regs.filterMap (d.chanAccess x.args.chan), a.Valid) ↔
    x.Registerless ∨ d.HasReg (BitVec.ofNat 32 x.args.chan.lastOffset) 0 := by
  constructor
  · intro h
    by_cases hidle : x.Registerless
    · exact .inl hidle
    · obtain ⟨regs, pc, op, htouch, hlast⟩ := SgCall.exists_touches hidle
      have hvalid := h regs pc htouch (d.access op (BitVec.ofNat 32 x.args.chan.lastOffset) 0)
        (List.mem_filterMap.mpr ⟨_, hlast, by rw [chanAccess, Chan.offset_lastReg]; rfl⟩)
      exact .inr (valid_access_iff.mp hvalid)
  · rintro (hidle | hlast) regs pc htouch a ha
    · rw [htouch.nil_of_registerless hidle] at ha
      cases ha
    · obtain ⟨r, -, hr⟩ := List.mem_filterMap.mp ha
      obtain ⟨n, hn, rfl⟩ := Option.map_eq_some_iff.mp hr
      exact valid_access_iff.mpr (hlast.mono (ChanReg.offset_le hn) (Chan.lastOffset_lt _))

end FpgaPdev

/-- What the transfer commands ask of the device. -/
def IoctlCmd.Fits (d : FpgaPdev) (k : SgKernel) (io : FpgaIodev) : IoctlCmd → Prop
  | .blWr => d.HasReg 0x0b 0
  | .blRd => io.h2cByteBufsize = 0 ∨ d.HasReg 0x0d 0
  | .sgWr => ¬SgAccepted k (d.sgBuf .c2hSg) io.c2hByteBuf (io.c2hByteBufsize.setWidth 64) ∨ d.HasReg 0x1b 0
  | .sgRd => ¬SgAccepted k (d.sgBuf .h2cSg) io.h2cByteBuf (io.h2cByteBufsize.setWidth 64) ∨ d.HasReg 0x1d 0
  | .wrReg | .rdReg => d.HasReg io.regaddr io.barId

/-- All that a run can have accessed may be accessed. -/
def IoctlRun.Valid (run : IoctlRun) : Prop := ∀ accs ret, run.Makes accs ret → ∀ a ∈ accs, a.Valid

lemma IoctlCall.safe_iff (q : IoctlCall) : q.Safe ↔ (fpgaIoctl q).Valid := by
  constructor
  · intro h accs ret hmakes
    rcases h accs ret hmakes with ⟨rfl, -⟩ | hvalid
    · simp
    · exact hvalid
  · intro h accs ret hmakes
    exact .inr (h accs ret hmakes)

namespace IoctlRun

variable {accs : List IoctlAccess} {d : FpgaPdev} {x : SgCall}

lemma done_valid_iff {ret : ℤ} : (done accs ret).Valid ↔ ∀ a ∈ accs, a.Valid := by
  constructor
  · intro h
    exact h accs _ (.done accs ret)
  · intro h accs' ret' hmakes
    cases hmakes
    exact h

lemma fault_valid_iff : (fault accs).Valid ↔ ∀ a ∈ accs, a.Valid := by
  constructor
  · intro h
    exact h accs _ (.fault accs)
  · intro h accs' ret' hmakes
    cases hmakes
    exact h

lemma call_valid (haccs : ∀ a ∈ accs, a.Valid) : (call accs d x).Valid ↔
    x.Registerless ∨ d.HasReg (BitVec.ofNat 32 x.args.chan.lastOffset) 0 := by
  rw [← FpgaPdev.call_valid_iff]
  constructor
  · intro h regs pc htouch a ha
    exact h _ _ (.call accs d x htouch) a (List.mem_append_right _ ha)
  · intro h accs' ret' hmakes a ha
    cases hmakes with
    | call _ _ _ htouch =>
      rcases List.mem_append.mp ha with ha | ha
      · exact haccs a ha
      · exact h _ _ htouch a ha

end IoctlRun

/-- With a known command and its arguments, the handler is safe exactly when it finds a live device for the ID that
has the registers of the command. -/
lemma IoctlCall.safe_known_iff {q : IoctlCall} {cmd : IoctlCmd} {io : FpgaIodev}
    (hcmd : ioctlCmd q.ioctlnum = some cmd) (hcopied : q.copied = some io) :
    q.Safe ↔ ∃ d, deviceAt q.fpgaDevices io.id = some (some d) ∧ cmd.Fits d q.sgKernel io := by
  rw [q.safe_iff, fpgaIoctl]
  simp only [hcmd, hcopied]
  have hslot := @valid_slot_iff io.id q.fpgaDevices
  cases hdevice : deviceAt q.fpgaDevices io.id with
  | none =>
    rw [hdevice] at hslot
    simp [IoctlRun.fault_valid_iff, hslot]
  | some fpdev =>
    rw [hdevice] at hslot
    cases fpdev with
    | none => simp [IoctlRun.fault_valid_iff, IoctlAccess.Valid]
    | some d =>
      have hvalid : (IoctlAccess.slot io.id.toInt).Valid := hslot.mpr (Option.some_ne_none _)
      have haccs : ∀ a ∈ [IoctlAccess.slot io.id.toInt, .device (some d)], a.Valid :=
        List.forall_mem_cons.mpr ⟨hvalid, List.forall_mem_singleton.mpr rfl⟩
      have hfits : (∃ d', some (some d) = some (some d') ∧ cmd.Fits d' q.sgKernel io) ↔
          cmd.Fits d q.sgKernel io := by
        simp
      rw [hfits]
      cases cmd with
      | blWr =>
        rw [IoctlRun.call_valid haccs]
        simp [SgCall.Registerless, Chan.isSg, IoctlCmd.Fits, Chan.lastOffset]
      | blRd =>
        rw [IoctlRun.call_valid haccs]
        simp [SgCall.Registerless, Chan.isSg, IoctlCmd.Fits, Chan.lastOffset]
      | sgWr =>
        rw [IoctlRun.call_valid haccs]
        simp [SgCall.Registerless, SgCall.Accepted, Chan.isSg, IoctlCmd.Fits, Chan.lastOffset]
      | sgRd =>
        rw [IoctlRun.call_valid haccs]
        simp [SgCall.Registerless, SgCall.Accepted, Chan.isSg, IoctlCmd.Fits, Chan.lastOffset]
      | wrReg =>
        rw [IoctlRun.done_valid_iff, List.forall_mem_append, List.forall_mem_singleton, and_iff_right haccs]
        exact valid_access_iff
      | rdReg =>
        rw [IoctlRun.done_valid_iff, List.forall_mem_append, List.forall_mem_singleton, and_iff_right haccs]
        exact valid_access_iff

/-- The handler is safe exactly when it does not know the command, or cannot copy the arguments, or finds a live
device for the ID that has the registers of the command. -/
theorem ioctl_safe_iff (q : IoctlCall) : q.Safe ↔
    ∀ cmd io, ioctlCmd q.ioctlnum = some cmd → q.copied = some io →
      ∃ d, deviceAt q.fpgaDevices io.id = some (some d) ∧ cmd.Fits d q.sgKernel io := by
  cases hcmd : ioctlCmd q.ioctlnum with
  | none =>
    rw [q.safe_iff, fpgaIoctl]
    simp [hcmd, IoctlRun.done_valid_iff]
  | some cmd =>
    cases hcopied : q.copied with
    | none =>
      rw [q.safe_iff, fpgaIoctl]
      simp [hcmd, hcopied, IoctlRun.done_valid_iff]
    | some io =>
      rw [IoctlCall.safe_known_iff hcmd hcopied]
      simp

/-- A device with one BAR of 1 MiB, and the arguments that write its register `regaddr`. -/
def oneBarDevice : FpgaPdev where
  bar i := decide (i.val = 0)
  barLen i := if i.val = 0 then 0x100000 else 0
  dmaAddr _ := 0x1000
  sgBuf _ := none

def writeArgs (id barId regaddr : BitVec 32) : FpgaIodev where
  id := id
  barId := barId
  regaddr := regaddr
  regdata := 1
  c2hByteBuf := 0
  c2hByteBufsize := 0
  c2hSdramAddr := 0
  h2cByteBuf := 0
  h2cByteBufsize := 0
  h2cSdramAddr := 0

/-- A write to device -1 reads in front of the table, and one to word -1 of device 0 is in front of its BAR. -/
theorem unchecked_arguments :
    ¬IoctlCall.Safe ⟨fun _ => some oneBarDevice, ioc 1 2, some (writeArgs (-1) 0 0), true, unmergedKernel 1⟩ ∧
      ¬IoctlCall.Safe ⟨fun _ => some oneBarDevice, ioc 1 2, some (writeArgs 0 0 (-1)), true, unmergedKernel 1⟩ := by
  have hcmd : ioctlCmd (ioc 1 2) = some .wrReg := by decide
  constructor
  · intro h
    obtain ⟨d, hd, -⟩ := (IoctlCall.safe_known_iff hcmd rfl).mp h
    cases hd
  · intro h
    obtain ⟨d, -, i, -, -, h0, -⟩ := (IoctlCall.safe_known_iff hcmd rfl).mp h
    exact absurd h0 (by decide)

/-! ### The devices of `fpga_probe` -/

/-- `map_bars` maps the BARs that have a length, and records the lengths. -/
lemma mem_mapBars {bar : Fin 6 → BarAnswer} {is : List (Fin 6)} (h : (mapBars bar is).2 = true) (i : Fin 6) :
    i ∈ (mapBars bar is).1 ↔ i ∈ is ∧ (bar i).barLen ≠ 0 := by
  induction is with
  | nil => simp [mapBars]
  | cons j is ih =>
    rw [mapBars] at h ⊢
    split_ifs at h ⊢ with hlen hmap
    · rw [ih h, List.mem_cons]
      constructor
      · exact fun hi => ⟨.inr hi.1, hi.2⟩
      · rintro ⟨rfl | hi, hne⟩
        · exact absurd hlen hne
        · exact ⟨hi, hne⟩
    · rw [List.mem_cons, List.mem_cons, ih h]
      constructor
      · rintro (rfl | hi)
        · exact ⟨.inl rfl, hlen⟩
        · exact ⟨.inr hi.1, hi.2⟩
      · rintro ⟨rfl | hi, hne⟩
        · exact .inl rfl
        · exact .inr ⟨hi, hne⟩

/-- The device that a probe leaves. -/
def ProbeKernel.pdev (k : ProbeKernel) (dmaAddr : Chan → BitVec 64) (sgBuf : Chan → Option CoherentBuffer) :
    FpgaPdev where
  bar i := decide (i ∈ k.bars)
  barLen i := (k.bar i).barLen
  dmaAddr := dmaAddr
  sgBuf := sgBuf

/-- On a device that has come up, the length decides. -/
theorem hasReg_pdev_iff {k : ProbeKernel} (hk : k.firstFailure = none) {dmaAddr : Chan → BitVec 64}
    {sgBuf : Chan → Option CoherentBuffer} {offset barId : BitVec 32} :
    (k.pdev dmaAddr sgBuf).HasReg offset barId ↔ ∃ i : Fin 6, barId.toInt = (i : ℕ) ∧ 0 ≤ offset.toInt ∧
      offset.toInt < 2 ^ 29 ∧ offset.toInt * 4 + 4 ≤ (k.bar i).barLen.toNat := by
  have hmapped : (mapBars k.bar (List.finRange 6)).2 = true := by
    rw [mapBars_iff, List.find?_eq_none]
    intro s hs
    exact List.find?_eq_none.mp hk s (List.mem_append_left _ (List.mem_append_right _ hs))
  have hbar : ∀ i, i ∈ k.bars ↔ (k.bar i).barLen ≠ 0 := by
    intro i
    rw [ProbeKernel.bars, mem_mapBars hmapped, and_iff_right (List.mem_finRange i)]
  constructor
  · rintro ⟨i, hi, -, h⟩
    exact ⟨i, hi, h⟩
  · rintro ⟨i, hi, h0, hlt, hlen⟩
    refine ⟨i, hi, decide_eq_true ((hbar i).mpr ?_), h0, hlt, hlen⟩
    intro hzero
    rw [hzero] at hlen
    have hnat : ((0 : BitVec 64).toNat : ℤ) = 0 := rfl
    omega

end FpgaPcie
