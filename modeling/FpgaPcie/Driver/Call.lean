import FpgaPcie.Driver.Sgdma

/-!
# The transfer calls of the driver

A call of `block_c2h`, `block_h2c`, `sg_c2h` or `sg_h2c` is a straight line of operations up to
its wait loop, and the loop runs a straight line again for each status value it reads. The
operations are those that other parties can see: accesses to the registers and to the flag of
the channel, copies, and what happens to the scatter list.
-/

namespace FpgaPcie

/-- The four DMA channels of a device, one for each transfer call. -/
inductive Chan
  | c2hBl
  | h2cBl
  | c2hSg
  | h2cSg
  deriving DecidableEq

/-- `sg_c2h` and `sg_h2c`. -/
def Chan.isSg : Chan → Bool
  | .c2hBl | .h2cBl => false
  | .c2hSg | .h2cSg => true

/-- The channels that read host memory. -/
def Chan.isH2c : Chan → Bool
  | .c2hBl | .c2hSg => false
  | .h2cBl | .h2cSg => true

/-- The registers of one channel. The address is that of the data buffer on a block channel and
that of the list on a scatter-gather channel. -/
inductive ChanReg
  | addrLo
  | addrHo
  | listLength
  | length
  | sdramLo
  | sdramHo
  | start
  | status
  deriving DecidableEq

/-- The word offsets of `fpdev_mod.h`; the block channels have no list. -/
def ChanReg.offset : Chan → ChanReg → Option ℕ
  | .c2hBl, addrLo => some 0x00
  | .c2hBl, addrHo => some 0x01
  | .c2hBl, start => some 0x02
  | .c2hBl, length => some 0x03
  | .c2hBl, status => some 0x08
  | .c2hBl, sdramLo => some 0x0a
  | .c2hBl, sdramHo => some 0x0b
  | .c2hBl, listLength => none
  | .h2cBl, addrLo => some 0x04
  | .h2cBl, addrHo => some 0x05
  | .h2cBl, start => some 0x06
  | .h2cBl, length => some 0x07
  | .h2cBl, status => some 0x09
  | .h2cBl, sdramLo => some 0x0c
  | .h2cBl, sdramHo => some 0x0d
  | .h2cBl, listLength => none
  | .c2hSg, addrLo => some 0x0e
  | .c2hSg, addrHo => some 0x0f
  | .c2hSg, start => some 0x10
  | .c2hSg, listLength => some 0x11
  | .c2hSg, status => some 0x16
  | .c2hSg, length => some 0x18
  | .c2hSg, sdramLo => some 0x1b
  | .c2hSg, sdramHo => some 0x1a
  | .h2cSg, addrLo => some 0x12
  | .h2cSg, addrHo => some 0x13
  | .h2cSg, start => some 0x14
  | .h2cSg, listLength => some 0x15
  | .h2cSg, status => some 0x17
  | .h2cSg, length => some 0x19
  | .h2cSg, sdramLo => some 0x1d
  | .h2cSg, sdramHo => some 0x1c

/-- No two registers of the four channels share an offset. -/
theorem ChanReg.offset_injective {c c' : Chan} {r r' : ChanReg} {n : ℕ}
    (h : r.offset c = some n) (h' : r'.offset c' = some n) : c = c' ∧ r = r' := by
  cases c <;> cases r <;> cases h <;> cases c' <;> cases r' <;> trivial

/-- `BLOCK_DMA_BUF_SIZE`. -/
def blockDmaBufSize : ℕ := 4 * 1024 * 1024

/-- The arguments of a call that the code reads; `timeout` is the time of the wait. -/
structure CallArgs where
  chan : Chan
  bufsize : BitVec 32
  sdramAddr : BitVec 64

/-- How a call returns: `return c2h_bufsize`, or an error code. -/
inductive CallResult
  | transferred (bufsize : BitVec 32)
  | error (e : ℤ)
  deriving DecidableEq

def eperm : ℤ := 1
def efault : ℤ := 14
def einval : ℤ := 22
def etimedout : ℤ := 110
def erestartsys : ℤ := 512

inductive DrvOp
  /-- `copy_from_user` into the coherent buffer of the channel -/
  | copyFromUser (n : BitVec 32)
  /-- `copy_to_user` out of the coherent buffer of the channel -/
  | copyToUser (n : BitVec 32)
  /-- `get_sg_list` into the list buffer of the channel -/
  | getSgList
  | writeReg (r : ChanReg) (v : BitVec 32)
  /-- `atomic_set(&fpdev->intr_…_status, 0)` -/
  | clearFlag
  | freeSgBuf
  | ret (r : CallResult)
  deriving DecidableEq

namespace CallArgs

variable (dmaAddr : BitVec 64) (a : CallArgs)

/-- The address registers, `dma_addr & 0xffffffff` and `(dma_addr >> 32) & 0xffffffff`. -/
def writeAddrLo : DrvOp := .writeReg .addrLo (lower32Bits dmaAddr)

def writeAddrHo : DrvOp := .writeReg .addrHo (upper32Bits dmaAddr)

def writeSdramLo : DrvOp := .writeReg .sdramLo (lower32Bits a.sdramAddr)

def writeSdramHo : DrvOp := .writeReg .sdramHo (upper32Bits a.sdramAddr)

def writeLength : DrvOp := .writeReg .length a.bufsize

/-- The operations before the wait loop, up to `get_sg_list` on a scatter-gather channel. -/
def entry : List DrvOp :=
  match a.chan with
  | .c2hBl => [a.writeSdramLo, a.writeSdramHo, a.writeLength, writeAddrLo dmaAddr,
      writeAddrHo dmaAddr, .writeReg .start 1]
  | .h2cBl =>
    if a.bufsize ≠ 0 then
      [.copyFromUser a.bufsize, writeAddrLo dmaAddr, writeAddrHo dmaAddr, a.writeSdramLo,
        a.writeSdramHo, a.writeLength, .writeReg .start 1]
    else [.ret (.error (-einval))]
  | .c2hSg => [.getSgList]
  | .h2cSg => if a.bufsize = 0 then [.ret (.error (-eperm))] else [.getSgList]

/-- The operations between `get_sg_list` and the wait loop; `mapped_nents << 4` is the length of
the list. -/
def program (mappedNents : ℕ) : List DrvOp :=
  match a.chan with
  | .c2hSg => [writeAddrLo dmaAddr, writeAddrHo dmaAddr,
      .writeReg .listLength (BitVec.ofNat 32 mappedNents <<< 4), .writeReg .start 1,
      a.writeLength, a.writeSdramLo, a.writeSdramHo]
  | .h2cSg => [writeAddrHo dmaAddr, writeAddrLo dmaAddr,
      .writeReg .listLength (BitVec.ofNat 32 mappedNents <<< 4), .writeReg .start 1,
      a.writeLength, a.writeSdramLo, a.writeSdramHo]
  | .c2hBl | .h2cBl => []

/-- The exits of the wait loop that return `e`: a signal and a timeout. -/
def exit (e : ℤ) : List DrvOp :=
  if a.chan.isSg then [.clearFlag, .freeSgBuf, .ret (.error e)]
  else [.clearFlag, .ret (.error e)]

def onSignal : List DrvOp := a.exit (-erestartsys)

def onTimeout : List DrvOp := a.exit (-etimedout)

/-- `return -EINVAL` behind the copy of a request that is larger than the buffer. -/
def blockC2hResult : CallResult :=
  if a.bufsize.toNat > blockDmaBufSize then .error (-einval) else .transferred a.bufsize

/-- What the loop does with the status it has read. -/
def onStatus (s : BitVec 32) : List DrvOp :=
  match a.chan with
  | .c2hBl =>
    if s &&& 1 ≠ 0 then
      [.writeReg .status 0, .clearFlag, .copyToUser a.bufsize, .ret a.blockC2hResult]
    else []
  | .h2cBl =>
    if s = 1 then [.writeReg .status 0, .clearFlag, .ret (.transferred a.bufsize)] else []
  | .c2hSg =>
    if s = 1 then [.clearFlag, .writeReg .status 0, .writeReg .start 2]
    else if s = 2 then
      [.writeReg .status 0, .clearFlag, .freeSgBuf, .ret (.transferred a.bufsize)]
    else []
  | .h2cSg =>
    if s = 1 then [.clearFlag, .writeReg .status 0, .writeReg .start 2]
    else if s = 2 then
      [.clearFlag, .freeSgBuf, .writeReg .status 0, .ret (.transferred a.bufsize)]
    else []

end CallArgs

/-- Where a call is. -/
inductive CallPc
  | run (ops : List DrvOp)
  /-- in `wait_event_interruptible_timeout` -/
  | waiting
  /-- behind a wait that was not ended by a signal or a timeout -/
  | woken
  /-- behind the second test of the flag, before the read of the status register -/
  | reading
  | returned (r : CallResult)
  /-- `get_sg_list` has returned NULL, which the call dereferences -/
  | oops
  deriving DecidableEq

/-- Behind a straight line of operations is the wait. -/
def CallPc.ofOps : List DrvOp → CallPc
  | [] => .waiting
  | op :: ops => .run (op :: ops)

/-- The operations that are left of the straight line a call is in. -/
def CallPc.ops : CallPc → List DrvOp
  | .run ops => ops
  | _ => []

@[simp] lemma CallPc.ops_ofOps (ops : List DrvOp) : (CallPc.ofOps ops).ops = ops := by
  cases ops <;> rfl

/-- What the rest of the system answers to a call. -/
inductive CallEvent
  /-- The next operation is done; a copy that fails and a list that is refused answer `none`,
  and a list that is built answers `mapped_nents`. -/
  | exec (answer : Option ℕ)
  | wake
  | timeout
  | signal
  | testFlag (set : Bool)
  | readStatus (s : BitVec 32)

section Step

variable (dmaAddr : BitVec 64) (a : CallArgs)

/-- The call behind the operation `op`, with `ops` left. -/
def CallPc.after (op : DrvOp) (answer : Option ℕ) (ops : List DrvOp) : CallPc :=
  match op with
  | .ret r => .returned r
  | .copyFromUser _ =>
    if answer = none then .ofOps [.ret (.error (-efault))] else .ofOps ops
  | .getSgList =>
    match answer with
    | none => .oops
    | some mappedNents => .ofOps (a.program dmaAddr mappedNents ++ ops)
  | .copyToUser _ | .writeReg _ _ | .clearFlag | .freeSgBuf => .ofOps ops

def CallPc.step : CallPc → CallEvent → Option CallPc
  | .run (op :: ops), .exec answer => some (after dmaAddr a op answer ops)
  | .waiting, .wake => some .woken
  | .waiting, .timeout => some (.ofOps a.onTimeout)
  | .waiting, .signal => some (.ofOps a.onSignal)
  | .woken, .testFlag set => some (if set then .reading else .waiting)
  | .reading, .readStatus s => some (.ofOps (a.onStatus s))
  | _, _ => none

/-- A call has done the operations `trace` and is at `pc`, whatever it was answered. -/
inductive CallRuns : List DrvOp → CallPc → Prop
  | enter : CallRuns [] (.ofOps (a.entry dmaAddr))
  | exec {trace op ops} (answer : Option ℕ) : CallRuns trace (.run (op :: ops)) →
      CallRuns (trace ++ [op]) (.after dmaAddr a op answer ops)
  | step {trace pc pc'} (e : CallEvent) (he : ∀ answer, e ≠ .exec answer) : CallRuns trace pc →
      pc.step dmaAddr a e = some pc' → CallRuns trace pc'

end Step

end FpgaPcie
