import FpgaPcie.Driver.Call

/-!
# A channel of the FPGA, as the driver sees it

The channel is its registers, the engine that moves the data, the interrupt module that counts
bytes on the link, and the flag that the interrupt handler keeps for it. A transfer belongs to
the call whose START write began it. The engine and the link do their steps at any time, in any
portion; only the four words of the status registers and the pulses behind them are visible to
the driver.
-/

namespace FpgaPcie

/-- The engine of a channel. A block channel has no list and starts `moving`. -/
inductive Engine
  | idle
  /-- The descriptor list of the call is being read. -/
  | fetching (id : ℕ)
  /-- The list is complete, with `bytes` in its segments, and waits for the second START. -/
  | listed (id bytes : ℕ)
  /-- `left` bytes have not been requested (or sent) yet. -/
  | moving (id left : ℕ)
  deriving DecidableEq

structure ChanState where
  reg : ChanReg → BitVec 32
  /-- the call that wrote a register last -/
  writer : ChanReg → Option ℕ
  status : BitVec 32
  /-- `intr_…_status` -/
  flag : BitVec 32
  engine : Engine
  /-- requested or sent by the engine, and not yet on the link -/
  inFlight : ℕ → ℕ
  /-- completions whose header has been on the link, and whose data has not -/
  owed : ℕ → ℕ
  /-- through -/
  moved : ℕ → ℕ
  /-- the interrupt module: what it has counted, and the LENGTH it waits for -/
  counter : Option (ℕ × ℕ)
  /-- the bytes in the segments of the descriptor list -/
  listBytes : ℕ
  /-- the call whose data (or list) the coherent buffer holds -/
  buf : Option ℕ

inductive DevEvent
  | listDone
  | issue (n : ℕ)
  /-- `n` bytes of a transfer pass the interrupt module, which counts `k` of them: on an H2C
  channel it sees the headers of the completions, with lengths cut to ten bits. -/
  | count (id n k : ℕ)
  | arrive (id n : ℕ)
  /-- The H2C module counts a completion of the C2H list. -/
  | foreign (n : ℕ)
  | done
  | finish

def DevEvent.isForeign : DevEvent → Bool
  | .foreign _ => true
  | .listDone | .issue _ | .count _ _ _ | .arrive _ _ | .done | .finish => false

/-- The pulses on the status lines. -/
def DevEvent.pulses : DevEvent → Bool
  | .listDone | .done => true
  | .issue _ | .count _ _ _ | .arrive _ _ | .foreign _ | .finish => false

def Engine.isFetching : Engine → Bool
  | .fetching _ => true
  | .idle | .listed _ _ | .moving _ _ => false

namespace ChanState

def reset : ChanState where
  reg := fun _ => 0
  writer := fun _ => none
  status := 0
  flag := 0
  engine := .idle
  inFlight := fun _ => 0
  owed := fun _ => 0
  moved := fun _ => 0
  counter := none
  listBytes := 0
  buf := none

variable (c : Chan) (x : ChanState)

/-- The status registers keep the first nonzero word. -/
def latch (v : BitVec 32) : ChanState :=
  { x with status := if x.status = 0 then v else x.status }

/-- The word that reports the end of a transfer: bit 0 on a block channel, bit 1 behind the
list. -/
def doneStatus : BitVec 32 := if c.isSg then 2 else 1

/-- The interrupt module takes a start only when it is idle. -/
def arm : ChanState :=
  { x with counter := if x.counter = none then some (0, (x.reg .length).toNat) else x.counter }

def addCounter (k : ℕ) : ChanState :=
  { x with counter := x.counter.map fun p => (p.1 + k, p.2) }

/-- A write to the START register by call `id`. A block channel starts with any value; the two
low bits start the list and the transfer of a scatter-gather channel. The engine takes a start
only in the state that waits for it. -/
def writeStart (id : ℕ) (v : BitVec 32) : ChanState :=
  if c.isSg then
    let x := if v &&& 1 ≠ 0 ∧ x.engine = .idle then { x with engine := .fetching id } else x
    if v &&& 2 ≠ 0 then
      { x.arm with
        engine := match x.engine with
          | .fetching i => .moving i x.listBytes
          | .listed i n => .moving i n
          | e => e }
    else x
  else
    { x.arm with
      engine := if x.engine = .idle then .moving id (x.reg .length).toNat else x.engine }

/-- A register write by call `id`; any write clears the status register. -/
def writeReg (id : ℕ) : ChanReg → BitVec 32 → ChanState
  | .status, _ => { x with status := 0 }
  | .start, v => x.writeStart c id v
  | r, v => { x with
      reg := Function.update x.reg r v
      writer := Function.update x.writer r (some id) }

/-- What an operation of call `id` does to its channel. -/
def exec (id : ℕ) (a : CallArgs) : DrvOp → Option ℕ → ChanState
  | .copyFromUser _, _ => { x with buf := some id }
  | .getSgList, some _ => { x with buf := some id, listBytes := a.bufsize.toNat }
  | .writeReg r v, _ => x.writeReg c id r v
  | .clearFlag, _ => { x with flag := 0 }
  | .getSgList, none | .copyToUser _, _ | .freeSgBuf, _ | .ret _, _ => x

/-- A step of the channel on its own. -/
def dev : DevEvent → Option ChanState
  | .listDone =>
    match x.engine with
    | .fetching id => some ({ x with engine := .listed id x.listBytes }.latch 1)
    | _ => none
  | .issue n =>
    match x.engine with
    | .moving id left =>
      if 0 < n ∧ n ≤ left then
        some { x with
          engine := .moving id (left - n)
          inFlight := Function.update x.inFlight id (x.inFlight id + n) }
      else none
    | _ => none
  | .count id n k =>
    if 0 < n ∧ n ≤ x.inFlight id ∧ k ≤ n then
      let x := { x.addCounter k with
        inFlight := Function.update x.inFlight id (x.inFlight id - n) }
      if c.isH2c then some { x with owed := Function.update x.owed id (x.owed id + n) }
      else some { x with
        moved := Function.update x.moved id (x.moved id + n)
        buf := if c = .c2hBl then some id else x.buf }
    else none
  | .arrive id n =>
    if 0 < n ∧ n ≤ x.owed id then
      some { x with
        owed := Function.update x.owed id (x.owed id - n)
        moved := Function.update x.moved id (x.moved id + n) }
    else none
  | .foreign n => if c = .h2cSg then some (x.addCounter n) else none
  | .done =>
    match x.counter with
    | some (k, len) =>
      if len ≤ k ∧ (c.isH2c = true → 0 < k) then
        some ({ x with counter := none }.latch (doneStatus c))
      else none
    | none => none
  | .finish =>
    match x.engine with
    | .moving _ 0 => some { x with engine := .idle }
    | _ => none

/-- Everything that a step of the channel on its own can do. -/
inductive DevSpec : DevEvent → ChanState → Prop
  | listDone {id : ℕ} (heng : x.engine = .fetching id) :
      DevSpec .listDone ({ x with engine := .listed id x.listBytes }.latch 1)
  | issue {id left n : ℕ} (heng : x.engine = .moving id left) (hpos : 0 < n) (hle : n ≤ left) :
      DevSpec (.issue n) { x with
        engine := .moving id (left - n)
        inFlight := Function.update x.inFlight id (x.inFlight id + n) }
  | countH2c {id n k : ℕ} (hc : c.isH2c = true) (hpos : 0 < n) (hle : n ≤ x.inFlight id)
      (hk : k ≤ n) :
      DevSpec (.count id n k) { x.addCounter k with
        inFlight := Function.update x.inFlight id (x.inFlight id - n)
        owed := Function.update x.owed id (x.owed id + n) }
  | countC2h {id n k : ℕ} (hc : c.isH2c = false) (hpos : 0 < n) (hle : n ≤ x.inFlight id)
      (hk : k ≤ n) :
      DevSpec (.count id n k) { x.addCounter k with
        inFlight := Function.update x.inFlight id (x.inFlight id - n)
        moved := Function.update x.moved id (x.moved id + n)
        buf := if c = .c2hBl then some id else x.buf }
  | arrive {id n : ℕ} (hpos : 0 < n) (hle : n ≤ x.owed id) :
      DevSpec (.arrive id n) { x with
        owed := Function.update x.owed id (x.owed id - n)
        moved := Function.update x.moved id (x.moved id + n) }
  | foreign {n : ℕ} (hc : c = .h2cSg) : DevSpec (.foreign n) (x.addCounter n)
  | done {k len : ℕ} (hcounter : x.counter = some (k, len)) (hle : len ≤ k)
      (hpos : c.isH2c = true → 0 < k) :
      DevSpec .done ({ x with counter := none }.latch (doneStatus c))
  | finish {id : ℕ} (heng : x.engine = .moving id 0) : DevSpec .finish { x with engine := .idle }

variable {c x} {x' : ChanState} {e : DevEvent}

theorem devSpec (h : x.dev c e = some x') : x.DevSpec c e x' := by
  cases e with
  | listDone =>
    simp only [dev] at h
    split at h
    · next id heng => exact Option.some.inj h ▸ .listDone heng
    · cases h
  | issue n =>
    simp only [dev] at h
    split at h
    · next id left heng =>
      split_ifs at h with hn
      exact Option.some.inj h ▸ .issue heng hn.1 hn.2
    · cases h
  | count id n k =>
    by_cases hn : 0 < n ∧ n ≤ x.inFlight id ∧ k ≤ n
    · cases hc : c.isH2c with
      | true =>
        simp only [dev, if_pos hn, hc, if_true] at h
        exact Option.some.inj h ▸ .countH2c hc hn.1 hn.2.1 hn.2.2
      | false =>
        simp only [dev, if_pos hn, hc, Bool.false_eq_true, if_false] at h
        exact Option.some.inj h ▸ .countC2h hc hn.1 hn.2.1 hn.2.2
    · simp [dev, hn] at h
  | arrive id n =>
    simp only [dev] at h
    split_ifs at h with hn
    exact Option.some.inj h ▸ .arrive hn.1 hn.2
  | foreign n =>
    simp only [dev] at h
    split_ifs at h with hc
    exact Option.some.inj h ▸ .foreign hc
  | done =>
    simp only [dev] at h
    split at h
    · next k len hcounter =>
      split_ifs at h with hn
      exact Option.some.inj h ▸ .done hcounter hn.1 hn.2
    · cases h
  | finish =>
    simp only [dev] at h
    split at h
    · next id heng => exact Option.some.inj h ▸ .finish heng
    · cases h

/-- Nothing is left of an earlier transfer. -/
structure AtRest (x : ChanState) : Prop where
  engine : x.engine = .idle
  status : x.status = 0
  counter : x.counter = none
  inFlight : ∀ id, x.inFlight id = 0
  owed : ∀ id, x.owed id = 0

end ChanState

end FpgaPcie
