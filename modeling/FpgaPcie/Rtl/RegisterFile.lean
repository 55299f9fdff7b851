import FpgaPcie.Rtl.BarMaster
import Mathlib.Data.List.DropRight

/-!
# An atomic register file

What the BAR stands for: requests take effect one at a time, and a status register keeps the first
nonzero value that the hardware shows behind the last write to it.
-/

namespace FpgaPcie

/-- The fields of a completion with data. -/
structure CplD where
  fmt : BitVec 3
  type : BitVec 5
  length : BitVec 10
  byteCount : BitVec 12
  requesterId : BitVec 16
  tag : BitVec 8
  lowerAddress : BitVec 7
  data : BitVec 32
  deriving DecidableEq

def CplD.ofHdr (hdr : BitVec 128) (data : BitVec 32) : CplD where
  fmt := hdr.extractLsb' 125 3
  type := hdr.extractLsb' 120 5
  length := hdr.extractLsb' 96 10
  byteCount := hdr.extractLsb' 64 12
  requesterId := hdr.extractLsb' 48 16
  tag := hdr.extractLsb' 40 8
  lowerAddress := hdr.extractLsb' 32 7
  data := data

namespace BarTlp

variable (r : BarTlp)

/-- A read or a DW-aligned write, both with a four-DW header. -/
structure Access : Prop where
  fmt : r.fmt = tlpFmt4dwBits ∨ r.fmt = tlpFmt4dwDataBits
  aligned : r.fmt = tlpFmt4dwDataBits → r.address.extractLsb' 0 2 = 0

def index : BitVec 6 := r.address.extractLsb' 2 6

/-- The completion of the read `r` that finds `data`. -/
def completion (data : BitVec 32) : CplD where
  fmt := tlpFmt3dwDataBits
  type := 0b01010
  length := 1
  byteCount := 4
  requesterId := r.requesterId
  tag := r.tag
  lowerAddress := r.address.extractLsb' 0 7
  data := data

/-- The write `r` starts a transfer. -/
def starts : BarStart → Bool
  | .c2hBlockDma => r.index == 2
  | .h2cBlockDma => r.index == 6
  | .c2hSgList => r.index == 16 && r.data.getLsbD 0
  | .c2hSgDma => r.index == 16 && r.data.getLsbD 1
  | .h2cSgList => r.index == 20 && r.data.getLsbD 0
  | .h2cSgDma => r.index == 20 && r.data.getLsbD 1

end BarTlp

/-- What happens to the register file: the hardware shows its status for a cycle, or a request
takes effect. -/
inductive BarEvent
  | sample (status : BarChannel → BitVec 32)
  | request (r : BarTlp)

def BarEvent.status? : BarEvent → Option (BarChannel → BitVec 32)
  | .sample status => some status
  | .request _ => none

def BarEvent.request? : BarEvent → Option BarTlp
  | .sample _ => none
  | .request r => some r

@[simp] lemma BarEvent.request?_sample (status : BarChannel → BitVec 32) :
    (BarEvent.sample status).request? = none := rfl

@[simp] lemma BarEvent.request?_request (r : BarTlp) : (BarEvent.request r).request? = some r := rfl

@[simp] lemma BarEvent.status?_sample (status : BarChannel → BitVec 32) :
    (BarEvent.sample status).status? = some status := rfl

@[simp] lemma BarEvent.status?_request (r : BarTlp) : (BarEvent.request r).status? = none := rfl

/-- The event is a write to the register. -/
def BarEvent.writes (index : BitVec 6) : BarEvent → Bool
  | .sample _ => false
  | .request r => r.fmt == tlpFmt4dwDataBits && r.index == index

structure RegisterFile where
  regs : BitVec 6 → BitVec 32
  status : BarChannel → BitVec 32
  completions : List CplD
  pulses : List (BarStart × BarConfig)

namespace RegisterFile

variable (f : RegisterFile)

def reset : RegisterFile := ⟨fun _ => 0, fun _ => 0, [], []⟩

/-- The channel whose status the register reads back. -/
def statusChannel (index : BitVec 6) : Option BarChannel :=
  [.c2hBlock, .h2cBlock, .c2hSg, .h2cSg].find? fun c => c.statusIndex == index

def value (index : BitVec 6) : BitVec 32 :=
  match statusChannel index with
  | some c => f.status c
  | none => f.regs index

def sample (status : BarChannel → BitVec 32) : RegisterFile :=
  { f with status := fun c => if f.status c = 0 then status c else f.status c }

def write (r : BarTlp) : RegisterFile where
  regs := Function.update f.regs r.index r.data
  status := fun c => if r.index = c.statusIndex then 0 else f.status c
  completions := f.completions
  pulses := f.pulses ++ barPulses r.starts f.regs

def read (r : BarTlp) : RegisterFile :=
  { f with completions := f.completions ++ [r.completion (f.value r.index)] }

def apply : BarEvent → RegisterFile
  | .sample status => f.sample status
  | .request r => if r.fmt = tlpFmt4dwDataBits then f.write r else f.read r

def run : List BarEvent → RegisterFile := List.foldl apply reset

/-- The data of the last write to the register. -/
def lastWritten (index : BitVec 6) (log : List BarEvent) : BitVec 32 :=
  ((((log.filter (BarEvent.writes index)).getLast?).bind BarEvent.request?).map
    BarTlp.data).getD 0

def firstNonzero (values : List (BitVec 32)) : BitVec 32 := (values.find? fun v => v != 0).getD 0

/-- The first nonzero status that the hardware showed behind the last write to the register. -/
def firstStatus (c : BarChannel) (log : List BarEvent) : BitVec 32 :=
  firstNonzero ((log.rtakeWhile fun e => !e.writes c.statusIndex).filterMap fun e =>
    e.status?.map fun status => status c)

variable {f}

section Fields

variable (status : BarChannel → BitVec 32) (c : BarChannel) (r : BarTlp)

@[simp] lemma sample_regs : (f.sample status).regs = f.regs := rfl

@[simp] lemma sample_status :
    (f.sample status).status c = if f.status c = 0 then status c else f.status c := rfl

@[simp] lemma sample_completions : (f.sample status).completions = f.completions := rfl

@[simp] lemma sample_pulses : (f.sample status).pulses = f.pulses := rfl

@[simp] lemma write_regs : (f.write r).regs = Function.update f.regs r.index r.data := rfl

@[simp] lemma write_status :
    (f.write r).status c = if r.index = c.statusIndex then 0 else f.status c := rfl

@[simp] lemma write_completions : (f.write r).completions = f.completions := rfl

@[simp] lemma write_pulses : (f.write r).pulses = f.pulses ++ barPulses r.starts f.regs := rfl

@[simp] lemma read_regs : (f.read r).regs = f.regs := rfl

@[simp] lemma read_status : (f.read r).status = f.status := rfl

@[simp] lemma read_completions :
    (f.read r).completions = f.completions ++ [r.completion (f.value r.index)] := rfl

@[simp] lemma read_pulses : (f.read r).pulses = f.pulses := rfl

end Fields

@[simp] lemma run_nil : run [] = reset := rfl

@[simp] lemma run_concat (log : List BarEvent) (e : BarEvent) :
    run (log ++ [e]) = (run log).apply e := by
  simp [run]

lemma value_eq (index : BitVec 6) :
    f.value index =
      if index = 0x08 then f.status .c2hBlock
      else if index = 0x09 then f.status .h2cBlock
      else if index = 0x16 then f.status .c2hSg
      else if index = 0x17 then f.status .h2cSg
      else f.regs index := by
  simp only [value, statusChannel, List.find?_cons, BarChannel.statusIndex, List.find?_nil,
    beq_eq_decide, eq_comm (b := index)]
  split_ifs <;> simp_all

lemma lastWritten_concat (index : BitVec 6) (log : List BarEvent) (e : BarEvent) :
    lastWritten index (log ++ [e]) =
      if e.writes index then (e.request?.map BarTlp.data).getD 0 else lastWritten index log := by
  unfold lastWritten
  rw [List.filter_append]
  cases he : e.writes index <;> simp [he]

lemma firstNonzero_append (values values' : List (BitVec 32)) :
    firstNonzero (values ++ values') =
      if firstNonzero values = 0 then firstNonzero values' else firstNonzero values := by
  unfold firstNonzero
  rw [List.find?_append]
  cases hf : values.find? fun v => v != 0 with
  | none => simp
  | some v =>
    have hv : v ≠ 0 := by simpa using List.find?_some hf
    rw [Option.some_or, Option.getD_some, if_neg hv]

lemma firstStatus_concat (c : BarChannel) (log : List BarEvent) (e : BarEvent) :
    firstStatus c (log ++ [e]) =
      if e.writes c.statusIndex then 0
      else if firstStatus c log = 0 then (e.status?.map fun status => status c).getD 0
      else firstStatus c log := by
  unfold firstStatus
  rw [List.rtakeWhile_concat]
  cases he : e.writes c.statusIndex with
  | true => rfl
  | false =>
    have hone : firstNonzero ([e].filterMap fun e => e.status?.map fun status => status c) =
        (e.status?.map fun status => status c).getD 0 := by
      cases e with
      | request r => rfl
      | sample status =>
        change firstNonzero [status c] = status c
        by_cases hz : status c = 0#32 <;> simp [firstNonzero, hz]
    simp only [Bool.not_false, if_true, Bool.false_eq_true, if_false]
    rw [List.filterMap_append, firstNonzero_append, hone]

/-- The registers hold what was written last. -/
theorem regs_run (index : BitVec 6) (log : List BarEvent) :
    (run log).regs index = lastWritten index log := by
  induction log using List.reverseRecOn with
  | nil => rfl
  | append_singleton log e ih =>
    rw [run_concat, lastWritten_concat, ← ih]
    cases e with
    | sample status => rfl
    | request r =>
      by_cases hw : r.fmt = tlpFmt4dwDataBits
      · by_cases hi : r.index = index
        · simp [apply, write, BarEvent.writes, BarEvent.request?, hw, hi]
        · simp [apply, write, BarEvent.writes, hw, hi, Function.update_of_ne (Ne.symm hi)]
      · simp [apply, read, BarEvent.writes, hw]

/-- A status register holds the first nonzero status behind the last write to it. -/
theorem status_run (c : BarChannel) (log : List BarEvent) :
    (run log).status c = firstStatus c log := by
  induction log using List.reverseRecOn with
  | nil => rfl
  | append_singleton log e ih =>
    rw [run_concat, firstStatus_concat, ← ih]
    cases e with
    | sample status => simp [apply, sample, BarEvent.writes, BarEvent.status?]
    | request r =>
      by_cases hw : r.fmt = tlpFmt4dwDataBits
      · by_cases hi : r.index = c.statusIndex
        · simp [apply, write, BarEvent.writes, hw, hi]
        · by_cases hz : (run log).status c = 0 <;>
            simp [apply, write, BarEvent.writes, BarEvent.status?, hw, hi, hz]
      · by_cases hz : (run log).status c = 0 <;>
          simp [apply, read, BarEvent.writes, BarEvent.status?, hw, hz]

/-- A read finds what was written last, or the first nonzero status behind the last write. -/
theorem value_run (index : BitVec 6) (log : List BarEvent) :
    (run log).value index =
      match statusChannel index with
      | some c => firstStatus c log
      | none => lastWritten index log := by
  simp only [value, regs_run, status_run]

end RegisterFile

end FpgaPcie
