import FpgaPcie.Lib.GrayCode

/-!
# The asynchronous FIFO

`logic_async_fifo`: each clock domain compares its own pointer with the Gray code of the other one,
which it sees two edges late. The pointers are followed by the numbers of words written and read,
and each synchroniser by the number that it has last seen.
-/

namespace FpgaPcie

open GrayCode

/-- The registers of `logic_async_fifo` and of its `logic_dpram`; pointers have one bit more than
addresses. -/
structure AsyncFifo (depth : ℕ) (α : Type) where
  wrPtrBin : BitVec (depth + 1)
  rdPtrBin : BitVec (depth + 1)
  rdPtrGraySync1 : BitVec (depth + 1)
  rdPtrGraySync2 : BitVec (depth + 1)
  wrPtrGraySync1 : BitVec (depth + 1)
  wrPtrGraySync2 : BitVec (depth + 1)
  ramMem : BitVec depth → α
  rdData : α

structure WrPort (α : Type) where
  wrEn : Bool
  wrData : α

/-- An edge of `wr_clk`, of `rd_clk`, or of both at once. On a common edge each side may sample the
pointer of the other one as it was before the edge or as it is behind it. -/
structure ClockEdge (α : Type) where
  wr : Option (WrPort α)
  /-- `rd_en` at an edge of `rd_clk` -/
  rd : Option Bool
  wrSeesNew : Bool
  rdSeesNew : Bool

namespace AsyncFifo

variable {depth : ℕ} {α : Type} (s : AsyncFifo depth α) (e : ClockEdge α)

/-- The registers behind a reset. The memory and its output register have none. -/
def reset (ramMem : BitVec depth → α) (rdData : α) : AsyncFifo depth α :=
  ⟨0, 0, 0, 0, 0, 0, ramMem, rdData⟩

def empty : Bool := gray s.rdPtrBin == s.wrPtrGraySync2

def full : Bool := gray (s.wrPtrBin + 1) == invertTop s.rdPtrGraySync2

def wrAck : Bool := e.wr.any fun p => p.wrEn && !s.full

def rdAck : Bool := e.rd.any fun rdEn => rdEn && !s.empty

def wrPtrBinNext : BitVec (depth + 1) := if s.wrAck e then s.wrPtrBin + 1 else s.wrPtrBin

def rdPtrBinNext : BitVec (depth + 1) := if s.rdAck e then s.rdPtrBin + 1 else s.rdPtrBin

def wrAddr : BitVec depth := s.wrPtrBin.setWidth depth

def rdAddr : BitVec depth := s.rdPtrBin.setWidth depth

def clock : AsyncFifo depth α where
  wrPtrBin := s.wrPtrBinNext e
  rdPtrBin := s.rdPtrBinNext e
  rdPtrGraySync1 := if e.wr.isSome then
    gray (if e.wrSeesNew then s.rdPtrBinNext e else s.rdPtrBin) else s.rdPtrGraySync1
  rdPtrGraySync2 := if e.wr.isSome then s.rdPtrGraySync1 else s.rdPtrGraySync2
  wrPtrGraySync1 := if e.rd.isSome then
    gray (if e.rdSeesNew then s.wrPtrBinNext e else s.wrPtrBin) else s.wrPtrGraySync1
  wrPtrGraySync2 := if e.rd.isSome then s.wrPtrGraySync1 else s.wrPtrGraySync2
  ramMem := match e.wr with
    | some p => if s.wrAck e then Function.update s.ramMem s.wrAddr p.wrData else s.ramMem
    | none => s.ramMem
  rdData := if s.rdAck e then s.ramMem s.rdAddr else s.rdData

end AsyncFifo

/-- The FIFO with the words of its accepted writes and those that its accepted reads returned. -/
structure FifoTrace (depth : ℕ) (α : Type) where
  fifo : AsyncFifo depth α
  written : List α
  returned : List α

namespace FifoTrace

variable {depth : ℕ} {α : Type} (t : FifoTrace depth α) (e : ClockEdge α)

def clock : FifoTrace depth α where
  fifo := t.fifo.clock e
  written := match e.wr with
    | some p => if t.fifo.wrAck e then t.written ++ [p.wrData] else t.written
    | none => t.written
  returned := if t.fifo.rdAck e then t.returned ++ [(t.fifo.clock e).rdData] else t.returned

def run (ramMem : BitVec depth → α) (rdData : α) : List (ClockEdge α) → FifoTrace depth α :=
  List.foldl clock ⟨.reset ramMem rdData, [], []⟩

/-- What has been returned is what was written first, and all the rest has its place. -/
structure Ok : Prop where
  order : t.returned <+: t.written
  occupancy : t.written.length - t.returned.length ≤ 2 ^ depth - 1

/-- An accepted write spares the words that have not been read, and an accepted read takes the
first of them. -/
structure EdgeOk : Prop where
  write : t.fifo.wrAck e = true → ∀ i, t.returned.length ≤ i → i < t.written.length →
    t.fifo.wrAddr ≠ BitVec.ofNat depth i
  read : t.fifo.rdAck e = true → t.returned.length < t.written.length ∧
    t.fifo.rdAddr = BitVec.ofNat depth t.returned.length

/-- The pointers count the words, and the synchronisers hold what they have seen of them: `r₁` and
`r₂` words read, `w₁` and `w₂` words written. -/
structure Counts (r₁ r₂ w₁ w₂ : ℕ) : Prop where
  wrPtrBin : t.fifo.wrPtrBin = BitVec.ofNat (depth + 1) t.written.length
  rdPtrBin : t.fifo.rdPtrBin = BitVec.ofNat (depth + 1) t.returned.length
  rdSync1 : t.fifo.rdPtrGraySync1 = gray (BitVec.ofNat (depth + 1) r₁)
  rdSync2 : t.fifo.rdPtrGraySync2 = gray (BitVec.ofNat (depth + 1) r₂)
  wrSync1 : t.fifo.wrPtrGraySync1 = gray (BitVec.ofNat (depth + 1) w₁)
  wrSync2 : t.fifo.wrPtrGraySync2 = gray (BitVec.ofNat (depth + 1) w₂)
  reads : r₂ ≤ r₁ ∧ r₁ ≤ t.returned.length
  readable : t.returned.length ≤ w₂
  writes : w₂ ≤ w₁ ∧ w₁ ≤ t.written.length
  writable : t.written.length < r₂ + 2 ^ depth
  order : t.returned <+: t.written
  ram : ∀ i (h : i < t.written.length), t.returned.length ≤ i →
    t.fifo.ramMem (BitVec.ofNat depth i) = t.written[i]

variable {t e} {r₁ r₂ w₁ w₂ : ℕ}

lemma ofNat_succ (w n : ℕ) : BitVec.ofNat w n + 1 = BitVec.ofNat w (n + 1) :=
  (BitVec.ofNat_add n 1).symm

lemma ofNat_ne {i j : ℕ} (hij : i < j) (hlt : j < i + 2 ^ depth) :
    BitVec.ofNat depth j ≠ BitVec.ofNat depth i := by
  intro h
  have hmod := congrArg BitVec.toNat h
  simp only [BitVec.toNat_ofNat] at hmod
  have hsub := Nat.sub_mod_eq_zero_of_mod_eq hmod
  have hz := Nat.eq_zero_of_dvd_of_lt (Nat.dvd_of_mod_eq_zero hsub) (by omega)
  omega

lemma Counts.empty_iff (h : t.Counts r₁ r₂ w₁ w₂) : t.fifo.empty = true ↔ t.returned.length = w₂ := by
  have hr := h.reads
  have hw := h.writes
  have hlt := h.writable
  rw [AsyncFifo.empty, beq_iff_eq, h.rdPtrBin, h.wrSync2]
  exact gray_eq_iff h.readable (by rw [pow_succ]; omega)

lemma Counts.full_iff (h : t.Counts r₁ r₂ w₁ w₂) (hd : 1 ≤ depth) :
    t.fifo.full = true ↔ t.written.length + 1 = r₂ + 2 ^ depth := by
  have hr := h.reads
  have hw := h.writes
  have hle := h.readable
  have hlt := h.writable
  have hhalf := gray_half_turn (w := depth + 1) r₂ (by omega)
  rw [Nat.add_sub_cancel] at hhalf
  rw [AsyncFifo.full, beq_iff_eq, h.wrPtrBin, h.rdSync2, ofNat_succ, ← hhalf]
  exact gray_eq_iff (by omega) (by rw [pow_succ]; omega)

lemma Counts.wrAddr (h : t.Counts r₁ r₂ w₁ w₂) :
    t.fifo.wrAddr = BitVec.ofNat depth t.written.length := by
  rw [AsyncFifo.wrAddr, h.wrPtrBin, BitVec.setWidth_ofNat_of_le (Nat.le_succ depth)]

lemma Counts.rdAddr (h : t.Counts r₁ r₂ w₁ w₂) :
    t.fifo.rdAddr = BitVec.ofNat depth t.returned.length := by
  rw [AsyncFifo.rdAddr, h.rdPtrBin, BitVec.setWidth_ofNat_of_le (Nat.le_succ depth)]

lemma Counts.room (h : t.Counts r₁ r₂ w₁ w₂) (hd : 1 ≤ depth) (hack : t.fifo.wrAck e = true) :
    t.written.length + 1 < r₂ + 2 ^ depth := by
  have hlt := h.writable
  have hfull : ¬t.written.length + 1 = r₂ + 2 ^ depth := by
    rw [← h.full_iff hd]
    intro hfull
    simp [AsyncFifo.wrAck, hfull] at hack
  omega

lemma Counts.available (h : t.Counts r₁ r₂ w₁ w₂) (hack : t.fifo.rdAck e = true) :
    t.returned.length < w₂ := by
  have hle := h.readable
  have hempty : ¬t.returned.length = w₂ := by
    rw [← h.empty_iff]
    intro hempty
    simp [AsyncFifo.rdAck, hempty] at hack
  omega

theorem Counts.edgeOk (h : t.Counts r₁ r₂ w₁ w₂) (hd : 1 ≤ depth) (e : ClockEdge α) :
    t.EdgeOk e where
  write hack i hlo hhi := by
    have hroom := h.room hd hack
    have hr := h.reads
    rw [h.wrAddr]
    exact ofNat_ne hhi (by omega)
  read hack := by
    have hw := h.writes
    have hav := h.available hack
    exact ⟨by omega, h.rdAddr⟩

lemma clock_of_wrAck (hack : t.fifo.wrAck e = true) : ∃ p, e.wr = some p ∧
    (t.clock e).written = t.written ++ [p.wrData] ∧
      (t.clock e).fifo.ramMem = Function.update t.fifo.ramMem t.fifo.wrAddr p.wrData := by
  cases hwr : e.wr with
  | none => simp [AsyncFifo.wrAck, hwr] at hack
  | some p => exact ⟨p, rfl, by simp [clock, hwr, hack], by simp [clock, AsyncFifo.clock, hwr, hack]⟩

lemma clock_of_not_wrAck (hack : t.fifo.wrAck e = false) :
    (t.clock e).written = t.written ∧ (t.clock e).fifo.ramMem = t.fifo.ramMem := by
  cases hwr : e.wr <;> simp [clock, AsyncFifo.clock, hwr, hack]

lemma clock_written_length :
    (t.clock e).written.length = t.written.length + (t.fifo.wrAck e).toNat := by
  cases hack : t.fifo.wrAck e with
  | true =>
    obtain ⟨p, -, hw, -⟩ := clock_of_wrAck hack
    simp [hw]
  | false => simp [(clock_of_not_wrAck hack).1]

lemma clock_returned_length :
    (t.clock e).returned.length = t.returned.length + (t.fifo.rdAck e).toNat := by
  cases hack : t.fifo.rdAck e <;> simp [clock, hack]

lemma Counts.wrPtrBinNext (h : t.Counts r₁ r₂ w₁ w₂) :
    t.fifo.wrPtrBinNext e = BitVec.ofNat (depth + 1) (t.clock e).written.length := by
  rw [clock_written_length, AsyncFifo.wrPtrBinNext, h.wrPtrBin]
  cases t.fifo.wrAck e
  · rfl
  · exact ofNat_succ _ _

lemma Counts.rdPtrBinNext (h : t.Counts r₁ r₂ w₁ w₂) :
    t.fifo.rdPtrBinNext e = BitVec.ofNat (depth + 1) (t.clock e).returned.length := by
  rw [clock_returned_length, AsyncFifo.rdPtrBinNext, h.rdPtrBin]
  cases t.fifo.rdAck e
  · rfl
  · exact ofNat_succ _ _

lemma Counts.order_clock (h : t.Counts r₁ r₂ w₁ w₂) (e : ClockEdge α) :
    (t.clock e).returned <+: (t.clock e).written := by
  have hgrow : t.written <+: (t.clock e).written := by
    cases hack : t.fifo.wrAck e with
    | true =>
      obtain ⟨p, -, hw, -⟩ := clock_of_wrAck hack
      rw [hw]
      exact List.prefix_append _ _
    | false => rw [(clock_of_not_wrAck hack).1]
  cases hack : t.fifo.rdAck e with
  | false =>
    have heq : (t.clock e).returned = t.returned := by simp [clock, hack]
    rw [heq]
    exact h.order.trans hgrow
  | true =>
    have hw := h.writes
    have hlt : t.returned.length < t.written.length := by
      have hav := h.available hack
      omega
    have heq : (t.clock e).returned = t.returned ++ [t.written[t.returned.length]] := by
      have hcell := h.ram _ hlt (Nat.le_refl _)
      simp [clock, AsyncFifo.clock, hack, h.rdAddr, hcell]
    refine List.IsPrefix.trans ?_ hgrow
    rw [heq, List.prefix_iff_eq_take]
    have htake := List.prefix_iff_eq_take.mp h.order
    rw [List.length_append, List.length_singleton, List.take_succ_eq_append_getElem hlt, ← htake]

lemma Counts.ram_clock (h : t.Counts r₁ r₂ w₁ w₂) (hd : 1 ≤ depth) (i : ℕ)
    (hi : i < (t.clock e).written.length) (hlo : (t.clock e).returned.length ≤ i) :
    (t.clock e).fifo.ramMem (BitVec.ofNat depth i) = (t.clock e).written[i] := by
  have hlo' : t.returned.length ≤ i := by
    rw [clock_returned_length] at hlo
    omega
  cases hack : t.fifo.wrAck e with
  | false =>
    obtain ⟨hw, hm⟩ := clock_of_not_wrAck hack
    simp only [hw, hm]
    exact h.ram i (hw ▸ hi) hlo'
  | true =>
    obtain ⟨p, -, hw, hm⟩ := clock_of_wrAck hack
    have hroom := h.room hd hack
    have hr := h.reads
    simp only [hw, hm, h.wrAddr]
    rw [hw, List.length_append, List.length_singleton] at hi
    by_cases hlast : i < t.written.length
    · rw [Function.update_of_ne (ofNat_ne hlast (by omega)).symm, List.getElem_append_left hlast]
      exact h.ram i hlast hlo'
    · obtain rfl : i = t.written.length := by omega
      rw [Function.update_self, List.getElem_concat_length rfl]

/-- Each side's view of the other one moves towards it and never past it. An edge of `rd_clk` brings the
writes before it into the first stage of the synchroniser, and those in the first stage into the second. -/
theorem Counts.clock (h : t.Counts r₁ r₂ w₁ w₂) (hd : 1 ≤ depth) (e : ClockEdge α) :
    ∃ r₁' r₂' w₁' w₂', (t.clock e).Counts r₁' r₂' w₁' w₂' ∧ (w₁ ≤ w₁' ∧ w₂ ≤ w₂') ∧
      (e.rd.isSome = true → t.written.length ≤ w₁' ∧ w₁ ≤ w₂') := by
  have hr := h.reads
  have hrd := h.readable
  have hw := h.writes
  have hwr := h.writable
  have hroom := h.room (e := e) hd
  have hav := h.available (e := e)
  have hwl := clock_written_length (t := t) (e := e)
  have hrl := clock_returned_length (t := t) (e := e)
  refine ⟨if e.wr.isSome then (if e.wrSeesNew then (t.clock e).returned.length
      else t.returned.length) else r₁, if e.wr.isSome then r₁ else r₂,
    if e.rd.isSome then (if e.rdSeesNew then (t.clock e).written.length
      else t.written.length) else w₁, if e.rd.isSome then w₁ else w₂, ?_, ?_, ?_⟩
  rotate_left
  · constructor <;> split_ifs <;> omega
  · intro hrd
    simp only [hrd, if_true]
    constructor
    · split_ifs <;> omega
    · exact Nat.le_refl _
  exact {
    wrPtrBin := h.wrPtrBinNext
    rdPtrBin := h.rdPtrBinNext
    rdSync1 := by
      change (if e.wr.isSome then _ else _) = _
      split_ifs
      · rw [h.rdPtrBinNext]
      · rw [h.rdPtrBin]
      · exact h.rdSync1
    rdSync2 := by
      change (if e.wr.isSome then _ else _) = _
      split_ifs
      · exact h.rdSync1
      · exact h.rdSync2
    wrSync1 := by
      change (if e.rd.isSome then _ else _) = _
      split_ifs
      · rw [h.wrPtrBinNext]
      · rw [h.wrPtrBin]
      · exact h.wrSync1
    wrSync2 := by
      change (if e.rd.isSome then _ else _) = _
      split_ifs
      · exact h.wrSync1
      · exact h.wrSync2
    reads := by split_ifs <;> omega
    readable := by
      cases hack : t.fifo.rdAck e
      · simp only [hack, Bool.toNat_false] at hrl
        split_ifs <;> omega
      · have hlt := hav hack
        simp only [hack, Bool.toNat_true] at hrl
        split_ifs <;> omega
    writes := by split_ifs <;> omega
    writable := by
      cases hack : t.fifo.wrAck e
      · simp only [hack, Bool.toNat_false] at hwl
        split_ifs <;> omega
      · have hlt := hroom hack
        simp only [hack, Bool.toNat_true] at hwl
        split_ifs <;> omega
    order := h.order_clock e
    ram := fun i hi hlo => h.ram_clock hd i hi hlo }

/-- The read side is about to see the first `k` writes. -/
def Arriving (k : ℕ) (t : FifoTrace depth α) : Prop := ∃ r₁ r₂ w₁ w₂, t.Counts r₁ r₂ w₁ w₂ ∧ k ≤ w₁

/-- The read side sees the first `k` writes. -/
def Visible (k : ℕ) (t : FifoTrace depth α) : Prop := ∃ r₁ r₂ w₁ w₂, t.Counts r₁ r₂ w₁ w₂ ∧ k ≤ w₂

lemma Counts.arriving_clock (h : t.Counts r₁ r₂ w₁ w₂) (hd : 1 ≤ depth) (hrd : e.rd.isSome = true) :
    (t.clock e).Arriving t.written.length := by
  obtain ⟨_, _, _, _, h', -, hsees⟩ := h.clock hd e
  exact ⟨_, _, _, _, h', (hsees hrd).1⟩

lemma Arriving.clock {k : ℕ} (h : t.Arriving k) (hd : 1 ≤ depth) (e : ClockEdge α) :
    (t.clock e).Arriving k := by
  obtain ⟨_, _, _, _, h, hk⟩ := h
  obtain ⟨_, _, _, _, h', hmono, -⟩ := h.clock hd e
  exact ⟨_, _, _, _, h', hk.trans hmono.1⟩

lemma Arriving.visible_clock {k : ℕ} (h : t.Arriving k) (hd : 1 ≤ depth) (hrd : e.rd.isSome = true) :
    (t.clock e).Visible k := by
  obtain ⟨_, _, _, _, h, hk⟩ := h
  obtain ⟨_, _, _, _, h', -, hsees⟩ := h.clock hd e
  exact ⟨_, _, _, _, h', hk.trans (hsees hrd).2⟩

lemma Visible.clock {k : ℕ} (h : t.Visible k) (hd : 1 ≤ depth) (e : ClockEdge α) : (t.clock e).Visible k := by
  obtain ⟨_, _, _, _, h, hk⟩ := h
  obtain ⟨_, _, _, _, h', hmono, -⟩ := h.clock hd e
  exact ⟨_, _, _, _, h', hk.trans hmono.2⟩

/-- A word that the read side sees can be read. -/
lemma Visible.not_empty {k : ℕ} (h : t.Visible k) (hlt : t.returned.length < k) : t.fifo.empty = false := by
  obtain ⟨_, _, _, w₂, h, hk⟩ := h
  rw [← Bool.not_eq_true, h.empty_iff]
  omega

lemma counts_reset (ramMem : BitVec depth → α) (rdData : α) :
    (⟨.reset ramMem rdData, [], []⟩ : FifoTrace depth α).Counts 0 0 0 0 where
  wrPtrBin := rfl
  rdPtrBin := rfl
  rdSync1 := by simp [AsyncFifo.reset, gray]
  rdSync2 := by simp [AsyncFifo.reset, gray]
  wrSync1 := by simp [AsyncFifo.reset, gray]
  wrSync2 := by simp [AsyncFifo.reset, gray]
  reads := ⟨Nat.le_refl _, Nat.le_refl _⟩
  readable := Nat.le_refl _
  writes := ⟨Nat.le_refl _, Nat.le_refl _⟩
  writable := by simp
  order := List.nil_prefix
  ram i hi := by simp at hi

theorem counts_run (hd : 1 ≤ depth) (ramMem : BitVec depth → α) (rdData : α)
    (edges : List (ClockEdge α)) :
    ∃ r₁ r₂ w₁ w₂, (run ramMem rdData edges).Counts r₁ r₂ w₁ w₂ := by
  induction edges using List.reverseRecOn with
  | nil => exact ⟨0, 0, 0, 0, counts_reset ramMem rdData⟩
  | append_singleton edges e ih =>
    obtain ⟨r₁, r₂, w₁, w₂, h⟩ := ih
    rw [run, List.foldl_concat]
    obtain ⟨r₁', r₂', w₁', w₂', h', -⟩ := h.clock hd e
    exact ⟨r₁', r₂', w₁', w₂', h'⟩

/-- In every run the words come out in the order in which they went in, each once, there are never
more than `2 ^ depth - 1` of them inside, and no edge overwrites one or reads one that is not
there. -/
theorem async_fifo_ok (hd : 2 ≤ depth) (ramMem : BitVec depth → α) (rdData : α)
    (edges : List (ClockEdge α)) :
    (run ramMem rdData edges).Ok ∧ ∀ e, (run ramMem rdData edges).EdgeOk e := by
  obtain ⟨r₁, r₂, w₁, w₂, h⟩ := counts_run (by omega) ramMem rdData edges
  have hr := h.reads
  have hw := h.writable
  exact ⟨⟨h.order, by omega⟩, fun e => h.edgeOk (by omega) e⟩

/-- Two writes, two reads behind the synchroniser, the second one on a common edge with a write. -/
def commonEdges : List (ClockEdge ℕ) :=
  [⟨some ⟨true, 5⟩, none, false, false⟩, ⟨some ⟨true, 7⟩, none, false, false⟩,
    ⟨none, some false, false, false⟩, ⟨none, some true, false, false⟩,
    ⟨none, some true, false, false⟩, ⟨some ⟨true, 9⟩, some true, true, false⟩]

theorem async_fifo_ok_common :
    (run (fun _ : BitVec 2 => 0) 0 commonEdges).returned = [5, 7] ∧
      (run (fun _ : BitVec 2 => 0) 0 commonEdges).Ok ∧
        ∀ e, (run (fun _ : BitVec 2 => 0) 0 commonEdges).EdgeOk e :=
  ⟨by decide, async_fifo_ok (Nat.le_refl 2) _ _ _⟩

end FifoTrace

end FpgaPcie
