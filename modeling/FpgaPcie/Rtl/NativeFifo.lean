import FpgaPcie.Lib.BoundedQueue
import FpgaPcie.Rtl.AsyncFifo

/-!
# The synchronous FIFO

`logic_sync_fifo` with its registered flags, and the show-ahead stage of `gen_native_fifo` in front of
it. Both run next to a bounded queue that gets the same operations.
-/

namespace FpgaPcie

/-- The registers of `logic_sync_fifo` and of its `logic_dpram`. -/
structure SyncFifo (depth : ℕ) (α : Type) where
  wptr : BitVec depth
  rptr : BitVec depth
  count : BitVec (depth + 1)
  full : Bool
  almostFull : Bool
  almostEmpty : Bool
  empty : Bool
  ramMem : BitVec depth → α
  rdData : α

structure FifoPort (α : Type) where
  wren : Bool
  rden : Bool
  data : α

variable {depth : ℕ} {α : Type}

namespace SyncFifo

variable (s : SyncFifo depth α) (p : FifoPort α)

/-- The registers behind a reset. The memory and its output register have none. -/
def reset (ramMem : BitVec depth → α) (rdData : α) : SyncFifo depth α :=
  ⟨0, 0, 0, false, false, true, true, ramMem, rdData⟩

def wrAck : Bool := p.wren && !s.full

def rdAck : Bool := p.rden && !s.empty

def countNext : BitVec (depth + 1) :=
  s.count + BitVec.ofNat _ (s.wrAck p).toNat - BitVec.ofNat _ (s.rdAck p).toNat

def clock : SyncFifo depth α where
  wptr := if s.wrAck p then s.wptr + 1 else s.wptr
  rptr := if s.rdAck p then s.rptr + 1 else s.rptr
  count := s.countNext p
  full := decide ((s.countNext p).toNat = 2 ^ depth)
  almostFull := decide (2 ^ depth - 1 ≤ (s.countNext p).toNat)
  almostEmpty := decide ((s.countNext p).toNat ≤ 1)
  empty := decide ((s.countNext p).toNat = 0)
  ramMem := if s.wrAck p then Function.update s.ramMem s.wptr p.data else s.ramMem
  rdData := if s.rdAck p then s.ramMem s.rptr else s.rdData

/-- The flags belong to `n` words. -/
structure Flags (n : ℕ) : Prop where
  count : s.count.toNat = n
  full : s.full = decide (n = 2 ^ depth)
  almostFull : s.almostFull = decide (2 ^ depth - 1 ≤ n)
  almostEmpty : s.almostEmpty = decide (n ≤ 1)
  empty : s.empty = decide (n = 0)

/-- The FIFO holds the words of `q`, oldest first. -/
structure Holds (q : BoundedQueue α (2 ^ depth)) : Prop where
  flags : s.Flags q.words.length
  wptr : s.wptr = s.rptr + BitVec.ofNat depth q.words.length
  cell : ∀ i w, q.words[i]? = some w → s.ramMem (s.rptr + BitVec.ofNat depth i) = w

end SyncFifo

/-- The bounded queue with the operations of the port. -/
def FifoPort.operate {cap : ℕ} (p : FifoPort α) (q : BoundedQueue α cap) : BoundedQueue α cap :=
  q.clock (if p.wren then [p.data] else []) p.rden

/-- The FIFO next to the queue, with the word that the queue has given last. -/
structure SyncTrace (depth : ℕ) (α : Type) where
  fifo : SyncFifo depth α
  queue : BoundedQueue α (2 ^ depth)
  given : Option α

namespace SyncTrace

variable (t : SyncTrace depth α) (p : FifoPort α)

def clock : SyncTrace depth α where
  fifo := t.fifo.clock p
  queue := p.operate t.queue
  given := if p.rden then t.queue.words.head?.or t.given else t.given

def run (ramMem : BitVec depth → α) (rdData : α) : List (FifoPort α) → SyncTrace depth α :=
  List.foldl clock ⟨.reset ramMem rdData, .empty _ _, none⟩

/-- The flags are those of the queue, and `q` is the word that it has given last. -/
structure Ok : Prop where
  flags : t.fifo.Flags t.queue.words.length
  q : ∀ w ∈ t.given, t.fifo.rdData = w

end SyncTrace

/-- The wrapper in `fwft` mode: the FIFO and the valid bit of its output register. -/
structure FwftFifo (depth : ℕ) (α : Type) where
  fifo : SyncFifo depth α
  fwftValidReg : Bool

namespace FwftFifo

variable (s : FwftFifo depth α) (p : FifoPort α)

def fifoRden : Bool := !s.fifo.empty && (!s.fwftValidReg || p.rden)

def q : α := s.fifo.rdData

def empty : Bool := !s.fwftValidReg

def full : Bool := s.fifo.full

def clock : FwftFifo depth α where
  fifo := s.fifo.clock ⟨p.wren, s.fifoRden p, p.data⟩
  fwftValidReg := if s.fifoRden p then true
    else if p.rden && s.fwftValidReg then false else s.fwftValidReg

end FwftFifo

/-- The wrapper next to a queue with room for one word more. The queue is read when the wrapper is. -/
structure FwftTrace (depth : ℕ) (α : Type) where
  fwft : FwftFifo depth α
  queue : BoundedQueue α (2 ^ depth + 1)

namespace FwftTrace

variable (t : FwftTrace depth α) (p : FifoPort α)

def clock : FwftTrace depth α where
  fwft := t.fwft.clock p
  queue := FifoPort.operate ⟨p.wren, p.rden && !t.fwft.empty, p.data⟩ t.queue

def run (ramMem : BitVec depth → α) (rdData : α) : List (FifoPort α) → FwftTrace depth α :=
  List.foldl clock ⟨⟨.reset ramMem rdData, false⟩, .empty _ _⟩

/-- `full` is the one of the queue, `q` shows the oldest word when `empty` is low, and a word that is
left in the queue is shown in the next cycle. -/
structure Ok : Prop where
  full : t.fwft.full = decide (t.queue.words.length = 2 ^ depth + 1)
  head : t.fwft.empty = false → t.queue.words.head? = some t.fwft.q
  next : ∀ p : FifoPort α, (if p.rden && !t.fwft.empty then t.queue.words.tail else t.queue.words) ≠ [] →
    (t.clock p).fwft.empty = false

end FwftTrace

/-! ### The synchronous FIFO -/

namespace SyncFifo

variable {s : SyncFifo depth α} {p : FifoPort α} {q : BoundedQueue α (2 ^ depth)}

lemma Flags.rdAck {n : ℕ} (h : s.Flags n) : s.rdAck p = (p.rden && decide (0 < n)) := by
  rw [SyncFifo.rdAck, h.empty]
  congr 1
  simp [Nat.pos_iff_ne_zero]

lemma Flags.wrAck {n : ℕ} (h : s.Flags n) (hn : n ≤ 2 ^ depth) :
    s.wrAck p = (p.wren && decide (n < 2 ^ depth)) := by
  rw [SyncFifo.wrAck, h.full]
  congr 1
  rw [← decide_not]
  exact decide_eq_decide.mpr (by omega)

lemma Flags.countNext {n m : ℕ} (h : s.Flags n) (hm : m + (s.rdAck p).toNat = n + (s.wrAck p).toNat)
    (hle : m ≤ 2 ^ depth) : (s.countNext p).toNat = m := by
  have hpow : 2 ^ (depth + 1) = 2 * 2 ^ depth := by rw [pow_succ, Nat.mul_comm]
  have hpos : 0 < 2 ^ depth := by positivity
  have hn := s.count.isLt
  have hr := Bool.toNat_le (s.rdAck p)
  have hw := Bool.toNat_le (s.wrAck p)
  rw [h.count] at hn
  rw [SyncFifo.countNext, BitVec.toNat_sub, BitVec.toNat_add, BitVec.toNat_ofNat, BitVec.toNat_ofNat, h.count]
  rw [hpow] at hn ⊢
  have hrmod : (s.rdAck p).toNat % (2 * 2 ^ depth) = (s.rdAck p).toNat := Nat.mod_eq_of_lt (by omega)
  have hwmod : (s.wrAck p).toNat % (2 * 2 ^ depth) = (s.wrAck p).toNat := Nat.mod_eq_of_lt (by omega)
  have hsum : 2 * 2 ^ depth - (s.rdAck p).toNat + (n + (s.wrAck p).toNat) = m + 2 * 2 ^ depth := by omega
  rw [hrmod, hwmod, Nat.add_mod_mod, hsum, Nat.add_mod_right, Nat.mod_eq_of_lt (by omega)]

lemma Holds.operate (h : s.Holds q) : (p.operate q).words =
    (if s.rdAck p then q.words.tail else q.words) ++ if s.wrAck p then [p.data] else [] := by
  rw [h.flags.rdAck, h.flags.wrAck q.length_le, FifoPort.operate]
  have hread : (if p.rden then q.words.tail else q.words) =
      if p.rden && decide (0 < q.words.length) then q.words.tail else q.words := by
    cases hq : q.words with
    | nil => simp
    | cons w ws => simp
  by_cases hw : p.wren = true
  · by_cases hroom : q.words.length < 2 ^ depth
    · simp [BoundedQueue.clock, hread, hw, hroom]
    · simp [BoundedQueue.clock, hread, hw, hroom]
  · simp [BoundedQueue.clock, hread, hw]

lemma Holds.read (h : s.Holds q) (hack : s.rdAck p = true) :
    q.words.head? = some (s.ramMem s.rptr) := by
  have hpos : 0 < q.words.length := by
    rw [h.flags.rdAck, Bool.and_eq_true, decide_eq_true_eq] at hack
    exact hack.2
  have hhead := List.getElem?_eq_getElem hpos
  have hcell := h.cell 0 _ hhead
  rw [BitVec.add_zero] at hcell
  rw [List.head?_eq_getElem?, hhead, ← hcell]

/-- The words that stay keep their cells, and the write pointer is behind them. -/
lemma Holds.stays (h : s.Holds q) :
    (∀ i w, (if s.rdAck p then q.words.tail else q.words)[i]? = some w → ∃ k, q.words[k]? = some w ∧
      (s.clock p).rptr + BitVec.ofNat depth i = s.rptr + BitVec.ofNat depth k) ∧
    (s.clock p).rptr + BitVec.ofNat depth (if s.rdAck p then q.words.tail else q.words).length = s.wptr := by
  cases hr : s.rdAck p with
  | false =>
    have hrptr : (s.clock p).rptr = s.rptr := by simp [SyncFifo.clock, hr]
    rw [hrptr, h.wptr]
    exact ⟨fun i w hw => ⟨i, hw, rfl⟩, rfl⟩
  | true =>
    have hrptr : ∀ i, (s.clock p).rptr + BitVec.ofNat depth i = s.rptr + BitVec.ofNat depth (i + 1) := by
      intro i
      simp only [SyncFifo.clock, hr, if_true]
      rw [BitVec.add_assoc, BitVec.add_comm 1, FifoTrace.ofNat_succ]
    have hpos : 0 < q.words.length := by
      rw [h.flags.rdAck, Bool.and_eq_true, decide_eq_true_eq] at hr
      exact hr.2
    rw [hrptr, h.wptr, if_pos rfl, List.length_tail, Nat.sub_add_cancel hpos]
    refine ⟨fun i w hw => ⟨i + 1, ?_, hrptr i⟩, rfl⟩
    rwa [List.getElem?_tail] at hw

lemma Holds.cell_clock (h : s.Holds q) (i : ℕ) (w : α) (hi : (p.operate q).words[i]? = some w) :
    (s.clock p).ramMem ((s.clock p).rptr + BitVec.ofNat depth i) = w := by
  obtain ⟨hstay, hend⟩ := h.stays (p := p)
  rw [h.operate] at hi
  generalize (if s.rdAck p then q.words.tail else q.words) = r at hstay hend hi
  cases hw : s.wrAck p with
  | false =>
    rw [hw, if_neg Bool.false_ne_true, List.append_nil] at hi
    obtain ⟨k, hk, hptr⟩ := hstay i w hi
    have hmem : (s.clock p).ramMem = s.ramMem := by simp [SyncFifo.clock, hw]
    rw [hmem, hptr]
    exact h.cell k w hk
  | true =>
    have hroom : q.words.length < 2 ^ depth := by
      rw [h.flags.wrAck q.length_le, Bool.and_eq_true, decide_eq_true_eq] at hw
      exact hw.2
    have hmem : (s.clock p).ramMem = Function.update s.ramMem s.wptr p.data := by simp [SyncFifo.clock, hw]
    rw [hw, if_pos rfl] at hi
    rw [hmem]
    by_cases hlt : i < r.length
    · rw [List.getElem?_append_left hlt] at hi
      obtain ⟨k, hk, hptr⟩ := hstay i w hi
      have hklt := (List.getElem?_eq_some_iff.mp hk).1
      have hne : s.rptr + BitVec.ofNat depth k ≠ s.wptr := by
        rw [h.wptr]
        intro heq
        exact FifoTrace.ofNat_ne hklt (by omega) (BitVec.add_right_inj s.rptr |>.mp heq).symm
      rw [hptr, Function.update_of_ne hne]
      exact h.cell k w hk
    · rw [List.getElem?_append_right (Nat.not_lt.mp hlt), List.getElem?_singleton] at hi
      split_ifs at hi with hz
      have hilen : i = r.length := by omega
      rw [hilen, hend, Function.update_self]
      exact Option.some.inj hi

/-- One edge of the FIFO is one operation of the queue. -/
theorem Holds.clock (h : s.Holds q) : (s.clock p).Holds (p.operate q) := by
  have hwords := h.operate (p := p)
  have hle := (p.operate q).length_le
  have hlen : (p.operate q).words.length + (s.rdAck p).toNat = q.words.length + (s.wrAck p).toNat := by
    have hpos : s.rdAck p = true → 0 < q.words.length := by
      intro hr
      rw [h.flags.rdAck, Bool.and_eq_true, decide_eq_true_eq] at hr
      exact hr.2
    rw [hwords, List.length_append]
    cases hr : s.rdAck p with
    | false => cases s.wrAck p <;> simp
    | true =>
      have := hpos hr
      cases s.wrAck p <;> simp <;> omega
  have hcount := h.flags.countNext hlen hle
  refine ⟨⟨hcount, ?_, ?_, ?_, ?_⟩, ?_, h.cell_clock⟩
  · rw [SyncFifo.clock, hcount]
  · rw [SyncFifo.clock, hcount]
  · rw [SyncFifo.clock, hcount]
  · rw [SyncFifo.clock, hcount]
  · have hw : (s.clock p).wptr = s.wptr + BitVec.ofNat depth (s.wrAck p).toNat := by
      cases hw : s.wrAck p <;> simp [SyncFifo.clock, hw]
    have hr : (s.clock p).rptr = s.rptr + BitVec.ofNat depth (s.rdAck p).toNat := by
      cases hr : s.rdAck p <;> simp [SyncFifo.clock, hr]
    rw [hw, hr, h.wptr, BitVec.add_assoc, BitVec.add_assoc, ← BitVec.ofNat_add, ← BitVec.ofNat_add, ← hlen,
      Nat.add_comm]

lemma reset_holds (hd : 1 ≤ depth) (ramMem : BitVec depth → α) (rdData : α) :
    (reset ramMem rdData).Holds (.empty _ _) := by
  have hpow : 2 ≤ 2 ^ depth := by
    calc 2 = 2 ^ 1 := rfl
      _ ≤ 2 ^ depth := Nat.pow_le_pow_right (by norm_num) hd
  have hfull : ¬0 = 2 ^ depth := by omega
  have halmost : ¬2 ^ depth - 1 ≤ 0 := by omega
  refine ⟨⟨rfl, ?_, ?_, rfl, rfl⟩, by simp [reset], nofun⟩
  · exact (decide_eq_false hfull).symm
  · exact (decide_eq_false halmost).symm

end SyncFifo

/-! ### Runs -/

namespace SyncTrace

variable {t : SyncTrace depth α} {p : FifoPort α}

structure Inv (t : SyncTrace depth α) : Prop where
  holds : t.fifo.Holds t.queue
  given : ∀ w ∈ t.given, t.fifo.rdData = w

theorem Inv.clock (h : t.Inv) : (t.clock p).Inv := by
  refine ⟨h.holds.clock, fun w hw => ?_⟩
  cases hack : t.fifo.rdAck p with
  | true =>
    have hrden : p.rden = true := by
      rw [SyncFifo.rdAck, Bool.and_eq_true] at hack
      exact hack.1
    simp only [SyncTrace.clock, hrden, if_true, h.holds.read hack, Option.some_or, Option.mem_some_iff] at hw
    simp only [SyncTrace.clock, SyncFifo.clock, hack, if_true]
    exact hw
  | false =>
    have hsame : (t.clock p).given = t.given := by
      rw [h.holds.flags.rdAck, Bool.and_eq_false_iff] at hack
      rw [SyncTrace.clock]
      rcases hack with hrden | hempty
      · simp [hrden]
      · have hnil : t.queue.words = [] := by simpa using hempty
        simp [hnil]
    rw [hsame] at hw
    simp only [SyncTrace.clock, SyncFifo.clock, hack, Bool.false_eq_true, if_false]
    exact h.given w hw

theorem inv_run (hd : 1 ≤ depth) (ramMem : BitVec depth → α) (rdData : α) (ports : List (FifoPort α)) :
    (run ramMem rdData ports).Inv := by
  induction ports using List.reverseRecOn with
  | nil => exact ⟨SyncFifo.reset_holds hd ramMem rdData, nofun⟩
  | append_singleton ports p ih =>
    rw [run, List.foldl_concat]
    exact ih.clock

end SyncTrace

namespace FwftTrace

variable {t : FwftTrace depth α} {p : FifoPort α}

/-- The queue is the word in the output register and the words `r` of the FIFO. -/
structure Inv (t : FwftTrace depth α) (r : BoundedQueue α (2 ^ depth)) : Prop where
  holds : t.fwft.fifo.Holds r
  words : t.queue.words = (if t.fwft.fwftValidReg then [t.fwft.q] else []) ++ r.words
  full : r.words.length = 2 ^ depth → t.fwft.fwftValidReg = true

lemma Inv.fifoRden {r : BoundedQueue α (2 ^ depth)} (h : t.Inv r) : t.fwft.fifoRden p =
    (!r.words.isEmpty && (!t.fwft.fwftValidReg || p.rden)) := by
  rw [FwftFifo.fifoRden, h.holds.flags.empty]
  cases r.words <;> simp

lemma Inv.rdAck {r : BoundedQueue α (2 ^ depth)} (h : t.Inv r) :
    t.fwft.fifo.rdAck ⟨p.wren, t.fwft.fifoRden p, p.data⟩ = t.fwft.fifoRden p := by
  rw [h.holds.flags.rdAck, h.fifoRden]
  cases r.words <;> simp

lemma Inv.isFull {r : BoundedQueue α (2 ^ depth)} (h : t.Inv r) :
    t.fwft.full = decide (t.queue.words.length = 2 ^ depth + 1) := by
  have hle := r.length_le
  have hlen : t.queue.words.length = t.fwft.fwftValidReg.toNat + r.words.length := by
    rw [h.words, List.length_append]
    cases t.fwft.fwftValidReg <;> rfl
  rw [FwftFifo.full, h.holds.flags.full, hlen]
  apply decide_eq_decide.mpr
  constructor
  · intro hfull
    rw [h.full hfull, Bool.toNat_true]
    omega
  · have hone := Bool.toNat_le t.fwft.fwftValidReg
    omega

lemma Inv.head {r : BoundedQueue α (2 ^ depth)} (h : t.Inv r) (he : t.fwft.empty = false) :
    t.queue.words.head? = some t.fwft.q := by
  have hv : t.fwft.fwftValidReg = true := by simpa [FwftFifo.empty] using he
  rw [h.words, hv]
  rfl

/-- A word that is left in the queue is in the output register behind the edge. -/
lemma Inv.next {r : BoundedQueue α (2 ^ depth)} (h : t.Inv r)
    (hne : (if p.rden && !t.fwft.empty then t.queue.words.tail else t.queue.words) ≠ []) :
    (t.clock p).fwft.fwftValidReg = true := by
  rw [h.words, FwftFifo.empty] at hne
  simp only [FwftTrace.clock, FwftFifo.clock, h.fifoRden]
  cases hv : t.fwft.fwftValidReg <;> cases hr : p.rden <;> cases hw : r.words <;> simp_all

/-- What is left of the queue moves up: the next word of the FIFO goes to the output register. -/
lemma Inv.shift {r : BoundedQueue α (2 ^ depth)} (h : t.Inv r) :
    (if p.rden && !t.fwft.empty then t.queue.words.tail else t.queue.words) =
      (if (t.clock p).fwft.fwftValidReg then [(t.clock p).fwft.q] else []) ++
        if t.fwft.fifoRden p then r.words.tail else r.words := by
  have hq : t.fwft.fifoRden p = true → r.words = (t.clock p).fwft.q :: r.words.tail := by
    intro hrd
    have hack := h.rdAck (p := p)
    rw [hrd] at hack
    have hhead := h.holds.read hack
    have hnew : (t.clock p).fwft.q = t.fwft.fifo.ramMem t.fwft.fifo.rptr := by
      simp [FwftTrace.clock, FwftFifo.clock, FwftFifo.q, SyncFifo.clock, hrd, hack]
    rw [hnew]
    exact List.eq_cons_of_mem_head? hhead
  have hkeep : t.fwft.fifoRden p = false → (t.clock p).fwft.q = t.fwft.q := by
    intro hrd
    have hack := h.rdAck (p := p)
    rw [hrd] at hack
    simp [FwftTrace.clock, FwftFifo.clock, FwftFifo.q, SyncFifo.clock, hrd, hack]
  have hvalid : (t.clock p).fwft.fwftValidReg = (t.fwft.fifoRden p ||
      (t.fwft.fwftValidReg && !p.rden)) := by
    simp only [FwftTrace.clock, FwftFifo.clock]
    cases t.fwft.fifoRden p <;> cases p.rden <;> cases t.fwft.fwftValidReg <;> rfl
  rw [hvalid, h.words, FwftFifo.empty, Bool.not_not]
  cases hrd : t.fwft.fifoRden p with
  | true =>
    have hr := hq hrd
    have hgo : (!t.fwft.fwftValidReg || p.rden) = true := by
      rw [h.fifoRden, Bool.and_eq_true] at hrd
      exact hrd.2
    cases hv : t.fwft.fwftValidReg with
    | false => simpa using hr
    | true =>
      rw [hv, Bool.not_true, Bool.false_or] at hgo
      simpa [hgo] using hr
  | false =>
    rw [hkeep hrd]
    cases hv : t.fwft.fwftValidReg with
    | false => simp
    | true => cases hd : p.rden <;> simp

lemma Inv.clock_full {r : BoundedQueue α (2 ^ depth)} (hd : 1 ≤ depth) (h : t.Inv r)
    (hfull : (FifoPort.operate ⟨p.wren, t.fwft.fifoRden p, p.data⟩ r).words.length = 2 ^ depth) :
    (t.clock p).fwft.fwftValidReg = true := by
  have hpow : 2 ≤ 2 ^ depth := by
    calc 2 = 2 ^ 1 := rfl
      _ ≤ 2 ^ depth := Nat.pow_le_pow_right (by norm_num) hd
  rw [h.holds.operate, h.rdAck] at hfull
  cases hrd : t.fwft.fifoRden p with
  | true => simp [FwftTrace.clock, FwftFifo.clock, hrd]
  | false =>
    -- a FIFO that is not read although it has words has a valid word in front of it
    rw [hrd, if_neg Bool.false_ne_true, List.length_append] at hfull
    dsimp only at hfull
    have hone : (if t.fwft.fifo.wrAck ⟨p.wren, false, p.data⟩ then [p.data] else []).length ≤ 1 := by
      split <;> simp
    have hne : r.words.isEmpty = false := by
      cases hr : r.words with
      | nil =>
        rw [hr, List.length_nil] at hfull
        omega
      | cons => rfl
    have hwait := h.fifoRden (p := p)
    rw [hrd, hne] at hwait
    have hstay : t.fwft.fwftValidReg = true ∧ p.rden = false := by
      cases hv : t.fwft.fwftValidReg <;> cases hr : p.rden <;> simp [hv, hr] at hwait ⊢
    simp [FwftTrace.clock, FwftFifo.clock, hrd, hstay.1, hstay.2]

theorem Inv.clock {r : BoundedQueue α (2 ^ depth)} (hd : 1 ≤ depth) (h : t.Inv r) :
    (t.clock p).Inv (FifoPort.operate ⟨p.wren, t.fwft.fifoRden p, p.data⟩ r) := by
  refine ⟨h.holds.clock, ?_, h.clock_full hd⟩
  have hwords := h.holds.operate (p := ⟨p.wren, t.fwft.fifoRden p, p.data⟩)
  rw [h.rdAck] at hwords
  have hroom : (if t.queue.words.length + (if p.wren then [p.data] else []).length ≤ 2 ^ depth + 1 then
      (if p.wren then [p.data] else []) else []) =
      if t.fwft.fifo.wrAck ⟨p.wren, t.fwft.fifoRden p, p.data⟩ then [p.data] else [] := by
    have hfull := h.isFull
    have hle := t.queue.length_le
    rw [FwftFifo.full] at hfull
    rw [SyncFifo.wrAck, hfull]
    cases hw : p.wren with
    | false => simp
    | true =>
      by_cases hq : t.queue.words.length = 2 ^ depth + 1
      · simp [hq]
      · have hlt : t.queue.words.length + 1 ≤ 2 ^ depth + 1 := by omega
        simp [hq, hlt]
  have hqueue : (t.clock p).queue.words =
      (if p.rden && !t.fwft.empty then t.queue.words.tail else t.queue.words) ++
        if t.fwft.fifo.wrAck ⟨p.wren, t.fwft.fifoRden p, p.data⟩ then [p.data] else [] := by
    rw [← hroom]
    rfl
  rw [hqueue, hwords, h.shift, List.append_assoc]

theorem inv_run (hd : 1 ≤ depth) (ramMem : BitVec depth → α) (rdData : α) (ports : List (FifoPort α)) :
    ∃ r, (run ramMem rdData ports).Inv r := by
  induction ports using List.reverseRecOn with
  | nil =>
    refine ⟨.empty _ _, SyncFifo.reset_holds hd ramMem rdData, rfl, fun hfull => ?_⟩
    have hpos : 0 < 2 ^ depth := by positivity
    rw [BoundedQueue.empty_words, List.length_nil] at hfull
    omega
  | append_singleton ports p ih =>
    obtain ⟨r, h⟩ := ih
    rw [run, List.foldl_concat]
    exact ⟨_, h.clock hd⟩

end FwftTrace

/-- For every depth and all operations out of reset: the flags and the output of the FIFO are those of
a queue of `2 ^ depth` words, and with the show-ahead stage those of a queue of one word more. -/
theorem native_fifo_sync (hd : 1 ≤ depth) (ramMem : BitVec depth → α) (rdData : α) (ports : List (FifoPort α)) :
    (SyncTrace.run ramMem rdData ports).Ok ∧ (FwftTrace.run ramMem rdData ports).Ok := by
  have hsync := SyncTrace.inv_run hd ramMem rdData ports
  obtain ⟨r, hfwft⟩ := FwftTrace.inv_run hd ramMem rdData ports
  refine ⟨⟨hsync.holds.flags, hsync.given⟩, ⟨hfwft.isFull, hfwft.head, fun p hne => ?_⟩⟩
  rw [FwftFifo.empty, hfwft.next hne, Bool.not_true]

/-- Two cells: two writes, a refused write with a read, a write with a read, and a read. -/
def edgePorts : List (FifoPort ℕ) :=
  [⟨true, false, 5⟩, ⟨true, false, 7⟩, ⟨true, true, 9⟩, ⟨true, true, 11⟩, ⟨false, true, 0⟩]

theorem native_fifo_sync_edges : (SyncTrace.run (fun _ : BitVec 1 => 0) 0 edgePorts).given = some 11 ∧
    (SyncTrace.run (fun _ : BitVec 1 => 0) 0 edgePorts).Ok ∧ (FwftTrace.run (fun _ : BitVec 1 => 0) 0 edgePorts).Ok :=
  ⟨by decide, native_fifo_sync (Nat.le_refl 1) _ _ _⟩

end FpgaPcie
