import FpgaPcie.Rtl.AsyncFifo
import FpgaPcie.Lib.Progress

/-!
# The show-ahead stage between two clocks

`gen_native_fifo` in `fwft` mode around `logic_async_fifo`. The FIFO is read at the edges of `rd_clk`,
but the valid bit of the show-ahead stage changes at the edges of `clk`.
-/

namespace FpgaPcie

/-- An edge of `clk`, with the write port, of `rd_clk`, or of both at once, and the level of `rden`. -/
structure FwftEdge (α : Type) where
  wr : Option (WrPort α)
  rdEdge : Bool
  rden : Bool
  wrSeesNew : Bool
  rdSeesNew : Bool

/-- The FIFO with the words written and returned, the valid bit, and the words that the consumer has
taken. -/
structure FwftAsyncTrace (depth : ℕ) (α : Type) where
  fifo : FifoTrace depth α
  fwftValidReg : Bool
  received : List α

namespace FwftAsyncTrace

variable {depth : ℕ} {α : Type} (t : FwftAsyncTrace depth α) (e : FwftEdge α)

def fifoRden : Bool := !t.fifo.fifo.empty && (!t.fwftValidReg || e.rden)

def q : α := t.fifo.fifo.rdData

/-- What the valid bit is at an edge of `clk`. -/
def fwftValidNext : Bool :=
  if t.fifoRden e then true
  else if e.rden && t.fwftValidReg then false else t.fwftValidReg

def fifoEdge : ClockEdge α where
  wr := e.wr
  rd := if e.rdEdge then some (t.fifoRden e) else none
  wrSeesNew := e.wrSeesNew
  rdSeesNew := e.rdSeesNew

/-- The consumer takes `q` at an edge of `rd_clk` with `rden` high and `empty` low. -/
def clock : FwftAsyncTrace depth α where
  fifo := t.fifo.clock (t.fifoEdge e)
  fwftValidReg := if e.wr.isSome then t.fwftValidNext e else t.fwftValidReg
  received := if e.rdEdge && (e.rden && t.fwftValidReg) then t.received ++ [t.q] else t.received

def run (ramMem : BitVec depth → α) (rdData : α) (e : ℕ → FwftEdge α) : ℕ → FwftAsyncTrace depth α
  | 0 => ⟨⟨.reset ramMem rdData, [], []⟩, false, []⟩
  | n + 1 => (run ramMem rdData e n).clock (e n)

/-- The word in front of the consumer. -/
def shown : List α := if t.fwftValidReg then [t.q] else []

/-- The words received, the word shown and the words in the FIFO are the words written. -/
def Ok : Prop :=
  t.received ++ t.shown ++ t.fifo.written.drop t.fifo.returned.length = t.fifo.written

/-- Where the valid bit has to change, since a word can be prefetched or the last one is taken, neither
clock has an edge without the other. -/
def Together : Prop :=
  t.fifo.fifo.empty = t.fwftValidReg → (t.fwftValidReg = true → e.rden = true) →
    e.wr.isSome = e.rdEdge

instance [DecidableEq α] : Decidable t.Ok :=
  inferInstanceAs (Decidable (_ = _))

instance : Decidable (t.Together e) :=
  inferInstanceAs (Decidable (_ → _ → _))

variable {t e}

lemma rdAck_eq : t.fifo.fifo.rdAck (t.fifoEdge e) = (e.rdEdge && t.fifoRden e) := by
  unfold AsyncFifo.rdAck fifoEdge fifoRden
  cases e.rdEdge with
  | false => rfl
  | true => cases t.fifo.fifo.empty <;> simp

lemma returned_clock : (t.clock e).fifo.returned = t.fifo.returned ++ if e.rdEdge && t.fifoRden e then
    [(t.clock e).q] else [] := by
  have hack := rdAck_eq (t := t) (e := e)
  cases hr : e.rdEdge && t.fifoRden e with
  | true =>
    rw [hr] at hack
    simp [clock, FifoTrace.clock, hack, q]
  | false =>
    rw [hr] at hack
    simp [clock, FifoTrace.clock, hack]

lemma q_clock (hr : (e.rdEdge && t.fifoRden e) = false) : (t.clock e).q = t.q := by
  have hack := rdAck_eq (t := t) (e := e)
  rw [hr] at hack
  simp [clock, FifoTrace.clock, AsyncFifo.clock, hack, q]

/-- With the valid bit in step every word that the FIFO has returned has been received or is shown. -/
theorem received_clock (htog : t.Together e) (h : t.received ++ t.shown = t.fifo.returned) :
    (t.clock e).received ++ (t.clock e).shown = (t.clock e).fifo.returned := by
  have hq := q_clock (t := t) (e := e)
  rw [returned_clock, ← h]
  unfold shown
  cases hv : t.fwftValidReg with
  | false =>
    have hreceived : (t.clock e).received = t.received := by simp [clock, hv]
    have hrden : t.fifoRden e = !t.fifo.fifo.empty := by simp [fifoRden, hv]
    rw [hreceived]
    cases hempty : t.fifo.fifo.empty with
    | true =>
      -- nothing to prefetch
      have hnext : t.fwftValidNext e = false := by simp [fwftValidNext, hrden, hempty, hv]
      have hvalid : (t.clock e).fwftValidReg = false := by simp [clock, hnext, hv]
      simp [hvalid, hrden, hempty]
    | false =>
      -- the prefetch raises the valid bit
      have hnext : t.fwftValidNext e = true := by simp [fwftValidNext, hrden, hempty]
      have hboth := htog (by rw [hempty, hv]) (by simp [hv])
      have hvalid : (t.clock e).fwftValidReg = e.rdEdge := by simp [clock, hboth, hnext, hv]
      rw [hvalid, hrden, hempty]
      cases e.rdEdge <;> simp
  | true =>
    cases hrden : e.rden with
    | false =>
      have hkeep : t.fifoRden e = false := by simp [fifoRden, hv, hrden]
      have hnext : t.fwftValidNext e = true := by simp [fwftValidNext, hkeep, hv, hrden]
      have hvalid : (t.clock e).fwftValidReg = true := by simp [clock, hnext, hv]
      have hreceived : (t.clock e).received = t.received := by simp [clock, hrden]
      rw [hvalid, hreceived, hkeep, hq (by rw [hkeep, Bool.and_false])]
      simp
    | true =>
      have hmove : t.fifoRden e = !t.fifo.fifo.empty := by simp [fifoRden, hrden]
      cases hempty : t.fifo.fifo.empty with
      | true =>
        -- the last word is taken, and the valid bit falls
        have hkeep : t.fifoRden e = false := by rw [hmove, hempty, Bool.not_true]
        have hnext : t.fwftValidNext e = false := by simp [fwftValidNext, hkeep, hrden, hv]
        have hboth := htog (by rw [hempty, hv]) (fun _ => hrden)
        have hvalid : (t.clock e).fwftValidReg = !e.rdEdge := by
          simp [clock, hboth, hnext, hv]
        have hreceived : (t.clock e).received = t.received ++ if e.rdEdge then [t.q] else [] := by
          cases hrd : e.rdEdge <;> simp [clock, hrd, hrden, hv]
        have hq' := hq (by rw [hkeep, Bool.and_false])
        rw [hvalid, hreceived, hkeep, hq']
        cases e.rdEdge <;> simp
      | false =>
        have hread : t.fifoRden e = true := by rw [hmove, hempty, Bool.not_false]
        have hnext : t.fwftValidNext e = true := by simp [fwftValidNext, hread]
        have hvalid : (t.clock e).fwftValidReg = true := by simp [clock, hnext, hv]
        cases hrd : e.rdEdge with
        | true =>
          have hreceived : (t.clock e).received = t.received ++ [t.q] := by simp [clock, hrd, hrden, hv]
          simp [hvalid, hreceived, hread]
        | false =>
          have hreceived : (t.clock e).received = t.received := by simp [clock, hrd]
          rw [hvalid, hreceived, hq (by rw [hrd, Bool.false_and])]
          simp

/-- What the consumer has and what it is shown are as many words as the FIFO has returned. -/
lemma length_of_ok (hord : t.fifo.returned <+: t.fifo.written) (h : t.Ok) :
    t.received.length + t.fwftValidReg.toNat = t.fifo.returned.length := by
  have hle := hord.length_le
  have hlen := congrArg List.length h
  have hshown : t.shown.length = t.fwftValidReg.toNat := by
    unfold shown
    cases t.fwftValidReg <;> rfl
  rw [List.length_append, List.length_append, List.length_drop, hshown] at hlen
  omega

lemma ok_of_received (hord : t.fifo.returned <+: t.fifo.written)
    (h : t.received ++ t.shown = t.fifo.returned) : t.Ok := by
  rw [Ok, h]
  exact List.prefix_iff_eq_append.mp hord

lemma together_of_ok (hord : t.fifo.returned <+: t.fifo.written)
    (hord' : (t.clock e).fifo.returned <+: (t.clock e).fifo.written) (h : t.Ok) (h' : (t.clock e).Ok) :
    t.Together e := by
  intro hempty hrden
  have hlen := length_of_ok hord h
  have hlen' := length_of_ok hord' h'
  rw [returned_clock] at hlen'
  revert hlen hlen' hrden
  simp only [clock, fwftValidNext, fifoRden, hempty]
  cases t.fwftValidReg <;> cases e.rdEdge <;> cases e.rden <;> cases e.wr.isSome <;> simp <;> omega

lemma counts_run (hd : 1 ≤ depth) (ramMem : BitVec depth → α) (rdData : α) (e : ℕ → FwftEdge α)
    (n : ℕ) : ∃ r₁ r₂ w₁ w₂, (run ramMem rdData e n).fifo.Counts r₁ r₂ w₁ w₂ := by
  induction n with
  | zero => exact ⟨0, 0, 0, 0, FifoTrace.counts_reset ramMem rdData⟩
  | succ n ih =>
    obtain ⟨r₁, r₂, w₁, w₂, h⟩ := ih
    obtain ⟨r₁', r₂', w₁', w₂', h', -⟩ := h.clock hd _
    exact ⟨r₁', r₂', w₁', w₂', h'⟩

section Run

variable (ramMem : BitVec depth → α) (rdData : α) (e : ℕ → FwftEdge α)

/-- The words received, the word shown and the words in the FIFO are the words written, and a consumer that
takes words again and again receives every word in the end. -/
structure ReceivesAll : Prop where
  ok : ∀ n, (run ramMem rdData e n).Ok
  received : (∀ n, ∃ m, n ≤ m ∧ (e m).rdEdge = true ∧ (e m).rden = true) →
    ∀ n, ∃ m, n ≤ m ∧ (run ramMem rdData e n).fifo.written <+: (run ramMem rdData e m).received

variable {ramMem rdData e}

/-- At the consumer's next edge the word that is shown is taken. -/
lemma received_length (n : ℕ) : (run ramMem rdData e (n + 1)).received.length =
    (run ramMem rdData e n).received.length +
      ((e n).rdEdge && ((e n).rden && (run ramMem rdData e n).fwftValidReg)).toNat := by
  change (if (e n).rdEdge && ((e n).rden && (run ramMem rdData e n).fwftValidReg) then
    (run ramMem rdData e n).received ++ [(run ramMem rdData e n).q] else _).length = _
  split_ifs with htake
  · rw [htake, List.length_append, List.length_singleton, Bool.toNat_true]
  · rw [Bool.not_eq_true] at htake
    rw [htake, Bool.toNat_false, Nat.add_zero]

/-- A word in front of the consumer stays until it is taken. -/
lemma valid_stays {n : ℕ} (htog : (run ramMem rdData e n).Together (e n))
    (hv : (run ramMem rdData e n).fwftValidReg = true) (hno : ¬((e n).rdEdge = true ∧ (e n).rden = true)) :
    (run ramMem rdData e (n + 1)).fwftValidReg = true := by
  rw [run]
  revert hno
  simp only [clock, fwftValidNext, fifoRden, hv]
  cases hrden : (e n).rden with
  | false => simp
  | true =>
    cases hempty : (run ramMem rdData e n).fifo.fifo.empty with
    | false => simp
    | true =>
      have hboth := htog (by rw [hempty, hv]) fun _ => hrden
      intro hno
      have hrd : (e n).rdEdge = false := by simpa using hno
      simp [hboth, hrd]

/-- A word that the read side sees comes in front of the consumer at the next edge of `rd_clk`. -/
lemma valid_next {n k : ℕ} (htog : (run ramMem rdData e n).Together (e n))
    (hvis : (run ramMem rdData e n).fifo.Visible k) (hlt : (run ramMem rdData e n).fifo.returned.length < k)
    (hv : (run ramMem rdData e n).fwftValidReg = false) :
    (run ramMem rdData e (n + 1)).fwftValidReg = (e n).rdEdge := by
  have hempty := hvis.not_empty hlt
  have hboth := htog (by rw [hempty, hv]) (by simp [hv])
  rw [run]
  simp [clock, fwftValidNext, fifoRden, hv, hempty, hboth]

lemma prefix_written {n m : ℕ} (h : n ≤ m) :
    (run ramMem rdData e n).fifo.written <+: (run ramMem rdData e m).fifo.written := by
  induction m, h using Nat.le_induction with
  | base => exact List.prefix_refl _
  | succ m h ih =>
    refine ih.trans ?_
    rw [run, clock, FifoTrace.clock]
    cases (run ramMem rdData e m).fifoEdge (e m) |>.wr with
    | none => exact List.prefix_refl _
    | some p =>
      dsimp only
      split_ifs
      · exact List.prefix_append _ _
      · exact List.prefix_refl _

/-- The writes go through the synchroniser at two edges of `rd_clk`. -/
lemma exists_visible (hd : 1 ≤ depth) (hrd : ∀ n, ∃ m, n ≤ m ∧ (e m).rdEdge = true) (n : ℕ) :
    ∃ m, n ≤ m ∧ (run ramMem rdData e m).fifo.Visible (run ramMem rdData e n).fifo.written.length := by
  obtain ⟨a, ha, hrda⟩ := hrd n
  obtain ⟨r₁, r₂, w₁, w₂, hcounts⟩ := counts_run hd ramMem rdData e a
  have hwritten : (run ramMem rdData e n).fifo.written.length ≤ (run ramMem rdData e a).fifo.written.length :=
    (prefix_written ha).length_le
  have harriving : (run ramMem rdData e (a + 1)).fifo.Arriving (run ramMem rdData e n).fifo.written.length := by
    obtain ⟨_, _, _, _, h, hk⟩ := hcounts.arriving_clock (e := (run ramMem rdData e a).fifoEdge (e a)) hd
      (by simp [fifoEdge, hrda])
    exact ⟨_, _, _, _, h, hwritten.trans hk⟩
  have hvisible : Progress.LeadsTo
      (fun m => a + 1 ≤ m ∧ (run ramMem rdData e m).fifo.Arriving (run ramMem rdData e n).fifo.written.length)
      (fun m => a + 1 ≤ m ∧ (run ramMem rdData e m).fifo.Visible (run ramMem rdData e n).fifo.written.length) := by
    apply Progress.leadsTo_of_event (E := fun m => (e m).rdEdge = true)
    · rintro m ⟨hm, h⟩ -
      exact ⟨hm.trans (Nat.le_succ m), h.clock hd _⟩
    · rintro m ⟨hm, h⟩ hrdm
      exact ⟨hm.trans (Nat.le_succ m), h.visible_clock hd (by simp [fifoEdge, hrdm])⟩
    · exact fun m _ => hrd m
  obtain ⟨m, -, hm, h⟩ := hvisible (a + 1) ⟨Nat.le_refl _, harriving⟩
  exact ⟨m, by omega, h⟩

/-- A consumer that takes words again and again gets every word that the read side sees. -/
lemma exists_received (hd : 1 ≤ depth) (htog : ∀ n, (run ramMem rdData e n).Together (e n))
    (hret : ∀ n, (run ramMem rdData e n).received ++ (run ramMem rdData e n).shown =
      (run ramMem rdData e n).fifo.returned)
    (htake : ∀ n, ∃ m, n ≤ m ∧ (e m).rdEdge = true ∧ (e m).rden = true) {n k : ℕ}
    (hvis : (run ramMem rdData e n).fifo.Visible k) :
    ∃ m, n ≤ m ∧ k ≤ (run ramMem rdData e m).received.length := by
  by_cases hk : k ≤ (run ramMem rdData e n).received.length
  · exact ⟨n, Nat.le_refl n, hk⟩
  let busy : ℕ → Prop := fun m =>
    (run ramMem rdData e m).fifo.Visible k ∧ (run ramMem rdData e m).received.length < k
  let acc : ℕ → Prop := fun m =>
    ((e m).rdEdge = true ∧ (e m).rden = true) ∧ (run ramMem rdData e m).fwftValidReg = true
  have hmore : ∀ m, acc m → (run ramMem rdData e (m + 1)).received.length =
      (run ramMem rdData e m).received.length + 1 := by
    rintro m ⟨⟨hrd, hrden⟩, hv⟩
    rw [received_length, hrd, hrden, hv]
    rfl
  have hsame : ∀ m, ¬acc m → (run ramMem rdData e (m + 1)).received.length =
      (run ramMem rdData e m).received.length := by
    intro m hno
    have hnone : ((e m).rdEdge && ((e m).rden && (run ramMem rdData e m).fwftValidReg)) = false := by
      rw [← Bool.not_eq_true, Bool.and_eq_true, Bool.and_eq_true, ← and_assoc]
      exact hno
    rw [received_length, hnone, Bool.toNat_false, Nat.add_zero]
  have hwait : ∀ m, busy m → ¬acc m → busy (m + 1) := by
    rintro m ⟨hvis, hlt⟩ hno
    exact ⟨hvis.clock hd _, (hsame m hno).trans_lt hlt⟩
  have hnext : ∀ m, busy m → (run ramMem rdData e m).fwftValidReg = false →
      busy (m + 1) ∧ (run ramMem rdData e (m + 1)).fwftValidReg = (e m).rdEdge := by
    rintro m ⟨hvis, hlt⟩ hv
    have hreturned : (run ramMem rdData e m).fifo.returned.length < k := by
      rw [← hret m, shown, hv]
      simpa using hlt
    exact ⟨hwait m ⟨hvis, hlt⟩ fun hacc => by simp [hacc.2] at hv, valid_next (htog m) hvis hreturned hv⟩
  -- a word comes in front of the consumer, and then it is taken
  have hrises : Progress.LeadsTo (fun m => busy m ∧ (run ramMem rdData e m).fwftValidReg = false)
      (fun m => busy m ∧ (run ramMem rdData e m).fwftValidReg = true) := by
    apply Progress.leadsTo_of_event (E := fun m => (e m).rdEdge = true)
    · rintro m ⟨hb, hv⟩ hno
      rw [Bool.not_eq_true] at hno
      obtain ⟨hb', hv'⟩ := hnext m hb hv
      exact ⟨hb', hv'.trans hno⟩
    · rintro m ⟨hb, hv⟩ hrd
      obtain ⟨hb', hv'⟩ := hnext m hb hv
      exact ⟨hb', hv'.trans hrd⟩
    · intro m _
      obtain ⟨u, hu, hrd, -⟩ := htake m
      exact ⟨u, hu, hrd⟩
  have htaken : Progress.LeadsTo (fun m => busy m ∧ (run ramMem rdData e m).fwftValidReg = true)
      (fun m => acc m ∨ ¬busy m) := by
    rintro m ⟨-, hv⟩
    by_contra hnone
    have hno : ∀ u, m ≤ u → ¬acc u := fun u hu hacc => hnone ⟨u, hu, .inl hacc⟩
    have hvalid : ∀ u, m ≤ u → (run ramMem rdData e u).fwftValidReg = true := by
      intro u hu
      induction u, hu using Nat.le_induction with
      | base => exact hv
      | succ u hu ih => exact valid_stays (htog u) ih fun htake => hno u hu ⟨htake, ih⟩
    obtain ⟨u, hu, htake⟩ := htake m
    exact hno u hu ⟨htake, hvalid u hu⟩
  have hgranted : ∀ m, busy m → ∃ u, m ≤ u ∧ (acc u ∨ ¬busy u) := by
    intro m hb
    cases hv : (run ramMem rdData e m).fwftValidReg with
    | false => exact hrises.trans htaken m ⟨hb, hv⟩
    | true => exact htaken m ⟨hb, hv⟩
  obtain ⟨u, hu, -, hacc, hcount⟩ := Progress.finishes busy acc
    (fun m => (run ramMem rdData e m).received.length) k (fun m hb hno => ⟨hwait m hb hno, hsame m hno⟩)
    (fun m hb hacc => ⟨hmore m hacc, fun hlt => ⟨hb.1.clock hd _, (hmore m hacc).trans_lt hlt⟩⟩)
    hgranted ⟨hvis, not_le.mp hk⟩ (not_le.mp hk)
  exact ⟨u + 1, by omega, by rw [hmore u hacc, hcount]⟩

/-- The consumer receives the words that were written, each once and in order, and all of them when it goes
on taking, exactly in the runs in which the valid bit never has to change on one clock alone. -/
theorem fwft_async_ok_iff (hd : 1 ≤ depth) :
    ReceivesAll ramMem rdData e ↔ ∀ n, (run ramMem rdData e n).Together (e n) := by
  have hord : ∀ n, (run ramMem rdData e n).fifo.returned <+: (run ramMem rdData e n).fifo.written := by
    intro n
    obtain ⟨r₁, r₂, w₁, w₂, h⟩ := counts_run hd ramMem rdData e n
    exact h.order
  constructor
  · intro h n
    exact together_of_ok (hord n) (hord (n + 1)) (h.ok n) (h.ok (n + 1))
  · intro htog
    have hret : ∀ n, (run ramMem rdData e n).received ++ (run ramMem rdData e n).shown =
        (run ramMem rdData e n).fifo.returned := by
      intro n
      induction n with
      | zero => rfl
      | succ n ih => exact received_clock (htog n) ih
    have hok : ∀ n, (run ramMem rdData e n).Ok := fun n => ok_of_received (hord n) (hret n)
    refine ⟨hok, fun htake n => ?_⟩
    obtain ⟨m, hm, hvis⟩ := exists_visible hd (fun n => by
      obtain ⟨m, hm, hrd, -⟩ := htake n
      exact ⟨m, hm, hrd⟩) n
    obtain ⟨u, hu, hlen⟩ := exists_received hd htog hret htake hvis
    refine ⟨u, hm.trans hu, List.prefix_of_prefix_length_le (prefix_written (hm.trans hu)) ?_ hlen⟩
    rw [← hok u, List.append_assoc]
    exact List.prefix_append _ _

end Run

/-- `clk` writes three words before `rd_clk` runs. Then the edges are common ones, and the consumer takes a
word at every second of them. -/
def commonClock (n : ℕ) : FwftEdge ℕ :=
  if n < 3 then ⟨some ⟨true, 5 + 2 * n⟩, false, false, false, false⟩
  else ⟨some ⟨false, 0⟩, true, n % 2 == 0, false, true⟩

theorem fwft_async_ok_iff_common : (run (fun _ : BitVec 2 => 0) 0 commonClock 11).received = [5, 7, 9] ∧
    ReceivesAll (fun _ : BitVec 2 => 0) 0 commonClock := by
  refine ⟨by decide, (fwft_async_ok_iff (by decide)).mpr fun n => ?_⟩
  by_cases hn : n < 3
  · have hlow : ∀ n < 3, (run (fun _ : BitVec 2 => 0) 0 commonClock n).Together (commonClock n) := by decide
    exact hlow n hn
  · intro _ _
    simp [commonClock, hn]

/-- `clk` writes 5, 7 and 9, and then `rd_clk` has all the edges but the seventh, which is one of both
clocks. -/
def slowClk : ℕ → FwftEdge ℕ
  | 0 => ⟨some ⟨true, 5⟩, false, true, false, false⟩
  | 1 => ⟨some ⟨true, 7⟩, false, true, false, false⟩
  | 2 => ⟨some ⟨true, 9⟩, false, true, false, false⟩
  | 7 => ⟨some ⟨false, 0⟩, true, true, false, false⟩
  | _ => ⟨none, true, true, false, false⟩

/-- Two words are read from the FIFO over each other before the consumer sees one. -/
theorem words_lost :
    let t := run (fun _ : BitVec 2 => 0) 0 slowClk 9
    t.fifo.written = [5, 7, 9] ∧ t.fifo.returned = [5, 7, 9] ∧ t.received = [9] ∧ ¬t.Ok := by
  decide

end FwftAsyncTrace

end FpgaPcie
