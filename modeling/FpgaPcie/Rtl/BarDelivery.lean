import FpgaPcie.Lib.Progress
import FpgaPcie.Rtl.BarRefinement

/-!
# The completions of the BAR

A read leaves its completion in the output register when it is done. Nothing makes the next read
wait until that register is free, so completions are delivered as long as no read is done while it
is in use, and only then.
-/

namespace FpgaPcie

lemma CplD.ofHdr_cplHdr (requesterId : BitVec 16) (tag : BitVec 8) (address : BitVec 64)
    (data : BitVec 32) :
    CplD.ofHdr (cplHdr requesterId tag address) data =
      ⟨tlpFmt3dwDataBits, 0b01010, 1, 4, requesterId, tag, address.extractLsb' 0 7, data⟩ := by
  simp only [CplD.ofHdr, cplHdr, CplD.mk.injEq]
  refine ⟨?_, ?_, ?_, ?_, ?_, ?_, ?_, trivial⟩ <;>
  · apply BitVec.eq_of_getLsbD_eq
    intro j hj
    simp only [BitVec.getLsbD_extractLsb', BitVec.getLsbD_append]
    interval_cases j <;> simp [tlpFmt3dwDataBits]

/-- The edges until the access is over. -/
def BarPhase.left : BarPhase → ℕ
  | .idle => 0
  | .b1 | .r1 => 1
  | .b0 | .r0 => 2
  | .w2 | .ar2 => 3
  | .w1 | .ar1 => 4
  | .w0 | .ar0 => 5
  | .aw2 => 6
  | .aw1 => 7
  | .aw0 => 8

namespace BarMaster

variable {s : BarMaster} {ph : BarPhase} {r : BarTlp} {i : BarInput}

lemma Serves.readDone_eq (h : s.Serves ph r) : s.readDone i = (ph == .r1) := by
  have hctl := h.ctl
  simp only [BarMaster.ctl, BarPhase.ctl] at hctl
  cases ph <;>
  · simp only [BarCtl.mk.injEq] at hctl
    simp only [readDone, mNextState, hctl]
    rfl

end BarMaster

namespace BarTrace

variable {t : BarTrace} {ph : BarPhase} {r : BarTlp} {e : BarCycle}

/-- The completions that have left, the one that waits and the one of the read at work are those of
the atomic register file. -/
def Delivers (t : BarTrace) : Prop := t.handed ++ t.waiting ++ t.reading = t.file.completions

/-- A completion that is not taken stays as it is. -/
def Keeps (t : BarTrace) (e : BarCycle) : Prop :=
  t.bar.txCplTlpValidReg = true → e.txCplTlpReady = false →
    (t.clock e).bar.txCplTlpValidReg = true ∧
      (t.clock e).bar.txCplTlpHdrReg = t.bar.txCplTlpHdrReg ∧
      (t.clock e).bar.txCplTlpDataReg = t.bar.txCplTlpDataReg

/-- A read is done while the output register is in use. -/
def overruns (t : BarTrace) (e : BarCycle) : Bool :=
  t.bar.txCplTlpValidReg && t.bar.readDone (t.input e)

lemma Follows.reading_eq (h : t.Follows ph r) :
    t.reading = if ph = .r0 ∨ ph = .r1 then [r.completion t.bar.barRegister.axiRdata] else [] := by
  have hstate : t.bar.mState = ph.ctl.mState := congrArg BarCtl.mState h.serves.ctl
  cases ph with
  | r0 =>
    simp [reading, hstate, BarPhase.ctl, CplD.ofHdr_cplHdr, BarTlp.completion,
      h.serves.requesterId, h.serves.requesterTag, h.serves.requesterAddr]
  | r1 =>
    simp [reading, hstate, BarPhase.ctl, CplD.ofHdr_cplHdr, BarTlp.completion,
      h.serves.requesterId, h.serves.requesterTag, h.serves.requesterAddr]
  | _ => simp [reading, hstate, BarPhase.ctl]

lemma waiting_clock : (t.clock e).waiting =
    if (e.txCplTlpReady && t.bar.txCplTlpValidReg) = true then []
    else if t.bar.readDone (t.input e) = true then t.reading else t.waiting := by
  have hstate : t.bar.readDone (t.input e) = true → t.bar.mState = .rData := by
    intro h
    simp only [BarMaster.readDone, Bool.and_eq_true, beq_iff_eq] at h
    exact h.1
  simp only [waiting, reading, clock, BarMaster.clock, BarMaster.flagNext]
  change ((if (if (e.txCplTlpReady && t.bar.txCplTlpValidReg) = true then _ else _) = true then _
    else _ : List CplD)) = _
  by_cases ho : (e.txCplTlpReady && t.bar.txCplTlpValidReg) = true
  · simp [ho]
  · by_cases hd : t.bar.readDone (t.input e) = true
    · simp [ho, hd, hstate hd]
    · simp [ho, hd]

lemma delivered_clock (hno : t.overruns e = false) :
    (t.clock e).handed ++ (t.clock e).waiting =
      t.handed ++ t.waiting ++ if t.bar.readDone (t.input e) then t.reading else [] := by
  rw [waiting_clock]
  simp only [overruns, Bool.and_eq_false_iff] at hno
  simp only [clock]
  by_cases hv : t.bar.txCplTlpValidReg = true
  · have hd : t.bar.readDone (t.input e) = false := hno.resolve_left (by simp [hv])
    cases hr : e.txCplTlpReady <;> simp [hv, hd, waiting]
  · by_cases hd : t.bar.readDone (t.input e) = true <;> simp [hv, hd, waiting]

lemma delivered_length_clock (ho : t.overruns e = true) :
    ((t.clock e).handed ++ (t.clock e).waiting).length = (t.handed ++ t.waiting).length := by
  rw [waiting_clock]
  simp only [overruns, clock, Bool.and_eq_true] at ho ⊢
  obtain ⟨hv, hd⟩ := ho
  have hstate : t.bar.mState = .rData := by
    simp only [BarMaster.readDone, Bool.and_eq_true, beq_iff_eq] at hd
    exact hd.1
  cases hr : e.txCplTlpReady <;> simp [hv, hd, waiting, reading, hstate]

lemma Follows.completions_clock (h : t.Follows ph r) : (t.clock e).file.completions =
    t.file.completions ++ if ph = .ar2 then [r.completion (t.file.value r.index)] else [] := by
  rw [h.file_clock (fun hp => h.serves.write (by rw [hp]; rfl))
    (fun hp => by rw [h.serves.read (by rw [hp]; rfl)]; decide)]
  cases ph <;> simp

/-- The completion at work is done at the end of its last phase and appears with its data. -/
lemma Follows.reading_clock (h : t.Follows ph r)
    (hacc : ∀ r', t.bar.accepted (t.input e) = some r' → r'.Access) :
    (if t.bar.readDone (t.input e) then t.reading else []) ++ (t.clock e).reading =
      t.reading ++ if ph = .ar2 then [r.completion (t.file.value r.index)] else [] := by
  have hnext := (h.clock hacc).reading_eq
  have hdata : (t.clock e).bar.barRegister.axiRdata =
      if t.bar.barRegister.slvRegRden t.bar.axil then t.bar.barRegister.regDataOut
      else t.bar.barRegister.axiRdata := rfl
  have hctl := h.serves.ctl
  simp only [BarMaster.ctl, BarPhase.ctl] at hctl
  rw [h.serves.readDone_eq, hnext, h.reading_eq, hdata]
  cases ph with
  | idle =>
    have hpre : BarPhase.idle.next (t.bar.accepted (t.input e)) ≠ .r0 ∧
        BarPhase.idle.next (t.bar.accepted (t.input e)) ≠ .r1 := by
      cases t.bar.accepted (t.input e) with
      | none => exact ⟨by decide, by decide⟩
      | some r' =>
        simp only [BarPhase.next]
        split_ifs <;> exact ⟨by decide, by decide⟩
    simp [hpre]
  | ar2 =>
    simp only [BarCtl.mk.injEq] at hctl
    simp [BarPhase.next, h.serves.accepted_none, BarRegister.slvRegRden, hctl, h.regDataOut]
  | r0 =>
    simp only [BarCtl.mk.injEq] at hctl
    simp [BarPhase.next, h.serves.accepted_none, BarRegister.slvRegRden, hctl]
  | _ => simp [BarPhase.next]

/-- Without an overrun every completion is still delivered. -/
theorem Follows.delivers_clock (h : t.Follows ph r)
    (hacc : ∀ r', t.bar.accepted (t.input e) = some r' → r'.Access) (hd : t.Delivers)
    (hno : t.overruns e = false) : (t.clock e).Delivers := by
  have hreading := h.reading_clock hacc
  unfold Delivers at hd ⊢
  rw [delivered_clock hno, h.completions_clock, ← hd, List.append_assoc, hreading]
  simp only [List.append_assoc]

/-- With an overrun one is not. -/
theorem Follows.not_delivers_clock (h : t.Follows ph r)
    (hacc : ∀ r', t.bar.accepted (t.input e) = some r' → r'.Access) (hd : t.Delivers)
    (ho : t.overruns e = true) : ¬(t.clock e).Delivers := by
  intro hd'
  have hlen := delivered_length_clock ho
  have hreading := h.reading_clock hacc
  simp only [overruns, Bool.and_eq_true] at ho
  have hph : ph = .r1 := by
    have hdone := ho.2
    rw [h.serves.readDone_eq] at hdone
    exact beq_iff_eq.mp hdone
  have hone : t.reading.length = 1 := by simp [h.reading_eq, hph]
  have hcount := congrArg List.length hd
  have hcount' := congrArg List.length hd'
  rw [h.completions_clock] at hcount'
  rw [ho.2] at hreading
  have hrl := congrArg List.length hreading
  simp only [hph, reduceCtorEq, if_true, if_false, List.append_nil, List.length_append] at *
  omega

/-- A read of the register at the address. -/
def readTlp (tag address : ℕ) : BarTlp :=
  ⟨tlpFmt4dwBits ++ 0#45 ++ BitVec.ofNat 8 tag ++ 0#8 ++ BitVec.ofNat 64 address, 0⟩

/-- A write of the register at the address. -/
def writeTlp (address data : ℕ) : BarTlp :=
  ⟨tlpFmt4dwDataBits ++ 0#61 ++ BitVec.ofNat 64 address, BitVec.ofNat 32 data⟩

lemma readTlp_access (tag address : ℕ) : (readTlp tag address).Access := by
  have hf : (readTlp tag address).fmt = tlpFmt4dwBits := by
    apply BitVec.eq_of_getLsbD_eq
    intro j hj
    simp only [readTlp, BarTlp.fmt, BitVec.getLsbD_extractLsb', BitVec.getLsbD_append]
    interval_cases j <;> simp
  refine ⟨.inl hf, fun hw => ?_⟩
  rw [hf] at hw
  exact absurd hw (by decide)

/-! ### Progress -/

lemma Follows.wait (h : t.Follows .idle r) (hacc : t.bar.accepted (t.input e) = none) :
    (t.clock e).Follows .idle r ∧ (t.clock e).todo = t.todo := by
  have hnext := h.next_idle (e := e) (by simp [hacc])
  rw [hacc] at hnext
  exact ⟨hnext, by simp [BarTrace.clock, hacc]⟩

section Run

variable {requests : List BarTlp} {env : ℕ → BarCycle}

lemma run_idle (hreq : ∀ r ∈ requests, r.Access) (env : ℕ → BarCycle) (n : ℕ) :
    ∃ m, n ≤ m ∧ (run requests env m).todo = (run requests env n).todo ∧
      ∃ r, (run requests env m).Follows .idle r := by
  obtain ⟨ph, r, h⟩ := run_follows hreq env n
  induction hk : ph.left generalizing n ph with
  | zero =>
    cases ph <;> first | exact ⟨n, le_rfl, rfl, r, h⟩ | cases hk
  | succ k ih =>
    have hne : ph ≠ .idle := by
      rintro rfl
      cases hk
    have hleft : (ph.next none).left = k := by
      cases ph <;> first | exact absurd rfl hne | exact Nat.succ.inj hk
    obtain ⟨m, hm, htodo, hr⟩ := ih (n + 1) (ph.next none) (h.next hne) hleft
    refine ⟨m, Nat.le_of_succ_le hm, htodo.trans ?_, hr⟩
    simp [run, clock, h.serves.accepted_none hne]

lemma run_accepts (hpresent : ∀ n, ∃ m, n ≤ m ∧ (env m).present = true) {n : ℕ} {r r₀ : BarTlp}
    {rest : List BarTlp} (h : (run requests env n).Follows .idle r₀)
    (htodo : (run requests env n).todo = r :: rest) :
    ∃ m, n ≤ m ∧ (run requests env m).todo = rest := by
  have hoffer : Progress.LeadsTo
      (fun k => (run requests env k).Follows .idle r₀ ∧ (run requests env k).todo = r :: rest ∧
        (run requests env k).bar.rxReqTlpReadyReg = false)
      (fun k => (run requests env k).Follows .idle r₀ ∧ (run requests env k).todo = r :: rest ∧
        (run requests env k).bar.rxReqTlpReadyReg = true) := by
    refine Progress.leadsTo_of_event (E := fun k => (env k).present = true) ?_ ?_ fun k _ =>
      hpresent k
    · rintro k ⟨hf, ht, hready⟩ hno
      have hw := hf.wait (e := env k) (by simp [BarMaster.accepted, hready])
      refine ⟨hw.1, hw.2.trans ht, ?_⟩
      simp [run, clock, BarMaster.clock, BarMaster.flagNext, hready, input, hno]
    · rintro k ⟨hf, ht, hready⟩ hp
      have hw := hf.wait (e := env k) (by simp [BarMaster.accepted, hready])
      have hstate : (run requests env k).bar.mState = .idle := congrArg BarCtl.mState hf.serves.ctl
      refine ⟨hw.1, hw.2.trans ht, ?_⟩
      simp [run, clock, BarMaster.clock, BarMaster.flagNext, hready, input, hp, ht, hstate]
  have htake : Progress.LeadsTo
      (fun k => (run requests env k).Follows .idle r₀ ∧ (run requests env k).todo = r :: rest ∧
        (run requests env k).bar.rxReqTlpReadyReg = true)
      (fun k => (run requests env k).todo = rest) := by
    refine Progress.leadsTo_of_event (E := fun k => (env k).present = true) ?_ ?_ fun k _ =>
      hpresent k
    · rintro k ⟨hf, ht, hready⟩ hno
      have hw := hf.wait (e := env k) (by simp [BarMaster.accepted, input, hno])
      refine ⟨hw.1, hw.2.trans ht, ?_⟩
      simp [run, clock, BarMaster.clock, BarMaster.flagNext, hready, input, hno]
    · rintro k ⟨hf, ht, hready⟩ hp
      simp [run, clock, BarMaster.accepted, hready, input, hp, ht]
  cases hready : (run requests env n).bar.rxReqTlpReadyReg with
  | true => exact htake n ⟨h, htodo, hready⟩
  | false => exact hoffer.trans htake n ⟨h, htodo, hready⟩

/-- All requests are accepted and served. -/
theorem run_serves_all (hreq : ∀ r ∈ requests, r.Access)
    (hpresent : ∀ n, ∃ m, n ≤ m ∧ (env m).present = true) :
    ∃ m, (run requests env m).todo = [] ∧ ∃ r, (run requests env m).Follows .idle r := by
  have hall : ∀ (rest : List BarTlp) (n : ℕ), (run requests env n).todo = rest →
      ∃ m, (run requests env m).todo = [] ∧ ∃ r, (run requests env m).Follows .idle r := by
    intro rest
    induction rest with
    | nil =>
      intro n hn
      obtain ⟨m, -, htodo, hr⟩ := run_idle hreq env n
      exact ⟨m, htodo.trans hn, hr⟩
    | cons r rest ih =>
      intro n hn
      obtain ⟨m, -, htodo, r₀, hr⟩ := run_idle hreq env n
      obtain ⟨m', -, hrest⟩ := run_accepts hpresent hr (htodo.trans hn)
      exact ih m' hrest
  exact hall requests 0 rfl

/-- The registers, the completions and the pulses are those of the atomic register file. -/
structure Refines (t : BarTrace) (requests : List BarTlp)
    (samples : List (BarChannel → BitVec 32)) : Prop where
  order : t.accepted ++ t.todo = requests
  inFlight : ∃ inFlight, inFlight.length ≤ 1 ∧ t.requests ++ inFlight = t.accepted
  samples : t.log.filterMap BarEvent.status? = samples
  completions : t.Delivers
  pulses : t.pulses <+: t.file.pulses

/-- Every request has had its effect, and nothing is on its way out. -/
structure Finished (t : BarTrace) (requests : List BarTlp) : Prop where
  requests : t.requests = requests
  completions : t.handed = t.file.completions
  pulses : t.pulses = t.file.pulses

lemma run_refines (hreq : ∀ r ∈ requests, r.Access) {n : ℕ}
    (hd : (run requests env n).Delivers) :
    (run requests env n).Refines requests ((List.range n).map fun k => (env k).status) := by
  obtain ⟨ph, r, h⟩ := run_follows hreq env n
  refine ⟨run_order requests env n, ⟨_, ?_, h.requests⟩, run_samples n, hd, ?_⟩
  · split_ifs <;> simp
  · rw [← h.pulses, List.append_assoc]
    exact List.prefix_append _ _

lemma run_delivers (hreq : ∀ r ∈ requests, r.Access) {n : ℕ}
    (hno : ∀ k, k < n → (run requests env k).overruns (env k) = false) :
    (run requests env n).Delivers := by
  induction n with
  | zero => rfl
  | succ n ih =>
    obtain ⟨ph, r, h⟩ := run_follows hreq env n
    exact h.delivers_clock (fun r' hr' => run_access hreq hr')
      (ih fun k hk => hno k (Nat.lt_succ_of_lt hk)) (hno n (Nat.lt_succ_self n))

lemma run_finishes (hreq : ∀ r ∈ requests, r.Access)
    (hno : ∀ k, (run requests env k).overruns (env k) = false)
    (hpresent : ∀ n, ∃ m, n ≤ m ∧ (env m).present = true)
    (htaken : ∀ n, ∃ m, n ≤ m ∧ (env m).txCplTlpReady = true) :
    ∃ n, (run requests env n).Finished requests := by
  obtain ⟨m, htodo, r, hm⟩ := run_serves_all hreq hpresent
  have hleave : Progress.LeadsTo
      (fun k => (run requests env k).Follows .idle r ∧ (run requests env k).todo = [])
      (fun k => (run requests env k).Follows .idle r ∧ (run requests env k).todo = [] ∧
        (run requests env k).waiting = []) := by
    refine Progress.leadsTo_of_event (E := fun k => (env k).txCplTlpReady = true) ?_ ?_ fun k _ =>
      htaken k
    · rintro k ⟨hf, ht⟩ -
      have hw := hf.wait (e := env k) (by simp [BarMaster.accepted, input, ht])
      exact ⟨hw.1, hw.2.trans ht⟩
    · rintro k ⟨hf, ht⟩ hr
      have hw := hf.wait (e := env k) (by simp [BarMaster.accepted, input, ht])
      refine ⟨hw.1, hw.2.trans ht, ?_⟩
      rw [run, waiting_clock, hf.serves.readDone_eq]
      by_cases hv : (run requests env k).bar.txCplTlpValidReg = true <;> simp [hr, hv, waiting]
  obtain ⟨n, -, hf, ht, hwait⟩ := hleave m ⟨hm, htodo⟩
  have hdone : (run requests env n).requests = (run requests env n).accepted := by
    simpa [BarPhase.inFlight] using hf.requests
  have hall := run_order requests env n
  have hd : (run requests env n).Delivers := run_delivers hreq fun k _ => hno k
  refine ⟨n, ?_, ?_, ?_⟩
  · exact hdone.trans (by simpa [ht] using hall)
  · rw [← hd, hwait, hf.reading_eq]
    simp
  · rw [← hf.pulses, BarRegister.pulses, hf.serves.start, barPulses_starts]
    simp [BarPhase.writing]

/-- With a completion output that is always ready, the output register is free again before the
next read is done. -/
lemma run_no_overrun (hreq : ∀ r ∈ requests, r.Access)
    (hready : ∀ n, (env n).txCplTlpReady = true) (n : ℕ) :
    (run requests env n).overruns (env n) = false := by
  have hvalid : ∀ k, (run requests env k).bar.txCplTlpValidReg = true →
      ∃ r, (run requests env k).Follows .idle r := by
    intro k
    induction k with
    | zero => simp [run, start, BarMaster.reset]
    | succ k ih =>
      intro hv
      obtain ⟨ph, r, h⟩ := run_follows hreq env k
      have hnew := h.clock (e := env k) fun r' hr' => run_access hreq hr'
      have hdone : (run requests env k).bar.readDone ((run requests env k).input (env k)) = true := by
        by_contra hno
        simp [run, clock, BarMaster.clock, BarMaster.flagNext, input, hready k] at hv
        simp_all [input]
      have hph : ph = .r1 := by
        rw [h.serves.readDone_eq] at hdone
        exact beq_iff_eq.mp hdone
      subst hph
      exact ⟨_, hnew⟩
  by_contra ho
  simp only [overruns, Bool.not_eq_false, Bool.and_eq_true] at ho
  obtain ⟨r, h⟩ := hvalid n ho.1
  have hdone := ho.2
  rw [h.serves.readDone_eq] at hdone
  cases hdone

/-- The BAR is an atomic register file: its requests take effect one at a time and in order, each
read is answered by one completion, and each START is one pulse that finds all earlier writes on
the configuration outputs. -/
theorem bar_atomic (hreq : ∀ r ∈ requests, r.Access)
    (hready : ∀ n, (env n).txCplTlpReady = true) :
    (∀ n, (run requests env n).Refines requests ((List.range n).map fun k => (env k).status)) ∧
      ((∀ n, ∃ m, n ≤ m ∧ (env m).present = true) → ∃ n, (run requests env n).Finished requests) := by
  have hno := run_no_overrun hreq hready
  exact ⟨fun n => run_refines hreq (run_delivers hreq fun k _ => hno k), fun hpresent =>
    run_finishes hreq hno hpresent fun n => ⟨n, le_rfl, hready n⟩⟩

/-- A write that starts a transfer and a read are served. -/
theorem bar_atomic_write_read : ∃ n, (run [writeTlp 0x8 1, readTlp 5 0x0]
    (fun _ => ⟨true, true, fun _ => 0⟩) n).Finished [writeTlp 0x8 1, readTlp 5 0x0] := by
  refine (bar_atomic ?_ fun _ => rfl).2 fun n => ⟨n, le_rfl, rfl⟩
  intro r hr
  rcases List.mem_cons.mp hr with rfl | hr
  · exact ⟨.inr (by decide), fun _ => by decide⟩
  · obtain rfl := List.mem_singleton.mp hr
    exact readTlp_access 5 0x0

/-! ### Back-pressure -/

/-- One completion for each accepted read, in order and unchanged until it is taken. -/
structure CompletionsOk (requests : List BarTlp) (env : ℕ → BarCycle) : Prop where
  delivers : ∀ n, (run requests env n).Delivers
  keeps : ∀ n, (run requests env n).Keeps (env n)
  finishes : (∀ n, ∃ m, n ≤ m ∧ (env m).present = true) →
    (∀ n, ∃ m, n ≤ m ∧ (env m).txCplTlpReady = true) → ∃ n, (run requests env n).Finished requests

lemma keeps_of_not_overruns (hno : t.overruns e = false) : t.Keeps e := by
  intro hv hr
  have hd : t.bar.readDone (t.input e) = false := by simpa [overruns, hv] using hno
  have hin : (t.input e).txCplTlpReady = false := hr
  simp [clock, BarMaster.clock, BarMaster.flagNext, hd, hv, hin]

/-- Completions are delivered if and only if no read is done while the output register is in
use. -/
theorem completions_iff (hreq : ∀ r ∈ requests, r.Access) :
    CompletionsOk requests env ↔ ∀ n, (run requests env n).overruns (env n) = false := by
  constructor
  · intro h n
    by_contra ho
    obtain ⟨ph, r, hf⟩ := run_follows hreq env n
    exact hf.not_delivers_clock (fun r' hr' => run_access hreq hr') (h.delivers n)
      (by simpa using ho) (h.delivers (n + 1))
  · intro hno
    exact ⟨fun n => run_delivers hreq fun k _ => hno k, fun n => keeps_of_not_overruns (hno n),
      run_finishes hreq hno⟩

/-- Reads whose completions are taken at once are all answered. -/
theorem completions_iff_ready : ∃ n, (run [readTlp 1 0x0, readTlp 2 0x4]
    (fun _ => ⟨true, true, fun _ => 0⟩) n).Finished [readTlp 1 0x0, readTlp 2 0x4] := by
  have hreq : ∀ r ∈ [readTlp 1 0x0, readTlp 2 0x4], r.Access := by
    intro r hr
    rcases List.mem_cons.mp hr with rfl | hr
    · exact readTlp_access 1 0x0
    · obtain rfl := List.mem_singleton.mp hr
      exact readTlp_access 2 0x4
  have hok : CompletionsOk _ (fun _ => ⟨true, true, fun _ => 0⟩) :=
    (completions_iff hreq).mpr (run_no_overrun hreq fun _ => rfl)
  exact hok.finishes (fun n => ⟨n, le_rfl, rfl⟩) fun n => ⟨n, le_rfl, rfl⟩

/-- While the output is stalled, the completion of a second read replaces that of the first. -/
theorem completion_overwritten : ¬CompletionsOk [readTlp 1 0x0, readTlp 2 0x4]
    (fun _ => ⟨true, false, fun _ => 0⟩) := by
  intro h
  have hd := h.delivers 14
  revert hd
  unfold Delivers
  decide +kernel

end Run

end BarTrace

end FpgaPcie
