import FpgaPcie.Rtl.BarInvariant

/-!
# The BAR is an atomic register file

The registers of the slave follow those of the atomic register file, request by request, for every
way in which the requests are spaced.
-/

namespace FpgaPcie

namespace BarTrace

/-- The requests that have taken effect. -/
def requests (t : BarTrace) : List BarTlp := t.log.filterMap BarEvent.request?

/-- The machine serves `r`, and its registers are those of the atomic register file. -/
structure Follows (t : BarTrace) (ph : BarPhase) (r : BarTlp) : Prop where
  serves : t.bar.Serves ph r
  current : ph ≠ .idle → t.accepted.getLast? = some r
  requests : t.requests ++ (if ph.inFlight then [r] else []) = t.accepted
  regs : t.file.regs = if ph.writing then
    Function.update t.bar.barRegister.slvReg r.index r.data else t.bar.barRegister.slvReg
  status : t.file.status = t.bar.barRegister.statusReg
  pulses : t.pulses ++ t.bar.barRegister.pulses ++
    (if ph.writing then barPulses (fun p => !p.isBlock && r.starts p) t.bar.barRegister.slvReg
      else []) = t.file.pulses

variable {t : BarTrace} {ph : BarPhase} {r : BarTlp} {e : BarCycle}

lemma Follows.events_eq (h : t.Follows ph r) :
    t.events e = match ph with
      | .aw2 => [.sample e.status, .request r]
      | .ar2 => [.request r, .sample e.status]
      | _ => [.sample e.status] := by
  have hctl := h.serves.ctl
  simp only [BarMaster.ctl, BarPhase.ctl] at hctl
  cases ph with
  | aw2 =>
    simp only [BarCtl.mk.injEq] at hctl
    simp [events, hctl, h.current]
  | ar2 =>
    simp only [BarCtl.mk.injEq] at hctl
    simp [events, hctl, h.current]
  | _ =>
    simp only [BarCtl.mk.injEq] at hctl
    simp [events, hctl]

lemma Follows.regDataOut (h : t.Follows .ar2 r) :
    t.bar.barRegister.regDataOut = t.file.value r.index := by
  have hregs : t.file.regs = t.bar.barRegister.slvReg := h.regs
  simp only [BarRegister.regDataOut, h.serves.axiAraddr rfl, BarTlp.regIndex_barAddr,
    RegisterFile.value_eq, hregs, h.status]

lemma Follows.statusReg_clock (h : t.Follows ph r) (status : BarChannel → BitVec 32)
    (c : BarChannel) :
    (t.bar.barRegister.clock t.bar.axil status).statusReg c =
      if ph = .aw2 ∧ r.index = c.statusIndex then 0
      else if t.file.status c = 0 then status c else t.file.status c := by
  have hctl := h.serves.ctl
  simp only [BarMaster.ctl, BarPhase.ctl] at hctl
  rw [h.status]
  cases ph with
  | aw2 =>
    simp only [BarCtl.mk.injEq] at hctl
    simp [BarRegister.clock, BarRegister.statusClear, hctl, h.serves.awaddr, BarTlp.barAddr_status]
  | _ =>
    simp only [BarCtl.mk.injEq] at hctl
    simp [BarRegister.clock, BarRegister.statusClear, hctl]

lemma Follows.slvReg_clock (h : t.Follows ph r) (status : BarChannel → BitVec 32) :
    (t.bar.barRegister.clock t.bar.axil status).slvReg =
      if ph = .w2 then Function.update t.bar.barRegister.slvReg r.index r.data
      else t.bar.barRegister.slvReg := by
  have hctl := h.serves.ctl
  simp only [BarMaster.ctl, BarPhase.ctl] at hctl
  cases ph with
  | w2 =>
    simp only [BarCtl.mk.injEq] at hctl
    simp [BarRegister.clock, BarRegister.slvRegWren, hctl, h.serves.axiAwaddr, BarPhase.writing,
      BarTlp.regIndex_barAddr, h.serves.wdata, h.serves.wstrb, writeStrobes_full]
  | _ =>
    simp only [BarCtl.mk.injEq] at hctl
    simp [BarRegister.clock, BarRegister.slvRegWren, hctl]

lemma Follows.file_clock (h : t.Follows ph r) (hw : ph = .aw2 → r.fmt = tlpFmt4dwDataBits)
    (hr : ph = .ar2 → r.fmt ≠ tlpFmt4dwDataBits) :
    (t.clock e).file = match ph with
      | .aw2 => (t.file.sample e.status).write r
      | .ar2 => (t.file.read r).sample e.status
      | _ => t.file.sample e.status := by
  simp only [file, clock, h.events_eq, RegisterFile.run, List.foldl_append]
  cases ph with
  | aw2 => simp [RegisterFile.apply, hw rfl]
  | ar2 => simp [RegisterFile.apply, hr rfl]
  | _ => rfl

/-- An edge inside an access. -/
theorem Follows.next (h : t.Follows ph r) (hne : ph ≠ .idle) :
    (t.clock e).Follows (ph.next none) r := by
  have hacc : t.bar.accepted (t.input e) = none := h.serves.accepted_none hne
  have hfile : (t.clock e).file = _ := h.file_clock (fun hp => h.serves.write (by rw [hp]; rfl))
    (fun hp => by rw [h.serves.read (by rw [hp]; rfl)]; decide)
  have hslv := h.slvReg_clock (t.input e).status
  constructor
  case serves => exact h.serves.next hne
  case current =>
    intro _
    simpa [clock, hacc] using h.current hne
  case requests =>
    have hreq := h.requests
    simp only [BarTrace.requests, clock, hacc, h.events_eq, List.filterMap_append] at hreq ⊢
    cases ph with
    | idle => exact absurd rfl hne
    | _ => simpa [BarPhase.next, BarPhase.inFlight, List.filterMap_cons] using hreq
  case regs =>
    have hregs := h.regs
    simp only [clock, BarMaster.clock, hslv]
    change (t.clock e).file.regs = _
    rw [hfile]
    cases ph with
    | idle => exact absurd rfl hne
    | _ =>
      simp only [BarPhase.writing, Bool.false_eq_true, if_true, if_false] at hregs
      simp [BarPhase.next, BarPhase.writing, hregs]
  case status =>
    funext c
    simp only [clock, BarMaster.clock, h.statusReg_clock (t.input e).status c]
    change (t.clock e).file.status c = _
    rw [hfile]
    cases ph with
    | idle => exact absurd rfl hne
    | ar2 =>
      simp only [RegisterFile.sample_status, reduceCtorEq, false_and, if_false]
      rfl
    | _ => simp [input]
  case pulses =>
    have hpulses := h.pulses
    have hstart := h.serves.start_clock none (t.input e).status
    simp only [BarRegister.pulses, h.serves.start, barPulses_starts] at hpulses
    simp only [clock, BarMaster.clock, BarRegister.pulses, h.serves.start, hstart, hslv,
      barPulses_starts]
    change _ = (t.clock e).file.pulses
    rw [hfile]
    cases ph with
    | idle => exact absurd rfl hne
    | aw2 =>
      have hregs : t.file.regs = t.bar.barRegister.slvReg := h.regs
      have hnone : t.pulses = t.file.pulses := by simpa [BarPhase.writing] using hpulses
      simp [BarPhase.next, BarPhase.writing, hregs, ← barPulses_split, hnone]
    | w2 =>
      have hdata := barPulses_update r t.bar.barRegister.slvReg (fun p => !p.isBlock && r.starts p)
        r.data (fun b hb => (Bool.and_eq_true_iff.mp hb).2)
      simpa [BarPhase.next, BarPhase.writing, hdata] using hpulses
    | _ => simpa [BarPhase.next, BarPhase.writing] using hpulses

/-- An edge between two accesses. -/
theorem Follows.next_idle (h : t.Follows .idle r)
    (hacc : ∀ r', t.bar.accepted (t.input e) = some r' → r'.Access) :
    (t.clock e).Follows (BarPhase.idle.next (t.bar.accepted (t.input e)))
      ((t.bar.accepted (t.input e)).getD r) := by
  have hserves := h.serves.next_idle hacc
  have hfile : (t.clock e).file = t.file.sample e.status :=
    h.file_clock (by simp) (by simp)
  have hslv := h.slvReg_clock (t.input e).status
  have hregs : t.file.regs = t.bar.barRegister.slvReg := h.regs
  have hreq : t.requests = t.accepted := by simpa [BarPhase.inFlight] using h.requests
  have hpulses := h.pulses
  simp only [BarRegister.pulses, h.serves.start, barPulses_starts] at hpulses
  simp only [reduceCtorEq, if_false] at hslv
  have hlog : (t.clock e).requests = t.requests := by
    simp [BarTrace.requests, clock, h.events_eq, List.filterMap_cons]
  have hpre : (BarPhase.idle.next (t.bar.accepted (t.input e))).writing = false ∧
      barPulses (BarPhase.starts ((t.bar.accepted (t.input e)).getD r)
        (BarPhase.idle.next (t.bar.accepted (t.input e)))) t.bar.barRegister.slvReg = [] := by
    cases t.bar.accepted (t.input e) with
    | none => exact ⟨rfl, rfl⟩
    | some r' =>
      simp only [BarPhase.next]
      split_ifs <;> exact ⟨rfl, rfl⟩
  constructor
  case serves => exact hserves
  case current =>
    intro hne
    cases ha : t.bar.accepted (t.input e) with
    | none =>
      rw [ha] at hne
      exact absurd rfl hne
    | some r' => simp [clock, ha]
  case requests =>
    rw [hlog, hreq]
    cases ha : t.bar.accepted (t.input e) with
    | none => simp [clock, ha, BarPhase.next, BarPhase.inFlight]
    | some r' =>
      have hfl : (BarPhase.idle.next (some r')).inFlight = true := by
        simp only [BarPhase.next]
        split_ifs <;> rfl
      simp [clock, ha, hfl]
  case regs =>
    rw [hpre.1, hfile, RegisterFile.sample_regs, hregs]
    exact hslv.symm
  case status =>
    funext c
    have hstatus := h.statusReg_clock (t.input e).status c
    rw [hfile, RegisterFile.sample_status]
    simpa [clock, BarMaster.clock, input] using hstatus.symm
  case pulses =>
    have hstart : (t.clock e).bar.barRegister.start = _ := hserves.start
    rw [hpre.1, hfile, RegisterFile.sample_pulses, BarRegister.pulses, hstart]
    have hslv' : (t.clock e).bar.barRegister.slvReg = t.bar.barRegister.slvReg := hslv
    rw [hslv', hpre.2]
    simpa [clock, BarPhase.writing, BarRegister.pulses, h.serves.start, barPulses_starts]
      using hpulses

theorem Follows.clock (h : t.Follows ph r)
    (hacc : ∀ r', t.bar.accepted (t.input e) = some r' → r'.Access) :
    (t.clock e).Follows (ph.next (t.bar.accepted (t.input e)))
      ((t.bar.accepted (t.input e)).getD r) := by
  by_cases hne : ph = .idle
  · subst hne
    exact h.next_idle hacc
  · rw [h.serves.accepted_none hne]
    exact h.next hne

lemma start_follows (requests : List BarTlp) (r : BarTlp) : (start requests).Follows .idle r where
  serves :=
    { ctl := rfl
      ready := fun _ => rfl
      access := fun hne => absurd rfl hne
      write := nofun
      read := nofun
      requesterId := fun hne => absurd rfl hne
      requesterTag := fun hne => absurd rfl hne
      requesterAddr := fun hne => absurd rfl hne
      wdata := fun hne => absurd rfl hne
      wstrb := fun hne => absurd rfl hne
      awaddr := by simp
      axiAwaddr := by simp [BarPhase.writing]
      araddr := by simp
      axiAraddr := by simp
      start := rfl }
  current := fun hne => absurd rfl hne
  requests := rfl
  regs := rfl
  status := rfl
  pulses := rfl

lemma accepted_head {r' : BarTlp} (h : t.bar.accepted (t.input e) = some r') :
    t.todo = r' :: t.todo.tail := by
  simp only [BarMaster.accepted, input] at h
  split_ifs at h
  exact List.eq_cons_of_mem_head? h

lemma accepted_todo : (t.clock e).accepted ++ (t.clock e).todo = t.accepted ++ t.todo := by
  cases ha : t.bar.accepted (t.input e) with
  | none => simp [clock, ha]
  | some r' =>
    rw [accepted_head ha]
    simp [clock, ha]

section Run

variable {requests : List BarTlp} {env : ℕ → BarCycle}

variable (requests env) in
lemma run_order (n : ℕ) : (run requests env n).accepted ++ (run requests env n).todo = requests := by
  induction n with
  | zero => rfl
  | succ n ih => exact accepted_todo.trans ih

lemma run_access (hreq : ∀ r ∈ requests, r.Access) {n : ℕ} {r : BarTlp}
    (hr : (run requests env n).bar.accepted ((run requests env n).input (env n)) = some r) :
    r.Access := by
  apply hreq
  rw [← run_order requests env n, accepted_head hr]
  simp

/-- Every run follows the atomic register file. -/
theorem run_follows (hreq : ∀ r ∈ requests, r.Access) (env : ℕ → BarCycle) (n : ℕ) :
    ∃ ph r, (run requests env n).Follows ph r := by
  induction n with
  | zero => exact ⟨.idle, ⟨0, 0⟩, start_follows requests _⟩
  | succ n ih =>
    obtain ⟨ph, r, h⟩ := ih
    exact ⟨_, _, h.clock fun r' hr' => run_access hreq hr'⟩

lemma run_samples (n : ℕ) : (run requests env n).log.filterMap BarEvent.status? =
    (List.range n).map fun k => (env k).status := by
  induction n with
  | zero => rfl
  | succ n ih =>
    have hone : ((run requests env n).events (env n)).filterMap BarEvent.status? =
        [(env n).status] := by
      simp only [events]
      cases (run requests env n).accepted.getLast? <;> split_ifs <;>
        simp [List.filterMap_cons]
    rw [run, clock, List.filterMap_append, ih, hone, List.range_succ, List.map_append]
    rfl

end Run

end BarTrace

end FpgaPcie
