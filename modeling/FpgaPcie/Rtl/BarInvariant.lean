import FpgaPcie.Rtl.BarTrace

/-!
# What the phases of an access keep

While a request is served, the wires carry its fields, and the registers are those of the atomic
register file, apart from a write that has taken effect and waits for the data channel.
-/

namespace FpgaPcie

namespace BarTlp

variable {r : BarTlp}

/-- The address of the request on the AXI4-Lite wires. -/
def barAddr (r : BarTlp) : BitVec 32 := (r.address.extractLsb' 0 8).setWidth 32

lemma index_eq (r : BarTlp) : r.index = (r.address.extractLsb' 0 8).extractLsb' 2 6 := by
  apply BitVec.eq_of_getLsbD_eq
  intro j hj
  simp only [index, BitVec.getLsbD_extractLsb', hj, decide_true, Bool.true_and, Nat.zero_add]
  simp [show 2 + j < 8 by omega]

lemma regIndex_barAddr (r : BarTlp) : regIndex r.barAddr = r.index := by
  rw [index_eq, barAddr]
  generalize r.address.extractLsb' 0 8 = a
  revert a
  decide +kernel

lemma barAddr_beq (ha : r.address.extractLsb' 0 2 = 0) (k : BitVec 6) :
    (r.barAddr == (k ++ 0#2).setWidth 32) = (r.index == k) := by
  have hz : (r.address.extractLsb' 0 8).extractLsb' 0 2 = 0 := by
    rw [← ha]
    apply BitVec.eq_of_getLsbD_eq
    intro j hj
    simp [hj]
  have hsplit : ∀ x : BitVec 8, x.extractLsb' 0 2 = 0 → x = x.extractLsb' 2 6 ++ 0#2 := by decide +kernel
  have hback : ∀ y : BitVec 6, ((y ++ 0#2).setWidth 32).extractLsb' 2 6 = y := by decide +kernel
  rw [index_eq, barAddr]
  generalize r.address.extractLsb' 0 8 = x at hz
  have hx := hsplit x hz
  generalize x.extractLsb' 2 6 = y at hx
  subst hx
  rw [Bool.eq_iff_iff, beq_iff_eq, beq_iff_eq]
  constructor
  · intro heq
    rw [← hback y, ← hback k, heq]
  · rintro rfl
    rfl

lemma barAddr_status (r : BarTlp) (c : BarChannel) :
    (r.barAddr.extractLsb' 2 30 == c.statusIndex.setWidth 30) = (r.index == c.statusIndex) := by
  rw [index_eq, barAddr]
  generalize r.address.extractLsb' 0 8 = x
  revert x
  cases c <;> decide +kernel

end BarTlp

/-- The STARTs that are set on the address channel. -/
def BarStart.isBlock : BarStart → Bool
  | .c2hBlockDma | .h2cBlockDma => true
  | _ => false

/-- The STARTs that are up while `r` is served. -/
def BarPhase.starts (r : BarTlp) : BarPhase → BarStart → Bool
  | .w0, p => p.isBlock && r.starts p
  | .b0, p => !p.isBlock && r.starts p
  | _, _ => false

/-- The machines are at this point of the access `r`. -/
structure BarMaster.Serves (s : BarMaster) (ph : BarPhase) (r : BarTlp) : Prop where
  ctl : s.ctl = ph.ctl
  ready : s.rxReqTlpReadyReg = true → ph = .idle
  access : ph ≠ .idle → r.Access
  write : ph.isWrite = true → r.fmt = tlpFmt4dwDataBits
  read : ph.isRead = true → r.fmt = tlpFmt4dwBits
  requesterId : ph ≠ .idle → s.requesterId = r.requesterId
  requesterTag : ph ≠ .idle → s.requesterTag = r.tag
  requesterAddr : ph ≠ .idle → s.requesterAddr = r.address
  wdata : ph ≠ .idle → s.axil.wdata = r.data
  wstrb : ph ≠ .idle → s.axil.wstrb = 0xf
  awaddr : ph = .aw1 ∨ ph = .aw2 → s.axil.awaddr = r.barAddr
  axiAwaddr : ph = .aw2 ∨ ph.writing = true → s.barRegister.axiAwaddr = r.barAddr
  araddr : ph = .ar1 ∨ ph = .ar2 → s.axil.araddr = r.barAddr
  axiAraddr : ph = .ar2 → s.barRegister.axiAraddr = r.barAddr
  start : s.barRegister.start = ph.starts r

namespace BarMaster

variable {s : BarMaster} {ph : BarPhase} {r : BarTlp} {i : BarInput}

lemma Serves.accepted_none (h : s.Serves ph r) (hne : ph ≠ .idle) : s.accepted i = none := by
  have hready : s.rxReqTlpReadyReg = false := by
    by_contra hr
    exact hne (h.ready (by simpa using hr))
  simp [accepted, hready]

lemma Serves.barAddr (h : s.Serves ph r) (hne : ph ≠ .idle) : s.barAddr = r.barAddr := by
  rw [BarMaster.barAddr, h.requesterAddr hne, BarTlp.barAddr]

lemma Serves.startSet (h : s.Serves ph r) (o : Option BarTlp) (p : BarStart) :
    s.barRegister.startSet s.axil p = (ph.next o).starts r p := by
  have hs := h.ctl
  simp only [BarMaster.ctl, BarPhase.ctl] at hs
  cases ph with
  | aw2 =>
    simp only [BarCtl.mk.injEq] at hs
    have ha := (h.access (by decide)).aligned (h.write rfl)
    have h8 : (r.barAddr == 0x8#32) = (r.index == 2#6) := BarTlp.barAddr_beq ha 2
    have h18 : (r.barAddr == 0x18#32) = (r.index == 6#6) := BarTlp.barAddr_beq ha 6
    have haddr := h.awaddr (.inr rfl)
    cases p <;> simp [hs, BarRegister.startSet, BarRegister.blockStart, BarRegister.sgStart,
      BarRegister.slvRegWren, BarPhase.next, BarPhase.starts, BarStart.isBlock, BarTlp.starts,
      haddr, h8, h18]
  | w2 =>
    simp only [BarCtl.mk.injEq] at hs
    have ha := (h.access (by decide)).aligned (h.write rfl)
    have h40 : (r.barAddr == 0x40#32) = (r.index == 16#6) := BarTlp.barAddr_beq ha 16
    have h50 : (r.barAddr == 0x50#32) = (r.index == 20#6) := BarTlp.barAddr_beq ha 20
    have haddr := h.axiAwaddr (.inr rfl)
    have hdata := h.wdata (by decide)
    cases p <;> simp [hs, BarRegister.startSet, BarRegister.blockStart, BarRegister.sgStart,
      BarRegister.slvRegWren, BarPhase.next, BarPhase.starts, BarStart.isBlock, BarTlp.starts,
      haddr, hdata, h40, h50]
  | idle =>
    simp only [BarCtl.mk.injEq] at hs
    have hnext : (BarPhase.idle.next o).starts r p = false := by
      cases o with
      | none => rfl
      | some r' =>
        simp only [BarPhase.next]
        split_ifs <;> rfl
    rw [hnext]
    cases p <;> simp [hs, BarRegister.startSet, BarRegister.blockStart, BarRegister.sgStart,
      BarRegister.slvRegWren]
  | _ =>
    simp only [BarCtl.mk.injEq] at hs
    cases p <;> simp [hs, BarRegister.startSet, BarRegister.blockStart, BarRegister.sgStart,
      BarRegister.slvRegWren, BarPhase.next, BarPhase.starts]

lemma Serves.start_clock (h : s.Serves ph r) (o : Option BarTlp) (status : BarChannel → BitVec 32) :
    (s.barRegister.clock s.axil status).start = (ph.next o).starts r := by
  funext p
  simp only [BarRegister.clock, h.startSet o, h.start]
  cases ph <;> cases hp : p.isBlock <;> simp [BarPhase.starts, BarPhase.next, hp]

/-- An edge inside an access. -/
theorem Serves.next (h : s.Serves ph r) (hne : ph ≠ .idle) :
    (s.clock i).Serves (ph.next none) r := by
  have hacc : s.accepted i = none := h.accepted_none hne
  have haddr := h.barAddr hne
  have hctl := h.ctl
  simp only [BarMaster.ctl, BarPhase.ctl] at hctl
  constructor
  case ctl =>
    rw [ctl_clock i h.ctl (by simp [hacc]), hacc]
  case ready =>
    have hready : s.rxReqTlpReadyReg = false := by
      by_contra hr
      exact hne (h.ready (by simpa using hr))
    cases ph with
    | idle => exact absurd rfl hne
    | _ =>
      simp only [BarCtl.mk.injEq] at hctl
      simp [clock, flagNext, hready, hctl]
  case access => exact fun _ => h.access hne
  case write =>
    intro hw
    apply h.write
    cases ph <;> first | rfl | exact absurd rfl hne | cases hw
  case read =>
    intro hr
    apply h.read
    cases ph <;> first | rfl | exact absurd rfl hne | cases hr
  case requesterId => simpa [clock, hacc] using fun _ => h.requesterId hne
  case requesterTag => simpa [clock, hacc] using fun _ => h.requesterTag hne
  case requesterAddr => simpa [clock, hacc] using fun _ => h.requesterAddr hne
  case wdata => simpa [clock, axilNext, hacc] using fun _ => h.wdata hne
  case wstrb => simpa [clock, axilNext, hacc] using fun _ => h.wstrb hne
  case awaddr =>
    intro hph
    have hstate : s.mState = .wAddr := by
      cases ph <;> simp_all [BarPhase.next]
    simp [clock, axilNext, hstate, haddr]
  case axiAwaddr =>
    intro hph
    cases ph with
    | aw1 =>
      simp only [BarCtl.mk.injEq] at hctl
      simp [clock, BarRegister.clock, hctl, h.awaddr (.inl rfl)]
    | aw2 =>
      simp only [BarCtl.mk.injEq] at hctl
      simp [clock, BarRegister.clock, hctl, h.axiAwaddr (.inl rfl)]
    | w0 =>
      simp only [BarCtl.mk.injEq] at hctl
      simp [clock, BarRegister.clock, hctl, h.axiAwaddr (.inr rfl)]
    | w1 =>
      simp only [BarCtl.mk.injEq] at hctl
      simp [clock, BarRegister.clock, hctl, h.axiAwaddr (.inr rfl)]
    | _ => simp [BarPhase.next, BarPhase.writing] at hph
  case araddr =>
    intro hph
    have hstate : s.mState = .rAddr := by
      cases ph <;> simp_all [BarPhase.next]
    simp [clock, axilNext, hstate, haddr]
  case axiAraddr =>
    intro hph
    cases ph with
    | ar1 =>
      simp only [BarCtl.mk.injEq] at hctl
      simp [clock, BarRegister.clock, hctl, h.araddr (.inl rfl)]
    | _ => simp_all [BarPhase.next]
  case start => exact h.start_clock none i.status

/-- An edge between two accesses. -/
theorem Serves.next_idle (h : s.Serves .idle r)
    (hacc : ∀ r', s.accepted i = some r' → r'.Access) :
    (s.clock i).Serves (BarPhase.idle.next (s.accepted i)) ((s.accepted i).getD r) := by
  have hctl := ctl_clock i h.ctl fun r' hr' => (hacc r' hr').fmt
  have hstart := h.start_clock (s.accepted i) i.status
  have hstate : s.mState = .idle := congrArg BarCtl.mState h.ctl
  cases ha : s.accepted i with
  | none =>
    rw [ha] at hctl hstart
    refine ⟨hctl, fun _ => rfl, fun hne => absurd rfl hne, ?_, ?_, ?_, ?_, ?_, ?_, ?_, ?_, ?_, ?_, ?_, hstart⟩
    all_goals intro hph; simp [BarPhase.next, BarPhase.isWrite, BarPhase.isRead, BarPhase.writing] at hph
  | some r' =>
    rw [ha] at hctl hstart
    have hr := hacc r' ha
    have hready : s.rxReqTlpReadyReg = true := by
      by_contra hr'
      simp [accepted, hr'] at ha
    have hrx : i.rxReqTlp = some r' := by simpa [accepted, hready] using ha
    have hfirst : BarPhase.idle.next (some r') = .ar0 ∧ r'.fmt = tlpFmt4dwBits ∨
        BarPhase.idle.next (some r') = .aw0 ∧ r'.fmt = tlpFmt4dwDataBits := by
      rcases hr.fmt with hf | hf
      · exact .inl ⟨by simp [BarPhase.next, hf], hf⟩
      · have hd : tlpFmt4dwDataBits ≠ tlpFmt4dwBits := by decide
        exact .inr ⟨by simp [BarPhase.next, hf, hd], hf⟩
    refine ⟨hctl, ?_, fun _ => hr, ?_, ?_, ?_, ?_, ?_, ?_, ?_, ?_, ?_, ?_, ?_, ?_⟩
    · simp [clock, flagNext, hready, hrx]
    · rcases hfirst with ⟨hn, hf⟩ | ⟨hn, hf⟩ <;> simp [hn, hf, BarPhase.isWrite]
    · rcases hfirst with ⟨hn, hf⟩ | ⟨hn, hf⟩ <;> simp [hn, hf, BarPhase.isRead]
    · simp [clock, ha]
    · simp [clock, ha]
    · simp [clock, ha]
    · simp [clock, axilNext, ha]
    · simp [clock, axilNext, ha]
    · rcases hfirst with ⟨hn, hf⟩ | ⟨hn, hf⟩ <;> simp [hn]
    · rcases hfirst with ⟨hn, hf⟩ | ⟨hn, hf⟩ <;> simp [hn, BarPhase.writing]
    · rcases hfirst with ⟨hn, hf⟩ | ⟨hn, hf⟩ <;> simp [hn]
    · rcases hfirst with ⟨hn, hf⟩ | ⟨hn, hf⟩ <;> simp [hn]
    · refine hstart.trans ?_
      rcases hfirst with ⟨hn, hf⟩ | ⟨hn, hf⟩ <;> rw [hn] <;> rfl

end BarMaster

/-! ### Pulses -/

section Pulses

variable (r : BarTlp) (regs : BitVec 6 → BitVec 32)

lemma barPulses_starts (ph : BarPhase) :
    barPulses (ph.starts r) regs =
      if ph = .w0 then barPulses (fun p => p.isBlock && r.starts p) regs
      else if ph = .b0 then barPulses (fun p => !p.isBlock && r.starts p) regs
      else [] := by
  cases ph <;> rfl

lemma barPulses_split :
    barPulses (fun p => p.isBlock && r.starts p) regs ++
      barPulses (fun p => !p.isBlock && r.starts p) regs = barPulses r.starts regs := by
  simp only [barPulses, ← List.map_append]
  congr 1
  simp only [List.filter_cons, BarStart.isBlock, List.filter_nil, Bool.true_and, Bool.false_and,
    Bool.not_true, Bool.not_false, Bool.false_eq_true, if_false]
  split_ifs <;> rfl

lemma BarConfig.ofRegs_update {index : BitVec 6} (v : BitVec 32)
    (h : index = 2 ∨ index = 6 ∨ index = 16 ∨ index = 20) :
    BarConfig.ofRegs (Function.update regs index v) = BarConfig.ofRegs regs := by
  rcases h with rfl | rfl | rfl | rfl <;> rfl

lemma barPulses_update (p : BarStart → Bool) (v : BitVec 32)
    (hp : ∀ b, p b = true → r.starts b = true) :
    barPulses p (Function.update regs r.index v) = barPulses p regs := by
  by_cases h : r.index = 2 ∨ r.index = 6 ∨ r.index = 16 ∨ r.index = 20
  · simp only [barPulses, BarConfig.ofRegs_update regs v h]
  · have hnone : p = fun _ => false := by
      funext b
      by_contra hb
      have hs := hp b (by simpa using hb)
      cases b <;> simp_all [BarTlp.starts]
    rw [hnone]
    rfl

end Pulses

end FpgaPcie
