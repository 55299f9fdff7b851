import FpgaPcie.Lib.Progress
import FpgaPcie.Rtl.AxiDmaWr

/-!
# Runs of the card memory writer

Each descriptor takes one frame of the stream. What the beats on the W channel write at the addresses of the bursts
is what the frames put at the words of their descriptors: a frame that is too short leaves the other bytes
alone, and what a frame has too much is dropped.
-/

namespace FpgaPcie

variable {c : AxiDmaWrConfig}

/-- A write of the lanes in `strb` to the bus word at `addr`. -/
structure CardStore (n : ℕ) where
  addr : ℕ
  data : Bytes n
  strb : Fin n → Bool

def CardStore.effective {n : ℕ} (w : CardStore n) : Bool := decide (∃ j, w.strb j = true)

/-- The beats of the W channel at the addresses of the words. -/
def storesOf {n : ℕ} (words : List ℕ) (beats : List (WBeat n)) : List (CardStore n) :=
  List.zipWith (fun a b => ⟨a, b.wdata, b.wstrb⟩) words beats

/-- The `wlast` flags of a burst. -/
def AxiBurst.lastFlags (b : AxiBurst) : List Bool := List.replicate b.axlen false ++ [true]

/-! ### What a frame writes -/

/-- Beat `j` of the frame of a descriptor. -/
def AxiDesc.store (c : AxiDmaWrConfig) (d : AxiDesc) (j : ℕ) (b : AxisBeat c.axiStrbWidth) :
    CardStore c.axiStrbWidth where
  addr := (c.addrMask d.addr + c.axiStrbWidth * j) % 2 ^ c.axiAddrWidth
  data := b.tdata
  strb := fun k => decide (c.axiStrbWidth * j + k < d.len) && (!(c.axisLastEnable && b.tlast) || b.tkeep k)

/-- The beats of a frame go to the words of its descriptor, as far as these reach. -/
def AxiDesc.stores (c : AxiDmaWrConfig) (d : AxiDesc) (frame : List (AxisBeat c.axiStrbWidth)) :
    List (CardStore c.axiStrbWidth) :=
  (frame.take (Chunks.count c.axiStrbWidth d.len)).mapIdx (d.store c)

/-- The frame of a descriptor is complete. -/
def AxiDesc.frameDone (c : AxiDmaWrConfig) (d : AxiDesc) (frame : List (AxisBeat c.axiStrbWidth)) : Bool :=
  if c.axisLastEnable then frame.any AxisBeat.tlast
  else decide (Chunks.count c.axiStrbWidth d.len ≤ frame.length)

/-- The frame ends with its last beat. -/
def AxiDesc.Whole (c : AxiDmaWrConfig) (d : AxiDesc) (frame : List (AxisBeat c.axiStrbWidth)) : Prop :=
  d.frameDone c frame = true ∧ d.frameDone c frame.dropLast = false

/-- The descriptors with their frames, and the descriptor whose frame is on its way. -/
structure WrFrames (c : AxiDmaWrConfig) where
  done : List (AxiDesc × List (AxisBeat c.axiStrbWidth))
  busy : Option AxiDesc
  current : List (AxisBeat c.axiStrbWidth)

namespace WrFrames

variable (g : WrFrames c)

def accepted : List AxiDesc := g.done.map Prod.fst ++ g.busy.toList

def taken : List (AxisBeat c.axiStrbWidth) := g.done.flatMap Prod.snd ++ g.current

def stores : List (CardStore c.axiStrbWidth) :=
  g.done.flatMap (fun p => p.1.stores c p.2) ++ g.busy.toList.flatMap fun d => d.stores c g.current

/-- The frames are cut where they end. -/
structure Framed (g : WrFrames c) : Prop where
  whole : ∀ p ∈ g.done, p.1.Whole c p.2
  idle : g.busy = none → g.current = []
  busy : ∀ d, g.busy = some d → d.frameDone c g.current = false

/-- The frame of `d` begins. -/
def accept (d : AxiDesc) : WrFrames c := { g with busy := some d }

/-- Another beat of the current frame. -/
def take (b : AxisBeat c.axiStrbWidth) : WrFrames c := { g with current := g.current ++ [b] }

/-- The last beat of the frame of `d`. -/
def finish (d : AxiDesc) (b : AxisBeat c.axiStrbWidth) : WrFrames c where
  done := g.done ++ [(d, g.current ++ [b])]
  busy := none
  current := []

variable {g} {d : AxiDesc} {b : AxisBeat c.axiStrbWidth}

lemma accept_accepted (h : g.busy = none) : (g.accept d).accepted = g.accepted ++ [d] := by
  simp [accept, accepted, h]

lemma accept_stores (h : g.busy = none) (hcur : g.current = []) : (g.accept d).stores = g.stores := by
  simp [accept, stores, h, hcur, AxiDesc.stores]

lemma accept_framed (hg : g.Framed) (hcur : g.current = []) (hd : d.frameDone c [] = false) :
    (g.accept d).Framed := by
  refine ⟨hg.whole, fun hn => (by cases hn), fun d' hd' => ?_⟩
  rw [← Option.some.inj hd']
  show d.frameDone c g.current = false
  rw [hcur, hd]

lemma take_taken : (g.take b).taken = g.taken ++ [b] := by
  simp [take, taken]

lemma take_framed (hg : g.Framed) (hbusy : g.busy = some d) (hd : d.frameDone c (g.current ++ [b]) = false) :
    (g.take b).Framed := by
  refine ⟨hg.whole, fun hn => ?_, fun d' hd' => ?_⟩
  · exact absurd (hbusy.symm.trans hn) (by simp)
  · rw [← Option.some.inj (hbusy.symm.trans hd')]
    exact hd

lemma finish_accepted (hbusy : g.busy = some d) : (g.finish d b).accepted = g.accepted := by
  simp [finish, accepted, hbusy]

lemma finish_taken : (g.finish d b).taken = g.taken ++ [b] := by
  simp [finish, taken]

lemma finish_framed (hg : g.Framed) (hbusy : g.busy = some d) (hd : d.frameDone c (g.current ++ [b]) = true) :
    (g.finish d b).Framed := by
  refine ⟨fun p hp => ?_, fun _ => rfl, fun d' hd' => (by cases hd')⟩
  rcases List.mem_append.mp hp with hp | hp
  · exact hg.whole p hp
  · rw [List.mem_singleton.mp hp]
    refine ⟨hd, ?_⟩
    rw [List.dropLast_concat]
    exact hg.busy d hbusy

lemma stores_snoc {frame : List (AxisBeat c.axiStrbWidth)} (hlt : frame.length < Chunks.count c.axiStrbWidth d.len) :
    d.stores c (frame ++ [b]) = d.stores c frame ++ [d.store c frame.length b] := by
  unfold AxiDesc.stores
  rw [List.take_of_length_le (by rw [List.length_append, List.length_singleton]; omega), List.take_of_length_le hlt.le,
    List.mapIdx_concat]

lemma stores_full {frame : List (AxisBeat c.axiStrbWidth)} (hge : Chunks.count c.axiStrbWidth d.len ≤ frame.length) :
    d.stores c (frame ++ [b]) = d.stores c frame := by
  unfold AxiDesc.stores
  rw [List.take_append_of_le_length hge]

/-- A beat on a word of the descriptor is one store more. -/
lemma take_stores (hbusy : g.busy = some d) (hlt : g.current.length < Chunks.count c.axiStrbWidth d.len) :
    (g.take b).stores = g.stores ++ [d.store c g.current.length b] := by
  simp [take, stores, hbusy, stores_snoc hlt]

/-- What comes behind the words of the descriptor is dropped. -/
lemma take_stores_full (hbusy : g.busy = some d)
    (hge : Chunks.count c.axiStrbWidth d.len ≤ g.current.length) : (g.take b).stores = g.stores := by
  simp [take, stores, hbusy, stores_full hge]

lemma finish_stores (hbusy : g.busy = some d) : (g.finish d b).stores = (g.take b).stores := by
  simp [finish, take, stores, hbusy]

/-- With one descriptor all beats are its frame. -/
lemma Framed.single (hg : g.Framed) (h : g.accepted = [d]) :
    g.stores = d.stores c g.taken ∧ (g.busy = none ↔ d.frameDone c g.taken = true) := by
  cases hb : g.busy with
  | none =>
    rw [accepted, hb, Option.toList_none, List.append_nil] at h
    obtain ⟨p, hdone, rfl⟩ := List.map_eq_singleton_iff.mp h
    have hcur := hg.idle hb
    have hwhole := (hg.whole p (by simp [hdone])).1
    simp [stores, taken, hb, hdone, hcur, hwhole]
  | some d' =>
    have hlen := congrArg List.length h
    simp only [accepted, hb, Option.toList_some, List.length_append, List.length_map, List.length_singleton] at hlen
    have hdone : g.done = [] := List.eq_nil_of_length_eq_zero (by omega)
    rw [accepted, hb, hdone, List.map_nil, List.nil_append, Option.toList_some, List.singleton_inj] at h
    subst h
    simp [stores, taken, hb, hdone, hg.busy d' hb]

end WrFrames

/-! ### The writer with its logs -/

/-- The writer with the descriptors and the beats it has taken, the bursts and the beats accepted on the AW and the
W channel, and the number of write responses. -/
structure AxiDmaWrSystem (c : AxiDmaWrConfig) where
  engine : AxiDmaWrState c
  accepted : List AxiDesc
  taken : List (AxisBeat c.axiStrbWidth)
  issued : List AxiBurst
  written : List (WBeat c.axiStrbWidth)
  answered : ℕ

namespace AxiDmaWrSystem

variable (x : AxiDmaWrSystem c) (i : AxiDmaWrInput c)

/-- The burst on the AW channel. -/
def presented : List AxiBurst :=
  if x.engine.reg.mAxiAwvalidReg then [⟨x.engine.reg.mAxiAwaddrReg, x.engine.reg.mAxiAwlenReg⟩] else []

def step : AxiDmaWrSystem c where
  engine := x.engine.step i
  accepted := x.accepted ++ if x.engine.descAccept i then [i.sAxisWriteDesc] else []
  taken := x.taken ++ if x.engine.dataAccept i then [i.sAxisWriteData] else []
  issued := x.issued ++ if i.mAxiAwready then x.presented else []
  written := x.written ++ if x.engine.out.outValidReg && i.mAxiWready then [x.engine.out.outReg] else []
  answered := x.answered + (x.engine.status.mAxiBreadyReg && i.mAxiBvalid).toNat

/-- A run from the state `s`, with empty logs. -/
def run (s : AxiDmaWrState c) (i : ℕ → AxiDmaWrInput c) : ℕ → AxiDmaWrSystem c
  | 0 => ⟨s, [], [], [], [], 0⟩
  | t + 1 => (run s i t).step (i t)

def bursts : List AxiBurst := x.issued ++ x.presented

/-- The addresses of the words of the bursts. -/
def words : List ℕ := x.bursts.flatMap (AxiBurst.words c.toAxiConfig)

/-- The beats made so far. -/
def made (q : List (WBeat c.axiStrbWidth)) : List (WBeat c.axiStrbWidth) := x.written ++ x.engine.out.pending q

/-- The descriptors have between one byte and 4 GiB, and the last beat of a frame keeps a first part of its
lanes. -/
structure InputOk (i : AxiDmaWrInput c) : Prop where
  desc : i.sAxisWriteDescValid = true → 1 ≤ i.sAxisWriteDesc.len ∧ i.sAxisWriteDesc.len < 2 ^ 32
  keep : i.sAxisWriteDataTvalid = true → c.axisLastEnable = true → i.sAxisWriteData.tlast = true →
    ∃ m, ∀ j, i.sAxisWriteData.tkeep j = decide (j.val < m)

variable {x i}

/-! ### The AW channel -/

lemma startsBurst_spec {s : AxiDmaWrState c} (h : s.startsBurst i = true) : s.reg.stateReg = .start ∧
    s.reg.mAxiAwvalidReg = false ∧ s.status.activeCountAvReg = true := by
  simp only [AxiDmaWrState.startsBurst, Bool.and_eq_true, beq_iff_eq, Bool.not_eq_true'] at h
  exact ⟨h.1.1, h.1.2.1, h.1.2.2⟩

lemma aw_start (h : x.engine.startsBurst i = true) : (x.engine.regNext i).mAxiAwvalidReg = true ∧
    (x.engine.regNext i).mAxiAwaddrReg = x.engine.reg.addrReg ∧
    (x.engine.regNext i).mAxiAwlenReg =
      c.axlenNext (c.trWordCountNext x.engine.reg.addrReg x.engine.reg.opWordCountReg) := by
  obtain ⟨hs, hv, hav⟩ := startsBurst_spec h
  simp [AxiDmaWrState.regNext, AxiDmaWrState.startNext, hs, hv, hav, h]

/-- The AW registers are left alone but for `m_axi_awready`. -/
def KeepsAw (s : AxiDmaWrState c) (i : AxiDmaWrInput c) (r : AxiDmaWrReg) : Prop :=
  r.mAxiAwvalidReg = (s.reg.mAxiAwvalidReg && !i.mAxiAwready) ∧
    (s.reg.mAxiAwvalidReg = true → r.mAxiAwaddrReg = s.reg.mAxiAwaddrReg ∧ r.mAxiAwlenReg = s.reg.mAxiAwlenReg)

lemma aw_keep (h : x.engine.startsBurst i = false) : KeepsAw x.engine i (x.engine.regNext i) := by
  have hdefault : KeepsAw x.engine i (x.engine.defaultNext i) := ⟨rfl, fun _ => ⟨rfl, rfl⟩⟩
  unfold AxiDmaWrState.regNext
  cases x.engine.reg.stateReg with
  | idle => exact hdefault
  | start =>
    simp only [AxiDmaWrState.startNext, h, Bool.false_eq_true, if_false]
    split_ifs with hgo
    · rw [Bool.and_eq_true, Bool.not_eq_true'] at hgo
      exact ⟨hdefault.1, fun hv => absurd (hgo.1.symm.trans hv) Bool.false_ne_true⟩
    · exact hdefault
  | write =>
    simp only [AxiDmaWrState.writeNext]
    split_ifs <;> exact hdefault
  | finishBurst =>
    simp only [AxiDmaWrState.finishBurstNext]
    split_ifs <;> exact hdefault
  | dropData =>
    simp only [AxiDmaWrState.dropDataNext]
    split_ifs <;> exact hdefault

/-- A burst that is put on the AW channel stays there until it is accepted. -/
lemma bursts_step : (x.step i).bursts = x.bursts ++ if x.engine.startsBurst i then
    [⟨x.engine.reg.addrReg, c.axlenNext (c.trWordCountNext x.engine.reg.addrReg x.engine.reg.opWordCountReg)⟩]
    else [] := by
  have hlog : (x.step i).bursts = x.issued ++ (if i.mAxiAwready then x.presented else []) ++
      (if (x.engine.regNext i).mAxiAwvalidReg then
        [⟨(x.engine.regNext i).mAxiAwaddrReg, (x.engine.regNext i).mAxiAwlenReg⟩] else []) := rfl
  rw [hlog, bursts]
  cases h : x.engine.startsBurst i with
  | true =>
    obtain ⟨-, hv, -⟩ := startsBurst_spec h
    obtain ⟨hvalid, haddr, hlen⟩ := aw_start h
    simp [hvalid, haddr, hlen, presented, hv]
  | false =>
    obtain ⟨hvalid, hsame⟩ := aw_keep h
    rw [hvalid]
    cases hv : x.engine.reg.mAxiAwvalidReg with
    | false => simp [presented, hv]
    | true =>
      obtain ⟨haddr, hlen⟩ := hsame hv
      cases i.mAxiAwready <;> simp [presented, hv, haddr, hlen]

/-! ### Write responses -/

/-- The burst of `STATE_WRITE` has no entry in the status FIFO yet. -/
def writing (s : AxiDmaWrState c) : ℕ := if s.reg.stateReg = .write then 1 else 0

/-- Each burst counts until its response has come, and at most 32 bursts count. -/
structure StatusInv (s : AxiDmaWrState c) (answered bursts : ℕ) : Prop where
  count : answered + s.status.activeCountReg = bursts
  le : s.status.activeCountReg ≤ 32
  av : s.status.activeCountAvReg = decide (s.status.activeCountReg < 32)
  writing_le : writing s ≤ s.status.activeCountReg
  rd_lt : s.status.statusFifoRdPtrReg < 64
  wr : s.status.statusFifoWrPtrReg =
    (s.status.statusFifoRdPtrReg + (s.status.activeCountReg - writing s)) % 64
  bready : s.status.mAxiBreadyReg = true → writing s < s.status.activeCountReg

lemma StatusInv.ne_iff {s : AxiDmaWrState c} {answered bursts : ℕ} (h : StatusInv s answered bursts) :
    (s.status.statusFifoRdPtrReg != s.status.statusFifoWrPtrReg) = decide (writing s < s.status.activeCountReg) := by
  have hle := h.le
  have hlt := h.rd_lt
  have hw := h.writing_le
  rw [Bool.eq_iff_iff, bne_iff_ne, decide_eq_true_eq, h.wr]
  omega

lemma StatusInv.decActive_eq {s : AxiDmaWrState c} {answered bursts : ℕ} (h : StatusInv s answered bursts) :
    s.decActive i = (s.status.mAxiBreadyReg && i.mAxiBvalid) := by
  rw [AxiDmaWrState.decActive, h.ne_iff]
  cases hb : s.status.mAxiBreadyReg with
  | false => rw [Bool.false_and, Bool.and_false]
  | true => rw [decide_eq_true (h.bready hb), Bool.true_and]

/-- A burst begins with its start and ends with its entry. -/
lemma writing_step (s : AxiDmaWrState c) (i : AxiDmaWrInput c) :
    writing (s.step i) + (s.statusFifoWe i).toNat = writing s + (s.startsBurst i).toNat := by
  show (if (s.regNext i).stateReg = .write then 1 else 0) + _ = _
  unfold writing AxiDmaWrState.statusFifoWe
  cases hs : s.reg.stateReg with
  | idle =>
    have hb : s.startsBurst i = false := by simp [AxiDmaWrState.startsBurst, hs]
    rw [s.stateReg_idle i hs, s.writes_eq_false i (by simp [hs]), hb]
    split_ifs <;> simp_all
  | start =>
    rw [s.stateReg_start i hs, s.writes_eq_false i (by simp [hs])]
    cases s.startsBurst i <;> rfl
  | write =>
    have hb : s.startsBurst i = false := by simp [AxiDmaWrState.startsBurst, hs]
    rw [s.stateReg_write i hs, hb]
    split_ifs <;> simp_all
  | finishBurst =>
    have hb : s.startsBurst i = false := by simp [AxiDmaWrState.startsBurst, hs]
    rw [s.stateReg_finishBurst i hs, s.writes_eq_false i (by simp [hs]), hb]
    split_ifs <;> simp_all
  | dropData =>
    have hb : s.startsBurst i = false := by simp [AxiDmaWrState.startsBurst, hs]
    rw [s.stateReg_dropData i hs, s.writes_eq_false i (by simp [hs]), hb]
    split_ifs <;> simp_all

lemma activeCountAv_next {s : AxiDmaWrState c} (hle : s.status.activeCountReg ≤ 32) :
    (s.statusNext i).activeCountAvReg = decide ((s.statusNext i).activeCountReg < 32) := by
  have hsize : 2 ^ AxiDmaWrState.statusFifoAddrWidth = 32 := rfl
  simp only [AxiDmaWrState.statusNext, hsize]
  cases hup : decide (s.status.activeCountReg < 32) && (s.startsBurst i && !s.decActive i) with
  | true =>
    simp only [if_true, decide_eq_decide]
    omega
  | false =>
    cases hdown : decide (0 < s.status.activeCountReg) && (!s.startsBurst i && s.decActive i) with
    | true =>
      rw [Bool.and_eq_true, decide_eq_true_eq] at hdown
      have hlt : s.status.activeCountReg - 1 < 32 := by omega
      simp [hlt]
    | false => simp

theorem StatusInv.step {s : AxiDmaWrState c} {answered bursts : ℕ} (h : StatusInv s answered bursts) :
    StatusInv (s.step i) (answered + (s.status.mAxiBreadyReg && i.mAxiBvalid).toNat)
      (bursts + (s.startsBurst i).toNat) := by
  have hw := writing_step s i
  have hdec := h.decActive_eq (i := i)
  have hne := h.ne_iff
  obtain ⟨hcount, hle, hav, hwle, hlt, hwr, hbready⟩ := h
  have hgo : s.startsBurst i = true → s.status.activeCountReg < 32 ∧ writing s = 0 ∧ s.statusFifoWe i = false := by
    intro hb
    obtain ⟨hs, -, hfree⟩ := startsBurst_spec hb
    refine ⟨by simpa [hav] using hfree, by simp [writing, hs], ?_⟩
    rw [AxiDmaWrState.statusFifoWe, s.writes_eq_false i (by simp [hs]), Bool.false_and]
  have hwe : s.statusFifoWe i = true → writing s = 1 := by
    intro he
    rw [he] at hw
    have : writing s ≤ 1 := by unfold writing; split_ifs <;> omega
    have hb : s.startsBurst i = false := by
      by_contra hb
      rw [(hgo (Bool.eq_true_of_not_eq_false hb)).2.2] at he
      cases he
    rw [hb, Bool.toNat_true, Bool.toNat_false] at hw
    omega
  have hdue : (s.status.mAxiBreadyReg && i.mAxiBvalid) = true → writing s < s.status.activeCountReg := by
    intro hb
    rw [Bool.and_eq_true] at hb
    exact hbready hb.1
  rw [← hdec] at hdue ⊢
  have hcount' : (s.step i).status.activeCountReg + (s.decActive i).toNat =
      s.status.activeCountReg + (s.startsBurst i).toNat := by
    show (s.statusNext i).activeCountReg + _ = _
    simp only [AxiDmaWrState.statusNext, AxiDmaWrState.statusFifoAddrWidth]
    cases hb : s.startsBurst i with
    | false =>
      cases hd : s.decActive i with
      | false => simp
      | true =>
        have := hdue hd
        simp [show 0 < s.status.activeCountReg by omega]
        omega
    | true =>
      have := (hgo hb).1
      cases hd : s.decActive i with
      | false => simp [this]
      | true => simp
  have hav' := activeCountAv_next (i := i) hle
  have hrd' : (s.step i).status.statusFifoRdPtrReg =
      (s.status.statusFifoRdPtrReg + (s.decActive i).toNat) % 64 := by
    show (s.statusNext i).statusFifoRdPtrReg = _
    simp only [AxiDmaWrState.statusNext, AxiDmaWrState.statusFifoAddrWidth]
    cases s.decActive i with
    | false => simp [Nat.mod_eq_of_lt hlt]
    | true => rfl
  have hwr' : (s.step i).status.statusFifoWrPtrReg =
      (s.status.statusFifoWrPtrReg + (s.statusFifoWe i).toNat) % 64 := by
    show (s.statusNext i).statusFifoWrPtrReg = _
    simp only [AxiDmaWrState.statusNext, AxiDmaWrState.statusFifoAddrWidth]
    cases s.statusFifoWe i with
    | false => simp [hwr]
    | true => rfl
  have hbool := Bool.toNat_le (s.startsBurst i)
  have hbool' := Bool.toNat_le (s.statusFifoWe i)
  have hstart : (s.startsBurst i).toNat = 1 → s.status.activeCountReg < 32 ∧ writing s = 0 ∧
      (s.statusFifoWe i).toNat = 0 := by
    intro hb
    obtain ⟨hlt, hw0, he⟩ := hgo (by simpa using hb)
    exact ⟨hlt, hw0, by rw [he, Bool.toNat_false]⟩
  have hentry : (s.statusFifoWe i).toNat = 1 → writing s = 1 := fun he => hwe (by simpa using he)
  have hpop : (s.decActive i).toNat = 1 → writing s < s.status.activeCountReg := fun hd => hdue (by simpa using hd)
  have hbool'' := Bool.toNat_le (s.decActive i)
  refine ⟨by omega, by omega, hav', by omega, by omega, ?_, fun hb => ?_⟩
  · rw [hwr', hrd', hwr]
    omega
  · have hnone : s.decActive i = false ∧ writing s < s.status.activeCountReg := by
      have hb' : (s.statusNext i).mAxiBreadyReg = true := hb
      simp only [AxiDmaWrState.statusNext, Bool.and_eq_true, Bool.not_eq_true', hne, decide_eq_true_eq] at hb'
      rw [hdec]
      exact ⟨hb'.2, hb'.1⟩
    rw [hnone.1, Bool.toNat_false] at hcount'
    omega

end AxiDmaWrSystem

end FpgaPcie
