import FpgaPcie.Rtl.DmaRdReassembly

/-!
# Which descriptors are cut into the right requests

The length field of a request that is not the last one is right for a 512-bit bus with
512-byte requests only, and the beat count of a single request is right as long as it fits
four bits and, for 128-byte requests, the single bit that the source slices.
-/

namespace FpgaPcie

variable {c : RdConfig} {address length : ℕ}

/-- The request accepted in this cycle, with the table entry of its tag. -/
def RdSystem.newRequest (x : RdSystem c) (i : RdInput c) : List (TlpHdr × ℕ) :=
  if x.engine.req.accept i then
    [(x.engine.req.txRdReqTlpHdrReg, x.engine.tag.tagTableInfo x.engine.req.txRdReqTlpHdrReg.tag)]
  else []

/-- The requests accepted before cycle `t`. -/
def RdSystem.requests (x : RdSystem c) (i : ℕ → RdInput c) : ℕ → List (TlpHdr × ℕ)
  | 0 => []
  | t + 1 => x.requests i t ++ (x.run i t).newRequest (i t)

/-- A request as it is to be made, with the table entry of its tag. -/
structure MrdOk (c : RdConfig) (address length k : ℕ) (request : TlpHdr × ℕ) : Prop where
  covers : request.1.Covers (reqAddress c address k) (reqBytes c length k)
  boundary : reqAddress c address k % 4096 + reqBytes c length k ≤ 4096
  beats : request.2 = beatCount c (reqBytes c length k)

/-- The accepted requests are the first requests of the descriptor. -/
def RequestsOk (c : RdConfig) (address length : ℕ) (requests : List (TlpHdr × ℕ)) : Prop :=
  requests.length ≤ reqCount c length ∧
    ∀ k request, requests[k]? = some request → MrdOk c address length k request

lemma RequestsOk.nil : RequestsOk c address length [] := ⟨Nat.zero_le _, fun k request h => by simp at h⟩

/-- Every byte of the descriptor is asked for by exactly one request. -/
theorem requests_partition (offset : ℕ) : offset < length ↔
    ∃! k, k < reqCount c length ∧ mrrs c * k ≤ offset ∧
      offset < mrrs c * k + reqBytes c length k :=
  Chunks.partition mrrs_pos offset

/-- The lengths that the request FSM handles. -/
structure Supported (c : RdConfig) (length : ℕ) : Prop where
  many : mrrs c < length → c.Wide512
  single : length ≤ mrrs c →
    if c.maxReadPayloadSize = 0 then length < 2 * c.busBytes ∨ length = 128
    else beatCount c length ≤ 15

/-! ### The formulas for the first request -/

section Formulas

variable {r : ReqReg}

lemma reqCount_le_one (hle : length ≤ mrrs c) : reqCount c length ≤ 1 := by
  by_contra hgt
  have h := lt_reqCount_iff.mp (show 1 < reqCount c length by omega)
  omega

lemma reqBytes_single (hle : length ≤ mrrs c) : reqBytes c length 0 = length := by
  unfold reqBytes
  omega

lemma byteCycleNext_single_iff
    (hwidth : c.offsetWidth = 4 ∨ c.offsetWidth = 5 ∨ c.offsetWidth = 6)
    (hcode : c.maxReadPayloadSize ≤ 3) (h : r.Building c address length 0) (hpos : 0 < length)
    (hlen : length < 2 ^ 32) (hle : length ≤ mrrs c) :
    byteCycleNext c r = beatCount c length ↔
      if c.maxReadPayloadSize = 0 then length < 2 * c.busBytes ∨ length = 128
      else beatCount c length ≤ 15 := by
  have hR := reqCount_pos (c := c) hpos
  have hlast : r.lastRequest = true := by
    rw [lastRequest_eq h hlen hR]
    exact decide_eq_true (by have := reqCount_le_one hle; omega)
  unfold byteCycleNext fullByteCycle beatCount RdConfig.busBytes
  unfold mrrs at hle
  rw [hlast, h.lengthReg]
  generalize c.maxReadPayloadSize = m at hcode hle
  generalize c.offsetWidth = w at hwidth
  rcases hwidth with rfl | rfl | rfl <;> interval_cases m <;>
    simp only [if_true, Nat.reduceShiftLeft, Nat.reduceShiftRight, Nat.reduceMod, Nat.reducePow,
      Nat.reduceMul, if_false, OfNat.ofNat_ne_zero, one_ne_zero] at hle ⊢ <;>
    split_ifs <;> omega

/-- The table entry and the length field of a request that is not the last one fit each other
for a single combination of bus width and request size. -/
lemma wide512_of_full (hwidth : c.offsetWidth = 4 ∨ c.offsetWidth = 5 ∨ c.offsetWidth = 6)
    (hcode : c.maxReadPayloadSize ≤ 3)
    (hfield : ((2 ^ c.offsetWidth >>> 2) <<< ((5 + 8 - c.maxReadPayloadSize) % 8)) % 2 ^ 10 =
      (mrrs c + 3) / 4 % 1024)
    (hbeats : fullByteCycle c = beatCount c (mrrs c)) : c.Wide512 := by
  unfold fullByteCycle beatCount RdConfig.busBytes at hbeats
  unfold mrrs at hfield hbeats
  have hm : c.maxReadPayloadSize = 0 ∨ c.maxReadPayloadSize = 1 ∨ c.maxReadPayloadSize = 2 ∨
    c.maxReadPayloadSize = 3 := by omega
  rcases hwidth with hw | hw | hw <;> rcases hm with hm | hm | hm | hm <;>
    rw [hw, hm] at hfield hbeats <;>
    first
      | exact ⟨hw, hm⟩
      | exact absurd hfield (by decide)
      | exact absurd hbeats (by decide)

lemma boundary_ok (hcode : c.maxReadPayloadSize ≤ 3) (haddr : address % mrrs c = 0) (k : ℕ) :
    reqAddress c address k % 4096 + reqBytes c length k ≤ 4096 := by
  have hb := reqBytes_le (c := c) length k
  have hdvd : mrrs c ∣ 4096 := by
    rw [mrrs_eq_shift, mrrsShift]
    exact pow_dvd_pow 2 (show 7 + c.maxReadPayloadSize ≤ 12 by omega)
  have hz : mrrs c ∣ reqAddress c address k % 4096 := by
    rw [reqAddress, Nat.mod_mod_of_dvd _ (by norm_num : 4096 ∣ 2 ^ 64)]
    rw [Nat.dvd_mod_iff hdvd]
    exact Nat.dvd_add (Nat.dvd_of_mod_eq_zero haddr) (Nat.dvd_mul_right _ _)
  obtain ⟨q, hq⟩ := hz
  obtain ⟨n, hn⟩ := hdvd
  have hlt := Nat.mod_lt (reqAddress c address k) (show 0 < 4096 by norm_num)
  have hqn : q < n := by
    rw [hq, hn] at hlt
    exact Nat.lt_of_mul_lt_mul_left hlt
  have hmul := Nat.mul_le_mul_left (mrrs c) (Nat.succ_le_of_lt hqn)
  rw [Nat.mul_succ] at hmul
  omega

end Formulas

/-! ### The opening of a run -/

/-- The engine before the first header, with or without the pulse of the tag allocator. -/
structure RdState.Opening (s : RdState c) (address length : ℕ) (pulse : Bool) : Prop where
  state : s.req.reqStateReg = .start
  valid : s.req.txRdReqTlpValidReg = false
  building : s.req.Building c address length 0
  we : s.tag.opTagFifoWe = pulse
  wrTag : s.tag.opTagFifoWrTag = 0
  rd : s.tag.opTagFifoRd = false
  quiet : pulse = false → s.tag.opTagFifo.words = [] ∧ ∀ tag, s.tr.cpldDataFifoRdEnReg tag = false

section Opening

variable {s : RdState c} {i : RdInput c}

lemma RdState.Quiet.opening (hq : s.Quiet) (haddr : i.descTxRdReqAddress < 2 ^ 64)
    (hlen : i.descTxRdReqLength < 2 ^ 32) (hstart : i.descTxRdReqStart = true) :
    (rdStep s i).Opening i.descTxRdReqAddress i.descTxRdReqLength false := by
  have ht := hq.take hstart
  have ha : reqAddress c i.descTxRdReqAddress 0 = i.descTxRdReqAddress := by
    rw [reqAddress, Nat.mul_zero, Nat.add_zero, Nat.mod_eq_of_lt haddr]
  refine ⟨?_, ?_, ?_, ?_, ?_, ?_, fun _ => ⟨?_, fun tag => ?_⟩⟩
  · simp [rdStep, reqNext_take ht]
  · simp [rdStep, reqNext_take ht]
  · simp only [rdStep, reqNext_take ht]
    exact ⟨rfl, rfl, trCycleNext_eq hlen, rfl, ha.symm⟩
  · simp [rdStep, tagStep, hq.we, reqNext_take ht]
  · simp [rdStep, tagStep, hq.req]
  · simp [rdStep, tagStep, hq.req, hq.rd, reqNext_take ht]
  · simp [rdStep, tagStep, hq.we, hq.rd, hq.tagFifo]
  · simp [rdStep, trStep, rdEnNext, hq.tr]

lemma RdState.Opening.accept {pulse : Bool} (h : s.Opening address length pulse) :
    s.req.accept i = false := by
  simp [ReqReg.accept, h.valid]

lemma RdState.Opening.allocates (h : s.Opening address length false) :
    (rdStep s i).Opening address length true := by
  obtain ⟨hfifo, hen⟩ := h.quiet rfl
  have ha : s.req.accept i = false := h.accept
  refine ⟨?_, ?_, ?_, ?_, ?_, ?_, nofun⟩
  · simp [rdStep, h.we, reqNext_wait h.state ha, h.state]
  · simp [rdStep, h.we, reqNext_wait h.state ha]
  · simp only [rdStep, h.we, reqNext_wait h.state ha]
    exact ⟨h.building.lengthReg, h.building.addressReg, h.building.trCycle, h.building.opCycle,
      h.building.tlpAddress⟩
  · simp [rdStep, tagStep, h.we, reqNext_wait h.state ha, hfifo]
  · simp [rdStep, tagStep, h.we, h.wrTag]
  · simp [rdStep, tagStep, h.state, h.rd, hen]

lemma RdState.Opening.offers (h : s.Opening address length true) :
    (rdStep s i).req.reqStateReg = .start ∧ (rdStep s i).req.txRdReqTlpValidReg = true ∧
      (rdStep s i).req.opCycleReg = 0 ∧ (rdStep s i).req.trCycleReg = reqCount c length ∧
      (rdStep s i).req.txRdReqTlpHdrReg = mrdHdr c s.req 0 ∧
      (rdStep s i).tag.tagTableInfo (mrdHdr c s.req 0).tag = byteCycleNext c s.req := by
  have ha : s.req.accept i = false := h.accept
  refine ⟨?_, ?_, ?_, ?_, ?_, ?_⟩
  · simp [rdStep, h.we, reqNext_allocate h.state ha, h.state]
  · simp [rdStep, h.we, reqNext_allocate h.state ha]
  · simp [rdStep, h.we, reqNext_allocate h.state ha, h.building.opCycle]
  · simp [rdStep, h.we, reqNext_allocate h.state ha, h.building.trCycle]
  · simp [rdStep, h.we, reqNext_allocate h.state ha, h.wrTag]
  · simp [rdStep, tagStep, h.we, h.wrTag, h.rd, reqNext_allocate h.state ha, mrdHdr]

lemma leaves_after_single (hs : s.req.reqStateReg = .start) (ha : s.req.accept i = true)
    (hop : s.req.opCycleReg = 0) (htr : s.req.trCycleReg = 1) :
    (rdStep s i).req.reqStateReg = .idle ∧ (rdStep s i).req.txRdReqTlpValidReg = false := by
  simp [rdStep, reqNext_accept hs ha, hop, htr]

/-- Once the request FSM is idle again it makes no request until the next start. -/
lemma requests_of_idle {x : RdSystem c} {i : ℕ → RdInput c} {t : ℕ}
    (hlow : ∀ u, t ≤ u → (i u).descTxRdReqStart = false)
    (hs : (x.run i t).engine.req.reqStateReg = .idle)
    (hv : (x.run i t).engine.req.txRdReqTlpValidReg = false) (d : ℕ) :
    (x.run i (t + d)).engine.req.reqStateReg = .idle ∧
      (x.run i (t + d)).engine.req.txRdReqTlpValidReg = false ∧
      x.requests i (t + d) = x.requests i t := by
  induction d with
  | zero => exact ⟨hs, hv, rfl⟩
  | succ d ih =>
    obtain ⟨hs', hv', hr'⟩ := ih
    have ht := take_eq_false (r := (x.run i (t + d)).engine.req) (hlow (t + d) (by omega))
    have ha : (x.run i (t + d)).engine.req.accept (i (t + d)) = false := by
      simp [ReqReg.accept, hv']
    rw [← Nat.add_assoc]
    refine ⟨?_, ?_, ?_⟩
    · simp [RdSystem.run, RdSystem.step, rdStep, reqNext_idle hs' ht, hs']
    · simp [RdSystem.run, RdSystem.step, rdStep, reqNext_idle hs' ht]
    · simp [RdSystem.requests, RdSystem.newRequest, ha, hr']

end Opening

section Runs

variable {mem : HostMem} {s : RdState c} {i : ℕ → RdInput c}

/-- The first request is accepted in cycle 3. A single request is the only one. -/
theorem first_request (haddr64 : address < 2 ^ 64) (hlen : length < 2 ^ 32) (hquiet : s.Quiet)
    (hstart : StartsOnce i address length)
    (hlegal : ∀ t, ((RdSystem.fresh s).run i t).Legal mem (i t)) :
    ∃ r : ReqReg, r.Building c address length 0 ∧
      (∀ t, t ≤ 3 → (RdSystem.fresh s).requests i t = []) ∧
      (RdSystem.fresh s).requests i 4 = [(mrdHdr c r 0, byteCycleNext c r)] ∧
      (reqCount c length = 1 → ∀ t, 4 ≤ t → (RdSystem.fresh s).requests i t =
        [(mrdHdr c r 0, byteCycleNext c r)]) := by
  obtain ⟨hpulse, ha, hl, hlow⟩ := hstart
  have ho₁ : ((RdSystem.fresh s).run i 1).engine.Opening address length false := by
    have h := hquiet.opening (by rw [ha]; exact haddr64) (by rw [hl]; exact hlen) hpulse
    rw [ha, hl] at h
    exact h
  have ho₂ : ((RdSystem.fresh s).run i 2).engine.Opening address length true :=
    ho₁.allocates (i := i 1)
  obtain ⟨hs₃, hv₃, hop, htr, hhdr, htable⟩ := ho₂.offers (i := i 2)
  have hr₁ : (RdSystem.fresh s).requests i 1 = [] := by
    simp [RdSystem.requests, RdSystem.newRequest, RdSystem.run, RdSystem.fresh, hquiet.accept]
  have hr₂ : (RdSystem.fresh s).requests i 2 = [] := by
    rw [RdSystem.requests, RdSystem.newRequest, ho₁.accept, hr₁]
    rfl
  have hr₃ : (RdSystem.fresh s).requests i 3 = [] := by
    rw [RdSystem.requests, RdSystem.newRequest, ho₂.accept, hr₂]
    rfl
  have hacc : ((RdSystem.fresh s).run i 3).engine.req.accept (i 3) = true := by
    rw [accept_eq_valid (hlegal 3).ready]
    exact hv₃
  have hr₄ : (RdSystem.fresh s).requests i 4 =
      [(mrdHdr c ((RdSystem.fresh s).run i 2).engine.req 0,
        byteCycleNext c ((RdSystem.fresh s).run i 2).engine.req)] := by
    have hhdr' : ((RdSystem.fresh s).run i 3).engine.req.txRdReqTlpHdrReg =
      mrdHdr c ((RdSystem.fresh s).run i 2).engine.req 0 := hhdr
    have htable' : ((RdSystem.fresh s).run i 3).engine.tag.tagTableInfo
      (mrdHdr c ((RdSystem.fresh s).run i 2).engine.req 0).tag =
      byteCycleNext c ((RdSystem.fresh s).run i 2).engine.req := htable
    rw [RdSystem.requests, RdSystem.newRequest, hacc, hr₃, hhdr', htable']
    rfl
  refine ⟨_, ho₂.building, fun t ht => ?_, hr₄, fun hone t ht => ?_⟩
  · have hcases : t = 0 ∨ t = 1 ∨ t = 2 ∨ t = 3 := by omega
    rcases hcases with rfl | rfl | rfl | rfl
    · rfl
    · exact hr₁
    · exact hr₂
    · exact hr₃
  · obtain ⟨hs₄, hv₄⟩ := leaves_after_single hs₃ hacc hop (htr.trans hone)
    obtain ⟨d, rfl⟩ := Nat.exists_eq_add_of_le ht
    exact (requests_of_idle (x := RdSystem.fresh s) (t := 4) (fun u hu => hlow u (by omega)) hs₄ hv₄
      d).2.2.trans hr₄

lemma RequestsOk.step (hc : c.Wide512) (haddr : address % mrrs c = 0) {x : RdSystem c}
    {g : RdProgress} {i : RdInput c} (h : RdInv mem address length x g)
    {requests : List (TlpHdr × ℕ)} (hreq : RequestsOk c address length requests)
    (hlen : requests.length = g.requested) :
    RequestsOk c address length (requests ++ x.newRequest i) ∧
      (requests ++ x.newRequest i).length = (g.next x i).requested := by
  simp only [RdSystem.newRequest, RdProgress.next]
  cases hacc : x.engine.req.accept i with
  | false => simpa using ⟨hreq, hlen⟩
  | true =>
    have hv := valid_of_accept hacc
    have hlt := (h.req.start (h.req.state_start (.inl hv))).1
    obtain ⟨-, hcov, htag⟩ := h.req.valid hv
    have htable := h.tag.table g.requested h.tag.popped_le (h.requested_lt hv)
    have halloc : g.requested < x.engine.allocated g.requested := by
      simp [RdState.allocated, hv]
    rw [if_pos halloc, ← htag] at htable
    have hcode : c.maxReadPayloadSize ≤ 3 := by
      rw [hc.maxReadPayloadSize]
      omega
    have hbeats : endBeat length g.requested - 8 * g.requested =
        beatCount c (reqBytes c length g.requested) := by
      rw [hc.beatCount, hc.reqBytes, endBeat]
      omega
    simp only [if_true, Bool.toNat_true, List.length_append, List.length_singleton, hlen, and_true]
    refine ⟨?_, fun k request hk => ?_⟩
    · rw [List.length_append, List.length_singleton]
      omega
    · by_cases hold : k < requests.length
      · rw [List.getElem?_append_left hold] at hk
        exact hreq.2 k request hk
      · rw [List.getElem?_append_right (by omega), List.getElem?_singleton] at hk
        split_ifs at hk with hz
        have hke : k = g.requested := by omega
        rw [← Option.some.inj hk, hke]
        exact ⟨hcov, boundary_ok hcode haddr _, htable.trans hbeats⟩

/-- The requests of every supported descriptor are right, at any time and in the end. -/
lemma requests_of_wide512 (hc : c.Wide512) (haddr : address % mrrs c = 0)
    (haddr64 : address < 2 ^ 64) (hpos : 1 ≤ length) (hlen : length < 2 ^ 32) (hquiet : s.Quiet)
    (hstart : StartsOnce i address length)
    (hlegal : ∀ t, ((RdSystem.fresh s).run i t).Legal mem (i t)) :
    (∀ t, RequestsOk c address length ((RdSystem.fresh s).requests i t)) ∧
    ((RdSystem.fresh s).Fair i → ∃ t, ((RdSystem.fresh s).requests i t).length =
      reqCount c length) := by
  have haddr4 : address % 4 = 0 := by
    rw [← Nat.mod_mod_of_dvd address four_dvd_mrrs, haddr]
  have hinv := started_inv hc haddr4 haddr64 hpos hlen hquiet hstart hlegal
  have hlog : ∀ t, RequestsOk c address length ((RdSystem.fresh s).requests i (t + 1)) ∧
      ((RdSystem.fresh s).requests i (t + 1)).length = (startedProgress s i t).requested := by
    intro t
    induction t with
    | zero =>
      have hnil : (RdSystem.fresh s).requests i 1 = [] := by
        simp [RdSystem.requests, RdSystem.newRequest, RdSystem.run, RdSystem.fresh, hquiet.accept]
      rw [hnil]
      exact ⟨.nil, rfl⟩
    | succ t ih =>
      rw [startedProgress_succ]
      exact RequestsOk.step hc haddr (hinv t) ih.1 ih.2
  refine ⟨fun t => ?_, fun hfair => ?_⟩
  · cases t with
    | zero => exact .nil
    | succ t => exact (hlog t).1
  · obtain ⟨t₁, ht₁⟩ := started_delivers hc haddr4 haddr64 hpos hlen hquiet hstart hlegal hfair
    refine ⟨t₁ + 1, ?_⟩
    rw [(hlog t₁).2]
    exact ((hinv t₁).requested_of_delivered (ht₁ t₁ le_rfl)).2

/-- From a quiet engine with a legal host that is ready for every request, the accepted
requests are the requests of the descriptor exactly for the supported lengths. -/
theorem mrd_packets_iff (hwidth : c.offsetWidth = 4 ∨ c.offsetWidth = 5 ∨ c.offsetWidth = 6)
    (hcode : c.maxReadPayloadSize ≤ 3) (mem : HostMem) (address length : ℕ) (s : RdState c)
    (i : ℕ → RdInput c) (haddr : address % mrrs c = 0) (haddr64 : address < 2 ^ 64)
    (hpos : 1 ≤ length) (hlen : length < 2 ^ 32) (hquiet : s.Quiet)
    (hstart : StartsOnce i address length)
    (hlegal : ∀ t, ((RdSystem.fresh s).run i t).Legal mem (i t)) :
    ((∀ t, RequestsOk c address length ((RdSystem.fresh s).requests i t)) ∧
      ((RdSystem.fresh s).Fair i → ∃ t, ((RdSystem.fresh s).requests i t).length =
        reqCount c length)) ↔ Supported c length := by
  have haddr4 : address % 4 = 0 := by
    rw [← Nat.mod_mod_of_dvd address four_dvd_mrrs, haddr]
  have hR := reqCount_pos (c := c) hpos
  obtain ⟨r, hb, hempty, hfirst, hsingle⟩ := first_request haddr64 hlen hquiet hstart hlegal
  constructor
  · rintro ⟨hok, -⟩
    have hfour := (hok 4).2 0 _ (by rw [hfirst]; rfl)
    refine ⟨fun hlt => ?_, fun hle => ?_⟩
    · have hmore : 0 + 1 < reqCount c length := lt_reqCount_iff.mpr (by omega)
      have hfull := reqBytes_full hmore
      have hfield := hfour.covers.length
      have hbeats := hfour.beats
      have hnotlast : r.lastRequest = false := by
        rw [lastRequest_eq hb hlen hR]
        exact decide_eq_false (by omega)
      rw [hfull] at hfield hbeats
      simp only [mrdHdr] at hfield
      rw [tagIdxLengthNext_full hb hlen hmore] at hfield
      simp only [byteCycleNext, hnotlast, Bool.false_eq_true, if_false] at hbeats
      exact wide512_of_full hwidth hcode hfield hbeats
    · have hbeats := hfour.beats
      rw [reqBytes_single hle] at hbeats
      exact (byteCycleNext_single_iff hwidth hcode hb hpos hlen hle).mp hbeats
  · rintro ⟨hmany, hsupp⟩
    by_cases hle : length ≤ mrrs c
    · have hone : reqCount c length = 1 := le_antisymm (reqCount_le_one hle) hR
      have hfield := tagIdxLengthNext_last hb hlen hcode hone.symm
      have hmrd : MrdOk c address length 0 (mrdHdr c r 0, byteCycleNext c r) := by
        refine ⟨mrdHdr_covers hb hlen haddr4 hcode hR hfield 0, boundary_ok hcode haddr 0, ?_⟩
        rw [reqBytes_single hle]
        exact (byteCycleNext_single_iff hwidth hcode hb hpos hlen hle).mpr (hsupp hle)
      refine ⟨fun t => ?_, fun _ => ⟨4, by rw [hfirst, hone]; rfl⟩⟩
      by_cases ht : t ≤ 3
      · rw [hempty t ht]
        exact .nil
      · rw [hsingle hone t (by omega)]
        refine ⟨hR, fun k request hk => ?_⟩
        rw [List.getElem?_singleton] at hk
        split_ifs at hk with hz
        rw [← Option.some.inj hk, hz]
        exact hmrd
    · exact requests_of_wide512 (hmany (by omega)) haddr haddr64 hpos hlen hquiet hstart hlegal

end Runs

/-- A descriptor of 1000 bytes on a 512-bit bus with 512-byte requests: the host that answers at
once gets two right requests. -/
theorem mrd_packets_served :
    let c : RdConfig := ⟨6, 5, 0, 2, by decide, by decide⟩
    let mem : HostMem := fun a => BitVec.ofNat 8 a
    ∀ t, RequestsOk c 4096 1000 ((RdSystem.fresh (rdReset c)).requests
      ((RdSystem.fresh (rdReset c)).servedInput mem 4096 1000) t) := by
  intro c mem
  have hc : c.Wide512 := ⟨rfl, rfl⟩
  exact ((mrd_packets_iff (.inr (.inr rfl)) (by decide) mem 4096 1000 (rdReset c)
    ((RdSystem.fresh (rdReset c)).servedInput mem 4096 1000) (by decide) (by decide) (by decide)
    (by decide) (rdReset_quiet c) ⟨rfl, rfl, rfl, fun t ht => by
      simp only [RdSystem.servedInput, RdSystem.serve, beq_eq_false_iff_ne]
      omega⟩ (fun t => by
      rw [RdSystem.run_servedInput]
      exact RdSystem.serve_legal mem 4096 1000 t _)).mpr
    ⟨fun _ => hc, fun h => absurd h (by decide)⟩).1

/-- A host that is ready for every request and sends nothing; one descriptor of 256 bytes on a
512-bit bus with 128-byte requests. -/
def silentInput (t : ℕ) : RdInput ⟨6, 5, 0, 0, tagWidth_five, by decide⟩ where
  descTxRdReqStart := t == 0
  descTxRdReqLength := 256
  descTxRdReqAddress := 0
  txRdReqTlpReady := true
  rxCplTlpValid := false
  rxCplTlpHdr := 0
  rxCplTlpData := fun _ => 0
  mAxisTlpTready := true

/-- The first of the two requests asks for 512 DWs instead of 32. -/
theorem first_request_too_long : ¬ ∀ t, RequestsOk ⟨6, 5, 0, 0, by decide, by decide⟩ 0 256
    ((RdSystem.fresh (rdReset _)).requests silentInput t) := by
  intro h
  have hfirst := (h 4).2 0 (⟨1, 0, 512, 0, 0, 15, 15, 0⟩, 2) (by decide)
  exact absurd hfirst.covers.length (by decide)

end FpgaPcie
