import FpgaPcie.Lib.Chunks
import FpgaPcie.Rtl.DmaWr

/-!
# The TLPs of a descriptor

A descriptor of `length` bytes at `address` is to be written by `tlpCount` TLPs of at most `mps`
bytes on a 512-bit bus. This file says what such a TLP is, computes what the formulas of the
request FSM give for beat `b`, and shows for which payload sizes and lengths this is right.
-/

namespace FpgaPcie

variable (c : WrConfig)

/-- `128 << MaxPayloadSize` bytes. -/
def mps : ℕ := 2 ^ (7 + c.maxPayloadSize)

/-- The beats of a full TLP. -/
def tlpBeats : ℕ := 2 ^ (7 + c.maxPayloadSize - c.offsetWidth)

def tlpCount (length : ℕ) : ℕ := Chunks.count (mps c) length

def tlpAddress (address k : ℕ) : ℕ := (address + mps c * k) % 2 ^ 64

def tlpBytes (length k : ℕ) : ℕ := Chunks.size (mps c) length k

/-- The beats of a descriptor. -/
def wrBeats (length : ℕ) : ℕ := Chunks.count c.busBytes length

/-- The registers of the request FSM at beat `b`, as far as a beat depends on them. -/
def wrRegAt (address length b : ℕ) : WrReg where
  reqStateReg := .start
  sAxisTlpTreadyReg := true
  cycleReg := wrBeats c length
  opCycleReg := b
  trCycleReg := tlpCount c length - b / tlpBeats c
  descWrReqAddressReg := 0
  descWrReqLengthReg := length
  descWrReqStartReg := false
  txWrReqLengthReg := 0
  txWrReqAddrReg := tlpAddress c address (b / tlpBeats c)
  trBytesReg := 0

/-- Beat `b` of the write request, for the stream beat `d`. -/
def mwrBeat (address length b : ℕ) (d : SAxisBeat c.busBytes) : WrBeat c where
  txWrReqTlpData := d.tdata
  txWrReqTlpStrb := strbInit c d.tkeep
  txWrReqTlpHdr := mwrHdr c (wrRegAt c address length b)
  txWrReqTlpSeq := seqInit c b
  txWrReqTlpSop := sopInit c (b + 1)
  txWrReqTlpEop := eopInit c (wrBeats c length) (b + 1)

/-! ### What a write request is to be -/

/-- The stream beat carries the bytes of the descriptor that are left, on the low lanes. -/
def KeepOk (length b : ℕ) (d : SAxisBeat c.busBytes) : Prop :=
  ∀ j : Fin c.busBytes, d.tkeep j = decide (c.busBytes * b + j < length)

/-- TLP `k` of the descriptor, made of the beats `stream`: one MWr header that covers its
bytes, the data unchanged, `sop` and `eop` on the first and the last beat, and as many DWs
strobed as the length field says. -/
structure TlpOk (address length k : ℕ) (stream : List (SAxisBeat c.busBytes))
    (tlp : List (WrBeat c)) : Prop where
  data : tlp.map WrBeat.txWrReqTlpData = stream.map SAxisBeat.tdata
  beats : tlp.length = Chunks.count c.busBytes (tlpBytes c length k)
  sop : ∀ j w, tlp[j]? = some w → w.txWrReqTlpSop = decide (j = 0)
  eop : ∀ j w, tlp[j]? = some w → w.txWrReqTlpEop = decide (j + 1 = tlp.length)
  fmt : ∀ w ∈ tlp, w.txWrReqTlpHdr.fmt = tlpFmt4dwData ∧ w.txWrReqTlpHdr.type = 0
  covers : ∀ w ∈ tlp, w.txWrReqTlpHdr.Covers (tlpAddress c address k) (tlpBytes c length k)
  payload : (∀ j d, stream[j]? = some d → KeepOk c length (tlpBeats c * k + j) d) →
    ∀ j w, tlp[j]? = some w → ∀ i, i < c.busBytes / 4 →
      w.txWrReqTlpStrb i = decide (c.busBytes / 4 * j + i < w.txWrReqTlpHdr.dwords)
  boundary : tlpAddress c address k % 4096 + tlpBytes c length k ≤ 4096

/-- Beat `b` of the descriptor, as part of TLP `b / tlpBeats c`. -/
structure MwrBeatOk (address length b : ℕ) (d : SAxisBeat c.busBytes) (w : WrBeat c) : Prop where
  data : w.txWrReqTlpData = d.tdata
  sop : w.txWrReqTlpSop = decide (b % tlpBeats c = 0)
  eop : w.txWrReqTlpEop = decide ((b + 1) % tlpBeats c = 0 ∨ b + 1 = wrBeats c length)
  fmt : w.txWrReqTlpHdr.fmt = tlpFmt4dwData ∧ w.txWrReqTlpHdr.type = 0
  covers : w.txWrReqTlpHdr.Covers (tlpAddress c address (b / tlpBeats c))
    (tlpBytes c length (b / tlpBeats c))
  strb : KeepOk c length b d → ∀ i, i < c.busBytes / 4 →
    w.txWrReqTlpStrb i = decide (c.busBytes * b + 4 * i < length)
  boundary : tlpAddress c address (b / tlpBeats c) % 4096 + tlpBytes c length (b / tlpBeats c) ≤ 4096

variable {c} {address length b k : ℕ}

/-! ### The formulas -/

lemma mps_pos : 0 < mps c := by
  unfold mps
  positivity

lemma tlpBeats_pos : 0 < tlpBeats c := by
  unfold tlpBeats
  positivity

lemma mps_eq (hw : c.offsetWidth = 6) : mps c = 64 * tlpBeats c := by
  rw [mps, tlpBeats, hw, show 7 + c.maxPayloadSize - 6 = 1 + c.maxPayloadSize by omega,
    show 7 + c.maxPayloadSize = 6 + (1 + c.maxPayloadSize) by omega, pow_add]
  norm_num

lemma tlpBeats_eq (hw : c.offsetWidth = 6) : tlpBeats c = 2 * 2 ^ c.maxPayloadSize := by
  rw [tlpBeats, hw, show 7 + c.maxPayloadSize - 6 = 1 + c.maxPayloadSize by omega, pow_add]
  norm_num

lemma busBytes_eq (hw : c.offsetWidth = 6) : c.busBytes = 64 := by
  simp [WrConfig.busBytes, hw]

lemma four_dvd_mps : 4 ∣ mps c := by
  unfold mps
  exact pow_dvd_pow 2 (show 2 ≤ 7 + c.maxPayloadSize by omega)

lemma wrBeats_eq (hw : c.offsetWidth = 6) : wrBeats c length = Chunks.count 64 length := by
  rw [wrBeats, busBytes_eq hw]

lemma tlpCount_eq (hw : c.offsetWidth = 6) :
    tlpCount c length = Chunks.count (tlpBeats c) (wrBeats c length) := by
  rw [wrBeats_eq hw, Chunks.count_count (by norm_num) tlpBeats_pos, ← mps_eq hw, tlpCount]

lemma div_lt_tlpCount (hw : c.offsetWidth = 6) (hb : b < wrBeats c length) :
    b / tlpBeats c < tlpCount c length := by
  rw [tlpCount_eq hw, Chunks.lt_count_iff tlpBeats_pos]
  have := Nat.mul_div_le b (tlpBeats c)
  omega

lemma wrCycleNext_eq (hlen : length < 2 ^ 32) : wrCycleNext c length = wrBeats c length := by
  have hpos : 0 < c.busBytes := by positivity
  have hle := Chunks.count_le (n := length) hpos
  rw [wrCycleNext, Chunks.div_add_ragged hpos, Nat.mod_eq_of_lt (by omega)]
  rfl

lemma wrTrCycleNext_eq (hcode : c.maxPayloadSize ≤ 3) : wrTrCycleNext c length = tlpCount c length := by
  rw [tlpCount, ← Chunks.div_add_ragged mps_pos, wrTrCycleNext, mps]
  generalize c.maxPayloadSize = m at hcode
  interval_cases m <;> rfl

lemma txWrReqLengthNext_eq (hcode : c.maxPayloadSize ≤ 3) {r : WrReg}
    (hl : r.descWrReqLengthReg = length) (hr : r.trCycleReg = tlpCount c length - k)
    (hk : k < tlpCount c length) :
    txWrReqLengthNext c r = if tlpBytes c length k = 1024 then 0 else (tlpBytes c length k + 3) / 4 := by
  unfold txWrReqLengthNext tlpBytes
  rw [hl, hr]
  by_cases hlast : k + 1 = tlpCount c length
  · have hb := Chunks.size_last mps_pos hlast
    rw [hb, if_neg (by omega), if_pos (by omega)]
    unfold mps
    generalize c.maxPayloadSize = m at hcode
    interval_cases m <;> (simp only [Nat.reduceAdd, Nat.reducePow]; split_ifs <;> first | omega | contradiction)
  · have hb := Chunks.size_full (m := mps c) mps_pos (show k + 1 < Chunks.count (mps c) length by
      unfold tlpCount at hk hlast
      omega)
    rw [hb, if_pos (by omega)]
    unfold mps
    generalize c.maxPayloadSize = m at hcode
    interval_cases m <;> simp

/-! ### The header -/

/-- The header covers the bytes of its TLP unless the length field should be that of 1024 bytes. -/
theorem mwrHdr_covers_iff (hw : c.offsetWidth = 6) (hcode : c.maxPayloadSize ≤ 3)
    (haddr : address % mps c = 0) (hb : b < wrBeats c length) :
    (mwrHdr c (wrRegAt c address length b)).Covers (tlpAddress c address (b / tlpBeats c))
      (tlpBytes c length (b / tlpBeats c)) ↔ tlpBytes c length (b / tlpBeats c) ≠ 1024 := by
  have hk := div_lt_tlpCount hw hb
  have hpos : 0 < tlpBytes c length (b / tlpBeats c) := Chunks.size_pos mps_pos hk
  have hle : tlpBytes c length (b / tlpBeats c) ≤ 1024 := by
    have hs : tlpBytes c length (b / tlpBeats c) ≤ mps c := Chunks.size_le _ _ _
    have hp : mps c ≤ 2 ^ 10 := Nat.pow_le_pow_right (by omega) (by omega)
    omega
  have hfield : txWrReqLengthNext c (wrRegAt c address length b) =
      if tlpBytes c length (b / tlpBeats c) = 1024 then 0
      else (tlpBytes c length (b / tlpBeats c) + 3) / 4 := txWrReqLengthNext_eq hcode rfl rfl hk
  have htail := Chunks.size_mod mps_pos (four_dvd_mps (c := c)) hk
  have haddr4 : address % 4 = 0 := by
    rw [← Nat.mod_mod_of_dvd address four_dvd_mps, haddr]
  generalize hcount : tlpBytes c length (b / tlpBeats c) = count at hpos hle hfield ⊢
  constructor
  · intro h hfull
    have hlen : txWrReqLengthNext c (wrRegAt c address length b) = (count + 3) / 4 % 1024 := h.length
    rw [hfield, if_pos hfull, hfull] at hlen
    omega
  · intro hne
    rw [if_neg hne] at hfield
    have hmask : ∀ j, j < 4 → (lastByteEnable 0
        (if tlpCount c length - b / tlpBeats c = 1 then length % 4 else 0)).testBit j =
        decide (count % 4 = 0 ∨ j < count % 4) := by
      intro j hj
      have htail' : (if tlpCount c length - b / tlpBeats c = 1 then length % 4 else 0) = count % 4 := by
        rw [← hcount]
        refine Eq.trans ?_ htail.symm
        unfold tlpCount at hk ⊢
        split_ifs <;> first | rfl | omega
      rw [htail']
      exact lastByteEnable_testBit (Nat.zero_mod 4) hj
    apply TlpHdr.covers_of_fields hpos hle _ _ _ rfl hmask
    · simp only [mwrHdr, hfield]
      omega
    · have hz : tlpAddress c address (b / tlpBeats c) % 4 = 0 := by
        obtain ⟨q, hq⟩ := four_dvd_mps (c := c)
        rw [tlpAddress, Nat.mod_mod_of_dvd _ (by norm_num : 4 ∣ 2 ^ 64), hq, Nat.mul_assoc]
        omega
      simp only [TlpHdr.byteAddress, mwrHdr, wrRegAt]
      omega
    · rfl

lemma tlp_boundary (hcode : c.maxPayloadSize ≤ 3) (haddr : address % mps c = 0) (length k : ℕ) :
    tlpAddress c address k % 4096 + tlpBytes c length k ≤ 4096 := by
  have hle : tlpBytes c length k ≤ mps c := Chunks.size_le _ _ _
  have hz : tlpAddress c address k % mps c = 0 := by
    have hdvd : mps c ∣ 2 ^ 64 := pow_dvd_pow 2 (by omega)
    rw [tlpAddress, Nat.mod_mod_of_dvd _ hdvd, Nat.add_mul_mod_self_left, haddr]
  unfold mps at hle hz
  generalize c.maxPayloadSize = m at hcode hle hz
  interval_cases m <;> omega

/-! ### The beats -/

lemma add_one_mod_eq_one_iff {p : ℕ} (hp : 2 ≤ p) (b : ℕ) : (b + 1) % p = 1 ↔ b % p = 0 := by
  have hd := Nat.div_add_mod b p
  have hlt := Nat.mod_lt b (show 0 < p by omega)
  have hm : (b + 1) % p = (b % p + 1) % p := by
    rw [← hd, Nat.add_assoc, Nat.mul_add_mod, Nat.mul_add_mod, Nat.mod_mod]
  rw [hm]
  by_cases hr : b % p + 1 < p
  · rw [Nat.mod_eq_of_lt hr]
    omega
  · rw [show b % p + 1 = p by omega, Nat.mod_self]
    omega

lemma sopInit_eq (hw : c.offsetWidth = 6) (hcode : c.maxPayloadSize ≤ 3) :
    sopInit c (b + 1) = decide (b % tlpBeats c = 0) := by
  have hp : 2 ≤ tlpBeats c := by
    have := Nat.two_pow_pos c.maxPayloadSize
    rw [tlpBeats_eq hw]
    omega
  rw [sopInit, decide_eq_true hcode, Bool.true_and, Bool.beq_eq_decide_eq, decide_eq_decide]
  exact add_one_mod_eq_one_iff hp b

lemma eopInit_eq (hcode : c.maxPayloadSize ≤ 3) (n : ℕ) :
    eopInit c n (b + 1) = decide ((b + 1) % tlpBeats c = 0 ∨ b + 1 = n) := by
  have hdiv : (b + 1) % tlpBeats c = 0 → (b + 1) / tlpBeats c ≠ 0 := by
    intro hm hz
    have hd := Nat.div_add_mod (b + 1) (tlpBeats c)
    rw [hm, hz] at hd
    omega
  rw [eopInit, decide_eq_true hcode, Bool.true_and, Bool.eq_iff_iff]
  unfold tlpBeats at hdiv ⊢
  simp only [Bool.or_eq_true, Bool.and_eq_true, beq_iff_eq, bne_iff_ne, decide_eq_true_eq]
  constructor
  · rintro (⟨hm, -⟩ | hn)
    · exact .inl hm
    · exact .inr hn
  · rintro (hm | hn)
    · exact .inl ⟨hm, hdiv hm⟩
    · exact .inr hn

/-- Beat `b` is right unless its TLP has 1024 bytes. -/
theorem mwrBeat_ok (hw : c.offsetWidth = 6) (hcode : c.maxPayloadSize ≤ 3)
    (haddr : address % mps c = 0) (hb : b < wrBeats c length)
    (hne : tlpBytes c length (b / tlpBeats c) ≠ 1024) (d : SAxisBeat c.busBytes) :
    MwrBeatOk c address length b d (mwrBeat c address length b d) := by
  refine ⟨rfl, sopInit_eq hw hcode, eopInit_eq hcode _, ⟨rfl, rfl⟩,
    (mwrHdr_covers_iff hw hcode haddr hb).mpr hne, fun hkeep i hi => ?_,
    tlp_boundary hcode haddr length _⟩
  have hbytes := busBytes_eq hw
  show strbInit c d.tkeep i = _
  rw [strbInit, decide_eq_true hcode, Bool.true_and, decide_eq_decide]
  constructor
  · rintro ⟨j, hj, hk⟩
    rw [hkeep j, decide_eq_true_eq] at hk
    omega
  · intro hlt
    have hj : 4 * i < c.busBytes := by omega
    refine ⟨⟨4 * i, hj⟩, ?_, ?_⟩
    · show 4 * i / 4 = i
      omega
    · rw [hkeep, decide_eq_true_eq]
      exact hlt

/-! ### From beats to TLPs -/

/-- The beats of a descriptor are those of its TLPs, one after the other. -/
def Packets (c : WrConfig) (address length : ℕ) (stream : List (SAxisBeat c.busBytes))
    (beats : List (WrBeat c)) : Prop :=
  ∃ tlps : List (List (WrBeat c)), tlps.flatten = beats ∧ tlps.length = tlpCount c length ∧
    ∀ k tlp, tlps[k]? = some tlp →
      TlpOk c address length k ((stream.drop (tlpBeats c * k)).take (tlpBeats c)) tlp

lemma slice_getElem? {α : Type*} {l : List α} {p m j : ℕ} {a : α}
    (h : ((l.drop p).take m)[j]? = some a) : j < m ∧ l[p + j]? = some a := by
  rw [List.getElem?_take] at h
  split_ifs at h with hj
  rw [List.getElem?_drop] at h
  exact ⟨hj, h⟩

/-- The slice of the beats of TLP `k`. -/
theorem tlpOk_slice (hw : c.offsetWidth = 6) (hcode : c.maxPayloadSize ≤ 3)
    (haddr : address % mps c = 0) {stream : List (SAxisBeat c.busBytes)} {beats : List (WrBeat c)}
    (hstream : stream.length = wrBeats c length) (hbeats : beats.length = wrBeats c length)
    (hok : ∀ b d w, stream[b]? = some d → beats[b]? = some w → MwrBeatOk c address length b d w)
    (hk : k < tlpCount c length) :
    TlpOk c address length k ((stream.drop (tlpBeats c * k)).take (tlpBeats c))
      ((beats.drop (tlpBeats c * k)).take (tlpBeats c)) := by
  have hp := tlpBeats_pos (c := c)
  have hbytes := busBytes_eq hw
  have hm := mps_eq hw
  have hn : wrBeats c length = Chunks.count 64 length := wrBeats_eq hw
  have hsize : tlpBytes c length k = min (64 * tlpBeats c) (length - 64 * (tlpBeats c * k)) := by
    rw [tlpBytes, Chunks.size, hm, Nat.mul_assoc]
  have hbeat : ∀ j w, ((beats.drop (tlpBeats c * k)).take (tlpBeats c))[j]? = some w →
      j < tlpBeats c ∧ tlpBeats c * k + j < wrBeats c length ∧ ∃ d,
        stream[tlpBeats c * k + j]? = some d ∧
        MwrBeatOk c address length (tlpBeats c * k + j) d w := by
    intro j w hj
    obtain ⟨hjp, hw'⟩ := slice_getElem? hj
    have hlt := (List.getElem?_eq_some_iff.mp hw').1
    have hd := List.getElem?_eq_getElem (l := stream) (show tlpBeats c * k + j < stream.length by omega)
    exact ⟨hjp, by omega, _, hd, hok _ _ _ hd hw'⟩
  have hdiv : ∀ j, j < tlpBeats c → (tlpBeats c * k + j) / tlpBeats c = k := by
    intro j hj
    rw [Nat.mul_add_div hp, Nat.div_eq_of_lt hj, Nat.add_zero]
  have hlength : ((beats.drop (tlpBeats c * k)).take (tlpBeats c)).length =
      min (tlpBeats c) (wrBeats c length - tlpBeats c * k) := by
    rw [List.length_take, List.length_drop, hbeats]
  have hcovers : ∀ (j : ℕ) (w : WrBeat c), ((beats.drop (tlpBeats c * k)).take (tlpBeats c))[j]? = some w →
      w.txWrReqTlpHdr.Covers (tlpAddress c address k) (tlpBytes c length k) := by
    intro j w hj
    obtain ⟨hjp, -, d, -, h⟩ := hbeat j w hj
    have hcov := h.covers
    rw [hdiv j hjp] at hcov
    exact hcov
  refine ⟨?_, ?_, fun j w hj => ?_, fun j w hj => ?_, fun w hmem => ?_, fun w hmem => ?_,
    fun hkeep j w hj i hi => ?_, tlp_boundary hcode haddr length k⟩
  · apply List.ext_getElem?
    intro j
    rw [List.getElem?_map, List.getElem?_map]
    cases hj : ((beats.drop (tlpBeats c * k)).take (tlpBeats c))[j]? with
    | none =>
      rw [List.getElem?_eq_none_iff, hlength] at hj
      rw [List.getElem?_eq_none_iff.mpr]
      · rfl
      · rw [List.length_take, List.length_drop, hstream]
        exact hj
    | some w =>
      obtain ⟨hjp, -, d, hd, h⟩ := hbeat j w hj
      rw [List.getElem?_take, if_pos hjp, List.getElem?_drop, hd]
      exact congrArg some h.data
  · rw [hlength, hbytes, hn, hsize]
    unfold Chunks.count
    omega
  · obtain ⟨hjp, -, d, -, h⟩ := hbeat j w hj
    rw [h.sop, Nat.mul_add_mod, Nat.mod_eq_of_lt hjp]
  · obtain ⟨hjp, hlt, d, -, h⟩ := hbeat j w hj
    have hend : (tlpBeats c * k + j + 1) % tlpBeats c = 0 ↔ j + 1 = tlpBeats c := by
      rw [Nat.add_assoc, Nat.mul_add_mod]
      constructor
      · intro hz
        by_contra hne
        rw [Nat.mod_eq_of_lt (by omega)] at hz
        omega
      · intro he
        rw [he, Nat.mod_self]
    rw [h.eop, hlength, decide_eq_decide, hend]
    omega
  · obtain ⟨j, hj⟩ := List.mem_iff_getElem?.mp hmem
    obtain ⟨-, -, d, -, h⟩ := hbeat j w hj
    exact h.fmt
  · obtain ⟨j, hj⟩ := List.mem_iff_getElem?.mp hmem
    exact hcovers j w hj
  · obtain ⟨hjp, hlt, d, hd, h⟩ := hbeat j w hj
    have hpos : 0 < tlpBytes c length k := Chunks.size_pos mps_pos hk
    have hle : tlpBytes c length k ≤ 4096 := by
      have := tlp_boundary hcode haddr length k
      omega
    have hkd : KeepOk c length (tlpBeats c * k + j) d := by
      apply hkeep
      rw [List.getElem?_take, if_pos hjp, List.getElem?_drop]
      exact hd
    rw [h.strb hkd i hi, (hcovers j w hj).dwords hpos hle, decide_eq_decide, hsize, hbytes]
    omega

theorem packets_of_beats (hw : c.offsetWidth = 6) (hcode : c.maxPayloadSize ≤ 3)
    (haddr : address % mps c = 0) {stream : List (SAxisBeat c.busBytes)} {beats : List (WrBeat c)}
    (hstream : stream.length = wrBeats c length) (hbeats : beats.length = wrBeats c length)
    (hok : ∀ b d w, stream[b]? = some d → beats[b]? = some w → MwrBeatOk c address length b d w) :
    Packets c address length stream beats := by
  refine ⟨(List.range (tlpCount c length)).map fun k => (beats.drop (tlpBeats c * k)).take (tlpBeats c),
    ?_, by simp, fun k tlp hk => ?_⟩
  · rw [tlpCount_eq hw, ← hbeats]
    exact Chunks.flatten_slices tlpBeats_pos beats
  · rw [List.getElem?_map, Option.map_eq_some_iff] at hk
    obtain ⟨k', hk', rfl⟩ := hk
    obtain ⟨hlt, hk'⟩ := List.getElem?_eq_some_iff.mp hk'
    rw [List.getElem_range] at hk'
    subst hk'
    rw [List.length_range] at hlt
    exact tlpOk_slice hw hcode haddr hstream hbeats hok hlt

end FpgaPcie
