import FpgaPcie.Lib.Chunks
import FpgaPcie.Rtl.DmaRdHandshake

/-!
# The requests of a descriptor

A descriptor of `length` bytes at `address` is to be read by `reqCount` requests of at most
`mrrs` bytes. This file computes what the header and beat-count formulas of the request FSM
give for request `k`, and where they miss.
-/

namespace FpgaPcie

variable (c : RdConfig)

/-- `MRRS = 128 << Max_read_PayloadSize` in bytes. -/
def mrrs : ℕ := 128 * 2 ^ c.maxReadPayloadSize

def reqCount (length : ℕ) : ℕ := (length + mrrs c - 1) / mrrs c

def reqAddress (address k : ℕ) : ℕ := (address + mrrs c * k) % 2 ^ 64

def reqBytes (length k : ℕ) : ℕ := min (mrrs c) (length - mrrs c * k)

/-- The beats that carry `count` bytes. -/
def beatCount (count : ℕ) : ℕ := (count + c.busBytes - 1) / c.busBytes

/-- The request FSM is at request `k` of the descriptor. -/
structure ReqReg.Building (r : ReqReg) (address length k : ℕ) : Prop where
  lengthReg : r.descTxRdReqLengthReg = length
  addressReg : r.descTxRdReqAddressReg = address
  trCycle : r.trCycleReg = reqCount c length
  opCycle : r.opCycleReg = k
  tlpAddress : r.tlpAddressReg = reqAddress c address k

variable {c} {r : ReqReg} {address length k : ℕ}

lemma mrrs_pos : 0 < mrrs c := by
  unfold mrrs
  positivity

lemma mrrs_eq_shift : mrrs c = 2 ^ mrrsShift c := by
  rw [mrrs, mrrsShift, pow_add]
  norm_num

lemma four_dvd_mrrs : 4 ∣ mrrs c := by
  unfold mrrs
  exact Dvd.dvd.mul_right (by norm_num) _

lemma mrrs_le : mrrs c ≤ 2 ^ 14 := by
  have h := c.maxReadPayloadSize_lt
  have hp : 2 ^ c.maxReadPayloadSize ≤ 2 ^ 7 := Nat.pow_le_pow_right (by omega) (by omega)
  unfold mrrs
  omega

lemma shiftLeft_mrrs : 128 <<< c.maxReadPayloadSize % 2 ^ 32 = mrrs c := by
  have h := mrrs_le (c := c)
  rw [Nat.shiftLeft_eq]
  exact Nat.mod_eq_of_lt (by unfold mrrs at h; omega)

lemma trCycleNext_eq (hlen : length < 2 ^ 32) : trCycleNext c length = reqCount c length := by
  have hle := Chunks.count_le (n := length) (mrrs_pos (c := c))
  rw [trCycleNext, Nat.shiftLeft_eq, Nat.one_mul, Nat.and_two_pow_sub_one_eq_mod,
    Nat.shiftRight_eq_div_pow, ← mrrs_eq_shift, Chunks.div_add_ragged mrrs_pos,
    Nat.mod_eq_of_lt (by omega)]
  rfl

lemma beatCycles_eq (hlen : length < 2 ^ 32) : beatCycles c length = beatCount c length := by
  have hpos : 0 < c.busBytes := by positivity
  have hle := Chunks.count_le (n := length) hpos
  rw [beatCycles, Chunks.div_add_ragged hpos, Nat.mod_eq_of_lt (by omega)]
  rfl

lemma reqCount_pos (hpos : 0 < length) : 0 < reqCount c length :=
  Chunks.count_pos mrrs_pos hpos

lemma reqCount_lt (hlen : length < 2 ^ 32) : reqCount c length < 2 ^ 32 :=
  Nat.lt_of_le_of_lt (Chunks.count_le mrrs_pos) hlen

lemma lt_reqCount_iff : k < reqCount c length ↔ mrrs c * k < length :=
  Chunks.lt_count_iff mrrs_pos

lemma reqBytes_pos (hk : k < reqCount c length) : 0 < reqBytes c length k :=
  Chunks.size_pos mrrs_pos hk

lemma reqBytes_full (hk : k + 1 < reqCount c length) : reqBytes c length k = mrrs c :=
  Chunks.size_full mrrs_pos hk

lemma reqBytes_last (hk : k + 1 = reqCount c length) :
    reqBytes c length k = if length % mrrs c = 0 then mrrs c else length % mrrs c :=
  Chunks.size_last mrrs_pos hk

lemma reqBytes_le (length k : ℕ) : reqBytes c length k ≤ mrrs c := Chunks.size_le _ _ _

lemma lastRequest_eq (h : r.Building c address length k) (hlen : length < 2 ^ 32)
    (hk : k < reqCount c length) : r.lastRequest = decide (k + 1 = reqCount c length) := by
  have hr := reqCount_lt (c := c) hlen
  have hm : (reqCount c length + (2 ^ 32 - 1)) % 2 ^ 32 = reqCount c length - 1 := by omega
  rw [ReqReg.lastRequest, h.trCycle, h.opCycle, hm, Bool.beq_eq_decide_eq]
  exact decide_eq_decide.mpr (by omega)

/-! ### The length field -/

lemma tagIdxLengthNext_last (h : r.Building c address length k) (hlen : length < 2 ^ 32)
    (hcode : c.maxReadPayloadSize ≤ 3) (hk : k + 1 = reqCount c length) :
    tagIdxLengthNext c r = (reqBytes c length k + 3) / 4 % 1024 := by
  have hlast : r.lastRequest = true := by
    rw [lastRequest_eq h hlen (by omega)]
    exact decide_eq_true hk
  have hb := reqBytes_last hk
  unfold tagIdxLengthNext
  rw [hb, hlast, h.lengthReg, mrrs]
  generalize c.maxReadPayloadSize = m at hcode
  interval_cases m <;> (simp only [if_true]; split_ifs <;> omega)

/-- The length field of a request that is not the last one depends on the bus width. -/
lemma tagIdxLengthNext_full (h : r.Building c address length k) (hlen : length < 2 ^ 32)
    (hk : k + 1 < reqCount c length) :
    tagIdxLengthNext c r =
      ((2 ^ c.offsetWidth >>> 2) <<< ((5 + 8 - c.maxReadPayloadSize) % 8)) % 2 ^ 10 := by
  have hlast : r.lastRequest = false := by
    rw [lastRequest_eq h hlen (by omega)]
    exact decide_eq_false (by omega)
  simp [tagIdxLengthNext, hlast]

/-! ### The header -/

lemma reqAddress_mod_four (haddr : address % 4 = 0) : reqAddress c address k % 4 = 0 := by
  obtain ⟨q, hq⟩ := four_dvd_mrrs (c := c)
  rw [reqAddress, Nat.mod_mod_of_dvd _ (by norm_num : 4 ∣ 2 ^ 64), hq, Nat.mul_assoc]
  omega

lemma tail_eq (h : r.Building c address length k) (hlen : length < 2 ^ 32)
    (hk : k < reqCount c length) :
    (if r.lastRequest then r.descTxRdReqLengthReg % 4 else 0) = reqBytes c length k % 4 := by
  have hmod := Chunks.size_mod mrrs_pos (four_dvd_mrrs (c := c)) hk
  rw [lastRequest_eq h hlen hk, h.lengthReg]
  simp only [decide_eq_true_eq]
  exact hmod.symm

/-- A header with the right length field covers the request. -/
theorem mrdHdr_covers (h : r.Building c address length k) (hlen : length < 2 ^ 32)
    (haddr : address % 4 = 0) (hcode : c.maxReadPayloadSize ≤ 3) (hk : k < reqCount c length)
    (hfield : tagIdxLengthNext c r = (reqBytes c length k + 3) / 4 % 1024) (wrTag : ℕ) :
    (mrdHdr c r wrTag).Covers (reqAddress c address k) (reqBytes c length k) := by
  have hpos := reqBytes_pos hk
  have hle : reqBytes c length k ≤ 1024 := by
    have hp : 2 ^ c.maxReadPayloadSize ≤ 2 ^ 3 := Nat.pow_le_pow_right (by omega) hcode
    have := reqBytes_le (c := c) length k
    unfold mrrs at this
    omega
  have hfirst : firstByteEnable r.descTxRdReqAddressReg = 15 := by
    rw [h.addressReg]
    exact firstByteEnable_aligned haddr
  have hmask : ∀ j, j < 4 → (lastByteEnable r.descTxRdReqAddressReg
      (if r.lastRequest then r.descTxRdReqLengthReg % 4 else 0)).testBit j =
      decide (reqBytes c length k % 4 = 0 ∨ j < reqBytes c length k % 4) := by
    intro j hj
    rw [tail_eq h hlen hk, h.addressReg]
    exact lastByteEnable_testBit haddr hj
  apply TlpHdr.covers_of_fields hpos hle hfield _ _ rfl hmask
  · have hz := reqAddress_mod_four (c := c) (k := k) haddr
    simp only [TlpHdr.byteAddress, mrdHdr, h.tlpAddress]
    omega
  · simp only [mrdHdr, hfirst]

/-! ### A 512-bit bus with 512-byte requests -/

/-- The combination of bus width and request size for which all the formulas agree. -/
structure RdConfig.Wide512 (c : RdConfig) : Prop where
  offsetWidth : c.offsetWidth = 6
  maxReadPayloadSize : c.maxReadPayloadSize = 2

namespace RdConfig.Wide512

lemma busBytes (hc : c.Wide512) : c.busBytes = 64 := by
  simp [RdConfig.busBytes, hc.offsetWidth]

lemma mrrs (hc : c.Wide512) : mrrs c = 512 := by
  simp [FpgaPcie.mrrs, hc.maxReadPayloadSize]

lemma reqCount (hc : c.Wide512) : reqCount c length = (length + 511) / 512 := by
  simp [FpgaPcie.reqCount, hc.mrrs]

lemma reqBytes (hc : c.Wide512) : reqBytes c length k = min 512 (length - 512 * k) := by
  simp [FpgaPcie.reqBytes, hc.mrrs]

lemma beatCount (hc : c.Wide512) : beatCount c length = (length + 63) / 64 := by
  simp [FpgaPcie.beatCount, hc.busBytes]

lemma tagIdxLengthNext (hc : c.Wide512) (h : r.Building c address length k)
    (hlen : length < 2 ^ 32) (hk : k < FpgaPcie.reqCount c length) :
    tagIdxLengthNext c r = (FpgaPcie.reqBytes c length k + 3) / 4 % 1024 := by
  by_cases hl : k + 1 = FpgaPcie.reqCount c length
  · exact tagIdxLengthNext_last h hlen (by rw [hc.maxReadPayloadSize]; omega) hl
  · rw [tagIdxLengthNext_full h hlen (by omega), reqBytes_full (by omega), hc.mrrs,
      hc.offsetWidth, hc.maxReadPayloadSize]
    rfl

lemma byteCycleNext (hc : c.Wide512) (h : r.Building c address length k)
    (hlen : length < 2 ^ 32) (hk : k < FpgaPcie.reqCount c length) :
    byteCycleNext c r = FpgaPcie.beatCount c (FpgaPcie.reqBytes c length k) := by
  have hfull : fullByteCycle c = 8 := by
    rw [fullByteCycle, hc.maxReadPayloadSize, hc.offsetWidth]
    rfl
  unfold FpgaPcie.byteCycleNext
  rw [hc.beatCount, lastRequest_eq h hlen hk, h.lengthReg, hfull]
  by_cases hl : k + 1 = FpgaPcie.reqCount c length
  · rw [decide_eq_true hl, if_pos rfl, reqBytes_last hl, hc.mrrs, hc.offsetWidth,
      hc.maxReadPayloadSize]
    simp only
    split_ifs <;> omega
  · rw [decide_eq_false hl, if_neg Bool.false_ne_true, reqBytes_full (by omega), hc.mrrs]

theorem mrdHdr (hc : c.Wide512) (h : r.Building c address length k) (hlen : length < 2 ^ 32)
    (haddr : address % 4 = 0) (hk : k < FpgaPcie.reqCount c length) (wrTag : ℕ) :
    (mrdHdr c r wrTag).Covers (reqAddress c address k) (FpgaPcie.reqBytes c length k) :=
  mrdHdr_covers h hlen haddr (by rw [hc.maxReadPayloadSize]; omega) hk
    (hc.tagIdxLengthNext h hlen hk) wrTag

end RdConfig.Wide512

end FpgaPcie
