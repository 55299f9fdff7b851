import FpgaPcie.Rtl.BarDelivery
import FpgaPcie.Rtl.DmaRd
import FpgaPcie.Rtl.DmaWr

/-!
# `tlp_decode.py`

The script takes a TLP apart that is given as a list of DWs. It reads the same fields as the read engine does out of
a completion, but it takes a zero length and a zero byte count for what they are, and it has eight bits of the tag.
-/

namespace FpgaPcie

def getBits (value high low : ℕ) : ℕ := (value >>> low) &&& (1 <<< (high - low + 1) - 1)

/-- The dictionary of `decode_common_header`. -/
structure TlpCommonHeader where
  fmt : ℕ
  type : ℕ
  tc : ℕ
  attr : ℕ
  th : ℕ
  td : ℕ
  ep : ℕ
  length : ℕ

def decodeCommonHeader (dw0 : ℕ) : TlpCommonHeader where
  fmt := getBits dw0 31 29
  type := getBits dw0 28 24
  tc := getBits dw0 22 20
  attr := getBits dw0 13 12
  th := getBits dw0 16 16
  td := getBits dw0 15 15
  ep := getBits dw0 14 14
  length := getBits dw0 9 0

/-- The names of `FMT_TYPE_MAP`, and the one that `parse_completion` falls back to. -/
inductive TlpName
  | mrd32
  | mrd64
  | mwr32
  | mwr64
  | cpl
  | cplD
  | completion
  deriving DecidableEq

def fmtTypeMap : List ((ℕ × ℕ) × TlpName) :=
  [((0b000, 0b00000), .mrd32), ((0b001, 0b00000), .mrd64), ((0b010, 0b00000), .mwr32), ((0b011, 0b00000), .mwr64),
    ((0b000, 0b01010), .cpl), ((0b010, 0b01010), .cplD)]

inductive CplStatus
  | sc
  | ur
  | crs
  | ca
  | unknown
  deriving DecidableEq

def statusMap : List (ℕ × CplStatus) := [(0b000, .sc), (0b001, .ur), (0b010, .crs), (0b100, .ca)]

/-- What `parse_mrd` and `parse_mwr` print. -/
structure RequestReport where
  tlpName : TlpName
  hdr : TlpCommonHeader
  requesterId : ℕ
  tag : ℕ
  firstBe : ℕ
  lastBe : ℕ
  addr : ℕ

/-- What `parse_completion` prints. -/
structure CompletionReport where
  tlpName : TlpName
  hdr : TlpCommonHeader
  completerId : ℕ
  status : CplStatus
  bcm : ℕ
  byteCount : ℕ
  requesterId : ℕ
  tag : ℕ
  lowerAddr : ℕ
  payloadBytes : ℕ
  lastCompletion : Bool
  payload : List ℕ

inductive TlpReport
  | unsupported (fmt typ : ℕ)
  | mrd (r : RequestReport)
  /-- with the payload, and whether its length is not that of the header -/
  | mwr (r : RequestReport) (payload : List ℕ) (warning : Bool)
  | completion (r : CompletionReport)

/-- The request header of `parse_mrd` and `parse_mwr`, whose three-DW formats differ; none is an `IndexError`. -/
def parseRequest (fmt3dw : ℕ) (name3dw name4dw : TlpName) (dw : List ℕ) : Option RequestReport := do
  let dw0 ← dw[0]?
  let dw1 ← dw[1]?
  let dw2 ← dw[2]?
  let hdr := decodeCommonHeader dw0
  let requesterId := getBits dw1 31 16
  let tag := getBits dw1 15 8
  let lastBe := getBits dw1 7 4
  let firstBe := getBits dw1 3 0
  if hdr.fmt = fmt3dw then
    return ⟨name3dw, hdr, requesterId, tag, firstBe, lastBe, getBits dw2 31 2 <<< 2⟩
  else
    let dw3 ← dw[3]?
    return ⟨name4dw, hdr, requesterId, tag, firstBe, lastBe, (dw2 <<< 32) ||| (getBits dw3 31 2 <<< 2)⟩

def parseMrd (dw : List ℕ) : Option TlpReport := (parseRequest 0b000 .mrd32 .mrd64 dw).map .mrd

def parseMwr (dw : List ℕ) : Option TlpReport :=
  (parseRequest 0b010 .mwr32 .mwr64 dw).map fun r =>
    let payload := dw.drop (if r.hdr.fmt = 0b010 then 3 else 4)
    .mwr r payload (decide (payload.length ≠ r.hdr.length))

def parseCompletion (dw : List ℕ) : Option TlpReport := do
  let dw0 ← dw[0]?
  let dw1 ← dw[1]?
  let dw2 ← dw[2]?
  let hdr := decodeCommonHeader dw0
  let byteCount := getBits dw1 11 0
  let payloadBytes := hdr.length * 4
  return .completion
    { tlpName := (fmtTypeMap.lookup (hdr.fmt, hdr.type)).getD .completion
      hdr := hdr
      completerId := getBits dw1 31 16
      status := (statusMap.lookup (getBits dw1 15 13)).getD .unknown
      bcm := getBits dw1 12 12
      byteCount := byteCount
      requesterId := getBits dw2 31 16
      tag := getBits dw2 15 8
      lowerAddr := getBits dw2 6 0
      payloadBytes := payloadBytes
      lastCompletion := decide (byteCount ≤ payloadBytes)
      payload := if hdr.fmt = 0b010 then dw.drop 3 else [] }

def parseTlp (dw : List ℕ) : Option TlpReport := do
  let dw0 ← dw[0]?
  let fmt := getBits dw0 31 29
  let typ := getBits dw0 28 24
  match fmtTypeMap.lookup (fmt, typ) with
  | none => return .unsupported fmt typ
  | some .mrd32 | some .mrd64 => parseMrd dw
  | some .mwr32 | some .mwr64 => parseMwr dw
  | some .cpl | some .cplD | some .completion => parseCompletion dw

/-- The DWs of a 128-bit header, DW 0 in the upper bits. -/
def hdrDws (hdr : BitVec 128) : List ℕ :=
  [(hdr.extractLsb' 96 32).toNat, (hdr.extractLsb' 64 32).toNat, (hdr.extractLsb' 32 32).toNat,
    (hdr.extractLsb' 0 32).toNat]

/-! ### The fields -/

open BitField

lemma getBits_eq (value high low : ℕ) : getBits value high low = slice value low (high - low + 1) := by
  rw [getBits, Nat.one_shiftLeft, Nat.and_two_pow_sub_one_eq_mod, Nat.shiftRight_eq_div_pow, slice]

lemma toNat_extractLsb'_eq (hdr : BitVec 128) (start len : ℕ) :
    (hdr.extractLsb' start len).toNat = slice hdr.toNat start len := by
  rw [BitVec.extractLsb'_toNat, Nat.shiftRight_eq_div_pow, slice]

/-- A field of a DW is one of the header. -/
lemma getBits_dw (hdr : BitVec 128) {start high low : ℕ} (hlow : low ≤ high) (hhigh : high < 32) :
    getBits (hdr.extractLsb' start 32).toNat high low = slice hdr.toNat (start + low) (high - low + 1) := by
  rw [getBits_eq, toNat_extractLsb'_eq, slice_slice (by omega)]

/-- What the type of the TLP makes of it. -/
lemma parseTlp_cons {d0 : ℕ} {dw : List ℕ} {fmt typ : ℕ} {name : TlpName} (hfmt : getBits d0 31 29 = fmt)
    (htyp : getBits d0 28 24 = typ) (hname : fmtTypeMap.lookup (fmt, typ) = some name) :
    parseTlp (d0 :: dw) = match name with
      | .mrd32 | .mrd64 => parseMrd (d0 :: dw)
      | .mwr32 | .mwr64 => parseMwr (d0 :: dw)
      | .cpl | .cplD | .completion => parseCompletion (d0 :: dw) := by
  subst hfmt htyp
  simp only [parseTlp, List.getElem?_cons_zero, Option.bind_eq_bind, Option.bind_some, hname]
  cases name <;> rfl

/-! ### Completions -/

/-- `Cpl` and `CplD`. -/
def IsCompletion (hdr : BitVec 128) : Prop :=
  (hdr.extractLsb' 125 3 = 0b000 ∨ hdr.extractLsb' 125 3 = 0b010) ∧ hdr.extractLsb' 120 5 = 0b01010

instance (hdr : BitVec 128) : Decidable (IsCompletion hdr) := inferInstanceAs (Decidable (_ ∧ _))

/-- The script and the read engine read the same out of a completion. -/
def DecodesCompletion (hdr : BitVec 128) : Prop :=
  ∃ r, parseTlp (hdrDws hdr) = some (.completion r) ∧ r.hdr.length = rxCplTlpHdrLength hdr ∧
    r.payloadBytes = rxCplTlpHdrLength hdr * 4 ∧ r.byteCount = rxCplTlpHdrByteCount hdr ∧
    r.tag = rxCplTlpHdrTag hdr ∧ r.lowerAddr = rxCplTlpHdrLowerAddr hdr

lemma parseTlp_completion {hdr : BitVec 128} (h : IsCompletion hdr) :
    parseTlp (hdrDws hdr) = parseCompletion (hdrDws hdr) := by
  have htype : getBits (hdr.extractLsb' 96 32).toNat 28 24 = 0b01010 := by
    rw [getBits_dw _ (by omega) (by omega), ← toNat_extractLsb'_eq hdr 120 5, h.2]
    rfl
  have hfmt : getBits (hdr.extractLsb' 96 32).toNat 31 29 = 0b000 ∨
      getBits (hdr.extractLsb' 96 32).toNat 31 29 = 0b010 := by
    rw [getBits_dw _ (by omega) (by omega), ← toNat_extractLsb'_eq hdr 125 3]
    rcases h.1 with hf | hf <;> rw [hf]
    · exact .inl rfl
    · exact .inr rfl
  rw [hdrDws]
  rcases hfmt with hf | hf
  · exact parseTlp_cons hf htype (by decide : _ = some TlpName.cpl)
  · exact parseTlp_cons hf htype (by decide : _ = some TlpName.cplD)

/-- They do when no field stands for its maximum and the tag has eight bits. -/
theorem decodesCompletion_iff {hdr : BitVec 128} (h : IsCompletion hdr) : DecodesCompletion hdr ↔
    hdr.extractLsb' 96 10 ≠ 0 ∧ hdr.extractLsb' 64 12 ≠ 0 ∧ hdr.getLsbD 115 = false ∧ hdr.getLsbD 119 = false := by
  have hlength : getBits (hdr.extractLsb' 96 32).toNat 9 0 = rxCplTlpHdrLength hdr ↔ hdr.extractLsb' 96 10 ≠ 0 := by
    rw [getBits_dw _ (by omega) (by omega), ← toNat_extractLsb'_eq hdr 96 10, rxCplTlpHdrLength]
    by_cases h0 : hdr.extractLsb' 96 10 = 0 <;> simp [h0]
  have hbytes : getBits (hdr.extractLsb' 64 32).toNat 11 0 = rxCplTlpHdrByteCount hdr ↔
      hdr.extractLsb' 64 12 ≠ 0 := by
    rw [getBits_dw _ (by omega) (by omega), ← toNat_extractLsb'_eq hdr 64 12, rxCplTlpHdrByteCount]
    by_cases h0 : hdr.extractLsb' 64 12 = 0 <;> simp [h0]
  have htag : getBits (hdr.extractLsb' 32 32).toNat 15 8 = rxCplTlpHdrTag hdr ↔
      hdr.getLsbD 115 = false ∧ hdr.getLsbD 119 = false := by
    rw [getBits_dw _ (by omega) (by omega), ← toNat_extractLsb'_eq hdr 40 8, rxCplTlpHdrTag]
    cases hdr.getLsbD 115 <;> cases hdr.getLsbD 119
    · simp
    · simp
    · simp
    · simp
      omega
  have hlower : getBits (hdr.extractLsb' 32 32).toNat 6 0 = rxCplTlpHdrLowerAddr hdr := by
    rw [getBits_dw _ (by omega) (by omega), ← toNat_extractLsb'_eq hdr 32 7, rxCplTlpHdrLowerAddr]
  rw [DecodesCompletion, parseTlp_completion h]
  constructor
  · rintro ⟨r, hr, hlen, -, hcount, ht, -⟩
    cases hr
    exact ⟨hlength.mp hlen, hbytes.mp hcount, htag.mp ht⟩
  · rintro ⟨hlen, hcount, ht⟩
    exact ⟨_, rfl, hlength.mpr hlen, congrArg (· * 4) (hlength.mpr hlen), hbytes.mpr hcount, htag.mpr ht, hlower⟩

/-- A `CplD` of 64 bytes with tag 0x2a. -/
example : DecodesCompletion 0x4a0000100000004000002a0000000000 :=
  (decodesCompletion_iff (by decide)).mpr (by decide)

/-- The completions that the BAR answers with are decoded. -/
theorem decodesCompletion_cplHdr (requesterId : BitVec 16) (tag : BitVec 8) (address : BitVec 64) :
    DecodesCompletion (cplHdr requesterId tag address) := by
  have hfields := CplD.ofHdr_cplHdr requesterId tag address 0
  simp only [CplD.ofHdr, CplD.mk.injEq] at hfields
  obtain ⟨hfmt, htype, hlength, hbytes, -⟩ := hfields
  have hbits : (cplHdr requesterId tag address).getLsbD 115 = false ∧
      (cplHdr requesterId tag address).getLsbD 119 = false := by
    constructor <;> simp only [cplHdr, BitVec.getLsbD_append] <;> simp
  rw [decodesCompletion_iff ⟨.inr hfmt, htype⟩, hlength, hbytes]
  exact ⟨by decide, by decide, hbits⟩

/-! ### Requests -/

/-- The script reads the fields of the header; the length, the tag and the address are signals of 10, 8 and 64
bits. -/
structure RequestReport.Of (r : RequestReport) (h : TlpHdr) : Prop where
  length : r.hdr.length = h.length % 2 ^ 10
  tag : r.tag = h.tag % 2 ^ 8
  lastBe : r.lastBe = h.lastBe
  firstBe : r.firstBe = h.firstBe
  addr : r.addr = h.byteAddress % 2 ^ 64

section Requests

variable {h : TlpHdr} {data : List ℕ}

/-- A field of the header, with the fields above it and below it. -/
lemma slice_bits {place w v : ℕ} (fs gs : List (ℕ × ℕ))
    (hsplit : [(3, h.fmt), (5, h.type), (14, 0), (10, h.length), (16, h.requesterId), (8, h.tag), (4, h.lastBe),
      (4, h.firstBe), (62, h.address), (2, 0)] = fs ++ (w, v) :: gs) (hplace : width gs = place) :
    slice h.bits.toNat place w = v % 2 ^ w := by
  have hlt := pack_lt [(3, h.fmt), (5, h.type), (14, 0), (10, h.length), (16, h.requesterId), (8, h.tag),
    (4, h.lastBe), (4, h.firstBe), (62, h.address), (2, 0)]
  simp only [width_cons, width_nil] at hlt
  rw [TlpHdr.bits, BitVec.toNat_ofNat, Nat.mod_eq_of_lt hlt, hsplit, ← hplace]
  exact slice_pack fs gs w v

/-- The address that the two lower DWs make up. -/
lemma addr_bits : ((h.bits.extractLsb' 32 32).toNat <<< 32) |||
    (getBits (h.bits.extractLsb' 0 32).toNat 31 2 <<< 2) = h.byteAddress % 2 ^ 64 := by
  have hslice : slice h.bits.toNat 2 62 = h.address % 2 ^ 62 :=
    slice_bits [(3, h.fmt), (5, h.type), (14, 0), (10, h.length), (16, h.requesterId), (8, h.tag), (4, h.lastBe),
      (4, h.firstBe)] [(2, 0)] rfl rfl
  have hsplit : slice h.bits.toNat 2 62 = slice h.bits.toNat 2 30 + 2 ^ 30 * slice h.bits.toNat 32 32 :=
    slice_add h.bits.toNat 2 30 32
  have hlt : slice h.bits.toNat 2 30 < 2 ^ 30 := Nat.mod_lt _ (by omega)
  have hlow : slice h.bits.toNat 2 30 <<< 2 < 2 ^ 32 := by
    rw [Nat.shiftLeft_eq]
    omega
  have hdw : getBits (h.bits.extractLsb' 0 32).toNat 31 2 = slice h.bits.toNat 2 30 :=
    getBits_dw _ (by omega) (by omega)
  rw [hdw, ← Nat.shiftLeft_add_eq_or_of_lt hlow, Nat.shiftLeft_eq, Nat.shiftLeft_eq, toNat_extractLsb'_eq,
    TlpHdr.byteAddress]
  omega

/-- A field that lies in one DW. -/
lemma getBits_bits {start high low w v : ℕ} (fs gs : List (ℕ × ℕ))
    (hsplit : [(3, h.fmt), (5, h.type), (14, 0), (10, h.length), (16, h.requesterId), (8, h.tag), (4, h.lastBe),
      (4, h.firstBe), (62, h.address), (2, 0)] = fs ++ (w, v) :: gs) (hplace : width gs = start + low)
    (hlow : low ≤ high) (hhigh : high < 32) (hw : high - low + 1 = w) :
    getBits (h.bits.extractLsb' start 32).toNat high low = v % 2 ^ w := by
  rw [getBits_dw _ hlow hhigh, hw]
  exact slice_bits fs gs hsplit hplace

lemma getBits_fmt : getBits (h.bits.extractLsb' 96 32).toNat 31 29 = h.fmt % 2 ^ 3 :=
  getBits_bits [] _ rfl rfl (by omega) (by omega) rfl

lemma getBits_type : getBits (h.bits.extractLsb' 96 32).toNat 28 24 = h.type % 2 ^ 5 :=
  getBits_bits [(3, h.fmt)] _ rfl rfl (by omega) (by omega) rfl

lemma getBits_length : getBits (h.bits.extractLsb' 96 32).toNat 9 0 = h.length % 2 ^ 10 :=
  getBits_bits [(3, h.fmt), (5, h.type), (14, 0)] _ rfl rfl (by omega) (by omega) rfl

lemma getBits_tag : getBits (h.bits.extractLsb' 64 32).toNat 15 8 = h.tag % 2 ^ 8 :=
  getBits_bits [(3, h.fmt), (5, h.type), (14, 0), (10, h.length), (16, h.requesterId)] _ rfl rfl
    (by omega) (by omega) rfl

lemma getBits_lastBe : getBits (h.bits.extractLsb' 64 32).toNat 7 4 = h.lastBe % 2 ^ 4 :=
  getBits_bits [(3, h.fmt), (5, h.type), (14, 0), (10, h.length), (16, h.requesterId), (8, h.tag)] _ rfl rfl
    (by omega) (by omega) rfl

lemma getBits_firstBe : getBits (h.bits.extractLsb' 64 32).toNat 3 0 = h.firstBe % 2 ^ 4 :=
  getBits_bits [(3, h.fmt), (5, h.type), (14, 0), (10, h.length), (16, h.requesterId), (8, h.tag), (4, h.lastBe)] _
    rfl rfl (by omega) (by omega) rfl

/-- A request that is not of the three-DW format. -/
lemma parseRequest_4dw {fmt3dw d0 d1 d2 d3 : ℕ} {name3dw name4dw : TlpName} (hfmt : getBits d0 31 29 ≠ fmt3dw) :
    parseRequest fmt3dw name3dw name4dw (d0 :: d1 :: d2 :: d3 :: data) =
      some ⟨name4dw, decodeCommonHeader d0, getBits d1 31 16, getBits d1 15 8, getBits d1 3 0, getBits d1 7 4,
        (d2 <<< 32) ||| (getBits d3 31 2 <<< 2)⟩ :=
  if_neg hfmt

/-- The report on a header of the four-DW format. -/
def TlpHdr.report (h : TlpHdr) (name4dw : TlpName) : RequestReport where
  tlpName := name4dw
  hdr := decodeCommonHeader (h.bits.extractLsb' 96 32).toNat
  requesterId := getBits (h.bits.extractLsb' 64 32).toNat 31 16
  tag := getBits (h.bits.extractLsb' 64 32).toNat 15 8
  firstBe := getBits (h.bits.extractLsb' 64 32).toNat 3 0
  lastBe := getBits (h.bits.extractLsb' 64 32).toNat 7 4
  addr := ((h.bits.extractLsb' 32 32).toNat <<< 32) ||| (getBits (h.bits.extractLsb' 0 32).toNat 31 2 <<< 2)

lemma report_of {name4dw : TlpName} (hlast : h.lastBe < 2 ^ 4) (hfirst : h.firstBe < 2 ^ 4) :
    (h.report name4dw).Of h where
  length := getBits_length
  tag := getBits_tag
  lastBe := getBits_lastBe.trans (Nat.mod_eq_of_lt hlast)
  firstBe := getBits_firstBe.trans (Nat.mod_eq_of_lt hfirst)
  addr := addr_bits

lemma parseTlp_mrd (hfmt : h.fmt = tlpFmt4dw) (htype : h.type = 0) :
    parseTlp (hdrDws h.bits ++ data) = some (.mrd (h.report .mrd64)) := by
  have hf : getBits (h.bits.extractLsb' 96 32).toNat 31 29 = 1 := by
    rw [getBits_fmt, hfmt]
    rfl
  have ht : getBits (h.bits.extractLsb' 96 32).toNat 28 24 = 0 := by
    rw [getBits_type, htype]
    rfl
  rw [hdrDws, List.cons_append, parseTlp_cons hf ht (by decide : _ = some TlpName.mrd64)]
  dsimp only [parseMrd, List.cons_append, List.nil_append]
  rw [parseRequest_4dw (by rw [hf]; decide)]
  rfl

lemma parseTlp_mwr (hfmt : h.fmt = tlpFmt4dwData) (htype : h.type = 0) : parseTlp (hdrDws h.bits ++ data) =
    some (.mwr (h.report .mwr64) data (decide (data.length ≠ h.length % 2 ^ 10))) := by
  have hf : getBits (h.bits.extractLsb' 96 32).toNat 31 29 = 3 := by
    rw [getBits_fmt, hfmt]
    rfl
  have ht : getBits (h.bits.extractLsb' 96 32).toNat 28 24 = 0 := by
    rw [getBits_type, htype]
    rfl
  rw [hdrDws, List.cons_append, parseTlp_cons hf ht (by decide : _ = some TlpName.mwr64)]
  dsimp only [parseMwr, List.cons_append, List.nil_append]
  rw [parseRequest_4dw (by rw [hf]; decide), Option.map_some]
  simp only [decodeCommonHeader, hf, getBits_length, TlpHdr.report]
  rfl

end Requests

lemma firstByteEnable_lt (address : ℕ) : firstByteEnable address < 2 ^ 4 := Nat.mod_lt _ (by omega)

lemma lastByteEnable_lt (address tail : ℕ) : lastByteEnable address tail < 2 ^ 4 := by
  rw [lastByteEnable, Nat.shiftRight_eq_div_pow]
  exact lt_of_le_of_lt (Nat.div_le_self _ _) (by omega)

/-- The byte enables of a packetiser have four bits. -/
lemma byteEnables_lt {address tail length : ℕ} :
    (if length = 1 then 0 else lastByteEnable address tail) < 2 ^ 4 ∧
      (if length = 1 then firstByteEnable address &&& lastByteEnable address tail
        else firstByteEnable address) < 2 ^ 4 := by
  constructor
  · split_ifs
    · omega
    · exact lastByteEnable_lt _ _
  · split_ifs
    · exact Nat.and_lt_two_pow _ (lastByteEnable_lt _ _)
    · exact firstByteEnable_lt _

/-- What the read packetiser builds is decoded. -/
theorem parseTlp_mrdHdr (c : RdConfig) (r : ReqReg) (opTagFifoWrTag : ℕ) (data : List ℕ) :
    ∃ report, parseTlp (hdrDws (mrdHdr c r opTagFifoWrTag).bits ++ data) = some (.mrd report) ∧
      report.Of (mrdHdr c r opTagFifoWrTag) :=
  ⟨_, parseTlp_mrd rfl rfl, report_of byteEnables_lt.1 byteEnables_lt.2⟩

/-- What the write packetiser builds is decoded, with the payload behind it. -/
theorem parseTlp_mwrHdr (c : WrConfig) (r : WrReg) (data : List ℕ) :
    ∃ report, parseTlp (hdrDws (mwrHdr c r).bits ++ data) =
        some (.mwr report data (decide (data.length ≠ (mwrHdr c r).length % 2 ^ 10))) ∧
      report.Of (mwrHdr c r) :=
  ⟨_, parseTlp_mwr rfl rfl, report_of byteEnables_lt.1 byteEnables_lt.2⟩

/-- The headers that the script is given: a completion, or what a packetiser builds from its registers, with the payload
behind it. -/
inductive TlpInput
  | completion (hdr : { hdr : BitVec 128 // IsCompletion hdr })
  | mrd (c : RdConfig) (r : ReqReg) (opTagFifoWrTag : ℕ) (data : List ℕ)
  | mwr (c : WrConfig) (r : WrReg) (data : List ℕ)

namespace TlpInput

/-- The script reads what the read engine reads, or what the header was built from. -/
def Decoded : TlpInput → Prop
  | .completion hdr => DecodesCompletion hdr
  | .mrd c r opTagFifoWrTag data => ∃ report,
    parseTlp (hdrDws (mrdHdr c r opTagFifoWrTag).bits ++ data) = some (.mrd report) ∧
      report.Of (mrdHdr c r opTagFifoWrTag)
  | .mwr c r data => ∃ report, parseTlp (hdrDws (mwrHdr c r).bits ++ data) =
      some (.mwr report data (decide (data.length ≠ (mwrHdr c r).length % 2 ^ 10))) ∧ report.Of (mwrHdr c r)

/-- No zero stands for a maximum, and the tag has eight bits. -/
def Plain : TlpInput → Prop
  | .completion hdr => hdr.val.extractLsb' 96 10 ≠ 0 ∧ hdr.val.extractLsb' 64 12 ≠ 0 ∧
    hdr.val.getLsbD 115 = false ∧ hdr.val.getLsbD 119 = false
  | .mrd _ _ _ _ | .mwr _ _ _ => True

end TlpInput

/-- On requests the script agrees with the packetisers; on completions it agrees with the read engine exactly when
neither the length nor the byte count is zero and the upper two bits of the tag are. -/
theorem tlp_decode_iff (x : TlpInput) : x.Decoded ↔ x.Plain := by
  cases x with
  | completion hdr => exact decodesCompletion_iff hdr.property
  | mrd c r opTagFifoWrTag data => exact iff_of_true (parseTlp_mrdHdr c r opTagFifoWrTag data) trivial
  | mwr c r data => exact iff_of_true (parseTlp_mwrHdr c r data) trivial

/-- A `CplD` of 4096 bytes is misread, and one whose tag has the bit T8. -/
theorem maximal_length_misread :
    IsCompletion 0x4a000000000000000000000000000000 ∧ ¬DecodesCompletion 0x4a000000000000000000000000000000 ∧
      IsCompletion 0x4a080010000000400000000000000000 ∧ ¬DecodesCompletion 0x4a080010000000400000000000000000 := by
  have hmax : IsCompletion 0x4a000000000000000000000000000000 := by decide
  have htag : IsCompletion 0x4a080010000000400000000000000000 := by decide
  exact ⟨hmax, fun h => absurd ((decodesCompletion_iff hmax).mp h) (by decide), htag,
    fun h => absurd ((decodesCompletion_iff htag).mp h) (by decide)⟩

end FpgaPcie
