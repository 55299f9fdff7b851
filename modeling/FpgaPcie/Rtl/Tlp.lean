import FpgaPcie.Lib.BitField
import Mathlib.Data.Nat.Bitwise
import Mathlib.Tactic

/-!
# TLP headers

The four-DW memory request header as the packetisers assemble it and the completion
header fields the read engine uses. The second half says what a memory request asks for:
its DWs and its bytes, read off the length and byte-enable fields by the PCIe rules.
-/

namespace FpgaPcie

/-- The fields of a four-DW memory request header that the packetisers set; every other
bit is zero. `address` is bits 63:2 of the byte address. -/
structure TlpHdr where
  fmt : ℕ
  type : ℕ
  length : ℕ
  requesterId : ℕ
  tag : ℕ
  lastBe : ℕ
  firstBe : ℕ
  address : ℕ
  deriving DecidableEq

def TlpHdr.zero : TlpHdr := ⟨0, 0, 0, 0, 0, 0, 0, 0⟩

def tlpFmt4dw : ℕ := 1
def tlpFmt4dwData : ℕ := 3

/-- `4'b1111 << address[1:0]` in four bits. -/
def firstByteEnable (address : ℕ) : ℕ := (15 <<< (address % 4)) % 16

/-- `4'b1111 >> (3 - ((address[1:0] + tail - 1) & 3))`, where `tail` is the low part of the
length in the last packet and zero before. -/
def lastByteEnable (address tail : ℕ) : ℕ :=
  15 >>> (3 - (address % 4 + tail + 3) % 4)

/-- The tag of a completion header: `{hdr[119], hdr[115], hdr[47:40]}`. -/
def rxCplTlpHdrTag (hdr : BitVec 128) : ℕ :=
  (hdr.extractLsb' 40 8).toNat + 256 * (hdr.getLsbD 115).toNat + 512 * (hdr.getLsbD 119).toNat

/-- The length of a completion in DWs, `{hdr[105:96] == 0, hdr[105:96]}`. -/
def rxCplTlpHdrLength (hdr : BitVec 128) : ℕ :=
  1024 * (decide (hdr.extractLsb' 96 10 = 0)).toNat + (hdr.extractLsb' 96 10).toNat

/-- The byte count of a completion, `{hdr[75:64] == 0, hdr[75:64]}`. -/
def rxCplTlpHdrByteCount (hdr : BitVec 128) : ℕ :=
  4096 * (decide (hdr.extractLsb' 64 12 = 0)).toNat + (hdr.extractLsb' 64 12).toNat

def rxCplTlpHdrLowerAddr (hdr : BitVec 128) : ℕ := (hdr.extractLsb' 32 7).toNat

namespace TlpHdr

/-- The header as the packetisers drive it; the signals have the widths of their fields. -/
def bits (h : TlpHdr) : BitVec 128 := BitVec.ofNat 128 (BitField.pack [(3, h.fmt), (5, h.type), (14, 0),
  (10, h.length), (16, h.requesterId), (8, h.tag), (4, h.lastBe), (4, h.firstBe), (62, h.address), (2, 0)])

/-- The number of DWs; a zero length field stands for 1024. -/
def dwords (h : TlpHdr) : ℕ := if h.length = 0 then 1024 else h.length

/-- The byte at this offset from the DW address is enabled. -/
def enables (h : TlpHdr) (offset : ℕ) : Bool :=
  decide (offset / 4 < h.dwords) &&
    if offset / 4 = 0 then h.firstBe.testBit (offset % 4)
    else if offset / 4 + 1 = h.dwords then h.lastBe.testBit (offset % 4)
    else true

def byteCount (h : TlpHdr) : ℕ := ((List.range (4 * h.dwords)).filter h.enables).length

def byteAddress (h : TlpHdr) : ℕ := 4 * h.address

/-- The header covers exactly the `count` bytes from `address` on. -/
structure Covers (h : TlpHdr) (address count : ℕ) : Prop where
  length : h.length = (count + 3) / 4 % 1024
  address : h.byteAddress = address
  enables : ∀ offset, h.enables offset = decide (offset < count)

end TlpHdr

lemma firstByteEnable_aligned {a : ℕ} (h : a % 4 = 0) : firstByteEnable a = 15 := by
  simp [firstByteEnable, h]

/-- The last byte enable keeps `n % 4` bytes of the last DW, all four when that is zero. -/
lemma lastByteEnable_testBit {a n j : ℕ} (h : a % 4 = 0) (hj : j < 4) :
    (lastByteEnable a (n % 4)).testBit j = decide (n % 4 = 0 ∨ j < n % 4) := by
  have hn : n % 4 < 4 := Nat.mod_lt n (by omega)
  simp only [lastByteEnable, h, Nat.zero_add]
  generalize n % 4 = t at hn
  interval_cases t <;> interval_cases j <;> decide

lemma testBit_fifteen {j : ℕ} (hj : j < 4) : Nat.testBit 15 j = true := by
  interval_cases j <;> decide

namespace TlpHdr

variable {h : TlpHdr} {address count : ℕ}

/-- A header with the right length field whose byte enables come from a mask for the last DW. -/
theorem covers_of_fields {last : ℕ} (hpos : 0 < count) (hle : count ≤ 1024)
    (hlen : h.length = (count + 3) / 4 % 1024) (haddr : h.byteAddress = address)
    (hfirst : h.firstBe = if h.length = 1 then 15 &&& last else 15)
    (hlast : h.lastBe = if h.length = 1 then 0 else last)
    (hmask : ∀ j, j < 4 → last.testBit j = decide (count % 4 = 0 ∨ j < count % 4)) :
    h.Covers address count := by
  have hdw : h.dwords = (count + 3) / 4 := by
    unfold TlpHdr.dwords
    split <;> omega
  refine ⟨hlen, haddr, fun offset => ?_⟩
  have hj : offset % 4 < 4 := Nat.mod_lt offset (by omega)
  unfold TlpHdr.enables
  rw [hdw, hfirst, hlast, hlen, Bool.eq_iff_iff]
  by_cases hone : (count + 3) / 4 % 1024 = 1
  · simp only [if_pos hone, Nat.testBit_and, hmask _ hj, testBit_fifteen hj, Nat.zero_testBit]
    split_ifs <;> simp only [Bool.and_eq_true, Bool.true_and, decide_eq_true_eq, Bool.and_false,
      Bool.false_eq_true, and_true] <;> omega
  · simp only [if_neg hone, hmask _ hj, testBit_fifteen hj]
    split_ifs <;> simp only [Bool.and_eq_true, decide_eq_true_eq, Bool.and_true] <;> omega

lemma Covers.dwords (hc : h.Covers address count) (hpos : 0 < count) (hle : count ≤ 4096) :
    h.dwords = (count + 3) / 4 := by
  have hl := hc.length
  unfold TlpHdr.dwords
  split <;> omega

lemma Covers.byteCount (hc : h.Covers address count) (hpos : 0 < count) (hle : count ≤ 4096) :
    h.byteCount = count := by
  have he : h.enables = fun offset => decide (offset < count) := funext hc.enables
  have hd := hc.dwords hpos hle
  have hf : ∀ n, ((List.range n).filter fun offset => decide (offset < count)).length = min n count := by
    intro n
    induction n with
    | zero => simp
    | succ n ih =>
      rw [List.range_succ, List.filter_append, List.length_append, ih]
      by_cases hn : n < count
      · simp [hn]
        omega
      · simp [hn]
        omega
  rw [TlpHdr.byteCount, he, hf, hd]
  omega

end TlpHdr

end FpgaPcie
