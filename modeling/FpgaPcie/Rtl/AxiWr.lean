import FpgaPcie.Rtl.AxiDmaRdFrames
import FpgaPcie.Rtl.AxiRd
import FpgaPcie.Rtl.DmaWrPacketise
import FpgaPcie.Rtl.HostWrite
import FpgaPcie.Rtl.SgdmaWrEngine

/-!
# Block transfers from card memory: `dma_if_pcie_axi_wr`

The start from the host launches the reader on the card memory and the write engine, and the stream of
the reader is that of the engine. Together they copy the bytes of the card memory to the bytes of the host
buffer and write no other byte, whatever the ready and valid flags on the three ports do.
-/

namespace FpgaPcie

/-- The parameters of the write engine and of the reader on the same bus. -/
structure AxiWrConfig where
  wr : WrConfig
  axiAddrWidth : ℕ
  axiMaxBurstLen : ℕ
  axiAddrWidth_ge : 12 ≤ axiAddrWidth
  axiMaxBurstLen_pos : 1 ≤ axiMaxBurstLen
  axiMaxBurstLen_le : axiMaxBurstLen ≤ 256

lemma WrConfig.offsetWidth_le_seven (c : WrConfig) : c.offsetWidth ≤ 7 := Nat.le_succ_of_le c.offsetWidth_le

abbrev AxiWrConfig.axi (c : AxiWrConfig) : AxiConfig where
  axiBurstSize := c.wr.offsetWidth
  axiAddrWidth := c.axiAddrWidth
  axiMaxBurstLen := c.axiMaxBurstLen
  axiBurstSize_le := c.wr.offsetWidth_le_seven
  axiAddrWidth_ge := c.axiAddrWidth_ge
  axiMaxBurstLen_pos := c.axiMaxBurstLen_pos
  axiMaxBurstLen_le := c.axiMaxBurstLen_le

structure AxiWrInput (c : AxiWrConfig) where
  descWrReqLength : ℕ
  descWrReqAddress : ℕ
  descWrReqRamaddr : ℕ
  descWrReqStart : Bool
  txWrReqTlpReady : Bool
  mAxiArready : Bool
  mAxiRdata : Bytes c.axi.axiStrbWidth
  mAxiRvalid : Bool

/-- `s_axis_read_desc_valid` and `desc_wr_req_start_reg`, clocked as in `dma_if_pcie_axi_rd`, the reader and
the write engine. -/
structure AxiWr (c : AxiWrConfig) where
  readDesc : WriteDesc
  dmaAxiRd : AxiDmaRdState c.axi
  pcieAxisWr : WrState c.wr

variable {c : AxiWrConfig}

/-- A beat of the reader as the write engine reads it; `tlast` is not used there. -/
def AxisBeat.toSAxis {n : ℕ} (b : AxisBeat n) : SAxisBeat n := ⟨b.tdata, b.tkeep⟩

namespace AxiWr

variable (s : AxiWr c) (i : AxiWrInput c)

def descCycle : DescCycle where
  start := i.descWrReqStart
  length := i.descWrReqLength
  ramaddr := i.descWrReqRamaddr
  ready := s.dmaAxiRd.axi.sAxisReadDescReadyReg

def rdInput : AxiDmaRdInput c.axi where
  sAxisReadDesc := ⟨i.descWrReqRamaddr, i.descWrReqLength⟩
  sAxisReadDescValid := s.readDesc.sAxisWriteDescValid
  mAxiArready := i.mAxiArready
  mAxiRdata := i.mAxiRdata
  mAxiRvalid := i.mAxiRvalid
  mAxisReadDataTready := s.pcieAxisWr.reg.sAxisTlpTreadyReg

def wrInput : WrInput c.wr where
  descWrReqLength := i.descWrReqLength
  descWrReqAddress := i.descWrReqAddress
  descWrReqStart := i.descWrReqStart
  txWrReqTlpReady := i.txWrReqTlpReady
  sAxisTlp := s.dmaAxiRd.out.outReg.toSAxis
  sAxisTlpTvalid := s.dmaAxiRd.out.outValidReg

/-- One rising clock edge out of reset. -/
def step : AxiWr c where
  readDesc := s.readDesc.clock (s.descCycle i)
  dmaAxiRd := s.dmaAxiRd.step (s.rdInput i)
  pcieAxisWr := s.pcieAxisWr.step (s.wrInput i)

def reset (c : AxiWrConfig) : AxiWr c := ⟨.reset, .reset c.axi, .reset c.wr⟩

def run (s : AxiWr c) (i : ℕ → AxiWrInput c) : ℕ → AxiWr c
  | 0 => s
  | t + 1 => (run s i t).step (i t)

/-- The reader inside, with its logs. -/
def reader (s : AxiWr c) (i : ℕ → AxiWrInput c) (t : ℕ) : AxiDmaRdSystem c.axi :=
  AxiDmaRdSystem.run s.dmaAxiRd (fun t => (run s i t).rdInput (i t)) t

/-- The write engine inside, with its logs. -/
def writer (s : AxiWr c) (i : ℕ → AxiWrInput c) (t : ℕ) : WrSystem c.wr :=
  (WrSystem.fresh s.pcieAxisWr).run (fun t => (run s i t).wrInput (i t)) t

/-- Nothing is under way. -/
structure Quiet (s : AxiWr c) : Prop where
  valid : s.readDesc.sAxisWriteDescValid = false
  startReg : s.readDesc.descRdReqStartReg = false
  reader : AxiDmaRdSystem.Quiet s.dmaAxiRd
  engine : s.pcieAxisWr.Quiet
  tready : s.pcieAxisWr.reg.sAxisTlpTreadyReg = false

lemma reset_quiet (c : AxiWrConfig) : (reset c).Quiet :=
  ⟨rfl, rfl, AxiDmaRdSystem.reset_quiet _, wrReset_quiet _, rfl⟩

/-- One start, with a rising edge in cycle 0; the registers hold the length and the card address when the
reader takes them, a cycle later. -/
structure StartsOnce (i : ℕ → AxiWrInput c) (address length ramaddr : ℕ) : Prop where
  rise : (i 0).descWrReqStart = true
  kept : (i 1).descWrReqLength = length
  ramaddr : (i 1).descWrReqRamaddr = ramaddr
  address : (i 0).descWrReqAddress = address
  length : (i 0).descWrReqLength = length
  once : ∀ t, (i (t + 1)).descWrReqStart = true → (i t).descWrReqStart = true

section Run

variable {s : AxiWr c} {i : ℕ → AxiWrInput c} {address length ramaddr : ℕ}

lemma reader_engine (s : AxiWr c) (i : ℕ → AxiWrInput c) (t : ℕ) :
    (reader s i t).engine = (run s i t).dmaAxiRd := by
  induction t with
  | zero => rfl
  | succ t ih =>
    show ((reader s i t).engine).step _ = (run s i t).dmaAxiRd.step _
    rw [ih]

lemma writer_engine (s : AxiWr c) (i : ℕ → AxiWrInput c) (t : ℕ) :
    (writer s i t).engine = (run s i t).pcieAxisWr := by
  induction t with
  | zero => rfl
  | succ t ih =>
    show ((writer s i t).engine).step _ = (run s i t).pcieAxisWr.step _
    rw [ih]

/-! ### The launch -/

lemma startReg_eq (t : ℕ) : (run s i (t + 1)).readDesc.descRdReqStartReg = (i t).descWrReqStart := rfl

/-- The descriptor is valid in cycle 1. -/
lemma launch_valid (hquiet : s.Quiet) (hstart : StartsOnce i address length ramaddr) :
    (run s i 1).readDesc.sAxisWriteDescValid = true := by
  simp [run, step, WriteDesc.clock, descCycle, hquiet.valid, hquiet.startReg, hstart.rise]

lemma launch_ready (hquiet : s.Quiet) : (run s i 1).dmaAxiRd.axi.sAxisReadDescReadyReg = true := by
  have hacc : s.dmaAxiRd.descAccept (s.rdInput (i 0)) = false := by
    simp [AxiDmaRdState.descAccept, rdInput, hquiet.valid]
  simp [run, step, AxiDmaRdState.step, AxiDmaRdState.axiNext, hquiet.reader.axi, hquiet.reader.cmd, hacc]

/-- It is taken there, and no other one follows. -/
lemma launched (hquiet : s.Quiet) (hstart : StartsOnce i address length ramaddr) (t : ℕ) :
    (run s i (t + 2)).readDesc.sAxisWriteDescValid = false := by
  induction t with
  | zero =>
    have hvalid := launch_valid hquiet hstart
    have hready := launch_ready hquiet (i := i)
    show ((run s i 1).readDesc.clock _).sAxisWriteDescValid = false
    simp [WriteDesc.clock, descCycle, hvalid, hready]
  | succ t ih =>
    have hedge : ((i (t + 2)).descWrReqStart && !(run s i (t + 2)).readDesc.descRdReqStartReg) = false := by
      cases hs : (i (t + 2)).descWrReqStart with
      | false => rfl
      | true => rw [startReg_eq, hstart.once (t + 1) hs]; rfl
    show ((run s i (t + 2)).readDesc.clock _).sAxisWriteDescValid = false
    simp only [WriteDesc.clock, descCycle, ih, Bool.false_and, Bool.false_eq_true, if_false]
    rw [hedge]
    rfl

lemma accepted_zero (hquiet : s.Quiet) : (reader s i 1).accepted = [] := by
  show [] ++ (if s.dmaAxiRd.descAccept (s.rdInput (i 0)) then _ else _) = _
  simp [AxiDmaRdState.descAccept, rdInput, hquiet.valid]

/-- The reader has one descriptor. -/
theorem accepted_eq (hquiet : s.Quiet) (hstart : StartsOnce i address length ramaddr) (t : ℕ) :
    (reader s i (t + 2)).accepted = [⟨ramaddr, length⟩] := by
  induction t with
  | zero =>
    show (reader s i 1).accepted ++ (if (reader s i 1).engine.descAccept ((run s i 1).rdInput (i 1)) then
      [((run s i 1).rdInput (i 1)).sAxisReadDesc] else []) = _
    have hacc : (reader s i 1).engine.descAccept ((run s i 1).rdInput (i 1)) = true := by
      rw [reader_engine]
      simp [AxiDmaRdState.descAccept, rdInput, launch_ready hquiet, launch_valid hquiet hstart]
    rw [accepted_zero hquiet, hacc]
    simp [rdInput, hstart.kept, hstart.ramaddr]
  | succ t ih =>
    show (reader s i (t + 2)).accepted ++ (if (reader s i (t + 2)).engine.descAccept
      ((run s i (t + 2)).rdInput (i (t + 2))) then _ else _) = _
    rw [ih]
    simp [AxiDmaRdState.descAccept, rdInput, launched hquiet hstart t]

lemma descOk (hquiet : s.Quiet) (hstart : StartsOnce i address length ramaddr) (hpos : 1 ≤ length)
    (hlen : length < 2 ^ 32) (t : ℕ) : AxiDmaRdSystem.DescOk ((run s i t).rdInput (i t)) := by
  intro hv
  match t with
  | 0 => exact absurd (hquiet.valid.symm.trans hv) (by simp)
  | 1 =>
    show 1 ≤ (i 1).descWrReqLength ∧ (i 1).descWrReqLength < 2 ^ 32
    rw [hstart.kept]
    exact ⟨hpos, hlen⟩
  | t + 2 => exact absurd ((launched hquiet hstart t).symm.trans hv) (by simp)

end Run

end AxiWr

/-! ### The stream between reader and engine -/

/-- A bus word of the card memory. -/
def cardWord (c : AxiConfig) (card : ℕ → BitVec 8) (addr : ℕ) : Bytes c.axiStrbWidth := fun j => card (addr + j)

/-- Host memory with `count` bytes of the card memory, from `ramaddr` on, written from `address` on. -/
def HostMem.copied (c : AxiConfig) (host : HostMem) (card : ℕ → BitVec 8) (address ramaddr count : ℕ) : HostMem :=
  fun a => if address ≤ a ∧ a < address + count then card ((ramaddr + (a - address)) % 2 ^ c.axiAddrWidth)
    else host a

section Stream

variable {card : ℕ → BitVec 8} {address length ramaddr : ℕ}

/-- The stream beats of the descriptor. -/
def cardStream (c : AxiWrConfig) (card : ℕ → BitVec 8) (ramaddr length : ℕ) : List (SAxisBeat c.wr.busBytes) :=
  (AxiDesc.frame c.axi (cardWord c.axi card) ⟨ramaddr, length⟩).map AxisBeat.toSAxis

lemma cardStream_length : (cardStream c card ramaddr length).length = wrBeats c.wr length := by
  rw [cardStream, List.length_map, AxiDesc.frame, List.length_zipWith, List.length_map,
    AxiDmaRdSystem.shapes_length, Nat.min_self]
  simp [AxiDesc.words]
  rfl

lemma cardStream_getElem {b : ℕ} {d : SAxisBeat c.wr.busBytes} (h : (cardStream c card ramaddr length)[b]? = some d) :
    KeepOk c.wr length b d ∧ ∀ j, d.tdata j =
      card ((c.axi.addrMask ramaddr + c.wr.busBytes * b) % 2 ^ c.axi.axiAddrWidth + j) := by
  have hb := (List.getElem?_eq_some_iff.mp h).1
  rw [cardStream_length] at hb
  have hb' : b < Chunks.count c.axi.axiStrbWidth length := hb
  rw [cardStream, List.getElem?_map, AxiDesc.frame, List.getElem?_zipWith, AxiDesc.shapes, AxiDesc.words,
    AxiConfig.wordAddrs, List.getElem?_map, List.getElem?_map, List.getElem?_map, List.getElem?_range hb'] at h
  have hd := Option.some.inj h
  subst hd
  exact ⟨fun j => rfl, fun j => rfl⟩

/-- The bytes of the stream are those of the card memory. -/
theorem streamByte_cardStream {o : ℕ} (ho : o < length) : streamByte (cardStream c card ramaddr length) o =
    card ((c.axi.addrMask ramaddr + o) % 2 ^ c.axi.axiAddrWidth) := by
  have hpos : 0 < c.wr.busBytes := by positivity
  have hlt : o / c.wr.busBytes < (cardStream c card ramaddr length).length := by
    rw [cardStream_length, wrBeats, Chunks.lt_count_iff hpos]
    exact (Nat.mul_div_le o _).trans_lt ho
  have hget := List.getElem?_eq_getElem hlt
  obtain ⟨-, hdata⟩ := cardStream_getElem hget
  unfold streamByte
  rw [hget]
  show (cardStream c card ramaddr length)[o / c.wr.busBytes].tdata _ = _
  rw [hdata]
  have hal : (c.axi.addrMask ramaddr + c.wr.busBytes * (o / c.wr.busBytes)) % c.wr.busBytes = 0 := by
    rw [Nat.add_mul_mod_self_left]
    exact c.axi.addrMask_aligned ramaddr
  show card (_ + o % 2 ^ c.wr.offsetWidth) = _
  rw [AxiConfig.word_add_lane hal (Nat.mod_lt o hpos), Nat.add_assoc]
  congr 3
  exact Nat.div_add_mod o c.wr.busBytes

end Stream

/-! ### Transfers -/

namespace AxiWr

/-- What a block transfer needs: a 512-bit bus, a supported payload size, an aligned host buffer, and a transfer of
at least one byte. Payloads of 1024 bytes are framed right only when no TLP is full. -/
structure TransferOk (c : AxiWrConfig) (address length : ℕ) : Prop where
  width : c.wr.offsetWidth = 6
  code : c.wr.maxPayloadSize ≤ 3
  short : c.wr.maxPayloadSize ≤ 2 ∨ length < 1024
  aligned : address % mps c.wr = 0
  fits : address + length ≤ 2 ^ 64
  pos : 1 ≤ length
  lt : length < 2 ^ 32

/-- The card memory answers the reader, in the end. -/
structure CardFair (s : AxiWr c) (i : ℕ → AxiWrInput c) : Prop where
  slave : AxiDmaRdSystem.SlaveFair s.dmaAxiRd fun t => (run s i t).rdInput (i t)
  tlpReady : ∀ t, ∃ u, t ≤ u ∧ (i u).txWrReqTlpReady = true

section Transfer

variable {s : AxiWr c} {i : ℕ → AxiWrInput c} {address length ramaddr : ℕ} {card : ℕ → BitVec 8}

lemma wrStarts (hstart : StartsOnce i address length ramaddr) :
    WrStartsOnce (fun t => (run s i t).wrInput (i t)) address length :=
  ⟨hstart.rise, hstart.address, hstart.length, hstart.once⟩

lemma writer_inv (hok : TransferOk c address length) (hquiet : s.Quiet)
    (hstart : StartsOnce i address length ramaddr) (t : ℕ) : WrInv address length (writer s i (t + 1)) := by
  have hfits := hok.fits
  have hpos := hok.pos
  exact WrInv.run hok.width hok.code (by omega) hok.pos hok.lt hquiet.engine (wrStarts hstart) t

lemma reader_inv (hok : TransferOk c address length) (hquiet : s.Quiet)
    (hstart : StartsOnce i address length ramaddr) (t : ℕ) : (reader s i t).Inv :=
  AxiDmaRdSystem.Inv.run hquiet.reader (descOk hquiet hstart hok.pos hok.lt) t

/-- The reader has no more words than the descriptor. -/
lemma words_length_le (hquiet : s.Quiet) (hstart : StartsOnce i address length ramaddr) (t : ℕ) :
    (reader s i t).words.length ≤ wrBeats c.wr length := by
  match t with
  | 0 => exact Nat.zero_le _
  | 1 =>
    rw [AxiDmaRdSystem.words, accepted_zero hquiet]
    exact Nat.zero_le _
  | t + 2 =>
    rw [AxiDmaRdSystem.words, accepted_eq hquiet hstart, List.flatMap_singleton, AxiDesc.words,
      AxiConfig.wordAddrs_length]
    exact le_rfl

/-- The engine takes every beat of the stream: when it does not count any more, the reader has no beat left. -/
theorem taken_eq (hok : TransferOk c address length) (hquiet : s.Quiet)
    (hstart : StartsOnce i address length ramaddr) (t : ℕ) :
    (writer s i t).taken = (reader s i t).streamed.map AxisBeat.toSAxis := by
  induction t with
  | zero => rfl
  | succ t ih =>
    have htakes : (run s i t).pcieAxisWr.validInit ((run s i t).wrInput (i t)) =
        ((run s i t).dmaAxiRd.out.outValidReg && (run s i t).pcieAxisWr.reg.sAxisTlpTreadyReg) := by
      cases t with
      | zero =>
        show s.pcieAxisWr.validInit _ = (_ && s.pcieAxisWr.reg.sAxisTlpTreadyReg)
        simp [WrState.validInit, hquiet.engine.idle, hquiet.tready]
      | succ t =>
        have hreq := (writer_inv hok hquiet hstart t).req
        rw [writer_engine] at hreq
        cases hs : (run s i (t + 1)).pcieAxisWr.reg.reqStateReg with
        | start => simp [WrState.validInit, WrState.sAxisAccept, hs, wrInput]
        | idle =>
          have hv : (run s i (t + 1)).dmaAxiRd.out.outValidReg = false := by
            have hinv := reader_inv hok hquiet hstart (t + 1)
            obtain ⟨q, -, hbeats⟩ := hinv.queue
            have hlen := congrArg List.length hbeats
            have htaken := congrArg List.length ih
            have hle := hinv.received_le
            rw [AxiDmaRdSystem.shapes_length_eq] at hle
            have hwords := words_length_le hquiet hstart (t + 1)
            rw [List.length_append, List.length_zipWith, AxiDmaRdSystem.shapes_length_eq, OutFifo.pending,
              reader_engine, List.length_append] at hlen
            rw [List.length_map, hreq.idle hs] at htaken
            by_contra hv
            rw [if_pos (Bool.eq_true_of_not_eq_false hv), List.length_singleton] at hlen
            omega
          simp [WrState.validInit, hs, hv]
    have hwriter : (writer s i (t + 1)).taken = (writer s i t).taken ++
        if (run s i t).pcieAxisWr.validInit ((run s i t).wrInput (i t)) then
          [(run s i t).dmaAxiRd.out.outReg.toSAxis] else [] := by
      rw [← writer_engine]
      rfl
    have hreader : (reader s i (t + 1)).streamed = (reader s i t).streamed ++
        if (run s i t).dmaAxiRd.out.outValidReg && (run s i t).pcieAxisWr.reg.sAxisTlpTreadyReg then
          [(run s i t).dmaAxiRd.out.outReg] else [] := by
      rw [← reader_engine]
      rfl
    rw [hwriter, hreader, htakes, ih, List.map_append]
    cases (run s i t).dmaAxiRd.out.outValidReg && (run s i t).pcieAxisWr.reg.sAxisTlpTreadyReg <;> rfl

/-- The TLP beats of the transfer. -/
def transferBeats (c : AxiWrConfig) (card : ℕ → BitVec 8) (address length ramaddr : ℕ) : List (WrBeat c.wr) :=
  (cardStream c card ramaddr length).mapIdx (mwrBeat c.wr address length)

lemma transferBeats_packets (hok : TransferOk c address length) :
    Packets c.wr address length (cardStream c card ramaddr length) (transferBeats c card address length ramaddr) := by
  apply packets_of_beats hok.width hok.code hok.aligned cardStream_length
  · rw [transferBeats, List.length_mapIdx, cardStream_length]
  · intro b d w hd hbeat
    have hb := (List.getElem?_eq_some_iff.mp hd).1
    rw [cardStream_length] at hb
    rw [transferBeats, List.getElem?_mapIdx, hd] at hbeat
    obtain rfl := Option.some.inj hbeat
    exact mwrBeat_ok hok.width hok.code hok.aligned hb (tlpBytes_ne hok.short _) d

lemma patched_cardStream (host : HostMem) {count : ℕ} (hcount : count ≤ length) :
    host.patched (cardStream c card ramaddr length) address count =
      host.copied c.axi card address (c.axi.addrMask ramaddr) count := by
  funext a
  unfold HostMem.patched HostMem.copied
  split_ifs with hin
  · exact streamByte_cardStream (by omega)
  · rfl

/-- What has been taken is the beginning of the stream of the card memory. -/
lemma taken_begins (hok : TransferOk c address length) (hquiet : s.Quiet)
    (hstart : StartsOnce i address length ramaddr)
    (hcard : AxiDmaRdSystem.Answers (cardWord c.axi card) s.dmaAxiRd fun t => (run s i t).rdInput (i t)) (t : ℕ) :
    (writer s i t).taken <+: cardStream c card ramaddr length := by
  rw [taken_eq hok hquiet hstart]
  apply List.IsPrefix.map
  have hpre := AxiDmaRdSystem.streamed_begins hquiet.reader (descOk hquiet hstart hok.pos hok.lt) hcard t
  match t with
  | 0 => exact List.nil_prefix
  | 1 =>
    have haccepted : (reader s i 1).accepted = [] := accepted_zero hquiet
    have hnil : (reader s i 1).streamed <+: [] := by
      rw [show ([] : List (AxisBeat c.axi.axiStrbWidth)) =
        (reader s i 1).accepted.flatMap (AxiDesc.frame c.axi (cardWord c.axi card)) by rw [haccepted]; rfl]
      exact hpre
    rw [List.prefix_nil.mp hnil]
    exact List.nil_prefix
  | t + 2 =>
    have haccepted : (reader s i (t + 2)).accepted = [⟨ramaddr, length⟩] := accepted_eq hquiet hstart t
    have hpre' : (reader s i (t + 2)).streamed <+:
      (reader s i (t + 2)).accepted.flatMap (AxiDesc.frame c.axi (cardWord c.axi card)) := hpre
    rw [haccepted, List.flatMap_singleton] at hpre'
    exact hpre'

lemma mapIdx_begins {α β : Type*} (f : ℕ → α → β) {l l' : List α} (h : l <+: l') : l.mapIdx f <+: l'.mapIdx f := by
  obtain ⟨r, rfl⟩ := h
  rw [List.mapIdx_append]
  exact List.prefix_append _ _

lemma emitted_begins (hok : TransferOk c address length) (hquiet : s.Quiet)
    (hstart : StartsOnce i address length ramaddr)
    (hcard : AxiDmaRdSystem.Answers (cardWord c.axi card) s.dmaAxiRd fun t => (run s i t).rdInput (i t)) (t : ℕ) :
    (writer s i t).emitted <+: transferBeats c card address length ramaddr := by
  cases t with
  | zero => exact List.nil_prefix
  | succ t =>
    obtain ⟨q, hq⟩ := (writer_inv hok hquiet hstart t).queue
    have hbegin := mapIdx_begins (mwrBeat c.wr address length) (taken_begins hok hquiet hstart hcard (t + 1))
    rw [← hq.beats] at hbegin
    exact (List.prefix_append _ _).trans hbegin

/-- The stream gets every beat that is missing. -/
lemma offered (hok : TransferOk c address length) (hquiet : s.Quiet)
    (hstart : StartsOnce i address length ramaddr) (hfair : CardFair s i) (t : ℕ)
    (hs : (writer s i (t + 2)).engine.reg.reqStateReg = .start) :
    ∃ u, t + 2 ≤ u ∧ ((run s i u).wrInput (i u)).sAxisTlpTvalid = true := by
  have hlt : (writer s i (t + 2)).taken.length < wrBeats c.wr length :=
    ((writer_inv hok hquiet hstart (t + 1)).req.start hs).1
  have htaken := congrArg List.length (taken_eq hok hquiet hstart (t + 2))
  rw [List.length_map] at htaken
  have hwords : (reader s i (t + 2)).words.length = wrBeats c.wr length := by
    rw [AxiDmaRdSystem.words, accepted_eq hquiet hstart, List.flatMap_singleton, AxiDesc.words,
      AxiConfig.wordAddrs_length]
    rfl
  have hmore : (reader s i (t + 2)).streamed.length < (reader s i (t + 2)).words.length := by omega
  obtain ⟨u, hu, hv⟩ := AxiDmaRdSystem.offers hquiet.reader (descOk hquiet hstart hok.pos hok.lt) hfair.slave hmore
  refine ⟨u, hu, ?_⟩
  have hengine := reader_engine s i u
  show (run s i u).dmaAxiRd.out.outValidReg = true
  rw [← hengine]
  exact hv

lemma emitted_le {x : WrSystem c.wr} (h : WrInv address length x) : x.emitted.length ≤ x.taken.length := by
  obtain ⟨q, hq⟩ := h.queue
  have hlen := congrArg List.length hq.beats
  rw [List.length_append, List.length_mapIdx] at hlen
  omega

/-- The engine sends all beats. -/
lemma finishes (hok : TransferOk c address length) (hquiet : s.Quiet)
    (hstart : StartsOnce i address length ramaddr) (hfair : CardFair s i) :
    ∃ t₁, 2 ≤ t₁ ∧ ∀ t, t₁ ≤ t → (writer s i t).taken.length = wrBeats c.wr length ∧
      (writer s i t).emitted = (writer s i t).taken.mapIdx (mwrBeat c.wr address length) := by
  have hshift : ∀ t, writer s i (t + 2) = (writer s i 2).run
      (fun u => (run s i (u + 2)).wrInput (i (u + 2))) t := by
    intro t
    induction t with
    | zero => rfl
    | succ t ih =>
      show (writer s i (t + 2)).step _ = _
      rw [ih]
      rfl
  have hinv : ∀ t, WrInv address length ((writer s i 2).run (fun u => (run s i (u + 2)).wrInput (i (u + 2))) t) := by
    intro t
    rw [← hshift]
    exact writer_inv hok hquiet hstart (t + 1)
  have hoffered : ∀ t, ((writer s i 2).run (fun u => (run s i (u + 2)).wrInput (i (u + 2))) t).engine.reg.reqStateReg =
      .start → ∃ u, t ≤ u ∧ ((run s i (u + 2)).wrInput (i (u + 2))).sAxisTlpTvalid = true := by
    intro t hs
    rw [← hshift] at hs
    obtain ⟨u, hu, hv⟩ := offered hok hquiet hstart hfair t hs
    obtain ⟨v, rfl⟩ := Nat.exists_eq_add_of_le' (Nat.le_of_add_left_le hu)
    exact ⟨v, by omega, hv⟩
  have haccepted : ∀ t, ∃ u, t ≤ u ∧ ((run s i (u + 2)).wrInput (i (u + 2))).txWrReqTlpReady = true := by
    intro t
    obtain ⟨u, hu, hr⟩ := hfair.tlpReady (t + 2)
    obtain ⟨v, rfl⟩ := Nat.exists_eq_add_of_le' (Nat.le_of_add_left_le hu)
    exact ⟨v, by omega, hr⟩
  obtain ⟨t₁, ht₁⟩ := WrInv.emits_of_offered hoffered haccepted hinv
  refine ⟨t₁ + 2, Nat.le_add_left _ _, fun t ht => ?_⟩
  obtain ⟨u, rfl⟩ := Nat.exists_eq_add_of_le' (Nat.le_of_add_left_le ht)
  rw [hshift]
  exact ht₁ u (by omega)

/-- Behind the last beat nothing is under way, once the start is low. -/
lemma quiet_after (hok : TransferOk c address length) (hquiet : s.Quiet)
    (hstart : StartsOnce i address length ramaddr)
    (hcard : AxiDmaRdSystem.Answers (cardWord c.axi card) s.dmaAxiRd fun t => (run s i t).rdInput (i t)) {t : ℕ}
    (ht : 2 ≤ t) (hsent : ∀ u, t ≤ u → wrBeats c.wr length ≤ (writer s i u).emitted.length)
    (hlow : (i t).descWrReqStart = false) : (run s i (t + 1)).Quiet := by
  obtain ⟨u, rfl⟩ := Nat.exists_eq_add_of_le' ht
  have hinv := writer_inv hok hquiet hstart (u + 1)
  have hnext := writer_inv hok hquiet hstart (u + 2)
  have htaken := congrArg List.length (taken_eq hok hquiet hstart (u + 3))
  have hwords := words_length_le hquiet hstart (u + 3)
  have hall := hsent (u + 3) (by omega)
  rw [List.length_map] at htaken
  have hle : wrBeats c.wr length ≤ (writer s i (u + 3)).taken.length := hall.trans (emitted_le hnext)
  have hidle : (writer s i (u + 2)).engine.reg.reqStateReg = .idle := by
    cases hs : (writer s i (u + 2)).engine.reg.reqStateReg with
    | idle => rfl
    | start =>
      have hlt := (hinv.req.start hs).1
      exact absurd ((hsent (u + 2) le_rfl).trans (emitted_le hinv)) (Nat.not_le_of_lt hlt)
  rw [writer_engine] at hidle
  refine ⟨launched hquiet hstart (u + 1), ?_, ?_, ?_, ?_⟩
  · exact (startReg_eq (u + 2)).trans hlow
  · rw [← reader_engine]
    refine (reader_inv hok hquiet hstart (u + 3)).quiet ?_ (by omega)
    have hpre : (reader s i (u + 3)).received <+: (reader s i (u + 3)).asked.map (cardWord c.axi card) :=
      AxiDmaRdSystem.received_begins hcard (u + 3)
    exact (List.length_map (cardWord c.axi card)) ▸ hpre.length_le
  · rw [← writer_engine]
    refine hnext.quiet hall ?_
    rw [writer_engine]
    show ((run s i (u + 2)).pcieAxisWr.wrNext _).descWrReqStartReg = false
    rw [WrState.wrNext_startReg]
    exact hlow
  · show ((run s i (u + 2)).pcieAxisWr.wrNext _).sAxisTlpTreadyReg = false
    simp [WrState.wrNext, hidle, wrInput, hlow]

/-- At any time a first part of the buffer has been written, and nothing else in host memory. -/
lemma host_begins (hok : TransferOk c address length) (hquiet : s.Quiet) (hstart : StartsOnce i address length ramaddr)
    (hcard : AxiDmaRdSystem.Answers (cardWord c.axi card) s.dmaAxiRd fun t => (run s i t).rdInput (i t))
    (host : HostMem) (t : ℕ) : ∃ count, count ≤ length ∧ hostAfter host (writer s i t).emitted =
      host.copied c.axi card address (c.axi.addrMask ramaddr) count := by
  obtain ⟨count, hcount, hhost⟩ := (transferBeats_packets hok).hostAfter_begins hok.width hok.fits
    (emitted_begins hok hquiet hstart hcard t) host
  exact ⟨count, hcount, by rw [hhost, patched_cardStream host hcount]⟩

/-- When the card memory answers and the TLP port moves, the whole buffer is written, and after the start has dropped
the module is ready for the next one. -/
lemma host_finishes (hok : TransferOk c address length) (hquiet : s.Quiet)
    (hstart : StartsOnce i address length ramaddr)
    (hcard : AxiDmaRdSystem.Answers (cardWord c.axi card) s.dmaAxiRd fun t => (run s i t).rdInput (i t))
    (host : HostMem) (hfair : CardFair s i) : ∃ t₁, ∀ t, t₁ ≤ t →
      hostAfter host (writer s i t).emitted = host.copied c.axi card address (c.axi.addrMask ramaddr) length ∧
      ((i t).descWrReqStart = false → (run s i (t + 1)).Quiet) := by
  have hpackets : Packets c.wr address length (cardStream c card ramaddr length)
      (transferBeats c card address length ramaddr) := transferBeats_packets hok
  obtain ⟨t₁, htwo, ht₁⟩ := finishes hok hquiet hstart hfair
  have hemitted : ∀ t, t₁ ≤ t → (writer s i t).emitted = transferBeats c card address length ramaddr := by
    intro t ht
    obtain ⟨hlen, hbeats⟩ := ht₁ t ht
    have htaken := (taken_begins hok hquiet hstart hcard t).eq_of_length (by rw [hlen, cardStream_length])
    rw [hbeats, htaken]
    rfl
  refine ⟨t₁, fun t ht => ⟨?_, fun hlow => ?_⟩⟩
  · rw [hemitted t ht, hpackets.hostAfter_eq hok.width hok.fits, patched_cardStream host le_rfl]
  · refine quiet_after hok hquiet hstart hcard (htwo.trans ht) (fun u hu => ?_) hlow
    rw [hemitted u (ht.trans hu), transferBeats, List.length_mapIdx, cardStream_length]

/-- A start copies the bytes of the card memory from the word of `ramaddr` on to the host buffer. The AXI bursts are
legal; at any time a first part of the buffer has been written and nothing else in host memory; when the
card memory answers and the TLP port moves, the whole buffer is written, and after the start has dropped the
module is ready for the next one. -/
theorem c2h_copies_card_memory (card : ℕ → BitVec 8) (host : HostMem) (s : AxiWr c) (i : ℕ → AxiWrInput c)
    (address length ramaddr : ℕ) (hok : TransferOk c address length) (hquiet : s.Quiet)
    (hstart : StartsOnce i address length ramaddr)
    (hcard : AxiDmaRdSystem.Answers (cardWord c.axi card) s.dmaAxiRd fun t => (run s i t).rdInput (i t)) :
    (∀ t, ∀ b ∈ (reader s i t).issued ++ (reader s i t).presented, b.Legal c.axi) ∧
    (∀ t, ∃ count, count ≤ length ∧ hostAfter host (writer s i t).emitted =
      host.copied c.axi card address (c.axi.addrMask ramaddr) count) ∧
    (CardFair s i → ∃ t₁, ∀ t, t₁ ≤ t →
      hostAfter host (writer s i t).emitted = host.copied c.axi card address (c.axi.addrMask ramaddr) length ∧
      ((i t).descWrReqStart = false → (run s i (t + 1)).Quiet)) := by
  exact ⟨fun t => (reader_inv hok hquiet hstart t).axi.legal, host_begins hok hquiet hstart hcard host,
    host_finishes hok hquiet hstart hcard host⟩

end Transfer

/-! ### A card memory that answers at once -/

/-- The inputs of a cycle of one transfer, when every burst is accepted, the next word is there and the TLP port is
ready. -/
def serve (card : ℕ → BitVec 8) (address length ramaddr t : ℕ) (x : AxiDmaRdSystem c.axi) : AxiWrInput c where
  descWrReqLength := length
  descWrReqAddress := address
  descWrReqRamaddr := ramaddr
  descWrReqStart := t == 0
  txWrReqTlpReady := true
  mAxiArready := true
  mAxiRdata := cardWord c.axi card (x.asked.getD x.received.length 0)
  mAxiRvalid := decide (x.received.length < x.asked.length)

def served (card : ℕ → BitVec 8) (address length ramaddr : ℕ) (s : AxiWr c) : ℕ → AxiWr c × AxiDmaRdSystem c.axi
  | 0 => (s, ⟨s.dmaAxiRd, [], [], [], []⟩)
  | t + 1 =>
    let x := served card address length ramaddr s t
    let i := serve card address length ramaddr t x.2
    (x.1.step i, x.2.step (x.1.rdInput i))

def servedInput (card : ℕ → BitVec 8) (address length ramaddr : ℕ) (s : AxiWr c) (t : ℕ) : AxiWrInput c :=
  serve card address length ramaddr t (served card address length ramaddr s t).2

section Served

variable (card : ℕ → BitVec 8) (address length ramaddr : ℕ) (s : AxiWr c)

lemma run_served (t : ℕ) : run s (servedInput card address length ramaddr s) t =
    (served card address length ramaddr s t).1 := by
  induction t with
  | zero => rfl
  | succ t ih => rw [run, ih, served, servedInput]

lemma reader_served (t : ℕ) : reader s (servedInput card address length ramaddr s) t =
    (served card address length ramaddr s t).2 := by
  induction t with
  | zero => rfl
  | succ t ih =>
    show (reader s (servedInput card address length ramaddr s) t).step
      ((run s (servedInput card address length ramaddr s) t).rdInput (servedInput card address length ramaddr s t)) = _
    rw [ih, run_served, served, servedInput]

lemma served_starts : StartsOnce (servedInput card address length ramaddr s) address length ramaddr :=
  ⟨rfl, rfl, rfl, rfl, rfl, fun t ht => by simp [servedInput, serve] at ht⟩

lemma served_answers : AxiDmaRdSystem.Answers (cardWord c.axi card) s.dmaAxiRd
    fun t => (run s (servedInput card address length ramaddr s) t).rdInput (servedInput card address length ramaddr s t) := by
  intro t hv
  have hsame : AxiDmaRdSystem.run s.dmaAxiRd (fun t => (run s (servedInput card address length ramaddr s) t).rdInput
      (servedInput card address length ramaddr s t)) t = (served card address length ramaddr s t).2 :=
    reader_served card address length ramaddr s t
  rw [hsame]
  have hlt : (served card address length ramaddr s t).2.received.length <
      (served card address length ramaddr s t).2.asked.length := of_decide_eq_true hv
  refine ⟨_, List.getElem?_eq_getElem hlt, ?_⟩
  show cardWord c.axi card ((served card address length ramaddr s t).2.asked.getD _ 0) = _
  rw [List.getD_eq_getElem _ _ hlt]

lemma served_fair : CardFair s (servedInput card address length ramaddr s) := by
  have hsame : ∀ t, AxiDmaRdSystem.run s.dmaAxiRd (fun t => (run s (servedInput card address length ramaddr s) t).rdInput
      (servedInput card address length ramaddr s t)) t = (served card address length ramaddr s t).2 :=
    reader_served card address length ramaddr s
  refine ⟨⟨fun t _ _ => ⟨t, le_rfl, rfl⟩, fun t hlt => ⟨t, le_rfl, ?_⟩, fun t hv hr => ?_⟩, fun t => ⟨t, le_rfl, rfl⟩⟩
  · rw [hsame] at hlt
    exact decide_eq_true hlt
  · have hlt : (served card address length ramaddr s t).2.received.length <
        (served card address length ramaddr s t).2.asked.length := of_decide_eq_true hv
    rw [← hsame] at hlt
    have hmore := (AxiDmaRdSystem.asked_succ (s := s.dmaAxiRd) (i := fun t =>
      (run s (servedInput card address length ramaddr s) t).rdInput (servedInput card address length ramaddr s t))
      t).length_le
    show decide ((served card address length ramaddr s (t + 1)).2.received.length <
      (served card address length ramaddr s (t + 1)).2.asked.length) = true
    rw [← hsame]
    refine decide_eq_true (Nat.lt_of_le_of_lt (Nat.le_of_eq ?_) (hlt.trans_le hmore))
    rw [AxiDmaRdSystem.run, AxiDmaRdSystem.step, hr]
    exact congrArg List.length (List.append_nil _)

end Served

/-- 1000 bytes of the card memory behind address 4032 go to host address 8192, with payloads of 512 bytes. -/
theorem c2h_copies_served :
    let c : AxiWrConfig := ⟨⟨6, 6, 0, 2, by decide, by decide⟩, 16, 64, by decide, by decide, by decide⟩
    let card : ℕ → BitVec 8 := fun a => BitVec.ofNat 8 a
    let i := servedInput card 8192 1000 4032 (reset c)
    ∃ t₁, ∀ t, t₁ ≤ t →
      hostAfter (fun _ => 0) (writer (reset c) i t).emitted = HostMem.copied c.axi (fun _ => 0) card 8192 4032 1000 ∧
      (run (reset c) i (t + 1)).Quiet := by
  intro c card i
  have hok : TransferOk c 8192 1000 :=
    ⟨rfl, by decide, .inl (by decide), by decide, by decide, by decide, by decide⟩
  obtain ⟨t₁, ht₁⟩ := (c2h_copies_card_memory card (fun _ => 0) (reset c) i 8192 1000 4032 hok (reset_quiet c)
    (served_starts card 8192 1000 4032 (reset c)) (served_answers card 8192 1000 4032 (reset c))).2.2
    (served_fair card 8192 1000 4032 (reset c))
  refine ⟨t₁ + 1, fun t ht => ?_⟩
  obtain ⟨hhost, hquiet⟩ := ht₁ t (by omega)
  refine ⟨hhost, hquiet ?_⟩
  show (t == 0) = false
  rw [beq_eq_false_iff_ne]
  omega

end AxiWr

end FpgaPcie
