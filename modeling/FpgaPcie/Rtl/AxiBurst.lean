import FpgaPcie.Lib.Chunks

/-!
# The bursts of a card memory descriptor

`axi_dma_rd` and `axi_dma_wr` cut a descriptor into AXI bursts with the same formulas. A descriptor is a
run of bus words; its bursts are consecutive runs of it, none longer than `AXI_MAX_BURST_LEN` and none
across a 4 KiB boundary. Both modules are instantiated with `ENABLE_UNALIGNED` zero.
-/

namespace FpgaPcie

/-- The parameters of `axi_dma_rd` and `axi_dma_wr`: the data bus has `2 ^ axiBurstSize` bytes. -/
structure AxiConfig where
  axiBurstSize : ℕ
  axiAddrWidth : ℕ
  axiMaxBurstLen : ℕ
  axiBurstSize_le : axiBurstSize ≤ 7
  axiAddrWidth_ge : 12 ≤ axiAddrWidth
  axiMaxBurstLen_pos : 1 ≤ axiMaxBurstLen
  axiMaxBurstLen_le : axiMaxBurstLen ≤ 256

namespace AxiConfig

variable (c : AxiConfig)

abbrev axiStrbWidth : ℕ := 2 ^ c.axiBurstSize

def axiMaxBurstSize : ℕ := c.axiMaxBurstLen <<< c.axiBurstSize

/-- `addr & ADDR_MASK`. -/
def addrMask (addr : ℕ) : ℕ := (addr >>> c.axiBurstSize) <<< c.axiBurstSize

/-- `tr_word_count_next`: the bytes of the next burst. -/
def trWordCountNext (addrReg opWordCountReg : ℕ) : ℕ :=
  if opWordCountReg ≤ c.axiMaxBurstSize - addrReg % 2 ^ c.axiBurstSize ∨ 4096 ≤ c.axiMaxBurstSize then
    if (addrReg % 2 ^ 12 + opWordCountReg % 2 ^ 12) >>> 12 ≠ 0 ∨ opWordCountReg >>> 12 ≠ 0 then
      0x1000 - addrReg % 2 ^ 12
    else opWordCountReg
  else
    if (addrReg % 2 ^ 12 + c.axiMaxBurstSize) >>> 12 ≠ 0 then 0x1000 - addrReg % 2 ^ 12
    else c.axiMaxBurstSize - addrReg % 2 ^ c.axiBurstSize

/-- The bus cycles of `len` bytes less one, `(len - 1) >> AXI_BURST_SIZE`. -/
def cycleCountNext (len : ℕ) : ℕ := ((len + (2 ^ 32 - 1)) % 2 ^ 32) >>> c.axiBurstSize

/-- One less, in the `CYCLE_COUNT_WIDTH` bits of the cycle counters. -/
def cycleCountPred (n : ℕ) : ℕ := (n + (2 ^ (33 - c.axiBurstSize) - 1)) % 2 ^ (33 - c.axiBurstSize)

/-- The length field of a burst of `tr` bytes, eight bits. -/
def axlenNext (tr : ℕ) : ℕ := c.cycleCountNext tr % 2 ^ 8

/-- The addresses of `n` bus words from `addr` on. -/
def wordAddrs (addr n : ℕ) : List ℕ :=
  (List.range n).map fun j => (addr + c.axiStrbWidth * j) % 2 ^ c.axiAddrWidth

end AxiConfig

/-- A burst as it is put on the address channel. -/
structure AxiBurst where
  axaddr : ℕ
  axlen : ℕ

/-- A descriptor for the card memory. -/
structure AxiDesc where
  addr : ℕ
  len : ℕ

variable {c : AxiConfig}

def AxiBurst.words (c : AxiConfig) (b : AxiBurst) : List ℕ := c.wordAddrs b.axaddr (b.axlen + 1)

def AxiDesc.words (c : AxiConfig) (d : AxiDesc) : List ℕ :=
  c.wordAddrs (c.addrMask d.addr) (Chunks.count c.axiStrbWidth d.len)

/-- A burst that a slave accepts: aligned, of at most `AXI_MAX_BURST_LEN` words and inside a 4 KiB page. -/
structure AxiBurst.Legal (c : AxiConfig) (b : AxiBurst) : Prop where
  aligned : b.axaddr % c.axiStrbWidth = 0
  len_lt : b.axlen < c.axiMaxBurstLen
  page : b.axaddr % 4096 + c.axiStrbWidth * (b.axlen + 1) ≤ 4096

namespace AxiConfig

variable {addr op n : ℕ}

lemma axiStrbWidth_pos : 0 < c.axiStrbWidth := by positivity

lemma axiStrbWidth_dvd_page : c.axiStrbWidth ∣ 4096 :=
  Nat.pow_dvd_pow 2 (show c.axiBurstSize ≤ 12 by have := c.axiBurstSize_le; omega)

lemma page_dvd_addr (c : AxiConfig) : 4096 ∣ 2 ^ c.axiAddrWidth :=
  Nat.pow_dvd_pow 2 c.axiAddrWidth_ge

/-- An address with the same bits as one at a word is at a word. -/
lemma aligned_of_mod_eq {a b : ℕ} (h : a % 2 ^ c.axiAddrWidth = b % 2 ^ c.axiAddrWidth) (hb : b % c.axiStrbWidth = 0) :
    a % c.axiStrbWidth = 0 := by
  have hdvd : c.axiStrbWidth ∣ 2 ^ c.axiAddrWidth := axiStrbWidth_dvd_page.trans c.page_dvd_addr
  rw [← Nat.mod_mod_of_dvd a hdvd, h, Nat.mod_mod_of_dvd b hdvd, hb]

lemma axiMaxBurstSize_eq : c.axiMaxBurstSize = c.axiMaxBurstLen * c.axiStrbWidth := Nat.shiftLeft_eq _ _

lemma addrMask_eq (addr : ℕ) : c.addrMask addr = addr / c.axiStrbWidth * c.axiStrbWidth := by
  rw [addrMask, Nat.shiftLeft_eq, Nat.shiftRight_eq_div_pow]

lemma addrMask_aligned (addr : ℕ) : c.addrMask addr % c.axiStrbWidth = 0 := by
  rw [addrMask_eq, Nat.mul_mod_left]

/-- A word does not wrap around the end of the address space. -/
lemma word_add_lane {lane : ℕ} (haddr : addr % c.axiStrbWidth = 0) (hlane : lane < c.axiStrbWidth) :
    addr % 2 ^ c.axiAddrWidth + lane = (addr + lane) % 2 ^ c.axiAddrWidth := by
  obtain ⟨m, hm⟩ := (axiStrbWidth_dvd_page (c := c)).trans (page_dvd_addr c)
  obtain ⟨p, rfl⟩ := Nat.dvd_of_mod_eq_zero haddr
  have hpos : 0 < m := by
    rcases Nat.eq_zero_or_pos m with rfl | hpos
    · exact absurd hm (by positivity)
    · exact hpos
  have hlt := Nat.mul_le_mul_left c.axiStrbWidth (Nat.succ_le_of_lt (Nat.mod_lt p hpos))
  have hmod : c.axiStrbWidth * p % 2 ^ c.axiAddrWidth = c.axiStrbWidth * (p % m) := by
    rw [hm, Nat.mul_mod_mul_left]
  have hin : c.axiStrbWidth * (p % m) + lane < 2 ^ c.axiAddrWidth := by
    rw [Nat.mul_succ] at hlt
    rw [hm]
    omega
  rw [← Nat.mod_add_mod, hmod, Nat.mod_eq_of_lt hin]

@[simp] lemma wordAddrs_zero (addr : ℕ) : c.wordAddrs addr 0 = [] := rfl

@[simp] lemma wordAddrs_length (addr n : ℕ) : (c.wordAddrs addr n).length = n := by
  simp [wordAddrs]

/-- The words behind the first `m`. -/
lemma wordAddrs_add (addr m n : ℕ) : c.wordAddrs addr (m + n) =
    c.wordAddrs addr m ++ c.wordAddrs ((addr + c.axiStrbWidth * m) % 2 ^ c.axiAddrWidth) n := by
  unfold wordAddrs
  rw [List.range_add, List.map_append, List.map_map]
  congr 1
  apply List.map_congr_left
  intro j hj
  rw [Function.comp_apply, Nat.mod_add_mod, Nat.mul_add, Nat.add_assoc]

lemma wordAddrs_mod (addr n : ℕ) : c.wordAddrs (addr % 2 ^ c.axiAddrWidth) n = c.wordAddrs addr n := by
  unfold wordAddrs
  apply List.map_congr_left
  intro j hj
  rw [Nat.mod_add_mod]

lemma wordAddrs_succ (addr n : ℕ) : c.wordAddrs addr (n + 1) =
    addr % 2 ^ c.axiAddrWidth :: c.wordAddrs (addr + c.axiStrbWidth) n := by
  rw [Nat.add_comm n 1, wordAddrs_add, Nat.mul_one, wordAddrs_mod]
  rfl

/-- What a burst takes from a descriptor of which `op` bytes are left: all of it, or whole words up to the end
of the page or of the longest burst. -/
structure Cut (c : AxiConfig) (addr op tr : ℕ) : Prop where
  pos : 1 ≤ tr
  le : tr ≤ op
  whole : tr = op ∨ tr % c.axiStrbWidth = 0
  page : addr % 4096 + tr ≤ 4096
  burst : tr ≤ c.axiMaxBurstSize

lemma shiftRight_twelve (n : ℕ) : n >>> 12 ≠ 0 ↔ 4096 ≤ n := by
  rw [Nat.shiftRight_eq_div_pow, Nat.div_ne_zero_iff]
  simp

/-- The bytes up to the end of the page are whole words. -/
lemma page_rest_mod (haddr : addr % c.axiStrbWidth = 0) : (0x1000 - addr % 2 ^ 12) % c.axiStrbWidth = 0 := by
  have hpage := axiStrbWidth_dvd_page (c := c)
  have hin : addr % 4096 % c.axiStrbWidth = 0 := by rw [Nat.mod_mod_of_dvd _ hpage, haddr]
  apply Nat.mod_eq_zero_of_dvd
  exact Nat.dvd_sub hpage (Nat.dvd_of_mod_eq_zero hin)

theorem trWordCountNext_cut (haddr : addr % c.axiStrbWidth = 0) (hop : 1 ≤ op) :
    c.Cut addr op (c.trWordCountNext addr op) := by
  have hin := Nat.mod_lt addr (show 0 < 2 ^ 12 by norm_num)
  have hrest := page_rest_mod haddr
  have hmax := c.axiMaxBurstLen_pos
  have hburst : 1 ≤ c.axiMaxBurstSize := by
    rw [axiMaxBurstSize_eq]
    exact Nat.mul_pos hmax axiStrbWidth_pos
  have hwhole : c.axiMaxBurstSize % c.axiStrbWidth = 0 := by rw [axiMaxBurstSize_eq, Nat.mul_mod_left]
  unfold trWordCountNext
  rw [haddr, Nat.sub_zero]
  simp only [shiftRight_twelve]
  split_ifs with hshort hcross hcross'
  · -- the descriptor leaves the page
    exact ⟨by omega, by omega, .inr hrest, by omega, by omega⟩
  · exact ⟨hop, le_rfl, .inl rfl, by omega, by omega⟩
  · exact ⟨by omega, by omega, .inr hrest, by omega, by omega⟩
  · exact ⟨hburst, by omega, .inr hwhole, by omega, le_rfl⟩

/-! ### Cycle counters -/

lemma cycleCountNext_eq {len : ℕ} (hpos : 1 ≤ len) (hlt : len < 2 ^ 32) :
    c.cycleCountNext len = (len - 1) / c.axiStrbWidth := by
  rw [cycleCountNext, show (len + (2 ^ 32 - 1)) % 2 ^ 32 = len - 1 by omega, Nat.shiftRight_eq_div_pow]

lemma cycleCountNext_add_one {len : ℕ} (hpos : 1 ≤ len) (hlt : len < 2 ^ 32) :
    c.cycleCountNext len + 1 = Chunks.count c.axiStrbWidth len := by
  have hS := axiStrbWidth_pos (c := c)
  rw [cycleCountNext_eq hpos hlt, Chunks.count, show len + c.axiStrbWidth - 1 = len - 1 + c.axiStrbWidth by omega,
    Nat.add_div_right _ hS]

lemma cycleCountNext_lt (len : ℕ) : c.cycleCountNext len < 2 ^ (33 - c.axiBurstSize) := by
  have hle := c.axiBurstSize_le
  have hmod := Nat.mod_lt (len + (2 ^ 32 - 1)) (show 0 < 2 ^ 32 by norm_num)
  rw [cycleCountNext, Nat.shiftRight_eq_div_pow, Nat.div_lt_iff_lt_mul (by positivity), ← pow_add,
    Nat.sub_add_cancel (by omega)]
  omega

lemma cycleCountPred_succ (h : n + 1 < 2 ^ (33 - c.axiBurstSize)) : c.cycleCountPred (n + 1) = n := by
  rw [cycleCountPred, show n + 1 + (2 ^ (33 - c.axiBurstSize) - 1) = n + 2 ^ (33 - c.axiBurstSize) by
    omega, Nat.add_mod_right, Nat.mod_eq_of_lt (by omega)]

section Cut

variable {tr : ℕ}

lemma count_of_mod (h : tr % c.axiStrbWidth = 0) (m : ℕ) :
    Chunks.count c.axiStrbWidth (tr + m) = tr / c.axiStrbWidth + Chunks.count c.axiStrbWidth m := by
  have hdiv := Nat.div_add_mod tr c.axiStrbWidth
  rw [h, Nat.add_zero] at hdiv
  unfold Chunks.count
  conv_lhs => rw [← hdiv, Nat.add_assoc, Nat.add_sub_assoc (by have := axiStrbWidth_pos (c := c); omega)]
  rw [Nat.mul_add_div axiStrbWidth_pos]

lemma exact_words (h : tr % c.axiStrbWidth = 0) : c.axiStrbWidth * Chunks.count c.axiStrbWidth tr = tr := by
  have htr := count_of_mod h 0
  have hzero : Chunks.count c.axiStrbWidth 0 = 0 := Nat.div_eq_of_lt (by have := axiStrbWidth_pos (c := c); omega)
  rw [Nat.add_zero, hzero, Nat.add_zero] at htr
  rw [htr, Nat.mul_div_cancel' (Nat.dvd_of_mod_eq_zero h)]

/-- The cycles of a burst are those of its length field. -/
lemma axlenNext_add_one (hcut : c.Cut addr op tr) (hop : op < 2 ^ 32) :
    c.axlenNext tr + 1 = Chunks.count c.axiStrbWidth tr ∧ Chunks.count c.axiStrbWidth tr ≤ c.axiMaxBurstLen ∧
      c.axlenNext tr = c.cycleCountNext tr := by
  have hS := axiStrbWidth_pos (c := c)
  have hcount := cycleCountNext_add_one (c := c) hcut.pos (hcut.le.trans_lt hop)
  have hmax : Chunks.count c.axiStrbWidth tr ≤ c.axiMaxBurstLen := by
    have hb := hcut.burst
    rw [axiMaxBurstSize_eq] at hb
    by_contra hlt
    have hlt' := (Chunks.lt_count_iff hS).mp (Nat.not_le.mp hlt)
    rw [Nat.mul_comm] at hlt'
    omega
  have h256 := c.axiMaxBurstLen_le
  have hlen : c.axlenNext tr = c.cycleCountNext tr := Nat.mod_eq_of_lt (by omega)
  exact ⟨by rw [hlen, hcount], hmax, hlen⟩

/-- A burst stays inside its page. -/
lemma burst_legal (hcut : c.Cut addr op tr) (haddr : addr % c.axiStrbWidth = 0) (hop : op < 2 ^ 32) :
    AxiBurst.Legal c ⟨addr, c.axlenNext tr⟩ where
  aligned := haddr
  len_lt := by
    have h := axlenNext_add_one hcut hop
    show c.axlenNext tr < c.axiMaxBurstLen
    omega
  page := by
    obtain ⟨hlen, -, -⟩ := axlenNext_add_one hcut hop
    show addr % 4096 + c.axiStrbWidth * (c.axlenNext tr + 1) ≤ 4096
    rw [hlen]
    -- the words reach up to the next multiple of the word size, and the page ends at one
    have hS := axiStrbWidth_pos (c := c)
    have hrest : (4096 - addr % 4096) % c.axiStrbWidth = 0 := page_rest_mod haddr
    have hdiv := Nat.div_add_mod (4096 - addr % 4096) c.axiStrbWidth
    rw [hrest, Nat.add_zero] at hdiv
    have hin := Nat.mod_lt addr (show 0 < 4096 by norm_num)
    have hpage := hcut.page
    have hcount : Chunks.count c.axiStrbWidth tr ≤ (4096 - addr % 4096) / c.axiStrbWidth := by
      by_contra hlt
      have hlt' := (Chunks.lt_count_iff hS).mp (Nat.not_le.mp hlt)
      omega
    have hmul := Nat.mul_le_mul_left c.axiStrbWidth hcount
    omega

/-- A burst takes the first words of what is left. -/
lemma words_cut (hcut : c.Cut addr op tr) (hop : op < 2 ^ 32) :
    c.wordAddrs addr (Chunks.count c.axiStrbWidth op) = AxiBurst.words c ⟨addr, c.axlenNext tr⟩ ++
      c.wordAddrs ((addr + tr) % 2 ^ c.axiAddrWidth) (Chunks.count c.axiStrbWidth (op - tr)) := by
  obtain ⟨hlen, -, -⟩ := axlenNext_add_one hcut hop
  rw [AxiBurst.words, hlen]
  rcases hcut.whole with rfl | hmod
  · have hzero : Chunks.count c.axiStrbWidth 0 = 0 := Nat.div_eq_of_lt (by have := axiStrbWidth_pos (c := c); omega)
    rw [Nat.sub_self, hzero, wordAddrs_zero, List.append_nil]
  · have hle := hcut.le
    have hsplit := count_of_mod hmod (op - tr)
    rw [Nat.add_sub_cancel' hle] at hsplit
    have htr := count_of_mod hmod 0
    have hzero : Chunks.count c.axiStrbWidth 0 = 0 := Nat.div_eq_of_lt (by have := axiStrbWidth_pos (c := c); omega)
    rw [Nat.add_zero, hzero, Nat.add_zero] at htr
    rw [hsplit, wordAddrs_add, htr]
    congr 3
    rw [Nat.mul_div_cancel' (Nat.dvd_of_mod_eq_zero hmod)]

/-- The words of the next burst and what they leave. -/
lemma cut_words (hcut : c.Cut addr op tr) : c.axiStrbWidth * (Chunks.count c.axiStrbWidth tr - 1) < op ∧
    op - tr = op - c.axiStrbWidth * Chunks.count c.axiStrbWidth tr ∧
    (0 < op - tr → tr = c.axiStrbWidth * Chunks.count c.axiStrbWidth tr) := by
  have hS := axiStrbWidth_pos (c := c)
  have hle := hcut.le
  have hcount := Chunks.count_pos hS hcut.pos
  have hbelow := (Chunks.lt_count_iff hS (n := tr)).mp (Nat.sub_lt hcount Nat.one_pos)
  have habove : tr ≤ c.axiStrbWidth * Chunks.count c.axiStrbWidth tr := by
    by_contra hlt
    exact lt_irrefl _ ((Chunks.lt_count_iff hS).mpr (Nat.not_le.mp hlt))
  refine ⟨by omega, ?_, fun hmore => ?_⟩
  · rcases hcut.whole with rfl | hmod
    · omega
    · rw [exact_words hmod]
  · rcases hcut.whole with rfl | hmod
    · omega
    · exact (exact_words hmod).symm

/-- The next burst starts at a word. -/
lemma next_aligned (hcut : c.Cut addr op tr) (haddr : addr % c.axiStrbWidth = 0) (hmore : 0 < op - tr) :
    (addr + tr) % 2 ^ c.axiAddrWidth % c.axiStrbWidth = 0 := by
  have hmod : tr % c.axiStrbWidth = 0 := by
    rcases hcut.whole with rfl | hmod
    · omega
    · exact hmod
  rw [Nat.mod_mod_of_dvd _ (axiStrbWidth_dvd_page.trans (page_dvd_addr c)), Nat.add_mod, haddr, hmod]
  exact Nat.zero_mod _

end Cut

end AxiConfig

end FpgaPcie
