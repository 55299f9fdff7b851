import Mathlib.Tactic

/-!
# The scatter list of a user buffer

`get_sg_list` pins the pages of a user buffer, maps them for DMA and writes one descriptor of
16 bytes for each mapped segment into the coherent list buffer of the channel. What the kernel
returns to a call is a parameter, and the call is the list of its effects together with what
it returns.
-/

namespace FpgaPcie

/-- `PAGE_SHIFT`. -/
def pageShift : ℕ := 12

/-- `PAGE_SIZE`. -/
def pageSize : ℕ := 2 ^ pageShift

/-- `SG_NUM_MAX`. -/
def sgNumMax : ℕ := 512 * 4096

/-- `SGDMA_LIST_BUFFER_SIZE`. -/
def sgdmaListBufferSize : ℕ := 8 * 1024

inductive DmaDataDirection
  | toDevice
  | fromDevice
  deriving DecidableEq

/-- A mapped segment, `sg_dma_address` and `sg_dma_len`. -/
structure DmaSegment where
  address : BitVec 64
  len : BitVec 32

/-- `lower_32_bits`. -/
def lower32Bits (a : BitVec 64) : BitVec 32 := a.extractLsb' 0 32

/-- `upper_32_bits`. -/
def upper32Bits (a : BitVec 64) : BitVec 32 := a.extractLsb' 32 32

/-- What the kernel returns to one call of `get_sg_list`: which allocations succeed, how many
pages `get_user_pages` pins (or its error) and the segments that `dma_map_sg` leaves in the
table, none when it fails. -/
structure SgKernel where
  sgMap : Bool
  pages : Bool
  numPages : ℤ
  sgl : Bool
  mapped : List DmaSegment

/-- What a call does to the kernel and to the list buffer. -/
inductive SgEffect
  | kzallocSgMap
  | kfreeSgMap
  | kvmallocPages (n : ℕ)
  | kvfreePages
  | getUserPages (n : ℤ)
  | putPage (i : ℕ)
  | kvmallocSgl (n : ℕ)
  | kvfreeSgl
  | sgInitTable (n : ℕ)
  | sgSetPage (i len offset : ℕ)
  | dmaMapSg (nents : ℕ) (dir : DmaDataDirection)
  /-- `sglist_buf_ptr[index] = value` -/
  | store (index : ℕ) (value : BitVec 32)

/-- `struct fdev_sgdma`; the two arrays are in `SgEffect`. -/
structure FdevSgdma where
  userBuf : BitVec 64
  len : BitVec 64
  npages : ℕ
  nents : ℕ
  mappedNents : ℕ
  dir : DmaDataDirection
  mapped : Bool

/-- A buffer of `dma_alloc_coherent`. -/
structure CoherentBuffer where
  hwAddr : BitVec 64
  size : ℕ
  deriving DecidableEq

/-- The scatter-gather fields of `struct fpga_pdev`. -/
structure SglistDma where
  sglistBlockSize : ℕ
  c2hSgl : Option CoherentBuffer
  h2cSgl : Option CoherentBuffer

/-- `allocate_sglistdma`, with what the two calls of `dma_alloc_coherent` return. -/
def allocateSglistdma (fpdev : SglistDma) (c2h h2c : Option (BitVec 64)) : SglistDma × ℤ :=
  let fpdev := { fpdev with sglistBlockSize := sgdmaListBufferSize }
  let alloc := Option.map fun hwAddr => CoherentBuffer.mk hwAddr fpdev.sglistBlockSize
  let fpdev := { fpdev with c2hSgl := alloc c2h }
  match c2h with
  | none => (fpdev, -12)
  | some _ =>
    let fpdev := { fpdev with h2cSgl := alloc h2c }
    match h2c with
    | none => (fpdev, -12)
    | some _ => (fpdev, 0)

/-- Both buffers have the size that the device records. -/
theorem allocateSglistdma_size {fpdev d : SglistDma} {c2h h2c : Option (BitVec 64)}
    {buf : CoherentBuffer} (h : allocateSglistdma fpdev c2h h2c = (d, 0))
    (hbuf : d.c2hSgl = some buf ∨ d.h2cSgl = some buf) :
    d.sglistBlockSize = sgdmaListBufferSize ∧ buf.size = sgdmaListBufferSize := by
  cases c2h with
  | none => simp [allocateSglistdma] at h
  | some a =>
    cases h2c with
    | none => simp [allocateSglistdma] at h
    | some b =>
      simp only [allocateSglistdma, Option.map_some, Prod.mk.injEq, and_true] at h
      subst h
      rcases hbuf with hbuf | hbuf
      · cases hbuf
        exact ⟨rfl, rfl⟩
      · cases hbuf
        exact ⟨rfl, rfl⟩

section GetSgList

/-- `((userdata + length - 1) >> PAGE_SHIFT) - (userdata >> PAGE_SHIFT) + 1` in 64 bits. -/
def numPagesReq (userdata length : BitVec 64) : BitVec 64 :=
  ((userdata + length - 1) >>> pageShift) - (userdata >>> pageShift) + 1

/-- `for (i = 0; i < n; i++) put_page(pages[i])`. -/
def putPages (n : ℕ) : List SgEffect := (List.range n).map .putPage

/-- The scatterlist loop from entry `i` on, with `n` entries left in the table. -/
def sgSetPages (i offset lenRem : ℕ) : ℕ → List SgEffect
  | 0 => []
  | n + 1 =>
    let len := if lenRem > pageSize then pageSize else lenRem
    .sgSetPage i len offset ::
      if lenRem - len = 0 then [] else sgSetPages (i + 1) 0 (lenRem - len) n

/-- The body of the descriptor loop for segment `i`. -/
def sgDescriptor (sg : DmaSegment) (i : ℕ) : List SgEffect :=
  [.store (i * 4 + 0) (lower32Bits sg.address), .store (i * 4 + 1) (upper32Bits sg.address),
    .store (i * 4 + 2) sg.len, .store (i * 4 + 3) (BitVec.ofNat 32 i)]

/-- The descriptor loop, `for_each_sg(sgl, sg, num_sg, i)`. -/
def sgDescriptors (mapped : List DmaSegment) : List SgEffect :=
  mapped.zipIdx.flatMap fun p => sgDescriptor p.1 p.2

/-- `get_sg_list`. The pinned pages are counted in a `long`; where they are compared with
`num_pages_req` that is at most `SG_NUM_MAX`, so comparing integers is what the code does. -/
def getSgList (k : SgKernel) (sgBuf : Option CoherentBuffer) (userdata length : BitVec 64)
    (dir : DmaDataDirection) : List SgEffect × Option FdevSgdma :=
  if sgBuf = none ∨ length = 0 then ([], none)
  else if k.sgMap = false then ([], none)
  else
    let n := (numPagesReq userdata length).toNat
    if n > sgNumMax then ([.kzallocSgMap, .kfreeSgMap], none)
    else if k.pages = false then ([.kzallocSgMap, .kfreeSgMap], none)
    else
      let pinned := [.kzallocSgMap, .kvmallocPages n, .getUserPages k.numPages]
      if k.numPages ≠ n then
        (pinned ++ putPages k.numPages.toNat ++ [.kvfreePages, .kfreeSgMap], none)
      else if k.sgl = false then (pinned ++ putPages n ++ [.kvfreePages, .kfreeSgMap], none)
      else
        let table := pinned ++ [.kvmallocSgl n]
        let fpOffset := userdata.toNat % pageSize
        if fpOffset ≠ 0 then
          (table ++ putPages n ++ [.kvfreePages, .kvfreeSgl, .kfreeSgMap], none)
        else
          let mapped := table ++ .sgInitTable n :: sgSetPages 0 fpOffset length.toNat n ++
            [.dmaMapSg n dir]
          if k.mapped.length = 0 then
            (mapped ++ putPages n ++ [.kvfreeSgl, .kvfreePages, .kfreeSgMap], none)
          else
            (mapped ++ sgDescriptors k.mapped,
              some ⟨userdata, length, n, n, k.mapped.length, dir, true⟩)

/-- What a call that is not refused has passed. -/
structure SgAccepted (k : SgKernel) (sgBuf : Option CoherentBuffer) (userdata length : BitVec 64) :
    Prop where
  buffer : sgBuf ≠ none
  length_ne : length ≠ 0
  sgMap : k.sgMap = true
  pages_le : (numPagesReq userdata length).toNat ≤ sgNumMax
  pages : k.pages = true
  pinned : k.numPages = (numPagesReq userdata length).toNat
  sgl : k.sgl = true
  aligned : userdata.toNat % pageSize = 0
  mapped : k.mapped.length ≠ 0

variable {k : SgKernel} {sgBuf : Option CoherentBuffer} {userdata length : BitVec 64}
  {dir : DmaDataDirection} {m : FdevSgdma}

theorem SgAccepted.eq (h : SgAccepted k sgBuf userdata length) :
    getSgList k sgBuf userdata length dir =
      let n := (numPagesReq userdata length).toNat
      ([.kzallocSgMap, .kvmallocPages n, .getUserPages n, .kvmallocSgl n, .sgInitTable n] ++
          sgSetPages 0 0 length.toNat n ++ .dmaMapSg n dir :: sgDescriptors k.mapped,
        some ⟨userdata, length, n, n, k.mapped.length, dir, true⟩) := by
  have hentry : ¬(sgBuf = none ∨ length = 0) := not_or.mpr ⟨h.buffer, h.length_ne⟩
  rw [getSgList, if_neg hentry]
  simp [h.sgMap, Nat.not_lt.mpr h.pages_le, h.pages, h.pinned, h.sgl, h.aligned, h.mapped]

theorem sgAccepted_of_some (h : (getSgList k sgBuf userdata length dir).2 = some m) :
    SgAccepted k sgBuf userdata length := by
  dsimp only [getSgList] at h
  split_ifs at h with h1 h2 h3 h4 h5 h6 h7 h8
  rw [not_or] at h1
  exact ⟨h1.1, h1.2, by simpa using h2, by simpa using h3, by simpa using h4, by simpa using h5,
    by simpa using h6, by simpa using h7, h8⟩

/-- The bytes that a store writes are in a buffer of `size` bytes. -/
def SgEffect.InBuffer (size : ℕ) : SgEffect → Prop
  | .store index _ => index * 4 + 4 ≤ size
  | _ => True

lemma mem_sgSetPages {e : SgEffect} (n i offset lenRem : ℕ) :
    e ∈ sgSetPages i offset lenRem n → ∃ i len offset, e = .sgSetPage i len offset := by
  induction n generalizing i offset lenRem with
  | zero => simp [sgSetPages]
  | succ n ih =>
    intro he
    rw [sgSetPages, List.mem_cons] at he
    rcases he with he | he
    · exact ⟨_, _, _, he⟩
    · split_ifs at he with hz
      · simp at he
      · exact ih _ _ _ he
      · simp at he
      · exact ih _ _ _ he

lemma mem_sgDescriptors {mapped : List DmaSegment} {e : SgEffect} :
    e ∈ sgDescriptors mapped ↔ ∃ i sg, mapped[i]? = some sg ∧ e ∈ sgDescriptor sg i := by
  simp only [sgDescriptors, List.mem_flatMap, Prod.exists, List.mk_mem_zipIdx_iff_getElem?]
  exact exists_comm

/-- A list of `n` segments takes the first `16 * n` bytes of the buffer. -/
theorem sgDescriptors_inBuffer_iff (mapped : List DmaSegment) (size : ℕ) :
    (∀ e ∈ sgDescriptors mapped, e.InBuffer size) ↔ 16 * mapped.length ≤ size := by
  constructor
  · intro h
    rcases hm : mapped.getLast? with _ | sg
    · simp [List.getLast?_eq_none_iff.mp hm]
    · -- the last word of the last descriptor
      rw [List.getLast?_eq_getElem?] at hm
      have hlt := (List.getElem?_eq_some_iff.mp hm).1
      have hlast : SgEffect.store ((mapped.length - 1) * 4 + 3)
          (BitVec.ofNat 32 (mapped.length - 1)) ∈ sgDescriptors mapped :=
        mem_sgDescriptors.mpr ⟨_, sg, hm, by simp [sgDescriptor]⟩
      have hin := h _ hlast
      simp only [SgEffect.InBuffer] at hin
      omega
  · intro h e he
    obtain ⟨i, sg, hi, he⟩ := mem_sgDescriptors.mp he
    have hlt := (List.getElem?_eq_some_iff.mp hi).1
    simp only [sgDescriptor, List.mem_cons, List.not_mem_nil, or_false] at he
    rcases he with rfl | rfl | rfl | rfl <;> simp only [SgEffect.InBuffer] <;> omega

theorem SgAccepted.inBuffer_iff (h : SgAccepted k sgBuf userdata length) (size : ℕ) :
    (∀ e ∈ (getSgList k sgBuf userdata length dir).1, e.InBuffer size) ↔
      16 * k.mapped.length ≤ size := by
  rw [← sgDescriptors_inBuffer_iff, h.eq]
  constructor
  · intro hall e he
    exact hall e (by simp [he])
  · intro hall e he
    simp only [List.mem_append, List.mem_cons, List.not_mem_nil, or_false] at he
    rcases he with ((rfl | rfl | rfl | rfl | rfl) | he) | rfl | he
    all_goals try trivial
    · obtain ⟨i, len, offset, rfl⟩ := mem_sgSetPages _ _ _ _ he
      trivial
    · exact hall e he

end GetSgList

section Buffer

variable {fpdev d : SglistDma} {c2h h2c : Option (BitVec 64)} {buf : CoherentBuffer}
  {k : SgKernel} {sgBuf : Option CoherentBuffer} {userdata length : BitVec 64}
  {dir : DmaDataDirection} {m : FdevSgdma}

/-- The descriptors of an accepted request stay in the list buffer exactly when `dma_map_sg`
leaves at most 512 segments. -/
theorem descriptors_in_buffer_iff (halloc : allocateSglistdma fpdev c2h h2c = (d, 0))
    (hbuf : d.c2hSgl = some buf ∨ d.h2cSgl = some buf)
    (haccept : (getSgList k (some buf) userdata length dir).2 = some m) :
    (∀ e ∈ (getSgList k (some buf) userdata length dir).1, e.InBuffer d.sglistBlockSize) ↔
      k.mapped.length ≤ 512 := by
  rw [(sgAccepted_of_some haccept).inBuffer_iff, (allocateSglistdma_size halloc hbuf).1,
    sgdmaListBufferSize]
  omega

/-- The kernel does everything it is asked for, and merges nothing: each of the `n` pages stays a
segment of its own. -/
def unmergedKernel (n : ℕ) : SgKernel where
  sgMap := true
  pages := true
  numPages := n
  sgl := true
  mapped := (List.range n).map fun i => ⟨BitVec.ofNat 64 (2 * pageSize * i), BitVec.ofNat 32 pageSize⟩

@[simp] lemma unmergedKernel_mapped (n : ℕ) : (unmergedKernel n).mapped.length = n := by
  simp [unmergedKernel]

/-- A page-aligned buffer of at most `SG_NUM_MAX` pages is accepted by such a kernel. -/
lemma unmergedKernel_accepted {n : ℕ} (hbuf : sgBuf ≠ none)
    (hn : (numPagesReq userdata length).toNat = n) (h0 : n ≠ 0) (hle : n ≤ sgNumMax)
    (hlen : length ≠ 0) (halign : userdata.toNat % pageSize = 0) :
    SgAccepted (unmergedKernel n) sgBuf userdata length where
  buffer := hbuf
  length_ne := hlen
  sgMap := rfl
  pages_le := hn ▸ hle
  pages := rfl
  pinned := by simp [unmergedKernel, hn]
  sgl := rfl
  aligned := halign
  mapped := by simpa using h0

/-- Whatever `dma_map_sg` merges, the descriptors of an aligned buffer stay in the list buffer
exactly when the buffer has at most 512 pages. -/
theorem descriptors_in_buffer_of_pages_iff (halloc : allocateSglistdma fpdev c2h h2c = (d, 0))
    (hbuf : d.c2hSgl = some buf ∨ d.h2cSgl = some buf)
    (h0 : (numPagesReq userdata length).toNat ≠ 0)
    (hle : (numPagesReq userdata length).toNat ≤ sgNumMax) (hlen : length ≠ 0)
    (halign : userdata.toNat % pageSize = 0) :
    (∀ k, SgAccepted k (some buf) userdata length →
        k.mapped.length ≤ (numPagesReq userdata length).toNat →
        ∀ e ∈ (getSgList k (some buf) userdata length dir).1, e.InBuffer d.sglistBlockSize) ↔
      (numPagesReq userdata length).toNat ≤ 512 := by
  have hsize := (allocateSglistdma_size halloc hbuf).1
  rw [sgdmaListBufferSize] at hsize
  constructor
  · intro h
    have hacc := @unmergedKernel_accepted (some buf) _ _ _ (by simp) rfl h0 hle hlen halign
    have hin := (hacc.inBuffer_iff d.sglistBlockSize).mp (h _ hacc (by simp))
    rw [unmergedKernel_mapped] at hin
    omega
  · intro h k hacc hk
    rw [hacc.inBuffer_iff]
    omega

/-- 512 pages that the IOMMU does not merge just fit. -/
theorem descriptors_in_buffer_full :
    ((getSgList (unmergedKernel 512) (some ⟨0x1000, 8192⟩) 0x7f0000000000 (512 * 4096) .fromDevice).2.map
        FdevSgdma.mappedNents) = some 512 ∧
      ∀ e ∈ (getSgList (unmergedKernel 512) (some ⟨0x1000, 8192⟩) 0x7f0000000000 (512 * 4096) .fromDevice).1,
        e.InBuffer 8192 := by
  have hn : (numPagesReq 0x7f0000000000 (512 * 4096)).toNat = 512 := by decide
  have hacc := @unmergedKernel_accepted (some ⟨0x1000, 8192⟩) 0x7f0000000000 (512 * 4096) 512 (by simp) hn
    (by decide) (by decide) (by decide) (by decide)
  have haccept : (getSgList (unmergedKernel 512) (some ⟨0x1000, 8192⟩) 0x7f0000000000 (512 * 4096)
      .fromDevice).2 = some ⟨0x7f0000000000, 512 * 4096, 512, 512, 512, .fromDevice, true⟩ := by
    rw [hacc.eq, hn, unmergedKernel_mapped]
  refine ⟨by rw [haccept]; rfl, ?_⟩
  exact (@descriptors_in_buffer_iff ⟨0, none, none⟩ ⟨8192, some ⟨0x1000, 8192⟩, some ⟨0x4000, 8192⟩⟩
    (some 0x1000) (some 0x4000) ⟨0x1000, 8192⟩ (unmergedKernel 512) 0x7f0000000000 (512 * 4096) .fromDevice
    _ rfl (Or.inl rfl) haccept).mpr (by rw [unmergedKernel_mapped])

/-- 513 pages that the IOMMU does not merge: the last descriptor is written behind the buffer. -/
theorem descriptors_overflow :
    ∃ m, (getSgList (unmergedKernel 513) (some ⟨0x1000, sgdmaListBufferSize⟩) 0x7f0000000000
          (513 * 4096) .fromDevice).2 = some m ∧
      (unmergedKernel 513).mapped.length ≤ (numPagesReq 0x7f0000000000 (513 * 4096)).toNat ∧
      ¬∀ e ∈ (getSgList (unmergedKernel 513) (some ⟨0x1000, sgdmaListBufferSize⟩) 0x7f0000000000
          (513 * 4096) .fromDevice).1, e.InBuffer sgdmaListBufferSize := by
  have hn : (numPagesReq 0x7f0000000000 (513 * 4096)).toNat = 513 := by decide
  have hacc := @unmergedKernel_accepted (some ⟨0x1000, sgdmaListBufferSize⟩) 0x7f0000000000
    (513 * 4096) 513 (by simp) hn (by decide) (by decide) (by decide) (by decide)
  refine ⟨_, by rw [hacc.eq], by rw [unmergedKernel_mapped, hn], ?_⟩
  rw [hacc.inBuffer_iff, unmergedKernel_mapped]
  decide

end Buffer

end FpgaPcie
