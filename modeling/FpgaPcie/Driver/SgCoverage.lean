import FpgaPcie.Driver.Sgdma
import FpgaPcie.Lib.Chunks
import FpgaPcie.Rtl.SgList

/-!
# The scatter list covers the buffer, and the FPGA reads it back

The pages that `get_sg_list` asks for are those that the user buffer lies in, the scatterlist entries cut the
buffer into pages, and the FPGA's lanes of the 16-byte records show the mapped segments.
-/

namespace FpgaPcie

/-! ### The pages of a buffer -/

/-- The pages that the bytes of a buffer lie in. -/
def pagesOf (address length : ℕ) : Finset ℕ :=
  (Finset.Ico address (address + length)).image fun b => b / pageSize

lemma pagesOf_eq {address length : ℕ} (hlen : 0 < length) : pagesOf address length =
    Finset.Icc (address / pageSize) ((address + length - 1) / pageSize) := by
  ext p
  simp only [pagesOf, Finset.mem_image, Finset.mem_Ico, Finset.mem_Icc, pageSize, pageShift]
  constructor
  · rintro ⟨b, hb, rfl⟩
    omega
  · rintro ⟨hle, hge⟩
    exact ⟨max address (p * 2 ^ 12), by omega, by omega⟩

section Pages

variable {userdata length : BitVec 64}

lemma toNat_pos (hlen : length ≠ 0) : 0 < length.toNat := by
  rw [Nat.pos_iff_ne_zero]
  exact fun h => hlen (BitVec.eq_of_toNat_eq h)

/-- The last byte of a buffer that does not wrap. -/
lemma last_toNat (hlen : length ≠ 0) (hwrap : userdata.toNat + length.toNat ≤ 2 ^ 64) :
    (userdata + length - 1).toNat = userdata.toNat + length.toNat - 1 := by
  have hpos := toNat_pos hlen
  have hone : (1 : BitVec 64).toNat = 1 := rfl
  rw [BitVec.toNat_sub, BitVec.toNat_add, hone]
  omega

lemma numPagesReq_toNat (hlen : length ≠ 0) (hwrap : userdata.toNat + length.toNat ≤ 2 ^ 64) :
    (numPagesReq userdata length).toNat =
      (userdata.toNat + length.toNat - 1) / pageSize - userdata.toNat / pageSize + 1 := by
  have hpos := toNat_pos hlen
  have hpage : ∀ a : BitVec 64, (a >>> pageShift).toNat = a.toNat / pageSize := fun a => by
    rw [BitVec.toNat_ushiftRight, Nat.shiftRight_eq_div_pow, pageSize]
  have hle : userdata >>> pageShift ≤ (userdata + length - 1) >>> pageShift := by
    rw [BitVec.le_def, hpage, hpage, last_toNat hlen hwrap]
    exact Nat.div_le_div_right (by omega)
  have hlt : (userdata.toNat + length.toNat - 1) / pageSize < 2 ^ 52 := by
    rw [Nat.div_lt_iff_lt_mul (by decide), pageSize, pageShift, ← pow_add]
    omega
  rw [numPagesReq, BitVec.toNat_add, BitVec.toNat_sub_of_le hle, hpage, hpage, last_toNat hlen hwrap]
  have hsub := Nat.sub_le ((userdata.toNat + length.toNat - 1) / pageSize) (userdata.toNat / pageSize)
  apply Nat.mod_eq_of_lt
  change _ + 1 < _
  omega

/-- `num_pages_req` is the number of pages that the buffer lies in. -/
theorem numPagesReq_eq_card (hlen : length ≠ 0) (hwrap : userdata.toNat + length.toNat ≤ 2 ^ 64) :
    (numPagesReq userdata length).toNat = (pagesOf userdata.toNat length.toNat).card := by
  have hpos := toNat_pos hlen
  rw [numPagesReq_toNat hlen hwrap, pagesOf_eq hpos, Nat.card_Icc]
  have hle : userdata.toNat / pageSize ≤ (userdata.toNat + length.toNat - 1) / pageSize :=
    Nat.div_le_div_right (by omega)
  omega

/-- The pages of an aligned buffer. -/
lemma numPagesReq_eq_count (halign : userdata.toNat % pageSize = 0) (hlen : length ≠ 0)
    (hwrap : userdata.toNat + length.toNat ≤ 2 ^ 64) :
    (numPagesReq userdata length).toNat = Chunks.count pageSize length.toNat := by
  rw [numPagesReq_toNat hlen hwrap, Chunks.count]
  have hpos := toNat_pos hlen
  simp only [pageSize, pageShift] at halign ⊢
  omega

end Pages

/-! ### The scatterlist loop -/

/-- The loop enters one chunk of the buffer in each entry, and breaks with the last one. -/
theorem sgSetPages_eq {n i lenRem : ℕ} (hpos : 0 < lenRem) (hn : Chunks.count pageSize lenRem ≤ n) :
    sgSetPages i 0 lenRem n = (List.range (Chunks.count pageSize lenRem)).map fun j =>
      .sgSetPage (i + j) (Chunks.size pageSize lenRem j) 0 := by
  have hpage : 0 < pageSize := by decide
  induction n generalizing i lenRem with
  | zero => exact absurd (Chunks.count_pos hpage hpos) (by omega)
  | succ n ih =>
    rw [sgSetPages]
    by_cases hlast : lenRem ≤ pageSize
    · rw [if_neg (by omega), Nat.sub_self, if_pos rfl, Chunks.count_one hpos hlast]
      simp [Chunks.size, hlast]
    · have hcount := Chunks.count_succ hpage (Nat.lt_of_not_le hlast)
      rw [if_pos (Nat.lt_of_not_le hlast), if_neg (by omega), ih (by omega) (by omega), hcount,
        List.range_succ_eq_map, List.map_cons, List.map_map]
      have hfirst : Chunks.size pageSize lenRem 0 = pageSize := by
        rw [Chunks.size]
        omega
      rw [hfirst, Nat.add_zero]
      congr 1
      apply List.map_congr_left
      intro j _
      rw [Function.comp_apply, Chunks.size_succ, Nat.succ_eq_add_one, Nat.add_right_comm, Nat.add_assoc]

/-- The entries cut `length` bytes into `n` pieces of at most a page, in order and without a gap: entry `i`
starts `i` pages behind the start of the buffer. -/
structure CutsIntoPages (entries : List SgEffect) (n length : ℕ) (lens : List ℕ) : Prop where
  entries : entries = lens.mapIdx fun i len => .sgSetPage i len 0
  entries_length : lens.length = n
  len : ∀ len ∈ lens, 1 ≤ len ∧ len ≤ pageSize
  start : ∀ i, i < n → (lens.take i).sum = pageSize * i
  sum : lens.sum = length

theorem sgSetPages_cuts {length : ℕ} (hpos : 0 < length) :
    CutsIntoPages (sgSetPages 0 0 length (Chunks.count pageSize length))
      (Chunks.count pageSize length) length
      ((List.range (Chunks.count pageSize length)).map (Chunks.size pageSize length)) where
  entries := by
    rw [sgSetPages_eq hpos le_rfl]
    apply List.ext_getElem
    · simp
    · simp
  entries_length := by simp
  len := by
    intro len hlen
    obtain ⟨j, hj, rfl⟩ := List.mem_map.mp hlen
    exact ⟨Chunks.size_pos (by decide) (List.mem_range.mp hj), Chunks.size_le _ _ _⟩
  start := by
    intro i hi
    have hlt := (Chunks.lt_count_iff (by decide)).mp hi
    rw [← List.map_take, List.take_range, Nat.min_eq_left hi.le, Chunks.sum_size]
    omega
  sum := by
    rw [Chunks.sum_size, Nat.min_eq_right]
    by_contra hlt
    exact lt_irrefl _ ((Chunks.lt_count_iff (by decide)).mpr (Nat.not_le.mp hlt))

/-! ### The records -/

/-- What an effect does to the bytes of the list buffer; a word is stored low byte first. -/
def SgEffect.write (bytes : ℕ → BitVec 8) : SgEffect → ℕ → BitVec 8
  | .store index value => fun a =>
    if a / 4 = index then value.extractLsb' (8 * (a % 4)) 8 else bytes a
  | _ => bytes

/-- The bytes of the list buffer behind the effects. -/
def listBytes (bytes : ℕ → BitVec 8) (effects : List SgEffect) : ℕ → BitVec 8 :=
  effects.foldl SgEffect.write bytes

/-- The 16 bytes that the FPGA reads as entry `q` of a list. -/
def bufferEntry (bytes : ℕ → BitVec 8) (q : ℕ) : SgEntry := fun j => bytes (16 * q + j)

/-- The three fields of an entry. -/
def SgEntry.fields (e : SgEntry) : ℕ × ℕ × ℕ := (e.address, e.length, e.nums)

lemma leNat_congr {f g : ℕ → BitVec 8} {k : ℕ} (h : ∀ j, j < k → f j = g j) : leNat f k = leNat g k := by
  induction k with
  | zero => rfl
  | succ k ih => rw [leNat, leNat, ih fun j hj => h j (by omega), h k (Nat.lt_succ_self k)]

/-- The bytes of a word, low byte first, are the word. -/
lemma leNat_extract {w : ℕ} (v : BitVec w) (k : ℕ) :
    leNat (fun j => v.extractLsb' (8 * j) 8) k = v.toNat % 256 ^ k := by
  induction k with
  | zero => simp [leNat, Nat.mod_one]
  | succ k ih =>
    have hbase : (256 : ℕ) = 2 ^ 8 := rfl
    rw [leNat, ih, Nat.mod_pow_succ, BitVec.extractLsb'_toNat, Nat.shiftRight_eq_div_pow, pow_mul,
      Nat.mul_comm, hbase]

/-- Byte `o` of the record of segment `i`. -/
def recordByte (sg : DmaSegment) (i o : ℕ) : BitVec 8 :=
  if o < 8 then sg.address.extractLsb' (8 * o) 8
  else if o < 12 then sg.len.extractLsb' (8 * (o - 8)) 8
  else (BitVec.ofNat 32 i).extractLsb' (8 * (o - 12)) 8

/-- A field of a field. -/
lemma extract_field {w start len t n : ℕ} (v : BitVec w) (h : t + n ≤ len) :
    (v.extractLsb' start len).extractLsb' t n = v.extractLsb' (start + t) n := by
  ext j hj
  simp only [BitVec.getElem_extractLsb', BitVec.getLsbD_extractLsb']
  rw [decide_eq_true (by omega), Bool.true_and, Nat.add_assoc]

lemma listBytes_descriptor (bytes : ℕ → BitVec 8) (sg : DmaSegment) (i a : ℕ) :
    listBytes bytes (sgDescriptor sg i) a =
      if a / 16 = i then recordByte sg i (a % 16) else bytes a := by
  simp only [listBytes, sgDescriptor, List.foldl_cons, List.foldl_nil, SgEffect.write, lower32Bits,
    upper32Bits]
  by_cases hi : a / 16 = i
  · rw [if_pos hi]
    have hword : a % 16 / 4 = 0 ∨ a % 16 / 4 = 1 ∨ a % 16 / 4 = 2 ∨ a % 16 / 4 = 3 := by omega
    have hbyte : a % 16 = 4 * (a % 16 / 4) + a % 4 := by omega
    rcases hword with h | h | h | h
    · rw [if_neg (by omega), if_neg (by omega), if_neg (by omega), if_pos (by omega), recordByte,
        if_pos (by omega), extract_field _ (by omega), hbyte, h]
      congr 1
      omega
    · rw [if_neg (by omega), if_neg (by omega), if_pos (by omega), recordByte,
        if_pos (by omega), extract_field _ (by omega), hbyte, h]
      congr 1
      omega
    · rw [if_neg (by omega), if_pos (by omega), recordByte, if_neg (by omega), if_pos (by omega), hbyte, h]
      congr 1
      omega
    · rw [if_pos (by omega), recordByte, if_neg (by omega), if_neg (by omega), hbyte, h]
      congr 1
      omega
  · rw [if_neg hi, if_neg (by omega), if_neg (by omega), if_neg (by omega), if_neg (by omega)]

theorem listBytes_descriptors (bytes : ℕ → BitVec 8) (mapped : List DmaSegment) (a : ℕ) :
    listBytes bytes (sgDescriptors mapped) a =
      match mapped[a / 16]? with
      | some sg => recordByte sg (a / 16) (a % 16)
      | none => bytes a := by
  induction mapped using List.reverseRecOn with
  | nil => rfl
  | append_singleton mapped sg ih =>
    have hsplit : sgDescriptors (mapped ++ [sg]) = sgDescriptors mapped ++ sgDescriptor sg mapped.length := by
      simp [sgDescriptors, List.zipIdx_append]
    have hstep : listBytes bytes (sgDescriptors (mapped ++ [sg])) =
        listBytes (listBytes bytes (sgDescriptors mapped)) (sgDescriptor sg mapped.length) := by
      rw [hsplit]
      exact List.foldl_append
    rw [hstep, listBytes_descriptor, ih]
    rcases Nat.lt_trichotomy (a / 16) mapped.length with hlt | heq | hgt
    · rw [if_neg (Nat.ne_of_lt hlt), List.getElem?_append_left hlt]
    · rw [if_pos heq, heq, List.getElem?_concat_length]
    · rw [if_neg (Nat.ne_of_gt hgt), List.getElem?_eq_none hgt.le,
        List.getElem?_eq_none (by rw [List.length_append, List.length_singleton]; omega)]

/-- The lanes of a record show its segment. -/
lemma bufferEntry_fields {bytes : ℕ → BitVec 8} {sg : DmaSegment} {q : ℕ} (hq : q < 2 ^ 32)
    (h : ∀ o, o < 16 → bytes (16 * q + o) = recordByte sg q o) :
    (bufferEntry bytes q).fields = (sg.address.toNat, sg.len.toNat, q) := by
  have hbyte : ∀ o, o < 16 → bufferEntry bytes q (Fin.ofNat 16 o) = recordByte sg q o := by
    intro o ho
    rw [bufferEntry, Fin.val_ofNat, Nat.mod_eq_of_lt ho, h o ho]
  have haddress : (bufferEntry bytes q).address = sg.address.toNat := by
    rw [SgEntry.address, leNat_congr fun j hj => (hbyte j (by omega)).trans (if_pos hj), leNat_extract]
    exact Nat.mod_eq_of_lt sg.address.isLt
  have hlength : (bufferEntry bytes q).length = sg.len.toNat := by
    rw [SgEntry.length, leNat_congr (g := fun j => sg.len.extractLsb' (8 * j) 8), leNat_extract]
    · exact Nat.mod_eq_of_lt sg.len.isLt
    · intro j hj
      rw [hbyte (8 + j) (by omega), recordByte, if_neg (by omega), if_pos (by omega), Nat.add_sub_cancel_left]
  have hnums : (bufferEntry bytes q).nums = q := by
    rw [SgEntry.nums, leNat_congr (g := fun j => (BitVec.ofNat 32 q).extractLsb' (8 * j) 8), leNat_extract,
      BitVec.toNat_ofNat, Nat.mod_eq_of_lt hq]
    · exact Nat.mod_eq_of_lt hq
    · intro j hj
      rw [hbyte (12 + j) (by omega), recordByte, if_neg (by omega), if_neg (by omega), Nat.add_sub_cancel_left]
  rw [SgEntry.fields, haddress, hlength, hnums]

/-- The FPGA reads back the mapped segments, in order. -/
theorem sgDescriptors_decode (bytes : ℕ → BitVec 8) {mapped : List DmaSegment}
    (hfit : 16 * mapped.length ≤ sgdmaListBufferSize) :
    (List.range mapped.length).map
        (fun q => (bufferEntry (listBytes bytes (sgDescriptors mapped)) q).fields) =
      mapped.mapIdx fun q sg => (sg.address.toNat, sg.len.toNat, q) := by
  rw [sgdmaListBufferSize] at hfit
  apply List.ext_getElem
  · simp
  · intro q hq _
    rw [List.length_map, List.length_range] at hq
    rw [List.getElem_map, List.getElem_range, List.getElem_mapIdx]
    apply bufferEntry_fields (by omega)
    intro o ho
    have hdiv : (16 * q + o) / 16 = q := by omega
    have hmod : (16 * q + o) % 16 = o := by omega
    rw [listBytes_descriptors, hdiv, hmod, List.getElem?_eq_getElem hq]

/-! ### The call -/

section Call

variable {k : SgKernel} {sgBuf : Option CoherentBuffer} {userdata length : BitVec 64}
  {dir : DmaDataDirection} {bytes : ℕ → BitVec 8}

lemma listBytes_kept {effects : List SgEffect} (h : ∀ e ∈ effects, e.write bytes = bytes) :
    listBytes bytes effects = bytes := by
  induction effects with
  | nil => rfl
  | cons e es ih =>
    rw [listBytes, List.foldl_cons, h e List.mem_cons_self]
    exact ih fun e' he' => h e' (List.mem_cons_of_mem e he')

/-- A successful call leaves the descriptors in the list buffer. -/
theorem SgAccepted.listBytes_eq (h : SgAccepted k sgBuf userdata length) :
    listBytes bytes (getSgList k sgBuf userdata length dir).1 =
      listBytes bytes (sgDescriptors k.mapped) := by
  have hbefore : ∀ n, listBytes bytes ([.kzallocSgMap, .kvmallocPages n, .getUserPages n,
      .kvmallocSgl n, .sgInitTable n] ++ sgSetPages 0 0 length.toNat n ++ [.dmaMapSg n dir]) = bytes := by
    intro n
    apply listBytes_kept
    intro e he
    simp only [List.mem_append, List.mem_cons, List.not_mem_nil, or_false] at he
    rcases he with ((rfl | rfl | rfl | rfl | rfl) | he) | rfl
    all_goals try rfl
    obtain ⟨i, len, offset, rfl⟩ := mem_sgSetPages _ _ _ _ he
    rfl
  rw [h.eq]
  dsimp only
  rw [List.append_cons, listBytes, List.foldl_append]
  exact congrArg (fun b => listBytes b (sgDescriptors k.mapped)) (hbefore _)

/-- Host memory that shows the list buffer at `address`. -/
def ShowsList (mem : HostMem) (address n : ℕ) (bytes : ℕ → BitVec 8) : Prop :=
  ∀ o, o < 16 * n → mem ((address + o) % 2 ^ 64) = bytes o

lemma ShowsList.entry {mem : HostMem} {address n q : ℕ} (h : ShowsList mem address n bytes) (hq : q < n) :
    sgEntry mem address n q = bufferEntry bytes q := by
  funext j
  rw [sgEntry, if_pos hq, bufferEntry, Nat.add_assoc, h (16 * q + j) (by omega)]

/-- The pages, the scatterlist entries and the descriptors of an aligned buffer: as many pages as the buffer lies
in, one entry for each that cut it in order, and a list that the FPGA reads as the mapped segments. -/
theorem scatter_list_covers (halign : userdata.toNat % pageSize = 0) (hlen : length ≠ 0)
    (hwrap : userdata.toNat + length.toNat ≤ 2 ^ 64) :
    (numPagesReq userdata length).toNat = (pagesOf userdata.toNat length.toNat).card ∧
      (∃ lens, CutsIntoPages (sgSetPages 0 (userdata.toNat % pageSize) length.toNat
        (numPagesReq userdata length).toNat) (numPagesReq userdata length).toNat length.toNat lens) ∧
      ∀ k sgBuf dir bytes mem address, SgAccepted k sgBuf userdata length →
        16 * k.mapped.length ≤ sgdmaListBufferSize →
        ShowsList mem address k.mapped.length
          (listBytes bytes (getSgList k sgBuf userdata length dir).1) →
        (List.range k.mapped.length).map (fun q => (sgEntry mem address k.mapped.length q).fields) =
          k.mapped.mapIdx fun q sg => (sg.address.toNat, sg.len.toNat, q) := by
  refine ⟨numPagesReq_eq_card hlen hwrap, ?_, ?_⟩
  · rw [halign, numPagesReq_eq_count halign hlen hwrap]
    exact ⟨_, sgSetPages_cuts (toNat_pos hlen)⟩
  · intro k sgBuf dir bytes mem address hacc hfit hmem
    rw [hacc.listBytes_eq] at hmem
    rw [← sgDescriptors_decode bytes hfit]
    apply List.map_congr_left
    intro q hq
    rw [hmem.entry (List.mem_range.mp hq)]

/-- A page and two bytes: two pages, and the segments come back. -/
theorem scatter_list_covers_two_pages :
    (numPagesReq 0x7000 4098).toNat = (pagesOf 0x7000 4098).card ∧
      (List.range 2).map (fun q => (sgEntry (listBytes (fun _ => 0)
        (sgDescriptors (unmergedKernel 2).mapped)) 0 2 q).fields) =
        (unmergedKernel 2).mapped.mapIdx fun q sg => (sg.address.toNat, sg.len.toNat, q) := by
  have hacc : SgAccepted (unmergedKernel 2) (some ⟨0, 8192⟩) 0x7000 4098 :=
    unmergedKernel_accepted (by decide) (by decide) (by decide) (by decide) (by decide) (by decide)
  have hmem : ShowsList (listBytes (fun _ => 0) (sgDescriptors (unmergedKernel 2).mapped)) 0 2
      (listBytes (fun _ => 0) (getSgList (unmergedKernel 2) (some ⟨0, 8192⟩) 0x7000 4098 .toDevice).1) := by
    intro o ho
    rw [hacc.listBytes_eq, Nat.zero_add, Nat.mod_eq_of_lt (by omega)]
  have h := @scatter_list_covers 0x7000 4098 (by decide) (by decide) (by decide)
  exact ⟨h.1, h.2.2 (unmergedKernel 2) _ _ _ _ 0 hacc (by decide) hmem⟩

end Call

end FpgaPcie
