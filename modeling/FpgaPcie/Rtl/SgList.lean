import FpgaPcie.Lib.BoundedQueue
import FpgaPcie.Rtl.DmaRdHost

/-!
# Scatter-gather lists

A list is an array of 16-byte entries in host memory: an address of eight bytes, a length of
four bytes and an index. It is fetched as a descriptor of `16 * n` bytes; the bytes of the last
beat behind the list are cleared, and the list FIFO cuts each beat into entries, the low
lane first.
-/

namespace FpgaPcie

/-- The little-endian number in the bytes `f 0 … f (k - 1)`. -/
def leNat (f : ℕ → BitVec 8) : ℕ → ℕ
  | 0 => 0
  | k + 1 => leNat f k + (f k).toNat * 256 ^ k

lemma leNat_lt (f : ℕ → BitVec 8) (k : ℕ) : leNat f k < 256 ^ k := by
  induction k with
  | zero => exact Nat.one_pos
  | succ k ih =>
    have hb : (f k).toNat < 256 := (f k).isLt
    have hm : (f k).toNat * 256 ^ k ≤ 255 * 256 ^ k := Nat.mul_le_mul_right _ (by omega)
    rw [leNat, pow_succ]
    omega

lemma leNat_zero (k : ℕ) : leNat (fun _ => 0) k = 0 := by
  induction k with
  | zero => rfl
  | succ k ih =>
    rw [leNat, ih]
    simp

/-- An entry as the read side of the list FIFO shows it. -/
abbrev SgEntry := Bytes 16

namespace SgEntry

/-- The padding entry, `{SGLIST_RD_WIDTH{1'b0}}`. -/
def zero : SgEntry := fun _ => 0

/-- Bits `[63:0]`. -/
def address (e : SgEntry) : ℕ := leNat (fun j => e (Fin.ofNat 16 j)) 8

/-- Bits `[95:64]`. -/
def length (e : SgEntry) : ℕ := leNat (fun j => e (Fin.ofNat 16 (8 + j))) 4

/-- Bits `[127:96]`, `dma_wr_sglist_fifo_nums`. -/
def nums (e : SgEntry) : ℕ := leNat (fun j => e (Fin.ofNat 16 (12 + j))) 4

lemma address_lt (e : SgEntry) : e.address < 2 ^ 64 := leNat_lt _ 8

lemma length_lt (e : SgEntry) : e.length < 2 ^ 32 := leNat_lt _ 4

@[simp] lemma length_zero : zero.length = 0 := leNat_zero 4

/-- The beats of the entry's segment on a 512-bit bus. -/
def beats (e : SgEntry) : ℕ := (e.length + 63) / 64

end SgEntry

/-- The entries of a beat, as the list FIFO cuts it. -/
def Bytes.entries {m : ℕ} (b : Bytes m) : List SgEntry :=
  List.ofFn fun k : Fin (m / 16) => fun j : Fin 16 => b ⟨16 * k + j, by omega⟩

/-- `SGLIST_FIFO_DEPTH = 9`: the list FIFO of the read side has 512 beats. -/
def sglistFifoDepth : ℕ := 9

/-- The entries that a list FIFO of `2 ^ depth` beats of `width` bytes holds. -/
@[irreducible] def sglistFifoEntries (width depth : ℕ) : ℕ := width / 16 * 2 ^ depth

/-- A list FIFO, read by entries. -/
abbrev SglistFifo (width depth : ℕ) := BoundedQueue SgEntry (sglistFifoEntries width depth)

/-- At most one more beat fits. -/
def SglistFifo.alfull {width depth : ℕ} (q : SglistFifo width depth) : Bool :=
  decide (sglistFifoEntries width depth < q.words.length + 2 * (width / 16))

section List

variable (mem : HostMem) (address n : ℕ)

/-- Entry `q` of a list of `n` entries at `address`, and padding behind the list. -/
def sgEntry (q : ℕ) : SgEntry :=
  if q < n then fun j => mem ((address + 16 * q + j) % 2 ^ 64) else SgEntry.zero

/-- The beats of a list on a 512-bit bus. -/
def sgBeats : ℕ := (16 * n + 63) / 64

/-- The list padded to whole beats. -/
def sgList : List SgEntry := (List.range (4 * sgBeats n)).map (sgEntry mem address n)

/-- A host memory with a list of five entries at address 4096: segments of 100, 600, 64 and one byte, and an
entry of zeros behind the first. -/
def sampleList : HostMem := fun a =>
  ([(4097, 0x20), (4104, 100), (4129, 0x30), (4136, 0x58), (4137, 2), (4145, 0x40), (4152, 64), (4161, 0x60),
    (4168, 1)].lookup a).getD 0

/-- The segments to be transferred. -/
def segments (l : List SgEntry) : List SgEntry := l.filter (· ≠ SgEntry.zero)

end List

lemma segments_append (l k : List SgEntry) : segments (l ++ k) = segments l ++ segments k :=
  List.filter_append _ _

lemma segments_zero : segments [SgEntry.zero] = [] := by
  simp [segments]

lemma segments_singleton {e : SgEntry} (h : e ≠ SgEntry.zero) : segments [e] = [e] := by
  simp [segments, h]

@[simp] lemma sgList_length (mem : HostMem) (address n : ℕ) :
    (sgList mem address n).length = 4 * sgBeats n := by
  simp [sgList]

lemma Bytes.entries_eq {m : ℕ} {b : Bytes m} {f : ℕ → SgEntry}
    (h : ∀ k (j : Fin 16) (hkj : 16 * k + j < m), b ⟨16 * k + j, hkj⟩ = f k j) :
    b.entries = (List.range (m / 16)).map f := by
  apply List.ext_getElem
  · simp [Bytes.entries]
  · intro k hk _
    have hk' : k < m / 16 := by simpa [Bytes.entries] using hk
    have he : b.entries[k] = fun j : Fin 16 => b ⟨16 * k + j, by omega⟩ :=
      List.getElem_ofFn _
    rw [he, List.getElem_map, List.getElem_range]
    funext j
    exact h k j (by omega)

@[simp] lemma Bytes.entries_length {m : ℕ} (b : Bytes m) : b.entries.length = m / 16 := by
  simp [Bytes.entries]

/-- A beat whose bytes without `tkeep` are cleared. -/
def AxisBeat.kept {m : ℕ} (b : AxisBeat m) : Bytes m := fun j => if b.tkeep j then b.tdata j else 0

variable {c : RdConfig} {mem : HostMem} {address n b : ℕ} {beat : AxisBeat c.busBytes}

/-- Beat `b` of the list holds the entries from `4 * b` on. -/
lemma BeatOk.entries (hw : c.offsetWidth = 6) (h : BeatOk mem address (16 * n) b beat) :
    beat.kept.entries = (List.range 4).map fun k => sgEntry mem address n (4 * b + k) := by
  have he := Bytes.entries_eq (b := beat.kept) (f := fun k => sgEntry mem address n (4 * b + k))
    (fun k j hkj => ?_)
  · simp [he, RdConfig.busBytes, hw]
  · simp only [AxisBeat.kept, h.tkeep, sgEntry]
    by_cases hk : 4 * b + k < n
    · have hlt : 64 * b + (16 * k + j.val) < 16 * n := by omega
      have hd := h.tdata ⟨16 * k + j, hkj⟩ hlt
      simp only [hlt, hk, decide_true, if_true]
      rw [hd]
      congr 2
      simp only []
      omega
    · have hge : ¬64 * b + (16 * k + j.val) < 16 * n := by omega
      simp only [hge, hk, decide_false, if_false, Bool.false_eq_true]
      rfl

/-! ### The lists of the driver -/

/-- A list as the driver builds it: at most a buffer of 8 KB, each entry a page-aligned segment. -/
structure ListOk (mem : HostMem) (address n : ℕ) : Prop where
  pos : 1 ≤ n
  le : n ≤ 512
  aligned : address % 4096 = 0
  address_lt : address < 2 ^ 64
  segment : ∀ e ∈ sgList mem address n, e ≠ SgEntry.zero → e.address % 4096 = 0 ∧ 1 ≤ e.length

lemma ListOk.sgBeats_le (h : ListOk mem address n) : sgBeats n ≤ 128 := by
  have := h.le
  unfold sgBeats
  omega

lemma ListOk.rest_le {done rest : List SgEntry} (h : ListOk mem address n)
    (he : done ++ rest = sgList mem address n) : rest.length ≤ 512 := by
  have hle := h.sgBeats_le
  have hlen := congrArg List.length he
  rw [List.length_append, sgList_length] at hlen
  omega

end FpgaPcie
