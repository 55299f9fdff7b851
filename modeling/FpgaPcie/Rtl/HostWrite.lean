import FpgaPcie.Rtl.DmaRdHost
import FpgaPcie.Rtl.DmaWrPackets

/-!
# What the write requests do to host memory

The root complex collects the beats of a TLP and writes the bytes that its header enables. The TLPs of a
descriptor write the bytes of the stream to the bytes of the descriptor, and no other byte.
-/

namespace FpgaPcie

variable {c : WrConfig}

/-- The payload byte at `offset` of a TLP. -/
def tlpByte (tlp : List (WrBeat c)) (offset : ℕ) : BitVec 8 :=
  match tlp[offset / c.busBytes]? with
  | some w => w.txWrReqTlpData (Fin.ofNat (2 ^ c.offsetWidth) offset)
  | none => 0

/-- Host memory behind a memory write. -/
def HostMem.write (mem : HostMem) (tlp : List (WrBeat c)) : HostMem :=
  match tlp.head? with
  | none => mem
  | some w => fun a =>
    if w.txWrReqTlpHdr.byteAddress ≤ a ∧ w.txWrReqTlpHdr.enables (a - w.txWrReqTlpHdr.byteAddress) = true then
      tlpByte tlp (a - w.txWrReqTlpHdr.byteAddress)
    else mem a

/-- The root complex takes one beat: it keeps the beats of the TLP that has begun and writes with the last one. -/
def hostBeat (r : HostMem × List (WrBeat c)) (w : WrBeat c) : HostMem × List (WrBeat c) :=
  let tlp := (if w.txWrReqTlpSop then [] else r.2) ++ [w]
  if w.txWrReqTlpEop then (r.1.write tlp, []) else (r.1, tlp)

/-- Host memory behind the beats of the TLP port. -/
def hostAfter (mem : HostMem) (beats : List (WrBeat c)) : HostMem := (beats.foldl hostBeat (mem, [])).1

/-- Byte `o` of the stream. -/
def streamByte (stream : List (SAxisBeat c.busBytes)) (o : ℕ) : BitVec 8 :=
  match stream[o / c.busBytes]? with
  | some d => d.tdata (Fin.ofNat (2 ^ c.offsetWidth) o)
  | none => 0

/-- Host memory with `count` bytes of the stream written from `address` on. -/
def HostMem.patched (mem : HostMem) (stream : List (SAxisBeat c.busBytes)) (address count : ℕ) : HostMem :=
  fun a => if address ≤ a ∧ a < address + count then streamByte stream (a - address) else mem a

/-! ### One TLP -/

section Tlp

variable {address length k : ℕ} {stream : List (SAxisBeat c.busBytes)} {tlp : List (WrBeat c)}

/-- Until the last beat the root complex only collects. -/
lemma foldl_collects (mem : HostMem) (pre l : List (WrBeat c))
    (hsop : ∀ w ∈ l, w.txWrReqTlpSop = false) (heop : ∀ w ∈ l, w.txWrReqTlpEop = false) :
    l.foldl hostBeat (mem, pre) = (mem, pre ++ l) := by
  induction l generalizing pre with
  | nil => rw [List.foldl_nil, List.append_nil]
  | cons w l ih =>
    have hw : hostBeat (mem, pre) w = (mem, pre ++ [w]) := by
      simp [hostBeat, hsop w List.mem_cons_self, heop w List.mem_cons_self]
    rw [List.foldl_cons, hw, ih _ (fun v hv => hsop v (List.mem_cons_of_mem _ hv))
      (fun v hv => heop v (List.mem_cons_of_mem _ hv)), List.append_assoc]
    rfl

/-- The beats of one TLP are one memory write. -/
theorem foldl_tlp (mem : HostMem) (pre : List (WrBeat c)) (hne : tlp ≠ [])
    (hsop : ∀ j w, tlp[j]? = some w → w.txWrReqTlpSop = decide (j = 0))
    (heop : ∀ j w, tlp[j]? = some w → w.txWrReqTlpEop = decide (j + 1 = tlp.length)) :
    tlp.foldl hostBeat (mem, pre) = (mem.write tlp, []) := by
  cases tlp with
  | nil => exact absurd rfl hne
  | cons w l =>
    have hfirst : w.txWrReqTlpSop = true := hsop 0 w rfl
    rcases List.eq_nil_or_concat l with rfl | ⟨l, v, rfl⟩
    · have hlast : w.txWrReqTlpEop = true := heop 0 w rfl
      simp [hostBeat, hfirst, hlast]
    · rw [List.concat_eq_append] at hsop heop ⊢
      have hmore : w.txWrReqTlpEop = false := by
        rw [heop 0 w rfl, decide_eq_false_iff_not, List.length_cons, List.length_append, List.length_singleton]
        omega
      have hmid : ∀ u ∈ l, u.txWrReqTlpSop = false ∧ u.txWrReqTlpEop = false := by
        intro u hu
        obtain ⟨j, hj⟩ := List.mem_iff_getElem?.mp hu
        have hlt := (List.getElem?_eq_some_iff.mp hj).1
        have hat : (w :: (l ++ [v]))[j + 1]? = some u := by
          rw [List.getElem?_cons_succ, List.getElem?_append_left hlt, hj]
        rw [hsop _ _ hat, heop _ _ hat, decide_eq_false_iff_not, decide_eq_false_iff_not, List.length_cons,
          List.length_append, List.length_singleton]
        omega
      have hat : (w :: (l ++ [v]))[l.length + 1]? = some v := by
        rw [List.getElem?_cons_succ, List.getElem?_append_right le_rfl, Nat.sub_self]
        rfl
      have hend : v.txWrReqTlpSop = false ∧ v.txWrReqTlpEop = true := by
        rw [hsop _ _ hat, heop _ _ hat, decide_eq_false_iff_not, decide_eq_true_eq, List.length_cons,
          List.length_append, List.length_singleton]
        omega
      have hw : hostBeat (mem, pre) w = (mem, [w]) := by simp [hostBeat, hfirst, hmore]
      rw [List.foldl_cons, hw, List.foldl_append,
        foldl_collects mem [w] l (fun u hu => (hmid u hu).1) (fun u hu => (hmid u hu).2)]
      simp [hostBeat, hend.1, hend.2]

variable (hw : c.offsetWidth = 6)

include hw in
/-- The payload of TLP `k` is the slice of the stream from `mps * k` on. -/
lemma tlpByte_eq (htlp : TlpOk c address length k ((stream.drop (tlpBeats c * k)).take (tlpBeats c)) tlp) {o : ℕ}
    (ho : o < tlpBytes c length k) : tlpByte tlp o = streamByte stream (mps c * k + o) := by
  have hbytes := busBytes_eq hw
  have hmps := mps_eq hw
  have hle : tlpBytes c length k ≤ mps c := Chunks.size_le _ _ _
  have hdata := htlp.data
  have hlen := htlp.beats
  have hj : o / 64 < tlpBeats c := by
    rw [Nat.div_lt_iff_lt_mul (by norm_num)]
    omega
  have hlt : o / 64 < tlp.length := by
    rw [hlen, hbytes, Chunks.lt_count_iff (by norm_num)]
    omega
  have hget := congrArg (fun l => l[o / 64]?) hdata
  simp only [List.getElem?_map, List.getElem?_take, List.getElem?_drop, if_pos hj] at hget
  rw [List.getElem?_eq_getElem hlt, Option.map_some] at hget
  have hfirst : o / c.busBytes = o / 64 := by rw [hbytes]
  have hdiv : (mps c * k + o) / c.busBytes = tlpBeats c * k + o / 64 := by
    rw [hbytes, hmps, Nat.mul_assoc, Nat.mul_add_div (by norm_num)]
  have hlane : (Fin.ofNat (2 ^ c.offsetWidth) (mps c * k + o)) = Fin.ofNat (2 ^ c.offsetWidth) o := by
    apply Fin.ext
    show (mps c * k + o) % 2 ^ c.offsetWidth = o % 2 ^ c.offsetWidth
    rw [hmps, hw, Nat.mul_assoc]
    exact Nat.mul_add_mod 64 _ o
  unfold tlpByte streamByte
  rw [hfirst, hdiv, hlane, List.getElem?_eq_getElem hlt]
  obtain ⟨d, hd, hsome⟩ := Option.map_eq_some_iff.mp hget.symm
  rw [hd]
  exact congrFun hsome.symm _

include hw in
/-- TLP `k` writes the bytes of its slice. -/
theorem write_tlp (hfit : address + length ≤ 2 ^ 64) (mem : HostMem) (hk : k < tlpCount c length)
    (htlp : TlpOk c address length k ((stream.drop (tlpBeats c * k)).take (tlpBeats c)) tlp) :
    (mem.patched stream address (min (mps c * k) length)).write tlp =
      mem.patched stream address (min (mps c * (k + 1)) length) := by
  have hpos : 0 < tlpBytes c length k := Chunks.size_pos mps_pos hk
  have hstart : mps c * k < length := (Chunks.lt_count_iff mps_pos).mp hk
  have hsize : tlpBytes c length k = min (mps c) (length - mps c * k) := rfl
  have hlt : 0 < tlp.length := by
    rw [htlp.beats]
    exact Chunks.count_pos (by positivity) hpos
  obtain ⟨w, l, rfl⟩ := List.exists_cons_of_length_pos hlt
  have hcov := htlp.covers w List.mem_cons_self
  have haddr : w.txWrReqTlpHdr.byteAddress = address + mps c * k := by
    rw [hcov.address, tlpAddress, Nat.mod_eq_of_lt (by omega)]
  have hnext : mps c * (k + 1) = mps c * k + mps c := Nat.mul_succ _ _
  funext a
  show (if w.txWrReqTlpHdr.byteAddress ≤ a ∧ w.txWrReqTlpHdr.enables (a - w.txWrReqTlpHdr.byteAddress) = true then
    tlpByte (w :: l) (a - w.txWrReqTlpHdr.byteAddress) else _) = _
  simp only [haddr, hcov.enables, decide_eq_true_eq]
  unfold HostMem.patched
  by_cases hin : address + mps c * k ≤ a ∧ a - (address + mps c * k) < tlpBytes c length k
  · rw [if_pos hin, if_pos (by omega), tlpByte_eq hw htlp hin.2]
    congr 1
    omega
  · rw [if_neg hin]
    by_cases hold : address ≤ a ∧ a < address + min (mps c * k) length
    · rw [if_pos hold, if_pos (by omega)]
    · rw [if_neg hold, if_neg (by omega)]

end Tlp

/-! ### A descriptor -/

section Descriptor

variable {address length : ℕ} {stream : List (SAxisBeat c.busBytes)} {tlps : List (List (WrBeat c))}

/-- The first TLPs of a descriptor write its first bytes. -/
theorem hostAfter_tlps (hw : c.offsetWidth = 6) (hfit : address + length ≤ 2 ^ 64)
    (hcount : tlps.length = tlpCount c length) (hok : ∀ k tlp, tlps[k]? = some tlp →
      TlpOk c address length k ((stream.drop (tlpBeats c * k)).take (tlpBeats c)) tlp) (mem : HostMem)
    (k : ℕ) (hk : k ≤ tlps.length) : (tlps.take k).flatten.foldl hostBeat (mem, []) =
      (mem.patched stream address (min (mps c * k) length), []) := by
  induction k with
  | zero =>
    rw [Nat.mul_zero, Nat.zero_min, List.take_zero]
    show (mem, _) = _
    congr 1
    funext a
    rw [HostMem.patched, if_neg (by omega)]
  | succ k ih =>
    have hlt : k < tlps.length := hk
    have hget := List.getElem?_eq_getElem hlt
    have htlp := hok k _ hget
    have hne : tlps[k] ≠ [] := by
      intro hnil
      have hbeats := htlp.beats
      rw [hnil] at hbeats
      have := Chunks.count_pos (show 0 < c.busBytes by positivity)
        (Chunks.size_pos (m := mps c) (n := length) mps_pos (show k < tlpCount c length by omega))
      rw [List.length_nil] at hbeats
      unfold tlpBytes at hbeats
      omega
    rw [List.take_add_one, hget, List.flatten_append, List.foldl_append, ih (Nat.le_of_succ_le hk), Option.toList_some,
      List.flatten_singleton, foldl_tlp _ _ hne htlp.sop htlp.eop, write_tlp hw hfit mem (by omega) htlp]

/-- A prefix of a list of lists: whole lists and then the first elements of the next one. -/
lemma prefix_flatten {α : Type*} {l : List α} {ls : List (List α)} (h : l <+: ls.flatten) :
    l = ls.flatten ∨ ∃ k m, m <+: ls[k]?.getD [] ∧ m.length < (ls[k]?.getD []).length ∧ k < ls.length ∧
      l = (ls.take k).flatten ++ m := by
  induction ls generalizing l with
  | nil => exact .inl (List.prefix_nil.mp h)
  | cons x ls ih =>
    rw [List.flatten_cons] at h
    by_cases hlt : l.length < x.length
    · have hpre : l <+: x := List.prefix_of_prefix_length_le h (List.prefix_append _ _) hlt.le
      exact .inr ⟨0, l, hpre, hlt, Nat.succ_pos _, rfl⟩
    · obtain ⟨m, rfl⟩ : x <+: l := List.prefix_of_prefix_length_le (List.prefix_append _ _) h (Nat.not_lt.mp hlt)
      rcases ih ((List.prefix_append_right_inj x).mp h) with rfl | ⟨k, r, hpre, hr, hk, rfl⟩
      · exact .inl rfl
      · refine .inr ⟨k + 1, r, by simpa using hpre, by simpa using hr, Nat.succ_lt_succ hk, ?_⟩
        rw [List.take_succ_cons, List.flatten_cons, List.append_assoc]

/-- The TLPs of a descriptor write its bytes, and no others. -/
theorem Packets.hostAfter_eq {beats : List (WrBeat c)} (hw : c.offsetWidth = 6) (hfit : address + length ≤ 2 ^ 64)
    (h : Packets c address length stream beats) (mem : HostMem) :
    hostAfter mem beats = mem.patched stream address length := by
  obtain ⟨tlps, rfl, hcount, hok⟩ := h
  have hall := hostAfter_tlps hw hfit hcount hok mem tlps.length le_rfl
  have hlast : min (mps c * tlps.length) length = length := by
    rw [hcount, Nat.min_eq_right]
    by_contra hlt
    exact lt_irrefl _ ((Chunks.lt_count_iff mps_pos).mpr (Nat.not_le.mp hlt))
  rw [List.take_length, hlast] at hall
  rw [hostAfter, hall]

/-- At any time the first bytes of the descriptor are written, and no others. -/
theorem Packets.hostAfter_begins {beats sent : List (WrBeat c)} (hw : c.offsetWidth = 6)
    (hfit : address + length ≤ 2 ^ 64) (h : Packets c address length stream beats) (hsent : sent <+: beats)
    (mem : HostMem) : ∃ count, count ≤ length ∧ hostAfter mem sent = mem.patched stream address count := by
  obtain ⟨tlps, rfl, hcount, hok⟩ := id h
  rcases prefix_flatten hsent with rfl | ⟨k, m, hpre, hlt, hk, rfl⟩
  · exact ⟨length, le_rfl, h.hostAfter_eq hw hfit mem⟩
  · have hget := List.getElem?_eq_getElem hk
    have htlp := hok k _ hget
    rw [hget, Option.getD_some] at hpre hlt
    have hat : ∀ j w, m[j]? = some w → tlps[k][j]? = some w ∧ j + 1 ≠ tlps[k].length := by
      intro j w hj
      have hj' := (List.getElem?_eq_some_iff.mp hj).1
      obtain ⟨r, hr⟩ := hpre
      exact ⟨by rw [← hr, List.getElem?_append_left hj', hj], by omega⟩
    refine ⟨min (mps c * k) length, Nat.min_le_right _ _, ?_⟩
    rw [hostAfter, List.foldl_append, hostAfter_tlps hw hfit hcount hok mem k hk.le]
    cases m with
    | nil => rfl
    | cons w m =>
      -- the TLP has begun and is not complete
      have hfirst := hat 0 w rfl
      have hw' : hostBeat (mem.patched stream address (min (mps c * k) length), []) w =
          (mem.patched stream address (min (mps c * k) length), [w]) := by
        simp [hostBeat, htlp.eop 0 w hfirst.1, hfirst.2]
      have hrest : ∀ u ∈ m, u.txWrReqTlpSop = false ∧ u.txWrReqTlpEop = false := by
        intro u hu
        obtain ⟨j, hj⟩ := List.mem_iff_getElem?.mp hu
        obtain ⟨hj', hne⟩ := hat (j + 1) u hj
        rw [htlp.sop _ _ hj', htlp.eop _ _ hj', decide_eq_false_iff_not, decide_eq_false_iff_not]
        exact ⟨Nat.succ_ne_zero j, hne⟩
      rw [List.foldl_cons, hw', foldl_collects _ _ _ (fun u hu => (hrest u hu).1) fun u hu => (hrest u hu).2]

end Descriptor

end FpgaPcie
