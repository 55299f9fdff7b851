import FpgaPcie.Rtl.AxiDmaWrRun
import FpgaPcie.Rtl.DmaRdHost

/-!
# What the stores do to card memory

The stores of a descriptor, one for each word and in order, copy a run of bytes to the card memory. The run begins
at a word, since the low bits of the address of a descriptor are masked, and it may go around the end of the
address space.
-/

namespace FpgaPcie

/-- Card memory, by byte address. -/
abbrev CardMem := ℕ → BitVec 8

/-- The byte at `a` behind a store. -/
def CardStore.byte {n : ℕ} (w : CardStore n) (old : BitVec 8) (o : ℕ) : BitVec 8 :=
  if h : o < n then if w.strb ⟨o, h⟩ then w.data ⟨o, h⟩ else old else old

def CardMem.store {n : ℕ} (card : CardMem) (w : CardStore n) : CardMem := fun a =>
  if w.addr ≤ a then w.byte (card a) (a - w.addr) else card a

/-- Card memory behind the stores. -/
def cardAfter {n : ℕ} (card : CardMem) (l : List (CardStore n)) : CardMem := l.foldl CardMem.store card

lemma store_ineffective {n : ℕ} {w : CardStore n} (h : w.effective = false) (card : CardMem) :
    card.store w = card := by
  have hnone : ∀ j, w.strb j = false := by
    intro j
    by_contra hj
    rw [CardStore.effective, decide_eq_false_iff_not] at h
    exact h ⟨j, Bool.eq_true_of_not_eq_false hj⟩
  funext a
  unfold CardMem.store CardStore.byte
  split_ifs with ha ho hs
  · rw [hnone] at hs
    cases hs
  · rfl
  · rfl
  · rfl

/-- Only the effective stores matter. -/
theorem cardAfter_filter {n : ℕ} (card : CardMem) (l : List (CardStore n)) :
    cardAfter card (l.filter CardStore.effective) = cardAfter card l := by
  induction l generalizing card with
  | nil => rfl
  | cons w l ih =>
    rw [cardAfter, cardAfter, List.foldl_cons]
    cases hw : w.effective with
    | true =>
      rw [List.filter_cons, if_pos hw, List.foldl_cons]
      exact ih _
    | false =>
      rw [List.filter_cons, if_neg (by simp [hw]), store_ineffective hw]
      exact ih card

namespace AxiConfig

variable {c : AxiConfig} {ramaddr a o : ℕ}

/-- How far `a` lies behind the first word of a descriptor for `ramaddr`. -/
def cardOffset (c : AxiConfig) (ramaddr a : ℕ) : ℕ :=
  (a + (2 ^ c.axiAddrWidth - c.addrMask ramaddr % 2 ^ c.axiAddrWidth)) % 2 ^ c.axiAddrWidth

lemma cardOffset_add (ho : o < 2 ^ c.axiAddrWidth) :
    c.cardOffset ramaddr ((c.addrMask ramaddr + o) % 2 ^ c.axiAddrWidth) = o := by
  have hpos : 0 < 2 ^ c.axiAddrWidth := by positivity
  have hlt := Nat.mod_lt (c.addrMask ramaddr) hpos
  have hdiv := Nat.div_add_mod (c.addrMask ramaddr) (2 ^ c.axiAddrWidth)
  have hsum : c.addrMask ramaddr + o + (2 ^ c.axiAddrWidth - c.addrMask ramaddr % 2 ^ c.axiAddrWidth) =
      o + 2 ^ c.axiAddrWidth * (c.addrMask ramaddr / 2 ^ c.axiAddrWidth + 1) := by
    rw [Nat.mul_succ]
    omega
  rw [cardOffset, Nat.mod_add_mod, hsum, Nat.add_mul_mod_self_left, Nat.mod_eq_of_lt ho]

lemma add_cardOffset (ha : a < 2 ^ c.axiAddrWidth) :
    (c.addrMask ramaddr + c.cardOffset ramaddr a) % 2 ^ c.axiAddrWidth = a := by
  have hpos : 0 < 2 ^ c.axiAddrWidth := by positivity
  have hlt := Nat.mod_lt (c.addrMask ramaddr) hpos
  have hdiv := Nat.div_add_mod (c.addrMask ramaddr) (2 ^ c.axiAddrWidth)
  have hsum : c.addrMask ramaddr + (a + (2 ^ c.axiAddrWidth - c.addrMask ramaddr % 2 ^ c.axiAddrWidth)) =
      a + 2 ^ c.axiAddrWidth * (c.addrMask ramaddr / 2 ^ c.axiAddrWidth + 1) := by
    rw [Nat.mul_succ]
    omega
  rw [cardOffset, Nat.add_mod_mod, hsum, Nat.add_mul_mod_self_left, Nat.mod_eq_of_lt ha]

end AxiConfig

/-- Card memory with the first `count` host bytes from `address` on, written from the word of `ramaddr` on. -/
def CardMem.copied (c : AxiConfig) (card : CardMem) (mem : HostMem) (address ramaddr count : ℕ) : CardMem := fun a =>
  if a < 2 ^ c.axiAddrWidth ∧ c.cardOffset ramaddr a < count then mem ((address + c.cardOffset ramaddr a) % 2 ^ 64)
  else card a

/-- Word `b` of the copy of `length` bytes. -/
structure CopyStore (c : AxiConfig) (mem : HostMem) (address ramaddr length b : ℕ) (w : CardStore c.axiStrbWidth) :
    Prop where
  addr : w.addr = (c.addrMask ramaddr + c.axiStrbWidth * b) % 2 ^ c.axiAddrWidth
  strb : ∀ k, w.strb k = decide (c.axiStrbWidth * b + k < length)
  data : ∀ k : Fin c.axiStrbWidth, c.axiStrbWidth * b + k < length → w.data k = mem ((address + (c.axiStrbWidth * b + k)) % 2 ^ 64)

section Copy

variable {c : AxiConfig} {mem : HostMem} {address ramaddr length b : ℕ}

lemma CopyStore.effective {w : CardStore c.axiStrbWidth} (h : CopyStore c mem address ramaddr length b w)
    (hb : c.axiStrbWidth * b < length) : w.effective = true := by
  refine decide_eq_true ⟨⟨0, c.axiStrbWidth_pos⟩, ?_⟩
  rw [h.strb]
  exact decide_eq_true hb

/-- A word of the copy lies at its offset. -/
lemma CopyStore.within {w : CardStore c.axiStrbWidth} (h : CopyStore c mem address ramaddr length b w)
    (hfits : c.axiStrbWidth * b + c.axiStrbWidth ≤ 2 ^ c.axiAddrWidth) {a o : ℕ} (ho : o < c.axiStrbWidth) :
    w.addr ≤ a ∧ a - w.addr = o ↔ a < 2 ^ c.axiAddrWidth ∧ c.cardOffset ramaddr a = c.axiStrbWidth * b + o := by
  have hal : (c.addrMask ramaddr + c.axiStrbWidth * b) % c.axiStrbWidth = 0 := by
    rw [Nat.add_mul_mod_self_left]
    exact c.addrMask_aligned ramaddr
  have hword := AxiConfig.word_add_lane (c := c) hal ho
  rw [← h.addr, Nat.add_assoc] at hword
  constructor
  · rintro ⟨hle, hsub⟩
    have ha : a = (c.addrMask ramaddr + (c.axiStrbWidth * b + o)) % 2 ^ c.axiAddrWidth := by omega
    rw [ha]
    exact ⟨Nat.mod_lt _ (by positivity), AxiConfig.cardOffset_add (by omega)⟩
  · rintro ⟨ha, hoff⟩
    have hback : (c.addrMask ramaddr + c.cardOffset ramaddr a) % 2 ^ c.axiAddrWidth = a := AxiConfig.add_cardOffset ha
    rw [hoff, ← hword] at hback
    omega

/-- One more word is copied. -/
theorem copied_store {w : CardStore c.axiStrbWidth} (h : CopyStore c mem address ramaddr length b w)
    (hb : c.axiStrbWidth * b < length) (hfits : length ≤ 2 ^ c.axiAddrWidth) (card : CardMem) :
    (card.copied c mem address ramaddr (c.axiStrbWidth * b)).store w =
      card.copied c mem address ramaddr (min (c.axiStrbWidth * (b + 1)) length) := by
  have hword : c.axiStrbWidth * b + c.axiStrbWidth ≤ 2 ^ c.axiAddrWidth := by
    obtain ⟨m, hm⟩ := AxiConfig.axiStrbWidth_dvd_page.trans c.page_dvd_addr
    rw [hm] at hfits ⊢
    rw [← Nat.mul_succ]
    exact Nat.mul_le_mul_left _ (Nat.lt_of_mul_lt_mul_left (hb.trans_le hfits))
  rw [Nat.mul_succ]
  funext a
  by_cases hin : a < 2 ^ c.axiAddrWidth ∧ c.axiStrbWidth * b ≤ c.cardOffset ramaddr a ∧
      c.cardOffset ramaddr a < c.axiStrbWidth * b + c.axiStrbWidth
  · obtain ⟨ha, hle, hlt⟩ := hin
    -- `a` is a lane of the word
    obtain ⟨o, ho⟩ := Nat.exists_eq_add_of_le hle
    have hlane : o < c.axiStrbWidth := by omega
    obtain ⟨hat, hsub⟩ := (h.within hword hlane).mpr ⟨ha, ho⟩
    have hdata := h.data ⟨o, hlane⟩
    simp only at hdata
    by_cases hmore : c.axiStrbWidth * b + o < length
    · simp [CardMem.store, CardStore.byte, hat, hsub, hlane, h.strb, CardMem.copied, ha, ho, hmore, hdata hmore]
    · simp [CardMem.store, CardStore.byte, hat, hsub, hlane, h.strb, CardMem.copied, ha, ho, hmore]
  · have hsame : (card.copied c mem address ramaddr (c.axiStrbWidth * b)).store w a =
        card.copied c mem address ramaddr (c.axiStrbWidth * b) a := by
      unfold CardMem.store CardStore.byte
      split_ifs with hat hlane hstrb
      · obtain ⟨ha, ho⟩ := (h.within hword hlane).mp ⟨hat, rfl⟩
        exact absurd ⟨ha, by omega, by omega⟩ hin
      · rfl
      · rfl
      · rfl
    rw [hsame]
    unfold CardMem.copied
    split_ifs with h₁ h₂ h₂
    · rfl
    · exact absurd ⟨h₁.1, lt_min (by omega) (by omega)⟩ h₂
    · exact absurd ⟨h₂.1, Nat.not_lt.mp fun hlt => h₁ ⟨h₂.1, hlt⟩, (lt_min_iff.mp h₂.2).1⟩ hin
    · rfl

/-- The words of the copy, in order. -/
theorem cardAfter_copied (hfits : length ≤ 2 ^ c.axiAddrWidth) (card : CardMem) {l : List (CardStore c.axiStrbWidth)}
    (h : ∀ b w, l[b]? = some w → CopyStore c mem address ramaddr length b w)
    (hlen : l.length ≤ Chunks.count c.axiStrbWidth length) :
    cardAfter card l = card.copied c mem address ramaddr (min (c.axiStrbWidth * l.length) length) := by
  induction l using List.reverseRecOn with
  | nil =>
    funext a
    simp [cardAfter, CardMem.copied]
  | append_singleton l w ih =>
    rw [List.length_append, List.length_singleton] at hlen ⊢
    have hb := (Chunks.lt_count_iff c.axiStrbWidth_pos).mp (Nat.lt_of_succ_le hlen)
    have hpre := ih (fun b v hv => h b v (by
      rw [List.getElem?_append_left (List.getElem?_eq_some_iff.mp hv).1, hv])) (by omega)
    rw [min_eq_left hb.le] at hpre
    have hw : CopyStore c mem address ramaddr length l.length w := h _ _ (by simp)
    rw [cardAfter, List.foldl_append, List.foldl_cons, List.foldl_nil]
    show (cardAfter card l).store w = _
    rw [hpre]
    exact copied_store hw hb hfits card

end Copy

end FpgaPcie
