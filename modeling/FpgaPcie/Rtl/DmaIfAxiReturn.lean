import FpgaPcie.Rtl.DmaIfAxiCopy

/-!
# To the card and back

What a transfer has put on the card a later one takes back, byte for byte, to wherever the host wants it. The low bits
of the card address are masked in both directions, so that they do not have to be zero.
-/

namespace FpgaPcie

/-- Host memory with `count` bytes of `mem`, from `src` on, written from `dst` on. -/
def HostMem.moved (host mem : HostMem) (src dst count : ℕ) : HostMem := fun a =>
  if dst ≤ a ∧ a < dst + count then mem ((src + (a - dst)) % 2 ^ 64) else host a

/-- The copy of a copy. -/
theorem copied_back {c : AxiConfig} {mem : HostMem} {src ramaddr length n : ℕ} (hfits : length ≤ 2 ^ c.axiAddrWidth)
    (hn : n ≤ length) (card : CardMem) (host : HostMem) (dst : ℕ) :
    host.copied c (card.copied c mem src ramaddr length) dst (c.addrMask ramaddr) n = host.moved mem src dst n := by
  funext a
  unfold HostMem.copied HostMem.moved
  split_ifs with ha
  · have ho : a - dst < 2 ^ c.axiAddrWidth := by omega
    have hoffset : c.cardOffset ramaddr ((c.addrMask ramaddr + (a - dst)) % 2 ^ c.axiAddrWidth) = a - dst :=
      AxiConfig.cardOffset_add ho
    rw [CardMem.copied, if_pos ⟨Nat.mod_lt _ (by positivity), by omega⟩, hoffset]
  · rfl

namespace DmaIfAxi

variable {c : DmaIfConfig}

/-- A transfer to the card, and when it is through one of the same bytes to the host. -/
theorem dma_if_axi_returns (mem : HostMem) (s : DmaIfAxi c) (i : ℕ → DmaIfInput c) (T src length ramaddr : ℕ)
    (hquiet : s.Quiet) (hcard : ToCard mem s i T src length ramaddr) (hidle : ∀ t, (i t).descWrReqStart = false)
    (hans : HostAnswers s i T) :
    ∃ t₁, ∀ t, t₁ ≤ t → (run s i t).Quiet ∧
      ∀ (host : HostMem) (i' : ℕ → DmaIfInput c) (T' dst : ℕ), ToHost (run s i t) i' T' dst length ramaddr →
        (∀ u, (i' u).descTxRdReqStart = false) →
        (∀ u, ∃ n, n ≤ length ∧ hostAfter host (sent (run s i t) i' T' u) = host.moved mem src dst n) ∧
        (HostTakes i' → ∃ t₂, ∀ u, t₂ ≤ u →
          hostAfter host (sent (run s i t) i' T' u) = host.moved mem src dst length ∧
          ((i' (T' + u)).descWrReqStart = false → (run (run s i t) i' (T' + u + 1)).Quiet)) := by
  obtain ⟨t₁, -, ht₁⟩ := hcard.finishes hquiet hans
  refine ⟨t₁, fun t ht => ?_⟩
  obtain ⟨hbytes, hrd, hwrite⟩ := ht₁ t ht
  obtain ⟨hwr, hread⟩ := idle_to_host hquiet (T := t) (fun u _ => hidle u) le_rfl
  have hready : (run s i t).Quiet := ⟨hwr, hrd, ⟨hwrite, hread⟩⟩
  refine ⟨hready, fun host i' T' dst hhost hlow => ?_⟩
  obtain ⟨hwr', hread'⟩ := idle_to_host hready hhost.idle le_rfl
  -- nobody writes any more
  have hstill : ∀ u, (run (run s i t) i' u).dmaIfAxiRd.Quiet ∧ (run (run s i t) i' u).axiRam.WriteQuiet ∧
      (run (run s i t) i' u).axiRam.bytes = (run s i t).axiRam.bytes :=
    fun u => idle_to_card hready (fun v _ => hlow v) le_rfl
  obtain ⟨hpart, hall⟩ := copies_to_host (run s i t).axiRam.bytes host hhost.ok hwr' hread' hhost.start fun u a _ => by
    rw [← run_add, (hstill (T' + u)).2.2]
  rw [hbytes] at hpart hall
  refine ⟨fun u => ?_, fun htakes => ?_⟩
  · obtain ⟨n, hn, hsent⟩ := hpart u
    exact ⟨n, hn, hsent.trans (copied_back hcard.ok.fits hn _ host dst)⟩
  · obtain ⟨t₂, ht₂⟩ := hall (htakes.shift T')
    refine ⟨t₂, fun u hu => ⟨(ht₂ u hu).1.trans (copied_back hcard.ok.fits le_rfl _ host dst), fun hlow' => ?_⟩⟩
    obtain ⟨hwr'', hread''⟩ := (ht₂ u hu).2 hlow'
    rw [← run_add] at hwr'' hread''
    obtain ⟨hrd', hwrite', -⟩ := hstill (T' + u + 1)
    exact ⟨hwr'', hrd', ⟨hwrite', hread''⟩⟩

/-- A host that only takes the 1000 bytes back. -/
def takeBack (c : DmaIfConfig) (t : ℕ) : DmaIfInput c where
  descWrReqLength := 1000
  descWrReqAddress := 65536
  descWrReqStart := t == 0
  descWrRamAddr := 4040
  txWrReqTlpReady := true
  descTxRdReqLength := 0
  descTxRdReqAddress := 0
  descTxRdReqStart := false
  descRdRamAddr := 0
  txRdReqTlpReady := true
  rxCplTlpValid := false
  rxCplTlpHdr := 0
  rxCplTlpData := fun _ => 0

theorem dma_if_axi_returned :
    let c : DmaIfConfig := ⟨6, 5, 6, 0, 2, 2, 16, 64, true, by decide, by decide, by decide, by decide, by decide, by decide,
      by decide⟩
    let mem : HostMem := fun a => BitVec.ofNat 8 a
    let s := reset c
    let i := servedInput mem 8192 1000 4040 (fun _ => false) 0 0 0 s
    ∃ t t₂, ∀ u, t₂ ≤ u → hostAfter mem (sent (run s i t) (takeBack c) 0 u) = mem.moved mem 8192 65536 1000 := by
  intro c mem s i
  have hok : AxiRdDma.TransferOk c.rd 8192 1000 := ⟨⟨rfl, rfl⟩, by decide, by decide, by decide, by decide, by decide⟩
  have hok' : AxiWr.TransferOk c.wr 65536 1000 :=
    ⟨rfl, by decide, .inl (by decide), by decide, by decide, by decide, by decide⟩
  obtain ⟨t, ht⟩ := dma_if_axi_returns mem s i 0 8192 1000 4040 (reset_quiet c)
    (served_toCard mem 8192 1000 4040 _ 0 0 0 s hok) (fun _ => rfl)
    (served_answers mem 8192 1000 4040 _ 0 0 0 s hok (reset_quiet c))
  have hhost : ToHost (run s i t) (takeBack c) 0 65536 1000 4040 := by
    refine ⟨hok', fun u hu => absurd hu (Nat.not_lt_zero u), rfl, rfl, rfl, rfl, rfl, fun u hu => ?_⟩
    have hone : (0 + (u + 1) == 0) = true := hu
    rw [beq_iff_eq] at hone
    omega
  obtain ⟨-, hreturn⟩ := (ht t le_rfl).2 mem (takeBack c) 0 65536 hhost fun _ => rfl
  obtain ⟨t₂, ht₂⟩ := hreturn fun u => ⟨u, le_rfl, rfl⟩
  exact ⟨t, t₂, fun u hu => (ht₂ u hu).1⟩

end DmaIfAxi

end FpgaPcie
