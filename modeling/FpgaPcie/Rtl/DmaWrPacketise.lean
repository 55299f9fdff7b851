import FpgaPcie.Rtl.DmaWrRun

/-!
# Which descriptors are framed into the right TLPs

Payloads of up to 512 bytes are framed right for every length. With 1024-byte payloads the length
field of a full TLP is zero, so a descriptor is framed right when it has less than 1024 bytes.
-/

namespace FpgaPcie

variable {c : WrConfig} {address length : ℕ}

/-- The beats on the TLP port are the first beats of the descriptor, made of the stream beats
taken. -/
structure BeatsOk (c : WrConfig) (address length : ℕ) (x : WrSystem c) : Prop where
  emitted_le : x.emitted.length ≤ x.taken.length
  taken_le : x.taken.length ≤ wrBeats c length
  beat : ∀ b d w, x.taken[b]? = some d → x.emitted[b]? = some w → MwrBeatOk c address length b d w

lemma WrInv.taken_le {x : WrSystem c} (h : WrInv address length x) :
    x.taken.length ≤ wrBeats c length := by
  cases hs : x.engine.reg.reqStateReg with
  | idle => exact (h.req.idle hs).le
  | start => exact (h.req.start hs).1.le

lemma WrInv.emitted_eq {x : WrSystem c} (h : WrInv address length x) {b : ℕ}
    {d : SAxisBeat c.busBytes} {w : WrBeat c} (hd : x.taken[b]? = some d)
    (he : x.emitted[b]? = some w) : w = mwrBeat c address length b d := by
  obtain ⟨q, hq⟩ := h.queue
  have hlt := (List.getElem?_eq_some_iff.mp he).1
  have hb : (x.emitted ++ x.engine.out.pending q)[b]? = some w := by
    rw [List.getElem?_append_left hlt, he]
  rw [hq.beats, List.getElem?_mapIdx, hd] at hb
  exact (Option.some.inj hb).symm

lemma WrInv.beatsOk (hw : c.offsetWidth = 6) (hcode : c.maxPayloadSize ≤ 3)
    (haddr : address % mps c = 0) (hne : ∀ b, tlpBytes c length (b / tlpBeats c) ≠ 1024)
    {x : WrSystem c} (h : WrInv address length x) : BeatsOk c address length x := by
  obtain ⟨q, hq⟩ := h.queue
  have hlen := congrArg List.length hq.beats
  rw [List.length_append, List.length_mapIdx] at hlen
  refine ⟨by omega, h.taken_le, fun b d w hd he => ?_⟩
  rw [h.emitted_eq hd he]
  have hb := (List.getElem?_eq_some_iff.mp hd).1
  have := h.taken_le
  exact mwrBeat_ok hw hcode haddr (by omega) (hne b) d

/-- Payloads of up to 512 bytes, and short descriptors, have no TLP of 1024 bytes. -/
lemma tlpBytes_ne (hsupp : c.maxPayloadSize ≤ 2 ∨ length < 1024) (k : ℕ) :
    tlpBytes c length k ≠ 1024 := by
  have hle : tlpBytes c length k ≤ mps c := Chunks.size_le _ _ _
  have hlen : tlpBytes c length k ≤ length := by
    unfold tlpBytes Chunks.size
    omega
  rcases hsupp with hcode | hlt
  · have hp : mps c ≤ 2 ^ 9 := Nat.pow_le_pow_right (by omega) (by omega)
    omega
  · omega

section Runs

variable {s : WrState c} {i : ℕ → WrInput c}

lemma WrSystem.run_succ (x : WrSystem c) (i : ℕ → WrInput c) (t : ℕ) :
    x.run i (t + 1) = (x.step (i 0)).run (fun u => i (u + 1)) t := by
  induction t with
  | zero => rfl
  | succ t ih => rw [run, ih, run]

lemma wrStarted_emits (hw : c.offsetWidth = 6) (hcode : c.maxPayloadSize ≤ 3) (haddr : address < 2 ^ 64)
    (hpos : 0 < length) (hlen : length < 2 ^ 32) (hquiet : s.Quiet)
    (hstart : WrStartsOnce i address length) (hfair : WrSystem.Fair i) :
    ∃ t₁, ∀ t, t₁ ≤ t → ((WrSystem.fresh s).run i t).taken.length = wrBeats c length ∧
      ((WrSystem.fresh s).run i t).emitted =
        ((WrSystem.fresh s).run i t).taken.mapIdx (mwrBeat c address length) := by
  have hinv := WrInv.run hw hcode haddr hpos hlen hquiet hstart
  simp only [WrSystem.run_succ] at hinv
  have hfair' : WrSystem.Fair fun u => i (u + 1) := by
    constructor
    · intro t
      obtain ⟨u, hu, h⟩ := hfair.offered (t + 1)
      exact ⟨u - 1, by omega, by rwa [Nat.sub_add_cancel (by omega)]⟩
    · intro t
      obtain ⟨u, hu, h⟩ := hfair.accepted (t + 1)
      exact ⟨u - 1, by omega, by rwa [Nat.sub_add_cancel (by omega)]⟩
  obtain ⟨t₁, ht₁⟩ := WrInv.emits hfair' hinv
  refine ⟨t₁ + 1, fun t ht => ?_⟩
  obtain ⟨d, rfl⟩ := Nat.exists_eq_add_of_le' ht
  rw [← Nat.add_assoc, WrSystem.run_succ]
  exact ht₁ (d + t₁) (by omega)

end Runs

/-- A stream that always offers a beat and a TLP port that is always ready. -/
def steadyInput (c : WrConfig) (address length t : ℕ) : WrInput c where
  descWrReqLength := length
  descWrReqAddress := address
  descWrReqStart := t == 0
  txWrReqTlpReady := true
  sAxisTlp := ⟨fun _ => 0, fun _ => true⟩
  sAxisTlpTvalid := true

lemma steadyInput_starts (c : WrConfig) (address length : ℕ) :
    WrStartsOnce (steadyInput c address length) address length :=
  ⟨rfl, rfl, rfl, fun t ht => by simp [steadyInput] at ht⟩

lemma steadyInput_fair (c : WrConfig) (address length : ℕ) :
    WrSystem.Fair (steadyInput c address length) :=
  ⟨fun t => ⟨t, le_rfl, rfl⟩, fun t => ⟨t, le_rfl, rfl⟩⟩

/-- From every quiet engine and for all patterns of the stream and of the TLP port, the beats are
the first beats of the descriptor's TLPs, and all of them in a fair run, exactly for payloads of
up to 512 bytes and for descriptors of less than 1024 bytes. -/
theorem mwr_packets_iff (hw : c.offsetWidth = 6) (hcode : c.maxPayloadSize ≤ 3) (address length : ℕ)
    (haddr : address % mps c = 0) (haddr64 : address < 2 ^ 64) (hpos : 1 ≤ length)
    (hlen : length < 2 ^ 32) :
    (∀ (s : WrState c) (i : ℕ → WrInput c), s.Quiet → WrStartsOnce i address length →
      (∀ t, BeatsOk c address length ((WrSystem.fresh s).run i t)) ∧
      (WrSystem.Fair i → ∃ t₁, ∀ t, t₁ ≤ t → Packets c address length
        ((WrSystem.fresh s).run i t).taken ((WrSystem.fresh s).run i t).emitted)) ↔
    (c.maxPayloadSize ≤ 2 ∨ length < 1024) := by
  constructor
  · intro hall
    by_contra hnot
    obtain ⟨hcode3, hlong⟩ : c.maxPayloadSize = 3 ∧ 1024 ≤ length := by omega
    have hquiet := wrReset_quiet c
    have hstart := steadyInput_starts c address length
    obtain ⟨t₁, ht₁⟩ := wrStarted_emits hw hcode haddr64 hpos hlen hquiet hstart
      (steadyInput_fair c address length)
    obtain ⟨htaken, hemitted⟩ := ht₁ t₁ le_rfl
    have hok := (hall (WrState.reset c) (steadyInput c address length) hquiet hstart).1 t₁
    have hn : 0 < wrBeats c length := Chunks.count_pos (by positivity) hpos
    have hd := List.getElem?_eq_getElem (l := ((WrSystem.fresh (WrState.reset c)).run
      (steadyInput c address length) t₁).taken) (show 0 < _ by omega)
    have hbeat := hok.beat 0 _ _ hd (by rw [hemitted, List.getElem?_mapIdx, hd]; rfl)
    apply (mwrHdr_covers_iff hw hcode haddr hn).mp hbeat.covers
    rw [Nat.zero_div, tlpBytes, Chunks.size, mps, hcode3]
    omega
  · intro hsupp s i hquiet hstart
    have hne : ∀ b, tlpBytes c length (b / tlpBeats c) ≠ 1024 := fun b => tlpBytes_ne hsupp _
    have hinv := WrInv.run hw hcode haddr64 hpos hlen hquiet hstart
    have hok : ∀ t, BeatsOk c address length ((WrSystem.fresh s).run i t) := by
      intro t
      cases t with
      | zero => exact ⟨le_rfl, Nat.zero_le _, fun b d w h => by cases h⟩
      | succ t => exact (hinv t).beatsOk hw hcode haddr hne
    refine ⟨hok, fun hfair => ?_⟩
    obtain ⟨t₁, ht₁⟩ := wrStarted_emits hw hcode haddr64 hpos hlen hquiet hstart hfair
    refine ⟨t₁, fun t ht => ?_⟩
    obtain ⟨htaken, hemitted⟩ := ht₁ t ht
    exact packets_of_beats hw hcode haddr htaken
      (by rw [hemitted, List.length_mapIdx, htaken]) (hok t).beat

/-- A descriptor of 1000 bytes with 512-byte payloads out of reset: two TLPs. -/
theorem mwr_packets_steady :
    let c : WrConfig := ⟨6, 6, 0, 2, by decide, by decide⟩
    ∃ t₁, ∀ t, t₁ ≤ t → Packets c 4096 1000
      ((WrSystem.fresh (WrState.reset c)).run (steadyInput c 4096 1000) t).taken
      ((WrSystem.fresh (WrState.reset c)).run (steadyInput c 4096 1000) t).emitted := by
  intro c
  exact ((mwr_packets_iff (c := c) rfl (by decide) 4096 1000 (by decide) (by decide) (by decide)
    (by decide)).mpr (.inl (by decide)) (WrState.reset c) (steadyInput c 4096 1000) (wrReset_quiet c)
    (steadyInput_starts c 4096 1000)).2 (steadyInput_fair c 4096 1000)

/-- With 1024-byte payloads the header of a full TLP has the length of 1024 DWs. -/
theorem full_payload_length_zero : ¬ ∀ t, BeatsOk ⟨6, 6, 0, 3, by decide, by decide⟩ 0 1024
    ((WrSystem.fresh (WrState.reset _)).run (steadyInput _ 0 1024) t) := by
  intro h
  have hlen : (((WrSystem.fresh (WrState.reset ⟨6, 6, 0, 3, by decide, by decide⟩)).run
      (steadyInput _ 0 1024) 5).emitted[0]?).map (fun w => w.txWrReqTlpHdr.length) = some 0 := by
    decide +kernel
  have htaken : 0 < ((WrSystem.fresh (WrState.reset ⟨6, 6, 0, 3, by decide, by decide⟩)).run
      (steadyInput _ 0 1024) 5).taken.length := by
    decide +kernel
  obtain ⟨w, hw, hz⟩ := Option.map_eq_some_iff.mp hlen
  have hbeat := (h 5).beat 0 _ w (List.getElem?_eq_getElem htaken) hw
  have hfield := hbeat.covers.length
  rw [hz] at hfield
  exact absurd hfield (by decide)

end FpgaPcie
