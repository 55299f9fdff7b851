import FpgaPcie.Driver.Sgdma
import FpgaPcie.Lib.Ledger

/-!
# What `get_sg_list` holds and `free_sg_buf` gives back

The descriptor, the two arrays, the pinned pages and the DMA mapping are resources of the kernel.
A failing `get_sg_list` leaves none of them behind, and `free_sg_buf` gives back each one that a
successful call has left, once.
-/

namespace FpgaPcie

/-- A mapping is the one of `dma_map_sg` with this entry count and this direction: only the same two
values unmap it. -/
inductive SgResource
  | sgMap
  | pages
  | sgl
  | page (i : ℕ)
  | mapping (nents : ℕ) (dir : DmaDataDirection)
  deriving DecidableEq

/-- What `free_sg_buf` does to the kernel. -/
inductive SgFreeEffect
  | dmaUnmapSg (nents : ℕ) (dir : DmaDataDirection)
  | setPageDirty (i : ℕ)
  | putPage (i : ℕ)
  | kvfreePages
  | kvfreeSgl
  | kfreeSgMap

/-- `free_sg_buf`; `pages` and `sgl` tell whether the array pointers of the descriptor are not NULL, and
`reserved` is `PageReserved`. -/
def freeSgBuf (reserved : ℕ → Bool) (pages sgl : Bool) : Option FdevSgdma → List SgFreeEffect
  | none => []
  | some m =>
    (if sgl && m.mapped then [.dmaUnmapSg m.nents m.dir] else []) ++
      (if pages && decide (0 < m.npages) then
        match m.dir with
        | .fromDevice => (List.range m.npages).flatMap fun i =>
            (if reserved i then [] else [.setPageDirty i]) ++ [.putPage i]
        | .toDevice => (List.range m.npages).flatMap fun i => [.putPage i]
      else []) ++
      (if pages then [.kvfreePages] else []) ++ (if sgl then [.kvfreeSgl] else []) ++ [.kfreeSgMap]

open Ledger

/-- The resources that an effect of `get_sg_list` takes, reads and gives back. -/
def SgEffect.events (k : SgKernel) : SgEffect → List (Event SgResource)
  | .kzallocSgMap => [.acquire .sgMap]
  | .kfreeSgMap => [.release .sgMap]
  | .kvmallocPages _ => [.acquire .pages]
  | .kvfreePages => [.release .pages]
  | .getUserPages n => .use .pages :: (List.range n.toNat).flatMap fun i => [.acquire (.page i)]
  | .putPage i => [.use .pages, .release (.page i)]
  | .kvmallocSgl _ => [.acquire .sgl]
  | .kvfreeSgl => [.release .sgl]
  | .sgInitTable _ => [.use .sgl]
  | .sgSetPage i _ _ => [.use .pages, .use (.page i), .use .sgl]
  | .dmaMapSg nents dir => .use .sgl ::
      if k.mapped.length = 0 then [] else [.acquire (.mapping nents dir)]
  | .store _ _ => [.use .sgl]

def SgFreeEffect.events : SgFreeEffect → List (Event SgResource)
  | .dmaUnmapSg nents dir => [.use .sgMap, .use .sgl, .release (.mapping nents dir)]
  | .setPageDirty i => [.use .sgMap, .use .pages, .use (.page i)]
  | .putPage i => [.use .sgMap, .use .pages, .release (.page i)]
  | .kvfreePages => [.use .sgMap, .release .pages]
  | .kvfreeSgl => [.use .sgMap, .release .sgl]
  | .kfreeSgMap => [.release .sgMap]

variable (k : SgKernel)

def sgEvents (es : List SgEffect) : List (Event SgResource) := es.flatMap (SgEffect.events k)

variable {k} {r : SgResource} {s : Status}

@[simp] lemma sgEvents_nil : sgEvents k [] = [] := rfl

@[simp] lemma sgEvents_cons (e : SgEffect) (es : List SgEffect) :
    sgEvents k (e :: es) = e.events k ++ sgEvents k es := rfl

@[simp] lemma sgEvents_append (es fs : List SgEffect) :
    sgEvents k (es ++ fs) = sgEvents k es ++ sgEvents k fs := List.flatMap_append

/-! ### The loops -/

/-- `get_user_pages` pins the first pages of the array. -/
lemma follow_getUserPages (n : ℤ) : follow r s ((SgEffect.getUserPages n).events k) =
    match r with
    | .pages => if s = .held then some s else none
    | .page i => if i < n.toNat then if s = .fresh then some .held else none else some s
    | _ => some s := by
  rw [SgEffect.events, follow_cons]
  cases r with
  | page j =>
    simp only [act, reduceCtorEq, if_false, Option.bind_some]
    rw [follow_flatMap_range (j := j)]
    · simp [act]
    · intro i hi s
      simp [act, hi]
  | pages =>
    by_cases hs : s = .held
    · simpa [act, hs] using follow_flatMap_same fun i _ => by simp [act]
    · simp [act, hs]
  | sgMap => exact follow_flatMap_same fun i _ => by simp [act]
  | sgl => exact follow_flatMap_same fun i _ => by simp [act]
  | mapping => exact follow_flatMap_same fun i _ => by simp [act]

/-- The unwind loop gives back the first pages of the array. -/
lemma follow_putPages (n : ℕ) (hs : r = .pages → s = .held) : follow r s (sgEvents k (putPages n)) =
    match r with
    | .page i => if i < n then if s = .held then some .gone else none else some s
    | _ => some s := by
  rw [sgEvents, putPages, List.flatMap_map]
  cases r with
  | page j =>
    rw [follow_flatMap_range (j := j)]
    · simp [SgEffect.events, act]
    · intro i hi s
      simp [SgEffect.events, act, hi]
  | pages => exact follow_flatMap_same fun i _ => by simp [SgEffect.events, act, hs rfl]
  | sgMap => exact follow_flatMap_same fun i _ => by simp [SgEffect.events, act]
  | sgl => exact follow_flatMap_same fun i _ => by simp [SgEffect.events, act]
  | mapping => exact follow_flatMap_same fun i _ => by simp [SgEffect.events, act]

/-- The scatterlist loop reads the two arrays and the pages that it enters. -/
lemma follow_sgSetPages (n i offset lenRem : ℕ) (hpages : r = .pages → s = .held)
    (hsgl : r = .sgl → s = .held) (hpage : ∀ j, j < i + n → r = .page j → s = .held) :
    follow r s (sgEvents k (sgSetPages i offset lenRem n)) = some s := by
  induction n generalizing i offset lenRem with
  | zero => rfl
  | succ n ih =>
    have hhead : ∀ len, follow r s ((SgEffect.sgSetPage i len offset).events k) = some s := by
      intro len
      cases r with
      | page j =>
        by_cases hj : i = j
        · simp [SgEffect.events, act, hj, hpage j (by omega) rfl]
        · simp [SgEffect.events, act, hj]
      | pages => simp [SgEffect.events, act, hpages rfl]
      | sgl => simp [SgEffect.events, act, hsgl rfl]
      | sgMap => rfl
      | mapping => rfl
    have htail : ∀ lenRem, follow r s (sgEvents k (sgSetPages (i + 1) 0 lenRem n)) = some s :=
      fun lenRem => ih (i + 1) 0 lenRem fun j hj => hpage j (by omega)
    rw [sgSetPages]
    split_ifs <;> simp [hhead, htail]

lemma follow_sgDescriptors (mapped : List DmaSegment) (hsgl : r = .sgl → s = .held) :
    follow r s (sgEvents k (sgDescriptors mapped)) = some s := by
  apply follow_flatMap_same
  intro e he
  obtain ⟨i, sg, -, he⟩ := mem_sgDescriptors.mp he
  simp only [sgDescriptor, List.mem_cons, List.not_mem_nil, or_false] at he
  have hstore : ∀ index value, follow r s ((SgEffect.store index value).events k) = some s := by
    intro index value
    by_cases hr : r = .sgl
    · simp [SgEffect.events, act, hr, hsgl hr]
    · simp [SgEffect.events, act, Ne.symm hr]
  rcases he with rfl | rfl | rfl | rfl <;> exact hstore _ _

/-! ### The calls -/

/-- What `get_sg_list` holds once the pages are pinned. -/
def pinnedStatus (n : ℕ) : SgResource → Status
  | .sgMap => .held
  | .pages => .held
  | .page i => if i < n then .held else .fresh
  | _ => .fresh

/-- And once the table is allocated. -/
def tableStatus (n : ℕ) : SgResource → Status
  | .sgl => .held
  | r => pinnedStatus n r

/-- And once the table is mapped. -/
def mappedStatus (n : ℕ) (dir : DmaDataDirection) (r : SgResource) : Status :=
  if r = .mapping n dir then .held else tableStatus n r

lemma follow_pinned (n : ℕ) (numPages : ℤ) :
    follow r .fresh (sgEvents k [.kzallocSgMap, .kvmallocPages n, .getUserPages numPages]) =
      some (pinnedStatus numPages.toNat r) := by
  simp only [sgEvents_cons, sgEvents_nil, List.append_nil, follow_append, follow_getUserPages]
  cases r with
  | page i =>
    by_cases hi : (i : ℤ) < numPages <;> simp [SgEffect.events, act, pinnedStatus, hi]
  | _ => simp [SgEffect.events, act, pinnedStatus]

lemma follow_table (n : ℕ) :
    follow r (pinnedStatus n r) (sgEvents k [.kvmallocSgl n]) = some (tableStatus n r) := by
  cases r <;> simp [SgEffect.events, act, pinnedStatus, tableStatus]

lemma follow_tabled (n : ℕ) : follow r .fresh
    (sgEvents k ([.kzallocSgMap, .kvmallocPages n, .getUserPages n] ++ [.kvmallocSgl n])) =
      some (tableStatus n r) := by
  rw [sgEvents_append, follow_append, follow_pinned, Int.toNat_natCast]
  exact follow_table n

lemma pinned_unwound (n : ℕ) :
    ∃ s, follow r (pinnedStatus n r) (sgEvents k (putPages n ++ [.kvfreePages, .kfreeSgMap])) = some s ∧
      s ≠ .held := by
  rw [sgEvents_append, follow_append, follow_putPages n (by rintro rfl; rfl)]
  cases r with
  | page i => by_cases hi : i < n <;> simp [SgEffect.events, act, pinnedStatus, hi]
  | _ => simp [SgEffect.events, act, pinnedStatus]

/-- The two exits with a table free the arrays in different orders. -/
lemma table_unwound (n : ℕ) {free : List SgEffect}
    (hfree : free = [.kvfreePages, .kvfreeSgl] ∨ free = [.kvfreeSgl, .kvfreePages]) :
    ∃ s, follow r (tableStatus n r) (sgEvents k (putPages n ++ (free ++ [.kfreeSgMap]))) = some s ∧
      s ≠ .held := by
  rw [sgEvents_append, follow_append, follow_putPages n (by rintro rfl; rfl)]
  rcases hfree with rfl | rfl <;> cases r with
  | page i => by_cases hi : i < n <;> simp [SgEffect.events, act, pinnedStatus, tableStatus, hi]
  | _ => simp [SgEffect.events, act, pinnedStatus, tableStatus]

lemma follow_filled (n lenRem : ℕ) :
    follow r (tableStatus n r) (sgEvents k (.sgInitTable n :: sgSetPages 0 0 lenRem n)) =
      some (tableStatus n r) := by
  have hset := follow_sgSetPages (k := k) (r := r) (s := tableStatus n r) n 0 0 lenRem
    (by rintro rfl; rfl) (by rintro rfl; rfl) (by rintro j hj rfl; exact if_pos (by omega))
  rw [sgEvents_cons, follow_append]
  cases r <;> simp [SgEffect.events, act, tableStatus] at hset ⊢ <;> exact hset

lemma follow_dmaMapSg (n : ℕ) (dir : DmaDataDirection) :
    follow r (tableStatus n r) (sgEvents k [.dmaMapSg n dir]) =
      some (if k.mapped.length = 0 then tableStatus n r else mappedStatus n dir r) := by
  by_cases hk : k.mapped = []
  · cases r <;> simp [SgEffect.events, act, pinnedStatus, tableStatus, hk]
  · cases r with
    | mapping m d =>
      by_cases hm : n = m ∧ dir = d
      · obtain ⟨rfl, rfl⟩ := hm
        simp [SgEffect.events, act, pinnedStatus, tableStatus, mappedStatus, hk]
      · have hm' : ¬(m = n ∧ d = dir) := fun h => hm ⟨h.1.symm, h.2.symm⟩
        simp [SgEffect.events, act, pinnedStatus, tableStatus, mappedStatus, hk, hm, hm']
    | _ => simp [SgEffect.events, act, pinnedStatus, tableStatus, mappedStatus, hk]

section Calls

variable {sgBuf : Option CoherentBuffer} {userdata length : BitVec 64} {dir : DmaDataDirection}

/-- A failing call leaves nothing behind, whichever exit it takes. -/
theorem getSgList_failed (h : (getSgList k sgBuf userdata length dir).2 = none) :
    Settled (sgEvents k (getSgList k sgBuf userdata length dir).1) := by
  intro r
  dsimp only [getSgList] at h ⊢
  split_ifs at h ⊢ with hnull halloc hmax hpages hpinned hsgl halign hmapped
  · exact ⟨.fresh, rfl, by simp⟩
  · exact ⟨.fresh, rfl, by simp⟩
  · cases r <;> simp [SgEffect.events, act]
  · cases r <;> simp [SgEffect.events, act]
  · rw [List.append_assoc, sgEvents_append, follow_append, follow_pinned]
    exact pinned_unwound _
  · rw [List.append_assoc, sgEvents_append, follow_append, follow_pinned,
      not_not.mp hpinned, Int.toNat_natCast]
    exact pinned_unwound _
  · rw [not_not.mp hpinned, List.append_assoc, sgEvents_append, follow_append, follow_tabled]
    exact table_unwound _ (.inl rfl)
  · rw [not_not.mp hpinned, not_not.mp halign, List.append_assoc, List.append_assoc, List.append_assoc,
      sgEvents_append, follow_append, follow_tabled, Option.bind_some, sgEvents_append, follow_append,
      follow_filled, Option.bind_some, sgEvents_append, follow_append, follow_dmaMapSg, if_pos hmapped]
    exact table_unwound _ (.inr rfl)

/-- What a successful call holds. -/
theorem SgAccepted.follow (h : SgAccepted k sgBuf userdata length) (r : SgResource) :
    Ledger.follow r .fresh (sgEvents k (getSgList k sgBuf userdata length dir).1) =
      some (mappedStatus (numPagesReq userdata length).toNat dir r) := by
  have hsplit : ∀ n fill, [SgEffect.kzallocSgMap, .kvmallocPages n, .getUserPages n, .kvmallocSgl n,
        .sgInitTable n] ++ fill ++ .dmaMapSg n dir :: sgDescriptors k.mapped =
      ([.kzallocSgMap, .kvmallocPages n, .getUserPages n] ++ [.kvmallocSgl n]) ++
        ((.sgInitTable n :: fill) ++ ([.dmaMapSg n dir] ++ sgDescriptors k.mapped)) := by
    intro n fill
    simp
  rw [h.eq]
  dsimp only
  rw [hsplit, sgEvents_append, follow_append, follow_tabled, Option.bind_some, sgEvents_append,
    follow_append, follow_filled, Option.bind_some, sgEvents_append, follow_append, follow_dmaMapSg,
    if_neg h.mapped]
  exact follow_sgDescriptors _ (by rintro rfl; rfl)

/-- The pages that `free_sg_buf` marks before it gives them back. -/
def marksDirty (reserved : ℕ → Bool) (dir : DmaDataDirection) (i : ℕ) : Bool :=
  decide (dir = .fromDevice) && !reserved i

lemma freeSgBuf_eq (reserved : ℕ → Bool) {m : FdevSgdma} (hm : m.mapped = true) :
    freeSgBuf reserved true true (some m) = .dmaUnmapSg m.nents m.dir ::
      ((List.range m.npages).flatMap fun i =>
        (if marksDirty reserved m.dir i then [.setPageDirty i] else []) ++ [.putPage i]) ++
      [.kvfreePages, .kvfreeSgl, .kfreeSgMap] := by
  rw [freeSgBuf, hm]
  rcases Nat.eq_zero_or_pos m.npages with h0 | hpos
  · simp [h0]
  · cases hdir : m.dir with
    | toDevice => simp [hpos, marksDirty]
    | fromDevice =>
      have hbody : ∀ i, (if reserved i = true then [] else [SgFreeEffect.setPageDirty i]) =
          if marksDirty reserved .fromDevice i then [.setPageDirty i] else [] := by
        intro i
        cases hr : reserved i <;> simp [marksDirty, hr]
      simp [hpos, hbody]

/-- The release loop gives back the pinned pages and reads the array. -/
lemma follow_freePages (dirty : ℕ → Bool) (n : ℕ) (hmap : r = .sgMap → s = .held)
    (hpages : r = .pages → s = .held) : follow r s
      (((List.range n).flatMap fun i =>
        (if dirty i then [SgFreeEffect.setPageDirty i] else []) ++ [.putPage i]).flatMap
          SgFreeEffect.events) =
    match r with
    | .page i => if i < n then if s = .held then some .gone else none else some s
    | _ => some s := by
  have hflat : ((List.range n).flatMap fun i =>
      (if dirty i then [SgFreeEffect.setPageDirty i] else []) ++ [.putPage i]).flatMap
        SgFreeEffect.events =
      (List.range n).flatMap fun i => (if dirty i then [.use .sgMap, .use .pages, .use (.page i)] else []) ++
        [.use .sgMap, .use .pages, .release (.page i)] := by
    rw [List.flatMap_assoc]
    congr 1
    funext i
    cases dirty i <;> rfl
  rw [hflat]
  cases r with
  | page j =>
    rw [follow_flatMap_range (j := j)]
    · cases dirty j <;> cases s <;> simp [act]
    · intro i hi s
      cases dirty i <;> simp [act, hi]
  | pages => exact follow_flatMap_same fun i _ => by cases dirty i <;> simp [act, hpages rfl]
  | sgMap => exact follow_flatMap_same fun i _ => by cases dirty i <;> simp [act, hmap rfl]
  | sgl => exact follow_flatMap_same fun i _ => by cases dirty i <;> simp [act]
  | mapping => exact follow_flatMap_same fun i _ => by cases dirty i <;> simp [act]

lemma follow_unmap (n : ℕ) (dir : DmaDataDirection) :
    follow r (mappedStatus n dir r) (SgFreeEffect.dmaUnmapSg n dir).events =
      some (if r = .mapping n dir then .gone else tableStatus n r) := by
  cases r with
  | mapping n' d =>
    by_cases hr : n' = n ∧ d = dir
    · obtain ⟨rfl, rfl⟩ := hr
      simp [SgFreeEffect.events, act, mappedStatus]
    · have hr' : ¬(n = n' ∧ dir = d) := fun h => hr ⟨h.1.symm, h.2.symm⟩
      simp [SgFreeEffect.events, act, mappedStatus, tableStatus, pinnedStatus, hr, hr']
  | _ => simp [SgFreeEffect.events, act, mappedStatus, tableStatus, pinnedStatus]

/-- `free_sg_buf` gives back what a successful call holds. -/
theorem freeSgBuf_settles (reserved : ℕ → Bool) {m : FdevSgdma} (hm : m.mapped = true)
    (hn : m.npages = m.nents) (r : SgResource) :
    ∃ s, Ledger.follow r (mappedStatus m.nents m.dir r)
      ((freeSgBuf reserved true true (some m)).flatMap SgFreeEffect.events) = some s ∧ s ≠ .held := by
  rw [freeSgBuf_eq reserved hm, hn, List.cons_append, List.flatMap_cons, List.flatMap_append,
    follow_append, follow_unmap, Option.bind_some, follow_append,
    follow_freePages _ _ (by rintro rfl; rfl) (by rintro rfl; rfl)]
  cases r with
  | page i => by_cases hi : i < m.nents <;> simp [SgFreeEffect.events, act, tableStatus, pinnedStatus, hi]
  | mapping n d =>
    by_cases hr : n = m.nents ∧ d = m.dir <;>
      simp [SgFreeEffect.events, act, tableStatus, pinnedStatus, hr]
  | _ => simp [SgFreeEffect.events, act, tableStatus, pinnedStatus]

/-- What a successful call takes, `free_sg_buf` gives back. -/
theorem getSgList_freed (reserved : ℕ → Bool) {m : FdevSgdma}
    (h : (getSgList k sgBuf userdata length dir).2 = some m) :
    Settled (sgEvents k (getSgList k sgBuf userdata length dir).1 ++
      (freeSgBuf reserved true true (some m)).flatMap SgFreeEffect.events) := by
  intro r
  have hacc := sgAccepted_of_some h
  rw [follow_append, hacc.follow]
  rw [congrArg Prod.snd hacc.eq, Option.some.injEq] at h
  subst h
  exact freeSgBuf_settles (m := ⟨userdata, length, _, _, _, dir, true⟩) reserved rfl rfl r

variable (k sgBuf userdata length dir) in
/-- The trace of a call, and of the `free_sg_buf` behind it when it has succeeded. -/
def sgTrace (reserved : ℕ → Bool) : List (Event SgResource) :=
  match getSgList k sgBuf userdata length dir with
  | (effects, none) => sgEvents k effects
  | (effects, some m) =>
    sgEvents k effects ++ (freeSgBuf reserved true true (some m)).flatMap SgFreeEffect.events

/-- Whatever the kernel answers, each resource is taken at most once, is given back exactly as often as it is taken,
and is used only in between. -/
theorem sg_resources_settled (k : SgKernel) (sgBuf : Option CoherentBuffer)
    (userdata length : BitVec 64) (dir : DmaDataDirection) (reserved : ℕ → Bool) :
    Settled (sgTrace k sgBuf userdata length dir reserved) ∧
      ∀ r, (sgTrace k sgBuf userdata length dir reserved).count (.acquire r) ≤ 1 ∧
        (sgTrace k sgBuf userdata length dir reserved).count (.release r) =
          (sgTrace k sgBuf userdata length dir reserved).count (.acquire r) := by
  have hsettled : Settled (sgTrace k sgBuf userdata length dir reserved) := by
    rw [sgTrace]
    split
    next effects heq =>
      have h := getSgList_failed (congrArg Prod.snd heq)
      rwa [heq] at h
    next effects m heq =>
      have h := getSgList_freed reserved (congrArg Prod.snd heq)
      rwa [heq] at h
  exact ⟨hsettled, hsettled.count⟩

/-- Two of three pages are pinned: both are put again. -/
example : sgTrace ⟨true, true, 2, true, []⟩ (some ⟨0x1000, 8192⟩) 0x7000 0x3000 .fromDevice
      (fun _ => false) =
    [.acquire .sgMap, .acquire .pages, .use .pages, .acquire (.page 0), .acquire (.page 1),
      .use .pages, .release (.page 0), .use .pages, .release (.page 1),
      .release .pages, .release .sgMap] := by decide

end Calls

end FpgaPcie
