import FpgaPcie.Driver.Device

/-!
# The bytes of a transfer

While a transfer runs on a channel, its bytes are with the engine, in flight, owed or moved, and
no byte of another transfer is on the channel. The status register and the interrupt module say
nothing but this.
-/

namespace FpgaPcie

namespace Engine

/-- The call whose transfer the engine has. -/
def call : Engine → Option ℕ
  | .idle => none
  | .fetching id | .listed id _ | .moving id _ => some id

/-- The bytes that the engine has not requested (or sent) yet, of a transfer of `size` bytes. -/
def left (size : ℕ) : Engine → ℕ
  | .idle => 0
  | .fetching _ => size
  | .listed _ n | .moving _ n => n

/-- The engine has not begun to move data. -/
def waits : Engine → Bool
  | .fetching _ | .listed _ _ => true
  | .idle | .moving _ _ => false

/-- The engine will still touch memory for call `id`. -/
def Holds (id : ℕ) : Engine → Prop
  | .idle => False
  | .fetching i | .listed i _ => i = id
  | .moving i n => i = id ∧ 0 < n

end Engine

namespace ChanState

variable {c : Chan} {x x' : ChanState} {id size : ℕ} {e : DevEvent}

/-- Nothing on the channel belongs to call `id`. -/
structure Untouched (x : ChanState) (id : ℕ) : Prop where
  engine : x.engine.call ≠ some id
  inFlight : x.inFlight id = 0
  owed : x.owed id = 0
  moved : x.moved id = 0

/-- Call `id` has the channel for a transfer of `size` bytes. -/
structure Transfer (c : Chan) (x : ChanState) (id size : ℕ) : Prop where
  call : ∀ j, x.engine.call = some j → j = id
  listed : ∀ j n, x.engine = .listed j n → n = size
  list : c.isSg = true → x.listBytes = size
  other : ∀ j, j ≠ id → x.inFlight j = 0 ∧ x.owed j = 0
  sum : x.engine.left size + x.inFlight id + x.owed id + x.moved id = size
  waits : x.engine.waits = true → c.isSg = true ∧ x.counter = none
  counter : ∀ k len, x.counter = some (k, len) → len = size ∧ k ≤ x.owed id + x.moved id
  status : x.status ≠ 0 → (x.status = 1 ∧ c.isSg = true ∧ x.engine = .listed id size) ∨
    (x.status = doneStatus c ∧ x.engine.waits = false ∧ x.engine.left size = 0 ∧
      x.inFlight id = 0)

/-- The engine is through with call `id`, and so is the link up to the headers. -/
structure Through (x : ChanState) (id size : ℕ) : Prop where
  engine : ¬x.engine.Holds id
  inFlight : x.inFlight id = 0
  sum : x.owed id + x.moved id = size

lemma doneStatus_ne : doneStatus c ≠ 0 := by
  unfold doneStatus
  split_ifs <;> decide

lemma latch_status {v : BitVec 32} (_h : (x.latch v).status ≠ 0) :
    x.status ≠ 0 ∧ (x.latch v).status = x.status ∨ x.status = 0 ∧ (x.latch v).status = v := by
  unfold latch
  by_cases h0 : x.status = 0
  · exact Or.inr ⟨h0, if_pos h0⟩
  · exact Or.inl ⟨h0, if_neg h0⟩

theorem Untouched.dev (h : x.Untouched id) (hdev : x.dev c e = some x') : x'.Untouched id := by
  obtain ⟨heng, hin, howed, hmoved⟩ := h
  cases devSpec hdev with
  | listDone hid => exact ⟨by rwa [hid] at heng, hin, howed, hmoved⟩
  | issue hid hpos hle =>
    rw [hid] at heng
    have hne : id ≠ _ := fun heq => heng (congrArg some heq.symm)
    exact ⟨heng, (Function.update_of_ne hne _ _).trans hin, howed, hmoved⟩
  | @countH2c j n k hc hpos hle hk =>
    have hne : id ≠ j := by
      rintro rfl
      omega
    exact ⟨heng, (Function.update_of_ne hne _ _).trans hin,
      (Function.update_of_ne hne _ _).trans howed, hmoved⟩
  | @countC2h j n k hc hpos hle hk =>
    have hne : id ≠ j := by
      rintro rfl
      omega
    exact ⟨heng, (Function.update_of_ne hne _ _).trans hin, howed,
      (Function.update_of_ne hne _ _).trans hmoved⟩
  | @arrive j n hpos hle =>
    have hne : id ≠ j := by
      rintro rfl
      omega
    exact ⟨heng, hin, (Function.update_of_ne hne _ _).trans howed,
      (Function.update_of_ne hne _ _).trans hmoved⟩
  | foreign hc => exact ⟨heng, hin, howed, hmoved⟩
  | done hcounter hle hpos => exact ⟨heng, hin, howed, hmoved⟩
  | finish hid => exact ⟨by simp [Engine.call], hin, howed, hmoved⟩

theorem Through.dev (h : x.Through id size) (hdev : x.dev c e = some x') : x'.Through id size := by
  obtain ⟨heng, hin, hsum⟩ := h
  cases devSpec hdev with
  | listDone hid => exact ⟨by rwa [hid] at heng, hin, hsum⟩
  | issue hid hpos hle =>
    rw [hid] at heng
    have hne : id ≠ _ := fun heq => heng ⟨heq.symm, by omega⟩
    exact ⟨fun hholds => heng ⟨hholds.1, by omega⟩,
      (Function.update_of_ne hne _ _).trans hin, hsum⟩
  | @countH2c j n k hc hpos hle hk =>
    have hne : id ≠ j := by
      rintro rfl
      omega
    refine ⟨heng, (Function.update_of_ne hne _ _).trans hin, ?_⟩
    simpa only [addCounter, Function.update_of_ne hne] using hsum
  | @countC2h j n k hc hpos hle hk =>
    have hne : id ≠ j := by
      rintro rfl
      omega
    refine ⟨heng, (Function.update_of_ne hne _ _).trans hin, ?_⟩
    simpa only [addCounter, Function.update_of_ne hne] using hsum
  | @arrive j n hpos hle =>
    refine ⟨heng, hin, ?_⟩
    by_cases hj : id = j
    · subst hj
      simp only [Function.update_self]
      omega
    · simpa only [Function.update_of_ne hj] using hsum
  | foreign hc => exact ⟨heng, hin, hsum⟩
  | done hcounter hle hpos => exact ⟨heng, hin, hsum⟩
  | finish hid => exact ⟨fun hholds => hholds.elim, hin, hsum⟩

lemma Transfer.eq_of_inFlight {j : ℕ} (h : Transfer c x id size) (hpos : 0 < x.inFlight j) :
    j = id := by
  by_contra hne
  have h0 := (h.other j hne).1
  omega

lemma Transfer.eq_of_owed {j : ℕ} (h : Transfer c x id size) (hpos : 0 < x.owed j) : j = id := by
  by_contra hne
  have h0 := (h.other j hne).2
  omega

/-- A transfer stays with the channel whatever the channel does on its own. -/
theorem Transfer.dev (h : Transfer c x id size) (he : e.isForeign = false)
    (hdev : x.dev c e = some x') : Transfer c x' id size := by
  have hsum := h.sum
  cases devSpec hdev with
  | @listDone j hid =>
    have hj : j = id := h.call j (by rw [hid]; rfl)
    subst hj
    have hwaits := h.waits (by rw [hid]; rfl)
    have hlist := h.list hwaits.1
    rw [hid] at hsum
    refine { h with
      call := fun i hi => (Option.some.inj hi).symm
      listed := fun i n hn => (Engine.listed.inj hn).2 ▸ hlist
      sum := by rwa [← hlist] at hsum ⊢
      waits := fun _ => hwaits
      status := fun hst => ?_ }
    rcases latch_status hst with ⟨hne, heq⟩ | ⟨h0, heq⟩
    · rw [heq]
      rcases h.status hne with ⟨-, -, hlisted⟩ | ⟨-, hwait, -, -⟩
      · rw [hid] at hlisted
        cases hlisted
      · rw [hid] at hwait
        cases hwait
    · exact Or.inl ⟨heq, hwaits.1, by rw [← hlist]; rfl⟩
  | @issue j left n hid hpos hle =>
    have hj : j = id := h.call j (by rw [hid]; rfl)
    subst hj
    rw [hid] at hsum
    have hleft : x.engine.left size = left := by rw [hid]; rfl
    refine { h with
      call := fun i hi => (Option.some.inj hi).symm
      listed := fun i m hm => by cases hm
      other := fun i hi => ⟨(Function.update_of_ne hi _ _).trans (h.other i hi).1, (h.other i hi).2⟩
      sum := ?_
      waits := fun hw => by cases hw
      status := fun hst => ?_ }
    · simp only [Engine.left, Function.update_self] at hsum ⊢
      omega
    · rcases h.status hst with ⟨-, -, hlisted⟩ | ⟨-, -, hz, -⟩
      · rw [hid] at hlisted
        cases hlisted
      · omega
  | @countH2c j n k hc hpos hle hk =>
    have hj : j = id := h.eq_of_inFlight (by omega)
    subst hj
    refine { h with
      other := fun i hi => ⟨(Function.update_of_ne hi _ _).trans (h.other i hi).1,
        (Function.update_of_ne hi _ _).trans (h.other i hi).2⟩
      sum := ?_
      waits := fun hw => ⟨(h.waits hw).1, by simp [addCounter, (h.waits hw).2]⟩
      counter := fun k' len hk' => ?_
      status := fun hst => ?_ }
    · simp only [addCounter, Function.update_self]
      omega
    · simp only [addCounter, Option.map_eq_some_iff, Prod.exists, Prod.mk.injEq] at hk'
      obtain ⟨k₀, len₀, hcounter, rfl, rfl⟩ := hk'
      obtain ⟨hlen, hle'⟩ := h.counter k₀ len₀ hcounter
      simp only [addCounter, Function.update_self]
      omega
    · rcases h.status hst with hlisted | ⟨hdone, -, hz, hin⟩
      · exact Or.inl hlisted
      · omega
  | @countC2h j n k hc hpos hle hk =>
    have hj : j = id := h.eq_of_inFlight (by omega)
    subst hj
    refine { h with
      other := fun i hi => ⟨(Function.update_of_ne hi _ _).trans (h.other i hi).1, (h.other i hi).2⟩
      sum := ?_
      waits := fun hw => ⟨(h.waits hw).1, by simp [addCounter, (h.waits hw).2]⟩
      counter := fun k' len hk' => ?_
      status := fun hst => ?_ }
    · simp only [addCounter, Function.update_self]
      omega
    · simp only [addCounter, Option.map_eq_some_iff, Prod.exists, Prod.mk.injEq] at hk'
      obtain ⟨k₀, len₀, hcounter, rfl, rfl⟩ := hk'
      obtain ⟨hlen, hle'⟩ := h.counter k₀ len₀ hcounter
      simp only [addCounter, Function.update_self]
      omega
    · rcases h.status hst with hlisted | ⟨hdone, -, hz, hin⟩
      · exact Or.inl hlisted
      · omega
  | @arrive j n hpos hle =>
    have hj : j = id := h.eq_of_owed (by omega)
    subst hj
    refine { h with
      other := fun i hi => ⟨(h.other i hi).1, (Function.update_of_ne hi _ _).trans (h.other i hi).2⟩
      sum := ?_
      counter := fun k len hk => ?_ }
    · simp only [Function.update_self]
      omega
    · obtain ⟨hlen, hle'⟩ := h.counter k len hk
      simp only [Function.update_self]
      omega
  | foreign hc => exact absurd he (by simp [DevEvent.isForeign])
  | @done k len hcounter hle hpos =>
    obtain ⟨hlen, hk⟩ := h.counter k len hcounter
    refine { h with
      waits := fun hw => ⟨(h.waits hw).1, rfl⟩
      counter := fun k' len' hk' => by cases hk'
      status := fun hst => ?_ }
    rcases latch_status hst with ⟨hne, heq⟩ | ⟨h0, heq⟩
    · rw [heq]
      exact h.status hne
    · refine Or.inr ⟨heq, ?_, ?_, ?_⟩
      · change x.engine.waits = false
        by_contra hw
        rw [Bool.not_eq_false] at hw
        simp [(h.waits hw).2] at hcounter
      · change x.engine.left size = 0
        omega
      · change x.inFlight id = 0
        omega
  | @finish j hid =>
    rw [hid] at hsum
    refine { h with
      call := fun i hi => by cases hi
      listed := fun i n hn => by cases hn
      sum := hsum
      waits := fun hw => by cases hw
      status := fun hst => ?_ }
    rcases h.status hst with ⟨-, -, hlisted⟩ | ⟨hdone, -, -, hin⟩
    · rw [hid] at hlisted
      cases hlisted
    · exact Or.inr ⟨hdone, rfl, rfl, hin⟩

/-- Nothing moves between two states; the status register may have been cleared. -/
structure Keeps (x x' : ChanState) : Prop where
  engine : x'.engine = x.engine
  inFlight : x'.inFlight = x.inFlight
  owed : x'.owed = x.owed
  moved : x'.moved = x.moved
  counter : x'.counter = x.counter
  status : x'.status = x.status ∨ x'.status = 0

lemma exec_keeps {a : CallArgs} {op : DrvOp} {answer : Option ℕ} {j : ℕ}
    (hop : ∀ v, op ≠ .writeReg .start v) : Keeps x (x.exec c j a op answer) := by
  cases op with
  | writeReg r v =>
    cases r with
    | start => exact absurd rfl (hop v)
    | status => exact ⟨rfl, rfl, rfl, rfl, rfl, Or.inr rfl⟩
    | _ => exact ⟨rfl, rfl, rfl, rfl, rfl, Or.inl rfl⟩
  | getSgList => cases answer <;> exact ⟨rfl, rfl, rfl, rfl, rfl, Or.inl rfl⟩
  | _ => exact ⟨rfl, rfl, rfl, rfl, rfl, Or.inl rfl⟩

lemma writeStart_engine (c : Chan) (x : ChanState) (j : ℕ) (v : BitVec 32) :
    (x.writeStart c j v).engine = x.engine ∨
      (x.writeStart c j v).engine = .fetching j ∧ v &&& 1 ≠ 0 ∨
      (∃ n, (x.writeStart c j v).engine = .moving j n) ∨
      ∃ i n, x.engine.call = some i ∧ (x.writeStart c j v).engine = .moving i n := by
  unfold writeStart
  by_cases hsg : c.isSg = true
  · rw [if_pos hsg]
    by_cases h1 : v &&& 1 ≠ 0 ∧ x.engine = .idle
    · simp only [if_pos h1]
      split_ifs
      · exact Or.inr (Or.inr (Or.inl ⟨_, rfl⟩))
      · exact Or.inr (Or.inl ⟨rfl, h1.1⟩)
    · simp only [if_neg h1]
      split_ifs
      · cases he : x.engine with
        | fetching i => exact Or.inr (Or.inr (Or.inr ⟨i, _, rfl, rfl⟩))
        | listed i n => exact Or.inr (Or.inr (Or.inr ⟨i, n, rfl, rfl⟩))
        | _ => exact Or.inl rfl
      · exact Or.inl rfl
  · rw [if_neg hsg]
    by_cases hidle : x.engine = .idle
    · exact Or.inr (Or.inr (Or.inl ⟨_, if_pos hidle⟩))
    · exact Or.inl (if_neg hidle)

lemma writeStart_status {j : ℕ} {v : BitVec 32} : (x.writeStart c j v).status = x.status := by
  unfold writeStart
  split_ifs <;> rfl

lemma writeStart_moved {j : ℕ} {v : BitVec 32} : (x.writeStart c j v).inFlight = x.inFlight ∧
    (x.writeStart c j v).owed = x.owed ∧ (x.writeStart c j v).moved = x.moved := by
  unfold writeStart
  split_ifs <;> exact ⟨rfl, rfl, rfl⟩

lemma exec_status {a : CallArgs} {op : DrvOp} {answer : Option ℕ} {j : ℕ} :
    (x.exec c j a op answer).status = x.status ∨ (x.exec c j a op answer).status = 0 := by
  by_cases hop : ∃ v, op = .writeReg .start v
  · obtain ⟨v, rfl⟩ := hop
    exact Or.inl writeStart_status
  · exact (exec_keeps (not_exists.mp hop)).status

lemma exec_moved {a : CallArgs} {op : DrvOp} {answer : Option ℕ} {j : ℕ} :
    (x.exec c j a op answer).inFlight = x.inFlight ∧ (x.exec c j a op answer).owed = x.owed ∧
      (x.exec c j a op answer).moved = x.moved := by
  by_cases hop : ∃ v, op = .writeReg .start v
  · obtain ⟨v, rfl⟩ := hop
    exact writeStart_moved
  · have hk : Keeps x (x.exec c j a op answer) := exec_keeps (not_exists.mp hop)
    exact ⟨hk.inFlight, hk.owed, hk.moved⟩

lemma exec_owed {a : CallArgs} {op : DrvOp} {answer : Option ℕ} {j : ℕ} :
    (x.exec c j a op answer).owed = x.owed := exec_moved.2.1

lemma exec_buf {a : CallArgs} {op : DrvOp} {answer : Option ℕ} {j : ℕ} :
    (x.exec c j a op answer).buf = x.buf ∨ (x.exec c j a op answer).buf = some j := by
  cases op with
  | writeReg r v =>
    cases r with
    | start =>
      left
      simp only [exec, writeReg, writeStart]
      split_ifs <;> rfl
    | _ => exact Or.inl rfl
  | getSgList => cases answer <;> first | exact Or.inl rfl | exact Or.inr rfl
  | copyFromUser n => exact Or.inr rfl
  | _ => exact Or.inl rfl

lemma Untouched.keeps (h : x.Untouched id) (hk : Keeps x x') : x'.Untouched id where
  engine := hk.engine ▸ h.engine
  inFlight := hk.inFlight ▸ h.inFlight
  owed := hk.owed ▸ h.owed
  moved := hk.moved ▸ h.moved

lemma Through.keeps (h : x.Through id size) (hk : Keeps x x') : x'.Through id size where
  engine := hk.engine ▸ h.engine
  inFlight := hk.inFlight ▸ h.inFlight
  sum := hk.owed ▸ hk.moved ▸ h.sum

lemma Transfer.keeps (h : Transfer c x id size) (hk : Keeps x x')
    (hlist : x'.listBytes = x.listBytes) : Transfer c x' id size where
  call := hk.engine ▸ h.call
  listed := hk.engine ▸ h.listed
  list hsg := hlist.trans (h.list hsg)
  other := hk.inFlight ▸ hk.owed ▸ h.other
  sum := hk.engine ▸ hk.inFlight ▸ hk.owed ▸ hk.moved ▸ h.sum
  waits := hk.engine ▸ hk.counter ▸ h.waits
  counter := hk.counter ▸ hk.owed ▸ hk.moved ▸ h.counter
  status hst := by
    rcases hk.status with heq | h0
    · rw [hk.engine, hk.inFlight, heq]
      exact h.status (heq ▸ hst)
    · exact absurd h0 hst

lemma Transfer.through (h : Transfer c x id size) (hwaits : x.engine.waits = false)
    (hleft : x.engine.left size = 0) (hin : x.inFlight id = 0) : x.Through id size where
  engine hholds := by
    cases he : x.engine with
    | idle => simp [he, Engine.Holds] at hholds
    | fetching i => simp [he, Engine.waits] at hwaits
    | listed i n => simp [he, Engine.waits] at hwaits
    | moving i n =>
      rw [he] at hholds hleft
      exact absurd hleft (Nat.pos_iff_ne_zero.mp hholds.2)
  inFlight := hin
  sum := by
    have hsum := h.sum
    omega

/-- A START at rest begins the transfer: of LENGTH bytes on a block channel, of the list on a
scatter-gather channel. -/
theorem Transfer.start (hrest : x.AtRest) (hfresh : x.Untouched id)
    (hlength : c.isSg = false → (x.reg .length).toNat = size)
    (hlist : c.isSg = true → x.listBytes = size) : Transfer c (x.writeStart c id 1) id size := by
  have hst := hrest.status
  have hother : ∀ j, j ≠ id → x.inFlight j = 0 ∧ x.owed j = 0 :=
    fun j _ => ⟨hrest.inFlight j, hrest.owed j⟩
  cases hsg : c.isSg with
  | true =>
    have hx : x.writeStart c id 1 = { x with engine := .fetching id } := by
      simp [writeStart, hsg, hrest.engine]
    rw [hx]
    exact {
      call := fun j hj => (Option.some.inj hj).symm
      listed := fun j n hn => by cases hn
      list := hlist
      other := hother
      sum := by simp [Engine.left, hfresh.inFlight, hfresh.owed, hfresh.moved]
      waits := fun _ => ⟨hsg, hrest.counter⟩
      counter := fun k len hk => by simp [hrest.counter] at hk
      status := fun h => absurd hst h }
  | false =>
    have hx : x.writeStart c id 1 =
        { x with engine := .moving id size, counter := some (0, size) } := by
      simp [writeStart, hsg, hrest.engine, hrest.counter, arm, hlength hsg]
    rw [hx]
    exact {
      call := fun j hj => (Option.some.inj hj).symm
      listed := fun j n hn => by cases hn
      list := fun h => absurd h (by simp [hsg])
      other := hother
      sum := by simp [Engine.left, hfresh.inFlight, hfresh.owed, hfresh.moved]
      waits := fun h => by cases h
      counter := fun k len hk => by
        cases hk
        exact ⟨rfl, Nat.zero_le _⟩
      status := fun h => absurd hst h }

/-- The second START takes the list to the engine and arms the interrupt module. -/
theorem Transfer.second (h : Transfer c x id size) (heng : x.engine = .listed id size)
    (hstatus : x.status = 0) (hlength : (x.reg .length).toNat = size) :
    Transfer c (x.writeStart c id 2) id size := by
  have hwaits := h.waits (by rw [heng]; rfl)
  have hx : x.writeStart c id 2 =
      { x with engine := .moving id size, counter := some (0, size) } := by
    simp [writeStart, hwaits.1, hwaits.2, heng, arm, hlength]
  rw [hx]
  have hsum := h.sum
  rw [heng] at hsum
  exact { h with
    call := fun j hj => (Option.some.inj hj).symm
    listed := fun j n hn => by cases hn
    sum := hsum
    waits := fun hw => by cases hw
    counter := fun k len hk => by
      cases hk
      exact ⟨rfl, Nat.zero_le _⟩
    status := fun hne => absurd hstatus hne }

lemma Through.start {j : ℕ} {v : BitVec 32} (h : x.Through id size) (hj : j ≠ id) :
    (x.writeStart c j v).Through id size := by
  obtain ⟨heng, hin, hsum⟩ := h
  unfold writeStart
  split_ifs with hsg h1 h2 h2 hidle
  · refine ⟨?_, hin, hsum⟩
    simp [Engine.Holds, hj]
  · exact ⟨hj, hin, hsum⟩
  · refine ⟨?_, hin, hsum⟩
    cases he : x.engine <;> simp_all [Engine.Holds]
  · exact ⟨heng, hin, hsum⟩
  · refine ⟨?_, hin, hsum⟩
    simp [Engine.Holds, hj]
  · exact ⟨heng, hin, hsum⟩

lemma Untouched.start {j : ℕ} {v : BitVec 32} (h : x.Untouched id) (hj : j ≠ id) :
    (x.writeStart c j v).Untouched id := by
  obtain ⟨heng, hin, howed, hmoved⟩ := h
  unfold writeStart
  split_ifs with hsg h1 h2 h2 hidle
  · refine ⟨?_, hin, howed, hmoved⟩
    simp [Engine.call, hj]
  · exact ⟨by simpa [Engine.call] using hj, hin, howed, hmoved⟩
  · refine ⟨?_, hin, howed, hmoved⟩
    cases he : x.engine <;> simp_all [Engine.call]
  · exact ⟨heng, hin, howed, hmoved⟩
  · refine ⟨?_, hin, howed, hmoved⟩
    simpa [Engine.call] using hj
  · exact ⟨heng, hin, howed, hmoved⟩

end ChanState

end FpgaPcie
