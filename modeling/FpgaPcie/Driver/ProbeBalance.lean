import FpgaPcie.Driver.Probe

/-!
# What a probe leaves behind

Each resource of the kernel is followed through `fpga_probe`, its failing exit or `fpga_remove`. The code keeps
the balance exactly at those steps whose error stands in `error` and whose label knows all that is held;
a device that comes up leaves its four DMA buffers when it is removed.
-/

namespace FpgaPcie

open Ledger

/-! ### The steps that can fail -/

inductive ProbeStep
  | enableDevice
  | setMask
  | setCoherentMask
  | kzalloc
  | requestRegions
  | mapBar (i : Fin 6)
  | msiVecCount
  | allocIrqVectors
  | requestIrq
  | coherent (c : Chan)
  | allocChrdev
  | cdevAdd
  | classCreate
  | deviceCreate
  deriving DecidableEq

/-- In the order of the code. -/
def probeSteps : List ProbeStep :=
  [.enableDevice, .setMask, .setCoherentMask, .kzalloc, .requestRegions] ++
    (List.finRange 6).map .mapBar ++
    [.msiVecCount, .allocIrqVectors, .requestIrq, .coherent .c2hBl, .coherent .h2cBl, .coherent .c2hSg,
      .coherent .h2cSg, .allocChrdev, .cdevAdd, .classCreate, .deviceCreate]

variable (k : ProbeKernel)

def ProbeKernel.fails : ProbeStep → Bool
  | .enableDevice => decide (k.enableDevice.val < 0)
  | .setMask => decide (k.setMask.val < 0)
  | .setCoherentMask => decide (k.setCoherentMask.val < 0)
  | .kzalloc => !k.kzalloc
  | .requestRegions => decide (k.requestRegions.val < 0)
  | .mapBar i => decide ((k.bar i).barLen ≠ 0) && !(k.bar i).ioremap
  | .msiVecCount => decide (k.msiVecCount < 0)
  | .allocIrqVectors => decide (k.allocIrqVectors < 0)
  | .requestIrq => decide (k.requestIrq.val < 0)
  | .coherent c => !k.coherent c
  | .allocChrdev => decide (k.allocChrdev.val < 0)
  | .cdevAdd => decide (k.cdevAdd.val < 0)
  | .classCreate => decide (k.classCreate.val < 0)
  | .deviceCreate => decide (k.deviceCreate ≠ .device)

def ProbeKernel.firstFailure : Option ProbeStep := probeSteps.find? k.fails

/-- The steps whose exit releases what is held and returns the error. -/
def ProbeStep.unwinds : ProbeStep → Bool
  | .enableDevice | .setMask | .setCoherentMask | .kzalloc | .requestRegions | .allocIrqVectors | .requestIrq => true
  | _ => false

/-! ### The result of a probe, by its first failure -/

/-- The BARs that are mapped when `map_bars` returns. -/
def ProbeKernel.bars : List (Fin 6) := (mapBars k.bar (List.finRange 6)).1

def ProbeKernel.mapped : List PciOp :=
  [.pciEnableDevice, .kzallocFpdev, .pciRequestRegions] ++ k.bars.map .pciIoremapBar

def ProbeKernel.withIrq : List PciOp := k.mapped ++ [.pciAllocIrqVectors] ++ [.requestIrq]

def ProbeKernel.withDma : List PciOp :=
  k.withIrq ++ [.dmaAllocCoherent .c2hBl, .dmaAllocCoherent .h2cBl] ++
    [.dmaAllocCoherent .c2hSg, .dmaAllocCoherent .h2cSg]

def ProbeKernel.withClass : List PciOp := k.withDma ++ [.allocChrdevRegion] ++ [.cdevAdd] ++ [.classCreate]

def ProbeKernel.claim : List PciOp := k.freeId.toList.map .claimId

def ProbeKernel.outcome : Option ProbeStep → ProbeResult
  | some .enableDevice => ⟨[], -enodev, none⟩
  | some .setMask => ⟨[.pciEnableDevice] ++ failDisableDevice, k.setMask, none⟩
  | some .setCoherentMask => ⟨[.pciEnableDevice] ++ failDisableDevice, k.setCoherentMask, none⟩
  | some .kzalloc => ⟨[.pciEnableDevice] ++ failDisableDevice, -enomem, none⟩
  | some .requestRegions => ⟨[.pciEnableDevice] ++ [.kzallocFpdev] ++ failFreeFpdev, k.requestRegions, none⟩
  | some (.mapBar _) => ⟨k.mapped ++ failReleaseRegions k.bars, 0, none⟩
  | some .msiVecCount => ⟨k.mapped ++ failReleaseRegions k.bars, 0, none⟩
  | some .allocIrqVectors => ⟨k.mapped ++ failIrq k.bars, k.allocIrqVectors, none⟩
  | some .requestIrq => ⟨k.mapped ++ [.pciAllocIrqVectors] ++ failIrqVectors k.bars, k.requestIrq, none⟩
  | some (.coherent .c2hBl) => ⟨k.withIrq ++ failIrqVectors k.bars, 0, none⟩
  | some (.coherent .h2cBl) => ⟨k.withIrq ++ [.dmaAllocCoherent .c2hBl] ++ failIrqVectors k.bars, 0, none⟩
  | some (.coherent .c2hSg) =>
    ⟨k.withIrq ++ [.dmaAllocCoherent .c2hBl, .dmaAllocCoherent .h2cBl] ++ failIrqVectors k.bars, 0, none⟩
  | some (.coherent .h2cSg) =>
    ⟨k.withIrq ++ [.dmaAllocCoherent .c2hBl, .dmaAllocCoherent .h2cBl] ++ [.dmaAllocCoherent .c2hSg] ++
      failIrqVectors k.bars, 0, none⟩
  | some .allocChrdev => ⟨k.withDma ++ failIrqVectors k.bars, k.allocChrdev, none⟩
  | some .cdevAdd => ⟨k.withDma ++ [.allocChrdevRegion] ++ failAllocChr k.bars, 0, none⟩
  | some .classCreate =>
    ⟨k.withDma ++ [.allocChrdevRegion] ++ [.cdevAdd] ++ .cdevDel :: failAllocChr k.bars, 0, none⟩
  | some .deviceCreate =>
    if k.deviceCreate = .null then ⟨k.withClass ++ .classDestroy :: .cdevDel :: failAllocChr k.bars, 0, none⟩
    else ⟨k.withClass ++ k.claim, 0, some ⟨k.freeId, k.bars⟩⟩
  | none => ⟨k.withClass ++ [.deviceCreate] ++ k.claim, 0, some ⟨k.freeId, k.bars⟩⟩

variable {k}

lemma KStatus.eq_zero {e : KStatus} (h : ¬e.val < 0) : e.val = 0 := by
  have hle := e.property
  omega

lemma mapBars_iff (is : List (Fin 6)) :
    (mapBars k.bar is).2 = true ↔ (is.map ProbeStep.mapBar).find? k.fails = none := by
  induction is with
  | nil => simp [mapBars]
  | cons i is ih =>
    rw [mapBars, List.map_cons, List.find?_cons]
    split_ifs with hlen hmap
    · simpa [ProbeKernel.fails, show (k.bar i).barLen = 0#64 from hlen] using ih
    · simpa [ProbeKernel.fails, hmap] using ih
    · simp [ProbeKernel.fails, show (k.bar i).barLen ≠ 0#64 from hlen, hmap]

lemma probeCharDevice_eq : probeCharDevice k (k.withDma ++ [.allocChrdevRegion]) k.bars 0 =
    k.outcome ([.cdevAdd, .classCreate, .deviceCreate].find? k.fails) := by
  by_cases hcdev : k.cdevAdd.val < 0
  · simp [probeCharDevice, ProbeKernel.outcome, ProbeKernel.fails, hcdev, Int.ne_of_lt hcdev]
  by_cases hclass : k.classCreate.val < 0
  · simp [probeCharDevice, ProbeKernel.outcome, ProbeKernel.fails, KStatus.eq_zero hcdev, hclass]
  cases hdevice : k.deviceCreate <;> cases hid : k.freeId <;>
    simp [probeCharDevice, ProbeKernel.outcome, ProbeKernel.fails, ProbeKernel.withClass, ProbeKernel.claim,
      KStatus.eq_zero hcdev, hclass, hdevice, hid]

lemma probeDma_eq : probeDma k (k.mapped ++ [.pciAllocIrqVectors]) k.bars =
    k.outcome ([.requestIrq, .coherent .c2hBl, .coherent .h2cBl, .coherent .c2hSg, .coherent .h2cSg,
      .allocChrdev, .cdevAdd, .classCreate, .deviceCreate].find? k.fails) := by
  by_cases hirq : k.requestIrq.val < 0
  · simp [probeDma, ProbeKernel.outcome, ProbeKernel.fails, hirq]
  have hzero := KStatus.eq_zero hirq
  cases hc2hBl : k.coherent .c2hBl
  · simp [probeDma, allocateCoherent, enomem, ProbeKernel.outcome, ProbeKernel.fails, ProbeKernel.withIrq, hzero, hc2hBl]
  cases hh2cBl : k.coherent .h2cBl
  · simp [probeDma, allocateCoherent, enomem, ProbeKernel.outcome, ProbeKernel.fails, ProbeKernel.withIrq, hzero, hc2hBl,
      hh2cBl]
  cases hc2hSg : k.coherent .c2hSg
  · simp [probeDma, allocateCoherent, enomem, ProbeKernel.outcome, ProbeKernel.fails, ProbeKernel.withIrq, hzero, hc2hBl,
      hh2cBl, hc2hSg]
  cases hh2cSg : k.coherent .h2cSg
  · simp [probeDma, allocateCoherent, enomem, ProbeKernel.outcome, ProbeKernel.fails, ProbeKernel.withIrq, hzero, hc2hBl,
      hh2cBl, hc2hSg, hh2cSg]
  by_cases hchrdev : k.allocChrdev.val < 0
  · simp [probeDma, allocateCoherent, ProbeKernel.outcome, ProbeKernel.fails, ProbeKernel.withDma,
      ProbeKernel.withIrq, hzero, hc2hBl, hh2cBl, hc2hSg, hh2cSg, hchrdev]
  have hchar := probeCharDevice_eq (k := k)
  simp only [ProbeKernel.withDma, ProbeKernel.withIrq, List.append_assoc, List.cons_append, List.nil_append] at hchar
  simpa [probeDma, allocateCoherent, ProbeKernel.fails, hzero, hc2hBl, hh2cBl, hc2hSg, hh2cSg, hchrdev,
    KStatus.eq_zero hchrdev] using hchar

/-- The code against the table: what each failing step finds done, where it jumps and what it returns. -/
theorem fpgaProbe_eq (k : ProbeKernel) : fpgaProbe k = k.outcome k.firstFailure := by
  rw [ProbeKernel.firstFailure, probeSteps, List.append_assoc, List.find?_append, List.find?_append]
  by_cases henable : k.enableDevice.val < 0
  · simp [fpgaProbe, ProbeKernel.outcome, ProbeKernel.fails, henable]
  by_cases hmask : k.setMask.val < 0
  · simp [fpgaProbe, ProbeKernel.outcome, ProbeKernel.fails, henable, hmask, Int.ne_of_lt hmask]
  by_cases hcoherent : k.setCoherentMask.val < 0
  · simp [fpgaProbe, ProbeKernel.outcome, ProbeKernel.fails, henable, KStatus.eq_zero hmask, hcoherent,
      Int.ne_of_lt hcoherent]
  have hzero := KStatus.eq_zero hmask
  have hzero' := KStatus.eq_zero hcoherent
  cases hkzalloc : k.kzalloc
  · simp [fpgaProbe, ProbeKernel.outcome, ProbeKernel.fails, henable, hzero, hzero', hkzalloc]
  by_cases hregions : k.requestRegions.val < 0
  · simp [fpgaProbe, ProbeKernel.outcome, ProbeKernel.fails, henable, hzero, hzero', hkzalloc, hregions]
  have hbars := mapBars_iff (k := k) (List.finRange 6)
  cases hfind : ((List.finRange 6).map ProbeStep.mapBar).find? k.fails with
  | some s =>
    obtain ⟨i, -, rfl⟩ := List.mem_map.mp (List.mem_of_find?_eq_some hfind)
    rw [hfind] at hbars
    have hbars : (mapBars k.bar (List.finRange 6)).2 = false := by simpa using hbars
    simp [fpgaProbe, ProbeKernel.outcome, ProbeKernel.fails, ProbeKernel.mapped, ProbeKernel.bars, henable, hzero,
      hzero', hkzalloc, KStatus.eq_zero hregions, hbars]
  | none =>
    have hbars := hbars.mpr hfind
    by_cases hvec : k.msiVecCount < 0
    · simp [fpgaProbe, ProbeKernel.outcome, ProbeKernel.fails, ProbeKernel.mapped, ProbeKernel.bars, henable, hzero,
        hzero', hkzalloc, KStatus.eq_zero hregions, hbars, hvec]
    by_cases halloc : k.allocIrqVectors < 0
    · simp [fpgaProbe, ProbeKernel.outcome, ProbeKernel.fails, ProbeKernel.mapped, ProbeKernel.bars, henable, hzero,
        hzero', hkzalloc, KStatus.eq_zero hregions, hbars, hvec, halloc]
    have hdma := probeDma_eq (k := k)
    simp only [ProbeKernel.mapped, ProbeKernel.bars, List.cons_append, List.nil_append] at hdma
    simpa [fpgaProbe, ProbeKernel.fails, henable, hzero, hzero', hkzalloc, KStatus.eq_zero hregions, hbars, hvec,
      halloc] using hdma

/-! ### The resources -/

inductive PciResource
  | device
  | fpdev
  | regions
  | bar (i : Fin 6)
  | irqVectors
  | irq
  | coherent (c : Chan)
  | chrdev
  | cdev
  | devClass
  | node
  | id (i : Fin 32)
  deriving DecidableEq

/-- What decides whether a release of the kernel does anything: `msi_enabled` of the device, and whether the class has
the device node. -/
structure PciState where
  msiEnabled : Bool
  node : Bool

def PciOp.next (s : PciState) : PciOp → PciState
  | .pciAllocIrqVectors => { s with msiEnabled := true }
  | .pciFreeIrqVectors | .pciDisableMsi => { s with msiEnabled := false }
  | .deviceCreate => { s with node := true }
  | .deviceDestroy => { s with node := false }
  | _ => s

/-- The resources that a kernel call takes, needs and gives back. -/
def PciOp.events (s : PciState) : PciOp → List (Event PciResource)
  | .pciEnableDevice => [.acquire .device]
  | .pciDisableDevice => [.release .device]
  | .kzallocFpdev => [.acquire .fpdev]
  | .kfreeFpdev => [.release .fpdev]
  | .pciRequestRegions => [.use .fpdev, .acquire .regions]
  | .pciReleaseRegions => [.release .regions]
  | .pciIoremapBar i => [.use .regions, .use .fpdev, .acquire (.bar i)]
  | .pciIounmap i => [.use .fpdev, .release (.bar i)]
  | .pciAllocIrqVectors => [.acquire .irqVectors]
  | .pciFreeIrqVectors | .pciDisableMsi => if s.msiEnabled then [.release .irqVectors] else []
  | .requestIrq => [.use .irqVectors, .use .fpdev, .acquire .irq]
  | .freeIrq => [.use .irqVectors, .use .fpdev, .release .irq]
  | .dmaAllocCoherent c => [.use .device, .use .fpdev, .acquire (.coherent c)]
  | .allocChrdevRegion => [.acquire .chrdev]
  | .unregisterChrdevRegion => [.release .chrdev]
  | .cdevAdd => [.use .chrdev, .acquire .cdev]
  | .cdevDel => [.release .cdev]
  | .classCreate => [.acquire .devClass]
  | .classDestroy => [.release .devClass]
  | .deviceCreate => [.use .devClass, .use .chrdev, .acquire .node]
  | .deviceDestroy => .use .devClass :: if s.node then [.release .node] else []
  | .claimId i => [.use .fpdev, .acquire (.id i)]
  | .releaseId i => [.use .fpdev, .release (.id i)]

def pciEvents (s : PciState) : List PciOp → List (Event PciResource)
  | [] => []
  | op :: ops => op.events s ++ pciEvents (op.next s) ops

variable {r : PciResource} {s : Status} {p : PciState} {bars : List (Fin 6)}

@[simp] lemma pciEvents_nil : pciEvents p [] = [] := rfl

@[simp] lemma pciEvents_cons (op : PciOp) (ops : List PciOp) :
    pciEvents p (op :: ops) = op.events p ++ pciEvents (op.next p) ops := rfl

/-- `map_bars` takes the BARs that it maps. -/
lemma follow_mapBars (hbars : bars.Nodup) (hregions : r = .regions → s = .held) (hfpdev : r = .fpdev → s = .held)
    (ops : List PciOp) : follow r s (pciEvents p (bars.map .pciIoremapBar ++ ops)) =
      (match r with
      | .bar i => if i ∈ bars then if s = .fresh then some .held else none else some s
      | _ => some s : Option Status).bind fun s => follow r s (pciEvents p ops) := by
  have hevents : pciEvents p (bars.map .pciIoremapBar ++ ops) =
      (bars.flatMap fun i => (PciOp.pciIoremapBar i).events p) ++ pciEvents p ops := by
    clear hbars
    induction bars with
    | nil => rfl
    | cons i bars ih => simp [PciOp.next, ih]
  rw [hevents, follow_append]
  congr 1
  cases r with
  | bar i =>
    rw [follow_flatMap_once hbars (a := i)]
    · simp [PciOp.events, act]
    · intro j hj s
      simp [PciOp.events, act, hj]
  | regions => exact follow_flatMap_same fun i _ => by simp [PciOp.events, act, hregions rfl]
  | fpdev => exact follow_flatMap_same fun i _ => by simp [PciOp.events, act, hfpdev rfl]
  | _ => exact follow_flatMap_same fun i _ => by simp [PciOp.events, act]

/-- `free_bars` gives back the BARs that are mapped. -/
lemma follow_freeBars (hfpdev : r = .fpdev → s = .held) (ops : List PciOp) :
    follow r s (pciEvents p (freeBars bars ++ ops)) =
      (match r with
      | .bar i => if i ∈ bars then if s = .held then some .gone else none else some s
      | _ => some s : Option Status).bind fun s => follow r s (pciEvents p ops) := by
  have hevents : ∀ is : List (Fin 6), pciEvents p (is.map .pciIounmap ++ ops) =
      (is.flatMap fun i => (PciOp.pciIounmap i).events p) ++ pciEvents p ops := by
    intro is
    induction is with
    | nil => rfl
    | cons i is ih => simp [PciOp.next, ih]
  rw [freeBars, hevents, follow_append]
  congr 1
  cases r with
  | bar i =>
    rw [follow_flatMap_once ((List.nodup_finRange 6).filter _) (a := i)]
    · simp [PciOp.events, act]
    · intro j hj s
      simp [PciOp.events, act, hj]
  | fpdev => exact follow_flatMap_same fun i _ => by simp [PciOp.events, act, hfpdev rfl]
  | _ => exact follow_flatMap_same fun i _ => by simp [PciOp.events, act]

lemma mapBars_sublist (bar : Fin 6 → BarAnswer) (is : List (Fin 6)) : (mapBars bar is).1.Sublist is := by
  induction is with
  | nil => exact .refl _
  | cons i is ih =>
    rw [mapBars]
    split_ifs
    · exact ih.cons i
    · exact ih.cons_cons i
    · exact List.nil_sublist _

lemma bars_nodup (k : ProbeKernel) : k.bars.Nodup := (mapBars_sublist _ _).nodup (List.nodup_finRange 6)

/-- What a probe holds behind `map_bars`. -/
def barStatus (bars : List (Fin 6)) : PciResource → Status
  | .device | .fpdev | .regions => .held
  | .bar i => if i ∈ bars then .held else .fresh
  | _ => .fresh

lemma follow_mapped (ops : List PciOp) : follow r .fresh (pciEvents ⟨false, false⟩ (k.mapped ++ ops)) =
    follow r (barStatus k.bars r) (pciEvents ⟨false, false⟩ ops) := by
  rw [ProbeKernel.mapped, List.append_assoc]
  simp only [List.cons_append, List.nil_append, pciEvents_cons, follow_append, PciOp.next]
  cases r with
  | bar i =>
    by_cases hi : i ∈ k.bars <;>
      simp [PciOp.events, act, follow_mapBars (bars_nodup k), barStatus, hi]
  | _ => simp [PciOp.events, act, follow_mapBars (bars_nodup k), barStatus]

/-- The labels give back what is held behind `map_bars`. -/
lemma follow_failReleaseRegions (hfpdev : r = .fpdev → s = .held) :
    follow r s (pciEvents p (failReleaseRegions bars)) =
      match r with
      | .device | .fpdev | .regions => if s = .held then some .gone else none
      | .bar i => if i ∈ bars then if s = .held then some .gone else none else some s
      | _ => some s := by
  rw [failReleaseRegions, follow_freeBars hfpdev]
  cases r with
  | bar i => by_cases hi : i ∈ bars <;> cases s <;> simp [PciOp.events, PciOp.next, act, hi]
  | _ => simp [PciOp.events, PciOp.next, act]

lemma failIrq_eq (bars : List (Fin 6)) : failIrq bars = .pciFreeIrqVectors :: failReleaseRegions bars := rfl

lemma failIrqVectors_eq (bars : List (Fin 6)) :
    failIrqVectors bars = .pciFreeIrqVectors :: failReleaseRegions bars := rfl

/-! ### The exits that keep the balance -/

lemma disabled_settled : Settled (pciEvents ⟨false, false⟩ ([.pciEnableDevice] ++ failDisableDevice)) := by
  intro r
  cases r <;> simp [failDisableDevice, PciOp.events, PciOp.next, act]

lemma freed_settled :
    Settled (pciEvents ⟨false, false⟩ ([.pciEnableDevice] ++ [.kzallocFpdev] ++ failFreeFpdev)) := by
  intro r
  cases r <;> simp [failFreeFpdev, PciOp.events, PciOp.next, act]

lemma irq_settled : Settled (pciEvents ⟨false, false⟩ (k.mapped ++ failIrq k.bars)) := by
  intro r
  rw [follow_mapped, failIrq_eq, pciEvents_cons]
  simp only [PciOp.events, PciOp.next, Bool.false_eq_true, if_false, List.nil_append]
  rw [follow_failReleaseRegions (by rintro rfl; rfl)]
  cases r with
  | bar i => by_cases hi : i ∈ k.bars <;> simp [barStatus, hi]
  | _ => simp [barStatus]

lemma irqVectors_settled :
    Settled (pciEvents ⟨false, false⟩ (k.mapped ++ [.pciAllocIrqVectors] ++ failIrqVectors k.bars)) := by
  intro r
  rw [List.append_assoc, follow_mapped, failIrqVectors_eq]
  simp only [List.cons_append, List.nil_append, pciEvents_cons, PciOp.events, PciOp.next, if_true, follow_cons]
  cases r with
  | irqVectors =>
    simp only [barStatus, act, if_true, Option.bind_some]
    rw [follow_failReleaseRegions (by simp)]
    simp
  | bar i =>
    simp only [barStatus, act, reduceCtorEq, if_false, Option.bind_some]
    rw [follow_failReleaseRegions (by simp)]
    by_cases hi : i ∈ k.bars <;> simp [hi]
  | _ =>
    simp only [barStatus, act, reduceCtorEq, if_false, Option.bind_some]
    rw [follow_failReleaseRegions (by simp)]
    simp

/-- Nothing hangs the interrupt handler off when `alloc_chrdev_region` fails. -/
lemma chrdev_unsettled : ¬Settled (pciEvents ⟨false, false⟩ (k.withDma ++ failIrqVectors k.bars)) := by
  intro h
  obtain ⟨s, hs, hne⟩ := h .irq
  simp only [ProbeKernel.withDma, ProbeKernel.withIrq, List.append_assoc, failIrqVectors_eq] at hs
  rw [follow_mapped] at hs
  simp only [List.cons_append, List.nil_append, pciEvents_cons, PciOp.events, PciOp.next, if_true, follow_cons,
    barStatus, act, reduceCtorEq, if_false, Option.bind_some] at hs
  rw [follow_failReleaseRegions (by simp)] at hs
  exact hne (Option.some.inj hs).symm

/-! ### A device that comes up -/

/-- What a probe without a failure holds. -/
def upStatus (k : ProbeKernel) : PciResource → Status
  | .bar i => if i ∈ k.bars then .held else .fresh
  | .id i => if k.freeId = some i then .held else .fresh
  | _ => .held

/-- What is left behind `fpga_remove`. -/
def removedStatus (k : ProbeKernel) : PciResource → Status
  | .bar i => if i ∈ k.bars then .gone else .fresh
  | .id i => if k.freeId = some i then .gone else .fresh
  | .coherent _ => .held
  | _ => .gone

lemma follow_probed (ops : List PciOp) :
    follow r .fresh (pciEvents ⟨false, false⟩ (k.withClass ++ [.deviceCreate] ++ k.claim ++ ops)) =
      follow r (upStatus k r) (pciEvents ⟨true, true⟩ ops) := by
  have hclaim : ∀ p, pciEvents p (k.claim ++ ops) =
      (k.freeId.toList.flatMap fun i => [.use .fpdev, .acquire (.id i)]) ++ pciEvents p ops := by
    intro p
    rw [ProbeKernel.claim]
    cases k.freeId <;> rfl
  simp only [ProbeKernel.withClass, ProbeKernel.withDma, ProbeKernel.withIrq, List.append_assoc]
  rw [follow_mapped]
  simp only [List.cons_append, List.nil_append, pciEvents_cons, PciOp.next, hclaim]
  cases hid : k.freeId with
  | none => cases r with
    | coherent c => cases c <;> simp [PciOp.events, act, barStatus, upStatus]
    | _ => simp [PciOp.events, act, barStatus, upStatus, hid]
  | some j => cases r with
    | coherent c => cases c <;> simp [PciOp.events, act, barStatus, upStatus]
    | id i => by_cases hi : j = i <;> simp [PciOp.events, act, barStatus, upStatus, hid, hi]
    | _ => simp [PciOp.events, act, barStatus, upStatus]

lemma follow_removed : follow r (upStatus k r) (pciEvents ⟨true, true⟩ (fpgaRemove (some ⟨k.freeId, k.bars⟩))) =
    some (removedStatus k r) := by
  have hrelease : ∀ ops, pciEvents ⟨true, true⟩ (k.freeId.toList.map .releaseId ++ ops) =
      (k.freeId.toList.flatMap fun i => [.use .fpdev, .release (.id i)]) ++ pciEvents ⟨true, true⟩ ops := by
    intro ops
    cases k.freeId <;> rfl
  simp only [fpgaRemove, List.append_assoc, hrelease]
  simp only [List.cons_append, List.nil_append, pciEvents_cons, PciOp.next]
  cases hid : k.freeId with
  | none => cases r with
    | bar i => by_cases hi : i ∈ k.bars <;> simp [PciOp.events, PciOp.next, act, upStatus, removedStatus, follow_freeBars, hi]
    | _ => simp [PciOp.events, PciOp.next, act, upStatus, removedStatus, follow_freeBars, hid]
  | some j => cases r with
    | bar i => by_cases hi : i ∈ k.bars <;> simp [PciOp.events, PciOp.next, act, upStatus, removedStatus, follow_freeBars, hi]
    | id i => by_cases hi : j = i <;> simp [PciOp.events, PciOp.next, act, upStatus, removedStatus, follow_freeBars, hid, hi]
    | _ => simp [PciOp.events, PciOp.next, act, upStatus, removedStatus, follow_freeBars]

/-- `fpga_remove` gives back all that a probe has taken but the four DMA buffers. -/
theorem remove_left (h : k.firstFailure = none) (r : PciResource) :
    follow r .fresh (pciEvents ⟨false, false⟩ ((fpgaProbe k).ops ++ fpgaRemove (fpgaProbe k).drvdata)) =
      some (removedStatus k r) := by
  rw [fpgaProbe_eq, h]
  exact (follow_probed _).trans follow_removed

/-! ### The balance -/

/-- A probe with a failing step returns an error and leaves nothing behind, and what a successful one has taken,
`fpga_remove` gives back. -/
structure ProbeKernel.Balanced (k : ProbeKernel) : Prop where
  failure : k.firstFailure.isSome →
    (fpgaProbe k).ret < 0 ∧ Settled (pciEvents ⟨false, false⟩ (fpgaProbe k).ops)
  success : (fpgaProbe k).ret = 0 →
    Settled (pciEvents ⟨false, false⟩ ((fpgaProbe k).ops ++ fpgaRemove (fpgaProbe k).drvdata))

lemma firstFailure_fails {s : ProbeStep} (h : k.firstFailure = some s) : k.fails s = true := List.find?_some h

lemma balanced_of_unwinds {s : ProbeStep} (h : k.firstFailure = some s) (hs : s.unwinds = true) : k.Balanced := by
  have hfails := firstFailure_fails h
  have hret : (fpgaProbe k).ret < 0 := by
    rw [fpgaProbe_eq, h]
    cases s <;> simp [ProbeStep.unwinds] at hs <;>
      simp [ProbeKernel.fails, ProbeKernel.outcome, enodev, enomem] at hfails ⊢ <;> exact hfails
  have hsettled : Settled (pciEvents ⟨false, false⟩ (fpgaProbe k).ops) := by
    rw [fpgaProbe_eq, h]
    cases s <;> simp only [ProbeStep.unwinds, Bool.false_eq_true] at hs
    case enableDevice => exact fun r => ⟨.fresh, rfl, by simp⟩
    case setMask => exact disabled_settled
    case setCoherentMask => exact disabled_settled
    case kzalloc => exact disabled_settled
    case requestRegions => exact freed_settled
    case allocIrqVectors => exact irq_settled
    case requestIrq => exact irqVectors_settled
  exact ⟨fun _ => ⟨hret, hsettled⟩, fun hzero => absurd hzero (Int.ne_of_lt hret)⟩

/-- The other exits return the zero of an earlier call, or leave the interrupt and the DMA buffers. -/
lemma not_balanced_of_not_unwinds {s : ProbeStep} (h : k.firstFailure = some s) (hs : s.unwinds = false) :
    ¬k.Balanced := by
  intro hbalanced
  obtain ⟨hret, hsettled⟩ := hbalanced.failure (by rw [h]; rfl)
  rw [fpgaProbe_eq, h] at hret hsettled
  cases s with
  | allocChrdev => exact chrdev_unsettled hsettled
  | coherent c => cases c <;> simp [ProbeKernel.outcome] at hret
  | deviceCreate => by_cases hnull : k.deviceCreate = .null <;> simp [ProbeKernel.outcome, hnull] at hret
  | _ => simp [ProbeKernel.outcome, ProbeStep.unwinds] at hret hs

/-- The balance is kept exactly by the probes that fail first at one of the seven steps. -/
theorem probe_balanced_iff (k : ProbeKernel) :
    k.Balanced ↔ ∃ s, k.firstFailure = some s ∧ s.unwinds = true := by
  cases h : k.firstFailure with
  | none =>
    have hleak : ¬k.Balanced := by
      intro hbalanced
      have hret : (fpgaProbe k).ret = 0 := by
        rw [fpgaProbe_eq, h]
        rfl
      obtain ⟨s, hs, hne⟩ := hbalanced.success hret (.coherent .c2hBl)
      rw [remove_left h] at hs
      exact hne (Option.some.inj hs).symm
    simp [hleak]
  | some s =>
    cases hs : s.unwinds with
    | false => simp [not_balanced_of_not_unwinds h hs, hs]
    | true => simp [balanced_of_unwinds h hs, hs]

/-- Every step succeeds, with one implemented BAR. -/
def wellProbe : ProbeKernel where
  enableDevice := ⟨0, Int.le_refl 0⟩
  setMask := ⟨0, Int.le_refl 0⟩
  setCoherentMask := ⟨0, Int.le_refl 0⟩
  kzalloc := true
  requestRegions := ⟨0, Int.le_refl 0⟩
  bar i := if i = 0 then ⟨0xf0000000, 0xf00fffff, true⟩ else ⟨0, 0, true⟩
  msiVecCount := 1
  allocIrqVectors := 1
  requestIrq := ⟨0, Int.le_refl 0⟩
  coherent _ := true
  allocChrdev := ⟨0, Int.le_refl 0⟩
  cdevAdd := ⟨0, Int.le_refl 0⟩
  classCreate := ⟨0, Int.le_refl 0⟩
  deviceCreate := .device
  freeId := some 0

/-- When BAR 0 cannot be mapped, the probe undoes its work and returns 0. -/
theorem unmapped_bar_succeeds :
    let k := { wellProbe with bar i := if i = 0 then ⟨0xf0000000, 0xf00fffff, false⟩ else ⟨0, 0, true⟩ }
    k.firstFailure = some (.mapBar 0) ∧ (fpgaProbe k).ret = 0 ∧ ¬k.Balanced := by
  intro k
  have hfails : k.firstFailure = some (.mapBar 0) := by decide
  have hret : (fpgaProbe k).ret = 0 := by decide
  exact ⟨hfails, hret, fun h => by simpa [hret] using (h.failure (by rw [hfails]; rfl)).1⟩

end FpgaPcie
