import FpgaPcie.Driver.Call
import FpgaPcie.Driver.Sgdma
import FpgaPcie.Lib.Ledger

/-!
# `fpga_probe` and `fpga_remove`

`fpga_probe` acquires the resources of a device one after the other, and each failing step jumps to the label
that is to release what it holds. `fpga_remove` releases what a successful probe has left.
-/

namespace FpgaPcie

def enodev : ℤ := 19
def enomem : ℤ := 12

/-- The kernel calls of `fpga_probe` and `fpga_remove` that acquire or release something. Those that acquire are
listed where they succeed. -/
inductive PciOp
  | pciEnableDevice
  | pciDisableDevice
  | kzallocFpdev
  | kfreeFpdev
  | pciRequestRegions
  | pciReleaseRegions
  | pciIoremapBar (i : Fin 6)
  | pciIounmap (i : Fin 6)
  | pciAllocIrqVectors
  | pciFreeIrqVectors
  | pciDisableMsi
  | requestIrq
  | freeIrq
  | dmaAllocCoherent (c : Chan)
  | allocChrdevRegion
  | unregisterChrdevRegion
  | cdevAdd
  | cdevDel
  | classCreate
  | classDestroy
  | deviceCreate
  | deviceDestroy
  /-- `atomic_xchg(&used_fpgas[i], 1)`, and the pointer behind it -/
  | claimId (i : Fin 32)
  /-- `atomic_set(&used_fpgas[i], 0)`, and the pointer behind it -/
  | releaseId (i : Fin 32)

/-- A kernel function that returns 0 or a negative error. -/
abbrev KStatus := { e : ℤ // e ≤ 0 }

/-- What `device_create` returns; it does not return NULL when it fails. -/
inductive DeviceAnswer
  | device
  | null
  | errPtr
  deriving DecidableEq

/-- The resource of a BAR, and whether `pci_ioremap_bar` maps it. -/
structure BarAnswer where
  barStart : BitVec 64
  barEnd : BitVec 64
  ioremap : Bool

/-- What the kernel answers to a probe. -/
structure ProbeKernel where
  enableDevice : KStatus
  setMask : KStatus
  setCoherentMask : KStatus
  kzalloc : Bool
  requestRegions : KStatus
  bar : Fin 6 → BarAnswer
  msiVecCount : ℤ
  allocIrqVectors : ℤ
  requestIrq : KStatus
  coherent : Chan → Bool
  allocChrdev : KStatus
  cdevAdd : KStatus
  classCreate : KStatus
  deviceCreate : DeviceAnswer
  /-- the ID that the loop over `used_fpgas` claims -/
  freeId : Option (Fin 32)

/-- The fields of `struct fpga_pdev` that `fpga_remove` reads. -/
structure ProbedDevice where
  id : Option (Fin 32)
  /-- the BARs whose pointer is not NULL -/
  bars : List (Fin 6)

structure ProbeResult where
  ops : List PciOp
  ret : ℤ
  /-- `pci_get_drvdata` -/
  drvdata : Option ProbedDevice

/-! ### The helpers -/

-- the lists of BARs are compared by this one instance
instance bar_lawfulBEq : LawfulBEq (Fin 6) := inferInstance

/-- `bar_end - bar_start + 1`, or zero for a BAR that is not implemented. -/
def BarAnswer.barLen (b : BarAnswer) : BitVec 64 :=
  if b.barStart = 0 ∨ b.barEnd = 0 then 0 else b.barEnd - b.barStart + 1

/-- `map_bars` from BAR `is` on: the BARs that it maps, and whether all are mapped that have a length. -/
def mapBars (bar : Fin 6 → BarAnswer) : List (Fin 6) → List (Fin 6) × Bool
  | [] => ([], true)
  | i :: is =>
    if (bar i).barLen = 0 then mapBars bar is
    else if (bar i).ioremap then
      (i :: (mapBars bar is).1, (mapBars bar is).2)
    else ([], false)

/-- `free_bars`. -/
def freeBars (bars : List (Fin 6)) : List PciOp :=
  ((List.finRange 6).filter (· ∈ bars)).map .pciIounmap

/-- `allocate_blockdma` and `allocate_sglistdma`: the C2H buffer, then the H2C buffer. -/
def allocateCoherent (coherent : Chan → Bool) (c2h h2c : Chan) : List PciOp × ℤ :=
  if coherent c2h = false then ([], -enomem)
  else if coherent h2c = false then ([.dmaAllocCoherent c2h], -enomem)
  else ([.dmaAllocCoherent c2h, .dmaAllocCoherent h2c], 0)

/-- The buffers that the probe takes for the lists are those that `allocate_sglistdma` enters into the device. -/
theorem allocateCoherent_sglist {coherent : Chan → Bool} {fpdev : SglistDma} (hnull : fpdev.h2cSgl = none)
    {c2h h2c : Option (BitVec 64)} (hc2h : coherent .c2hSg = c2h.isSome) (hh2c : coherent .h2cSg = h2c.isSome) :
    (allocateCoherent coherent .c2hSg .h2cSg).2 = (allocateSglistdma fpdev c2h h2c).2 ∧
      (allocateCoherent coherent .c2hSg .h2cSg).1 =
        (if (allocateSglistdma fpdev c2h h2c).1.c2hSgl.isSome then [.dmaAllocCoherent .c2hSg] else []) ++
          if (allocateSglistdma fpdev c2h h2c).1.h2cSgl.isSome then [.dmaAllocCoherent .h2cSg] else [] := by
  cases c2h with
  | none => simp [allocateCoherent, allocateSglistdma, enomem, hc2h, hnull]
  | some a => cases h2c <;> simp [allocateCoherent, allocateSglistdma, enomem, hc2h, hh2c]

/-! ### The labels -/

def failDisableDevice : List PciOp := [.pciDisableDevice]

def failFreeFpdev : List PciOp := [.kfreeFpdev, .pciDisableDevice]

def failReleaseRegions (bars : List (Fin 6)) : List PciOp :=
  freeBars bars ++ [.pciReleaseRegions, .kfreeFpdev, .pciDisableDevice]

def failIrq (bars : List (Fin 6)) : List PciOp :=
  .pciFreeIrqVectors :: freeBars bars ++ [.pciReleaseRegions, .kfreeFpdev, .pciDisableDevice]

def failIrqVectors (bars : List (Fin 6)) : List PciOp :=
  .pciFreeIrqVectors :: freeBars bars ++ [.pciReleaseRegions, .kfreeFpdev, .pciDisableDevice]

def failAllocChr (bars : List (Fin 6)) : List PciOp :=
  .unregisterChrdevRegion :: .pciFreeIrqVectors :: freeBars bars ++
    [.pciReleaseRegions, .kfreeFpdev, .pciDisableDevice]

/-! ### The two calls -/

/-- From the character device on: `ops` has been done, and `error` is the zero of `alloc_chrdev_region`. -/
def probeCharDevice (k : ProbeKernel) (ops : List PciOp) (bars : List (Fin 6)) (error : ℤ) : ProbeResult :=
  if k.cdevAdd.val ≠ 0 then ⟨ops ++ failAllocChr bars, error, none⟩
  else
    let ops := ops ++ [.cdevAdd]
    if k.classCreate.val < 0 then ⟨ops ++ .cdevDel :: failAllocChr bars, error, none⟩
    else
      let ops := ops ++ [.classCreate]
      if k.deviceCreate = .null then ⟨ops ++ .classDestroy :: .cdevDel :: failAllocChr bars, error, none⟩
      else
        let ops := if k.deviceCreate = .device then ops ++ [.deviceCreate] else ops
        match k.freeId with
        | none => ⟨ops, 0, some ⟨none, bars⟩⟩
        | some i => ⟨ops ++ [.claimId i], 0, some ⟨some i, bars⟩⟩

/-- From the interrupt on; `error` is the zero of `request_irq` behind it. -/
def probeDma (k : ProbeKernel) (ops : List PciOp) (bars : List (Fin 6)) : ProbeResult :=
  let error : ℤ := k.requestIrq
  if error < 0 then ⟨ops ++ failIrqVectors bars, error, none⟩
  else
    let ops := ops ++ [.requestIrq]
    let block := allocateCoherent k.coherent .c2hBl .h2cBl
    let ops := ops ++ block.1
    if block.2 < 0 then ⟨ops ++ failIrqVectors bars, error, none⟩
    else
      let sglist := allocateCoherent k.coherent .c2hSg .h2cSg
      let ops := ops ++ sglist.1
      if sglist.2 < 0 then ⟨ops ++ failIrqVectors bars, error, none⟩
      else
        let error : ℤ := k.allocChrdev
        if error < 0 then ⟨ops ++ failIrqVectors bars, error, none⟩
        else probeCharDevice k (ops ++ [.allocChrdevRegion]) bars error

/-- `fpga_probe`. The code has two status variables: `map_bars`, `pci_msi_vec_count`, the allocators, `cdev_add`
and `class_create` set `ret` or `vec_cnt`, and every label returns `error`. -/
def fpgaProbe (k : ProbeKernel) : ProbeResult :=
  if k.enableDevice.val < 0 then ⟨[], -enodev, none⟩
  else
    let ops := [.pciEnableDevice]
    let error : ℤ := if k.setMask.val = 0 then k.setCoherentMask else k.setMask
    if error ≠ 0 then ⟨ops ++ failDisableDevice, error, none⟩
    else if k.kzalloc = false then ⟨ops ++ failDisableDevice, -enomem, none⟩
    else
      let ops := ops ++ [.kzallocFpdev]
      let error : ℤ := k.requestRegions
      if error < 0 then ⟨ops ++ failFreeFpdev, error, none⟩
      else
        let ops := ops ++ [.pciRequestRegions]
        let bars := mapBars k.bar (List.finRange 6)
        let ops := ops ++ bars.1.map .pciIoremapBar
        if bars.2 = false then ⟨ops ++ failReleaseRegions bars.1, error, none⟩
        else if k.msiVecCount < 0 then ⟨ops ++ failReleaseRegions bars.1, error, none⟩
        else
          let error := k.allocIrqVectors
          if error < 0 then ⟨ops ++ failIrq bars.1, error, none⟩
          else probeDma k (ops ++ [.pciAllocIrqVectors]) bars.1

/-- `fpga_remove`; the argument is `pci_get_drvdata`. -/
def fpgaRemove : Option ProbedDevice → List PciOp
  | none => []
  | some d =>
    d.id.toList.map .releaseId ++ [.freeIrq, .pciFreeIrqVectors, .pciDisableMsi] ++ freeBars d.bars ++
      [.pciReleaseRegions, .kfreeFpdev, .pciDisableDevice, .deviceDestroy, .classDestroy, .cdevDel,
        .unregisterChrdevRegion]

end FpgaPcie
