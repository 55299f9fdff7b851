import FpgaPcie.Lib.RingBuffer
import FpgaPcie.Lib.BoundedQueue
import FpgaPcie.Lib.Chunks
import FpgaPcie.Lib.Progress
import FpgaPcie.Rtl.Stream
import FpgaPcie.Rtl.Tlp
import FpgaPcie.Rtl.DmaRd
import FpgaPcie.Rtl.DmaRdHandshake
import FpgaPcie.Rtl.DmaRdPackets
import FpgaPcie.Rtl.DmaRdHost
import FpgaPcie.Rtl.DmaRdInvariant
import FpgaPcie.Rtl.DmaRdStep
import FpgaPcie.Rtl.DmaRdReassembly
import FpgaPcie.Rtl.DmaRdPacketise
import FpgaPcie.Rtl.SgList
import FpgaPcie.Rtl.SgdmaRd
import FpgaPcie.Rtl.SgdmaRdPhases
import FpgaPcie.Rtl.SgdmaRdTransfer
import FpgaPcie.Rtl.DmaWr
import FpgaPcie.Rtl.DmaWrPackets
import FpgaPcie.Rtl.DmaWrRun
import FpgaPcie.Rtl.DmaWrPacketise
import FpgaPcie.Rtl.SgdmaWr
import FpgaPcie.Rtl.SgdmaWrEngine
import FpgaPcie.Rtl.SgdmaWrPhases
import FpgaPcie.Rtl.SgdmaWrTransfer
import FpgaPcie.Lib.SkidBuffer
import FpgaPcie.Rtl.TlpMux
import FpgaPcie.Rtl.SgdmaCtrl
import FpgaPcie.Driver.Sgdma
import FpgaPcie.Driver.Call
import FpgaPcie.Driver.BlockDma
import FpgaPcie.Driver.Device
import FpgaPcie.Lib.Transition
import FpgaPcie.Driver.Program
import FpgaPcie.Driver.Transfer
import FpgaPcie.Driver.Invariant
import FpgaPcie.Driver.SystemInvariant
import FpgaPcie.Driver.Completion
import FpgaPcie.Driver.Quiescence
import FpgaPcie.Driver.WakeUp
import FpgaPcie.Driver.Overlap
import FpgaPcie.Lib.GrayCode
import FpgaPcie.Rtl.AsyncFifo
import FpgaPcie.Rtl.BarMaster
import FpgaPcie.Rtl.BarTrace
import FpgaPcie.Rtl.BarInvariant
import FpgaPcie.Rtl.BarRefinement
import FpgaPcie.Rtl.BarDelivery
import FpgaPcie.Rtl.DmaWrStream
import FpgaPcie.Rtl.RcStream
import FpgaPcie.Rtl.RxRdIrq
import FpgaPcie.Lib.TaggedLog
import FpgaPcie.Rtl.DmaRdChain
import FpgaPcie.Rtl.DmaRdConsecutive
import FpgaPcie.Rtl.FwftAsync
import FpgaPcie.Rtl.NativeFifo
import FpgaPcie.Rtl.RqStream
import FpgaPcie.Rtl.TxWrIrq
import FpgaPcie.Rtl.RxRdIrqCount
import FpgaPcie.Rtl.NarrowIrq
import FpgaPcie.Rtl.Termination
import FpgaPcie.Rtl.SgdmaRdOrder
import FpgaPcie.Rtl.DmaRdWindow
import FpgaPcie.Rtl.AxiRd
import FpgaPcie.Rtl.DmaRdError
import FpgaPcie.Rtl.DmaRdTags
import FpgaPcie.Rtl.SgdmaLink
import FpgaPcie.Rtl.EngineOutput
import FpgaPcie.Rtl.AxiBurst
import FpgaPcie.Rtl.AxiDmaRd
import FpgaPcie.Lib.ZipLog
import FpgaPcie.Rtl.AxiDmaRdRun
import FpgaPcie.Rtl.AxiDmaRdFrames
import FpgaPcie.Rtl.HostWrite
import FpgaPcie.Rtl.AxiWr
import FpgaPcie.Rtl.AxiDmaWr
import FpgaPcie.Rtl.AxiDmaWrRun
import FpgaPcie.Rtl.AxiDmaWrFrames
import FpgaPcie.Rtl.AxiDmaWrStores
import FpgaPcie.Rtl.CardWrite
import FpgaPcie.Rtl.AxiRdCopy
import FpgaPcie.Rtl.AxiRam
import FpgaPcie.Rtl.AxiRamRun
import FpgaPcie.Rtl.AxiRamMemory
import FpgaPcie.Rtl.AxiRamLink
import FpgaPcie.Rtl.DmaIfAxi
import FpgaPcie.Rtl.DmaIfAxiCopy
import FpgaPcie.Rtl.DmaIfAxiReturn
import FpgaPcie.Driver.SgBalance
import FpgaPcie.Driver.SgCoverage
import FpgaPcie.Driver.BusyLoop
import FpgaPcie.Driver.Probe
import FpgaPcie.Driver.ProbeBalance
import FpgaPcie.Driver.SgFailure
import FpgaPcie.Driver.DeviceTable
import FpgaPcie.Driver.Ioctl
import FpgaPcie.Scripts.TlpDecode
