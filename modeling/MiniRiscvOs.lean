import MiniRiscvOs.Lib.System
import MiniRiscvOs.Lib.Spans
import MiniRiscvOs.Lib.Memory
import MiniRiscvOs.Kernel.Alloc
import MiniRiscvOs.Kernel.Spinlock
import MiniRiscvOs.Proofs.AllocLoops
import MiniRiscvOs.Proofs.HeapInvariant
import MiniRiscvOs.Proofs.HeapRequests
import MiniRiscvOs.Proofs.HeapFree
import MiniRiscvOs.Kernel.MallocSteps
import MiniRiscvOs.Proofs.MallocSteps
import MiniRiscvOs.Proofs.MallocPair
import MiniRiscvOs.Proofs.Spinlock
import MiniRiscvOs.Lib.Holdings
import MiniRiscvOs.Kernel.VirtioDesc
import MiniRiscvOs.Proofs.VirtioDesc
import MiniRiscvOs.Kernel.Virtio
import MiniRiscvOs.Proofs.Virtio
import MiniRiscvOs.Lib.Ring
import MiniRiscvOs.Kernel.VirtioIsr
import MiniRiscvOs.Proofs.VirtioIsr
import MiniRiscvOs.Kernel.VirtioRw
import MiniRiscvOs.Proofs.VirtioRw
import MiniRiscvOs.Lib.Sink
import MiniRiscvOs.Kernel.Printf
import MiniRiscvOs.Kernel.Console
import MiniRiscvOs.Proofs.Console
import MiniRiscvOs.Proofs.Printf
import MiniRiscvOs.Lib.Rv32
import MiniRiscvOs.Lib.Coroutine
import MiniRiscvOs.Kernel.MultiTasking
import MiniRiscvOs.Proofs.MultiTasking
import MiniRiscvOs.Kernel.Trap
import MiniRiscvOs.Kernel.Timer
import MiniRiscvOs.Proofs.Timer
import MiniRiscvOs.Proofs.Trap
import MiniRiscvOs.Kernel.Preempt
import MiniRiscvOs.Kernel.Boot
import MiniRiscvOs.Proofs.Preempt
import MiniRiscvOs.Proofs.Boot
import MiniRiscvOs.Kernel.Owners
import MiniRiscvOs.Proofs.Owners
import MiniRiscvOs.Proofs.VirtioRw
import MiniRiscvOs.Proofs.Format
import MiniRiscvOs.Proofs.Decimal
import MiniRiscvOs.Kernel.StringMove
import MiniRiscvOs.Proofs.StringMove
import MiniRiscvOs.Kernel.TaskTable
import MiniRiscvOs.Proofs.FreeChain
import MiniRiscvOs.Proofs.TaskTable
import MiniRiscvOs.Kernel.LineInput
import MiniRiscvOs.Proofs.LineInput
import MiniRiscvOs.Proofs.HeapWalk
import MiniRiscvOs.Kernel.PrintfTrap
import MiniRiscvOs.Proofs.PrintfTrap
import MiniRiscvOs.Kernel.VirtioStatus
import MiniRiscvOs.Proofs.VirtioStatus
import MiniRiscvOs.Kernel.VirtioData
import MiniRiscvOs.Proofs.VirtioData
import MiniRiscvOs.Proofs.VirtioProgress
import MiniRiscvOs.Kernel.VirtioSetup
import MiniRiscvOs.Proofs.VirtioSetup
import MiniRiscvOs.Kernel.External
import MiniRiscvOs.Proofs.External
import MiniRiscvOs.Kernel.Transmit
import MiniRiscvOs.Proofs.Transmit
import MiniRiscvOs.Proofs.VirtioSequential
import MiniRiscvOs.Proofs.Exceptions
import MiniRiscvOs.Proofs.PrintfRoundtrip
import MiniRiscvOs.Kernel.Preemptive
import MiniRiscvOs.Proofs.Preemptive
import MiniRiscvOs.Lib.Path
import MiniRiscvOs.Proofs.PreemptiveLive
import MiniRiscvOs.Proofs.PrintfProgress
import MiniRiscvOs.Proofs.SpinlockLive
import MiniRiscvOs.Proofs.VirtioLive
import MiniRiscvOs.Proofs.ExternalLive
import MiniRiscvOs.Proofs.TransmitLive
import MiniRiscvOs.Proofs.HeapFirstFit
