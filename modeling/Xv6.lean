import Xv6.Bio.Capacity
import Xv6.Bio.Coherence
import Xv6.Bio.Lru
import Xv6.Console.LineDiscipline
import Xv6.Files.FileCounts
import Xv6.Grep.Output
import Xv6.Heap.UserHeap
import Xv6.Library.LoopRule
import Xv6.Log.Absorption
import Xv6.Log.AdmissionInvariant
import Xv6.Log.CrashAtomicity
import Xv6.Pipe.Sleepers
import Xv6.Proc.ExecSafety
import Xv6.Proc.FaultHandler
import Xv6.Proc.LazySbrk
import Xv6.Proc.MapCalls
import Xv6.Proc.PagetableRelease
import Xv6.Proc.RegionContents
import Xv6.Proc.SbrkEffect
import Xv6.Proc.ShareCall
import Xv6.Proc.SharedPage
import Xv6.Proc.SpaceCopy
import Xv6.Proc.Teardown
import Xv6.Proc.UserStrings
import Xv6.Sched.CleanSlots
import Xv6.Sched.LostWakeup
import Xv6.Shell.RoundTrip
import Xv6.Virtio.Protocol
import Xv6.Vm.PageAllocator
import Xv6.Vm.FillSpec
import Xv6.Vm.FiniteMap
import Xv6.Support.Memmove
import Xv6.Support.Printint
