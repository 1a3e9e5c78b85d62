import Xv6.LogAtomicity
import Xv6.LogCapacity
import Xv6.LogExclusion
import Xv6.ProcKilled
import Xv6.ProcWait
import Xv6.LostWakeup
import Xv6.PipeFifo
import Xv6.PipeWakeup
import Xv6.PageConservation
import Xv6.UserSize
import Xv6.BlockMap
import Xv6.BlockOwnership
import Xv6.InodeRelease
import Xv6.PathWalk
import Xv6.OwnLock
import Xv6.CacheCoherence
import Xv6.IdeRefinement
import Xv6.FileRefs
import Xv6.WriteThrough
import Xv6.SleepLock
import Xv6.LineDiscipline
import Xv6.FileWrite
import Xv6.OneCpu
import Xv6.ShellCommand
import Xv6.UserHeap
import Xv6.GrepMatch
import Xv6.GrepChunks
import Xv6.ShellWords
import Xv6.ShellRedirect
import Xv6.MallocSize
import Xv6.CopyOut
import Xv6.ForkCopy
import Xv6.ExecProgram
import Xv6.Memmove
import Xv6.InterruptNesting
import Xv6.MpTable
import Xv6.MapPages
import Xv6.DiskErrors
import Xv6.CacheRoom
import Xv6.CreateRoom
import Xv6.OpenLimits
import Xv6.Kinit
import Xv6.Printf
import Xv6.Cga
