import Xv6.TraceMonad
import Xv6.BitField
import Xv6.RedoLog
import Xv6.Layout
import Xv6.Bio
import Xv6.Cache
import Xv6.Codec
import Xv6.LogSpec
import Xv6.Recovery
import Xv6.Fs
import Xv6.Ownership
import Xv6.Disk
import Xv6.DevSpec
import Xv6.InodeSpec
import Xv6.ContentSpec
import Xv6.InodeLife
import Xv6.Directory
import Xv6.DirSpec
import Xv6.Moves
import Xv6.OpSpec
import Xv6.CreateSpec
import Xv6.FileSpec
import Xv6.CallSpec
import Xv6.Syscall
import Xv6.Mkfs
import Xv6.Transition
import Xv6.Sleep
import Xv6.RingBuffer
import Xv6.Pipe
import Xv6.ProcTable
import Xv6.SchedSpec
import Xv6.Lifecycle
import Xv6.WaitSpec
import Xv6.ProcFlags
import Xv6.MkfsSpec
import Xv6.ImageSpec
import Xv6.RunSpec
import Xv6.Sessions
import Xv6.LinkedRing
import Xv6.BufferCache
import Xv6.ReadCall
import Xv6.ImageFiles
import Xv6.Vm
import Xv6.RoleForest
import Xv6.VmSpec
import Xv6.PageTables
import Xv6.AddressSpaces
import Xv6.Exec
import Xv6.ExecPlan
import Xv6.Growth
import Xv6.Loading
import Xv6.Arguments
import Xv6.ExecSafety
import Xv6.Allocation
import Xv6.Probe
import Xv6.GrowProc
import Xv6.CopyMemory
import Xv6.Fork
import Xv6.Intervals
import Xv6.Malloc
import Xv6.MallocSpec
import Xv6.Shrinking
import Xv6.Isolation
import Xv6.GetPinfo
import Xv6.Descriptors
import Xv6.ExecFrame
import Xv6.UserMemory
import Xv6.ProgramImage
import Xv6.ArgumentStack
import Xv6.NullPointer
import Xv6.ExecCall
import Xv6.ExecFailure
import Xv6.ExecArguments
import Xv6.MemMove
import Xv6.Regions
import Xv6.Regex
import Xv6.TableWalk
import Xv6.CpuTables
import Xv6.Processors
import Xv6.PageMap
import Xv6.Promises
import Xv6.Quiescence
import Xv6.Paths
import Xv6.FileBytes
