import LinuxInterface.Base.SizeT
import LinuxInterface.Base.Loop
import LinuxInterface.Base.LinkedList
import LinuxInterface.Base.Tiling
import LinuxInterface.Base.Reach
import LinuxInterface.Base.Interleave
import LinuxInterface.Base.Mutex
import LinuxInterface.Base.SysvSem
import LinuxInterface.Base.AssocList
import LinuxInterface.Base.CString
import LinuxInterface.Base.OpenFile
import LinuxInterface.Base.Lines
import LinuxInterface.Base.Stdio
import LinuxInterface.Base.Scanf
import LinuxInterface.Base.ProcDir
import LinuxInterface.Base.Forest
import LinuxInterface.Base.Credentials
import LinuxInterface.Base.WordSet
import LinuxInterface.Base.Sparse
import LinuxInterface.Base.Directory
import LinuxInterface.Base.Paths
import LinuxInterface.Base.Bpf
import LinuxInterface.Base.Channel
import LinuxInterface.Ch04.Tee
import LinuxInterface.Ch04.Cp
import LinuxInterface.Ch05.AtomicAppend
import LinuxInterface.Ch05.Dup
import LinuxInterface.Ch05.DupAlone
import LinuxInterface.Ch05.Vectored
import LinuxInterface.Ch06.Env
import LinuxInterface.Ch06.EnvMap
import LinuxInterface.Ch06.Unsetenv
import LinuxInterface.Ch07.Malloc
import LinuxInterface.Ch07.Blocks
import LinuxInterface.Ch07.MallocSpec
import LinuxInterface.Ch07.FreeSpec
import LinuxInterface.Ch07.ListOps
import LinuxInterface.Ch07.MallocStep
import LinuxInterface.Ch07.MallocCalls
import LinuxInterface.Ch07.MallocRuns
import LinuxInterface.Ch07.MallocSafety
import LinuxInterface.Ch09.Initgroups
import LinuxInterface.Ch09.SetUid
import LinuxInterface.Ch12.ReadProcesses
import LinuxInterface.Ch12.PsTree
import LinuxInterface.Ch12.ListProc
import LinuxInterface.Ch12.FileProc
import LinuxInterface.Ch13.Tail
import LinuxInterface.Ch14.TestFiles
import LinuxInterface.Ch14.DeleteOrder
import LinuxInterface.Ch15.EuidAccess
import LinuxInterface.Ch15.Chattr
import LinuxInterface.Ch15.Chmod
import LinuxInterface.Ch15.GetUmask
import LinuxInterface.Ch17.AclEntry
import LinuxInterface.Dist.OneTimeInit
import LinuxInterface.Dist.ThreadIncr
import LinuxInterface.Dist.ProdCondvar
import LinuxInterface.Dist.SvshmXfr
import LinuxInterface.Dist.SvshmXfrRuns
import LinuxInterface.Dist.Seccomp
import LinuxInterface.Dist.SvsemInit
import LinuxInterface.Dist.Rdwrn
import LinuxInterface.Dist.ReadLine
import LinuxInterface.Dist.IsSeqnum
import LinuxInterface.Dist.InotifyDtree
import LinuxInterface.Dist.InotifySound
import LinuxInterface.Dist.InotifyTree
import LinuxInterface.Dist.InotifyGrow
import LinuxInterface.Dist.InotifySync
import LinuxInterface.Dist.InotifyRuns
import LinuxInterface.Dist.InotifyLive
