import Mmix.Drivers.Ahci
import Mmix.Drivers.Isqrt
import Mmix.Drivers.Uhci
import Mmix.Fs.Ext2Compose
import Mmix.Fs.Ext2List
import Mmix.Fs.Ext2Walk
import Mmix.Fs.InitrdBounds
import Mmix.Fs.Partition
import Mmix.Fs.PipeReport
import Mmix.Fs.ProcLookup
import Mmix.Fs.RamArrays
import Mmix.Klib.String
import Mmix.Mm.Coalesce
import Mmix.Mm.HeapSafety
import Mmix.Net.ChecksumLaw
import Mmix.Net.E1000
import Mmix.Sys.Agreement
import Mmix.Sys.Append
import Mmix.Sys.BrkRuns
import Mmix.Sys.DeadPipe
import Mmix.Sys.Deliver
import Mmix.Sys.Identity
import Mmix.Sys.KernelStack
import Mmix.Sys.Mmap
import Mmix.Sys.NetClient
import Mmix.Sys.Open
import Mmix.Sys.Orphans
import Mmix.Sys.Reachable
import Mmix.Sys.RoundRobin
import Mmix.Sys.Waitpid
import Mmix.Sys.Zombie
import Mmix.User.Base64
import Mmix.User.Grep
import Mmix.User.Malloc
import Mmix.User.Ping
import Mmix.User.PrintNum
import Mmix.User.Redirect
import Mmix.User.Sha256
import Mmix.User.Shell
