import SC7.Mem.BuddyInit
import SC7.Mem.Coalesce
import SC7.Kernel.Syscall
import SC7.Mem.Freewalk
import SC7.Kernel.FutexCount
import SC7.Kernel.ProcessWait
import SC7.Fs.Owner
import SC7.Kernel.Kill
import SC7.Mem.SlabLists
import SC7.Mem.SlabRelease
import SC7.Fs.Bio
import SC7.Fs.VirtioRun
import SC7.Kernel.Locks
import SC7.Mem.Mprotect
import SC7.Mem.ShmRun
import SC7.Kernel.ExecAtomic
import SC7.Fs.PathNormal
import SC7.Fs.Mount
import SC7.Kernel.SelectReady
import SC7.Kernel.Uts
import SC7.Mem.CopyStr
import SC7.Mem.ReadOnly
import SC7.Fs.Poll
import SC7.Fs.FifoTable
import SC7.Kernel.ThreadLists
import SC7.Mem.UvmcopyRun
import SC7.Mem.BrkCorrect
import SC7.Fs.ProcfsCheck
import SC7.Fs.Symlink
import SC7.Fs.Getdents
import SC7.Fs.SpliceExact
import SC7.Kernel.SignalPending
import SC7.Kernel.Interrupts
import SC7.Fs.Descriptor
import SC7.Kernel.Prlimit
import SC7.Kernel.Ppoll
import SC7.Kernel.Deadline
import SC7.Kernel.LoadExact
import SC7.Kernel.ThreadStacks
import SC7.Kernel.Move
import SC7.Fs.PathLength
import SC7.Mem.FileMappingRun
