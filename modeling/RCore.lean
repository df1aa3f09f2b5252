import RCore.EasyFs.Areas
import RCore.EasyFs.BitmapSet
import RCore.EasyFs.GrowthSteps
import RCore.EasyFs.EmptyWrites
import RCore.EasyFs.Locking
import RCore.EasyFs.WriteLimits
import RCore.EasyFs.BadNames
import RCore.EasyFs.Devices
import RCore.Fs.PipeCalls
import RCore.Fs.OsInode
import RCore.Task.IdRuns
import RCore.Task.Condvars
import RCore.Task.Semaphores
import RCore.Task.Timers
import RCore.Task.ThreadCount
import RCore.Task.Statuses
import RCore.Task.KernelPages
import RCore.Task.ThreadStacks
import RCore.Task.Kill
import RCore.User.Arguments
import RCore.User.Pipelines
import RCore.User.Start
import RCore.Syscall.PendingCalls
import RCore.Syscall.BufferRanges
import RCore.Syscall.Stdout
import RCore.Mm.FrameRuns
import RCore.Trap.Trampoline
