import KernelLabs.ProcWait
import KernelLabs.KillTarget
import KernelLabs.MlfqAccounting
import KernelLabs.MlfqRobin
import KernelLabs.CpuSlices
import KernelLabs.PageErrors
import KernelLabs.RefWrap
import KernelLabs.Pipes
import KernelLabs.FileRefs
import KernelLabs.SleepLocks
import KernelLabs.LogCrash
import KernelLabs.DiskQueue
import KernelLabs.MemoryProbe
import KernelLabs.MemInit
import KernelLabs.StabBounds
import KernelLabs.MonitorMemory
import KernelLabs.MonitorWindow
import KernelLabs.Superpages
import KernelLabs.Backtrace
import KernelLabs.ArgFetch
import KernelLabs.Priorities
import KernelLabs.PromotionTimes
import KernelLabs.ExecRuns
import KernelLabs.TicketReach
import KernelLabs.ConsoleRing
import KernelLabs.ConsoleInput
import KernelLabs.LineEditing
import KernelLabs.CommandLine
import KernelLabs.FormatEscapes
import KernelLabs.MonitorNumbers
import KernelLabs.BootLoad
import KernelLabs.ScreenOutput
import KernelLabs.GrepLines
import KernelLabs.FileWrite
import KernelLabs.DirFiles
