import NpuOj.Lib.TransSystem
import NpuOj.Lib.Counting
import NpuOj.Lib.EventLoop
import NpuOj.Lib.Posix
import NpuOj.DataItem
import NpuOj.Lang.SyscallLimits
import NpuOj.Lang.Launch
import NpuOj.Lang.LaunchVerdict
import NpuOj.Network
import NpuOj.JudgeManager.Problem
import NpuOj.JudgeManager.Downloads
import NpuOj.Lang.Compile
import NpuOj.Lang.Judge
import NpuOj.Lang.JudgeVerdict
import NpuOj.JudgeManager.Judges
import NpuOj.JudgeManager.LoopRoutine
import NpuOj.ThreadPool
import NpuOj.ThreadPool.Mutex
import NpuOj.ThreadPool.Tasks
import NpuOj.ThreadPool.Wakeup
import NpuOj.DBConnMgr
import NpuOj.DBConnMgr.Safety
import NpuOj.Daemon
import NpuOj.Lib.Fairness
import NpuOj.ThreadPool.Shutdown
import NpuOj.JudgeManager.Task
import NpuOj.Lang.Records
import NpuOj.JudgeManager.Polling
import NpuOj.JudgeManager.ProbLists
import NpuOj.Lang.Inputs
import NpuOj.Lang.Sandbox
import NpuOj.Lang.TestOrder
import NpuOj.Network.Command
import NpuOj.Lang.KernelLimits
import NpuOj.JudgeManager.WorkDirs
import NpuOj.Lang.MemoryUnits
import NpuOj.Lang.BesideTable
import NpuOj.Lang.Reaping
import NpuOj.Lang.SpecialJudge
import NpuOj.Lang.Compile.Output
import NpuOj.Lang.Compile.Pipe
import NpuOj.Lang.Compile.Descriptors
import NpuOj.Config
import NpuOj.Lib.Backtracking
import NpuOj.Config.Lookup
import NpuOj.Config.Numbers
import NpuOj.Config.RealPath
import NpuOj.Lib.LockCode
import NpuOj.JudgeManager.LockOps
import NpuOj.Lib.SharedCounter
import NpuOj.Lang.OutputNames
import NpuOj.ThreadPool.Restart
import NpuOj.JudgeManager.FetchSubmission
import NpuOj.Lib.Shell
import NpuOj.Network.Scripts
import NpuOj.JudgeManager.OutputDir
import NpuOj.JudgeManager.LangJudges
import NpuOj.ThreadPool.Progress
import NpuOj.JudgeManager.AtWork
import NpuOj.JudgeManager.Service
import NpuOj.ThreadPool.Ended
import NpuOj.Lang.Tracee
import NpuOj.Lang.TraceeVerdict
import NpuOj.Lang.SharedTable
import NpuOj.Lib.Inheritance
import NpuOj.Lang.Compile.Inherited
import NpuOj.Lang.Compile.Returns
import NpuOj.DataItem.Ownership
import NpuOj.Lang.Confinement
