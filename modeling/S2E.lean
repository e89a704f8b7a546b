import S2E.Klee.ADT.DiscretePDF.Run
import S2E.Klee.ADT.ImmutableTree.Version
import S2E.Klee.Basic.KTest
import S2E.Klee.Core.DirectStore
import S2E.Klee.Core.Executor
import S2E.Klee.Core.MergingSearcher.Rounds
import S2E.Klee.Core.PTree.Run
import S2E.Klee.Core.Resolution
import S2E.Klee.Expr.Compare
import S2E.Klee.Expr.ShlVisitor
import S2E.Klee.Solver.CexCaching
import S2E.Klee.Solver.FastCex.BitBounds
import S2E.Klee.Solver.Independent
import S2E.Klee.Solver.STPAsserts
import S2E.Klee.Solver.STPProducts
import S2E.Klee.Support.TreeStream
import S2E.Klee.Util.BitArray
import S2E.Plugins.CodeSelector
import S2E.Plugins.ExecutionTraceTestCase
import S2E.Plugins.HostFiles
import S2E.Plugins.MemoryChecker
import S2E.Plugins.SymbolicHardware
import S2E.Plugins.SymbolicHardwareState
import S2E.Plugins.WindowsImage
import S2E.Qemu.DeviceSnapshot
import S2E.Qemu.ForkAndConcretize
import S2E.Qemu.GuestMemory
import S2E.Qemu.MergeChecks
import S2E.Qemu.ProcessFork
import S2E.Qemu.ProcessSlots
import S2E.Qemu.Registers
import S2E.Qemu.StateSwitch.Run
import S2E.Qemu.Strings
import S2E.Qemu.TcgValues
import S2E.Tools.LogParser
import S2E.Tools.PathBuilder
