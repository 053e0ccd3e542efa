import Galfus.Adapter.Fingerprint
import Galfus.Adapter.HandleRuns
import Galfus.Adapter.RoundTrip
import Galfus.Compile.Globals
import Galfus.Compile.Strings
import Galfus.Mir.ConstantFolding
import Galfus.Mir.Dominators
import Galfus.Mir.Initialization
import Galfus.Optimizer.UnionFind
import Galfus.Package.Incremental
import Galfus.Parser.Expressions
import Galfus.Runtime.FutureHistory
import Galfus.Runtime.Reachable
import Galfus.Runtime.KernelQuotas
import Galfus.Runtime.Sequencing
import Galfus.Types.Unions
import Galfus.Vm.Accounting
import Galfus.Vm.Accuracy
import Galfus.Vm.Agreement
import Galfus.Vm.TailReturns
import Galfus.Vm.Termination
import Galfus.Vm.Validated
