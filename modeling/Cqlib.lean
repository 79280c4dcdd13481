import Cqlib.Circuit.DagEdit
import Cqlib.Circuit.Cfg.Availability
import Cqlib.Circuit.InverseCorrect
import Cqlib.Classical.NormalForm
import Cqlib.Classical.Progress
import Cqlib.Compile.DevicePlanning.ScheduleProfile
import Cqlib.Compile.Knowledge.RuleDsl.RoundTrip
import Cqlib.Compile.Sabre.ComponentAssignment
import Cqlib.Compile.Sabre.RoutingState
import Cqlib.Compile.Sabre.DagOrder
import Cqlib.Compile.Transform.CommutativeCancellation.Correct
import Cqlib.Compile.Transform.RebuildInstances
import Cqlib.Device.Result
import Cqlib.Ir.Qasm2.Flattening
import Cqlib.Ir.Qcis.RoundTrip
import Cqlib.Qis.MeasuredBases
import Cqlib.Qis.ProductFormula
import Cqlib.Qis.State.Operands
import Cqlib.Qis.State.PartialTrace
import Cqlib.Qis.State.DensityMatrixRuns
import Cqlib.Qis.State.SimulatorsAgree
import Cqlib.Qis.State.StabilizerProbability
import Cqlib.Resource.PlanProofs
import Cqlib.Compile.Transform.Decompose.LogLadder
import Cqlib.Compile.Transform.Decompose.RelativeMcx
