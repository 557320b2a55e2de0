import SilFormal.Kernel.PlanHistory
import SilFormal.Kernel.Delivery
import SilFormal.Kernel.ReplayEquivalence
import SilFormal.Can.FaultSchedule
import SilFormal.Can.Symmetry
import SilFormal.Schema.Override
import SilFormal.Can.Wire
import SilFormal.Kernel.StepInputs
import SilFormal.Fmi.Propagation
import SilFormal.Bundle.Matrix
import SilFormal.SourceScope.Complete
import SilFormal.SourceScope.ObserverRuns
import SilFormal.Fmi.Lifecycle
import SilFormal.Kernel.BoundedOrder
import SilFormal.Can.FrameEnd
import SilFormal.Can.Parsing
import SilFormal.Can.Reading
import SilFormal.Can.Lifecycle
import SilFormal.Coupling.ExecutionOrder
import SilFormal.Coupling.Pattern
import SilFormal.Protocol.Base64
import SilFormal.Protocol.LineFraming
import SilFormal.Visualization.Room
import SilFormal.Visualization.Buffering
import SilFormal.Diagnostics.Stats
