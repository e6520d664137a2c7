import TCoreSbi.Platform
import TCoreSbi.Console
import TCoreSbi.Memory
import TCoreSbi.Uart
import TCoreSbi.Barrier.Step
import TCoreSbi.Barrier.Invariant
import TCoreSbi.Barrier.Progress
import TCoreSbi.Barrier.EarlyWfi
import TCoreSbi.System.Channel
import TCoreSbi.System.Step
import TCoreSbi.System.Invariant
import TCoreSbi.System.Integrity
import TCoreSbi.System.LostIpi
import TCoreSbi.System.Completion
import TCoreSbi.System.Output
