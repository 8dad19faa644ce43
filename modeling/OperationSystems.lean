import OperationSystems.Lib.ByteMemory
import OperationSystems.Lib.CircularList
import OperationSystems.Lib.Run
import OperationSystems.Lib.Tiling
import OperationSystems.Malloc3.Guarantees
import OperationSystems.Malloc3.Confluence
import OperationSystems.Malloc3.Resize
import OperationSystems.Malloc3.Placement
import OperationSystems.Malloc3.Products
import OperationSystems.Malloc3.Stale
import OperationSystems.Malloc3.Targets
import OperationSystems.Malloc2.Contract
import OperationSystems.Lib.RingLog
import OperationSystems.Life.Guarantees
import OperationSystems.Queue.Guarantees
import OperationSystems.Restrict.Govern
import OperationSystems.Restrict.Transfer
import OperationSystems.Restrict.Width
import OperationSystems.Sched.Policy
import OperationSystems.Sched.Preempt
import OperationSystems.Entry.Mediation
import OperationSystems.Sched.Place
import OperationSystems.Sched.Request
import OperationSystems.Life.Loading
import OperationSystems.Sync.Guarantees
import OperationSystems.Utils.Repeat
import OperationSystems.Proc.Guarantees
import OperationSystems.Wait.Guarantees
import OperationSystems.Cred.Privileges
