import Yellowstone.Library.Machine
import Yellowstone.Collections.HeapThrows
import Yellowstone.Collections.HeapHandles
import Yellowstone.Collections.HeapCost
import Yellowstone.Bus.PartitionRuns
import Yellowstone.Bus.DeliveryOrder
import Yellowstone.Bus.Overtaking
import Yellowstone.Bus.PartitionWaits
import Yellowstone.Bus.RegistryRefinement
import Yellowstone.Scheduling.SchedulerOrder
import Yellowstone.Scheduling.SchedulerOneCall
import Yellowstone.Scheduling.SchedulerProgress
import Yellowstone.Scheduling.SchedulerStop
import Yellowstone.Scheduling.SchedulerHeap
import Yellowstone.Scheduling.Targeted
import Yellowstone.Scheduling.UnixDeadlines
import Yellowstone.Scheduling.TypedBinding
import Yellowstone.Scheduling.Forwarding
import Yellowstone.Locking.ReentrantHandlers
import Yellowstone.Locking.PythonBinding
import Yellowstone.Legacy.Sequencer
import Yellowstone.Legacy.WorkerPersistence
import Yellowstone.Legacy.Barrier
import Yellowstone.Legacy.Exchange
import Yellowstone.Legacy.LeaseRest
