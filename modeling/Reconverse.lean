import Reconverse.Machine.Barrier
import Reconverse.Collectives.ListReduction
import Reconverse.Mempool.RemoteFrees
import Reconverse.Machine.Send
import Reconverse.Machine.Devices
import Reconverse.Machine.Alloc
import Reconverse.Ipc.Safety
import Reconverse.Persistent.Teardown
import Reconverse.Persistent.Order
import Reconverse.TaskQueue.Safety
import Reconverse.Partition.Numbering
import Reconverse.Cld.Packing
import Reconverse.Cld.Shared
import Reconverse.Scheduler.LocalOrder
import Reconverse.Scheduler.SchedulePoll
import Reconverse.Scheduler.OldStreaks
import Reconverse.Conds.Fires
import Reconverse.Conds.Timers
import Reconverse.Threads.Tokens
import Reconverse.Rdma.Transfers
import Reconverse.Rdma.OpInfo
import Reconverse.Queueing
import Reconverse.TagTable
import Reconverse.CpuAffinity.PemapEntries
import Reconverse.HostTopology.HostMap
import Reconverse.Ccs.Client
import Reconverse.Ccs.SecretKey
