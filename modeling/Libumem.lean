import Libumem.Vmem.Complete
import Libumem.Vmem.Walk
import Libumem.Vmem.Spans
import Libumem.Malloc.Realloc
import Libumem.Update.Throttle
import Libumem.Update.Requests
import Libumem.Env.Pieces
import Libumem.Env.SizeText
import Libumem.Slab.Pool
import Libumem.Slab.Contain
import Libumem.Slab.Unwind
import Libumem.Arena.Bump
import Libumem.HashPartition.Search
import Libumem.HashPartition.Shares
import Libumem.Magazine.Gates
import Libumem.Backend.Errno
import Libumem.Rescale.Sound
import Libumem.Depot.WorkingSet
import Libumem.Own.Borrow
import Libumem.Hooks.Racing
import Libumem.Stack.Walk
import Libumem.Profile.Load
import Libumem.Error.Ring
import Libumem.Magazine.Destroy
import Libumem.Inspect.Snapshot
import Libumem.SizeClass.Routing
