import Libfork.Found.Machine
import Libfork.Found.Log
import Libfork.Found.IdealDeque
import Libfork.Found.Ring
import Libfork.Found.Object
import Libfork.Deque.Common
import Libfork.Deque.Plain
import Libfork.Deque.Lace.Word
import Libfork.Deque.Lace.Model
import Libfork.Deque.Lace.Invariant
import Libfork.Deque.Lace.Level
import Libfork.Deque.Lace.PrivatePart
import Libfork.Deque.Lace.Ring
import Libfork.Deque.Lace.Delivery
import Libfork.Deque.Lace.Reuse
import Libfork.Deque.Lace.Size
import Libfork.Found.ForkJoin
import Libfork.Found.Routine
import Libfork.Found.Divide
import Libfork.Deque.Lace.Sequential
import Libfork.Deque.Lace.Full
import Libfork.Deque.Lace.Shrink
import Libfork.Deque.Lace.RingBuffer
import Libfork.Deque.ChaseLev.Model
import Libfork.Deque.ChaseLev.Invariant
import Libfork.Deque.ChaseLev.Delivery
import Libfork.Deque.Stored
import Libfork.Deque.ChaseLev.Sequential
import Libfork.Join.Model
import Libfork.Join.Invariant
import Libfork.Join.Counters
import Libfork.Join.Events
import Libfork.Join.Protocol
import Libfork.Join.Wrap
import Libfork.Join.Exceptions
import Libfork.Dispatch.Chunk
import Libfork.Found.Reduce
import Libfork.Algorithm.Overload
import Libfork.Algorithm.Fold
import Libfork.Found.ParallelFor
import Libfork.Algorithm.Map
import Libfork.Algorithm.ForEach
import Libfork.Algorithm.Scan.Model
import Libfork.Algorithm.Scan.Footprint
import Libfork.Algorithm.Scan.Calls
import Libfork.Algorithm.Scan.Boundary
import Libfork.Algorithm.Scan.Correct
import Libfork.Found.Races
import Libfork.Algorithm.Scan.Subtasks
import Libfork.Found.RoundUp
import Libfork.Found.Heap
import Libfork.SegmentedStack.Word
import Libfork.SegmentedStack.Model
import Libfork.SegmentedStack.Stacklets
import Libfork.SegmentedStack.Invariant
import Libfork.SegmentedStack.Calls
import Libfork.SegmentedStack.Correct
import Libfork.SegmentedStack.Fits
import Libfork.SegmentedStack.Growth
import Libfork.Tls.Model
import Libfork.Tls.Lifecycle
import Libfork.Pool.Drain
import Libfork.Tls.Schedule
import Libfork.Found.Chain
import Libfork.Found.Linearize
import Libfork.Found.Window
import Libfork.IntrusiveList.Model
import Libfork.IntrusiveList.Invariant
import Libfork.IntrusiveList.Delivery
import Libfork.EventCount.Word
import Libfork.EventCount.Model
import Libfork.EventCount.Counts
import Libfork.EventCount.Steps
import Libfork.EventCount.Wakeup
import Libfork.EventCount.Soundness
import Libfork.Deque.Blocking.Model
import Libfork.Deque.Blocking.Invariant
import Libfork.Deque.Blocking.Linearizability
import Libfork.Deque.Blocking.Throw
import Libfork.Deque.Blocking.Sequential
import Libfork.Deque.Interchange
import Libfork.Found.BitPoly
import Libfork.Random.Model
import Libfork.Random.Linear
import Libfork.Random.Jumps
import Libfork.Found.Pratt
import Libfork.Found.Period
import Libfork.Random.Period
import Libfork.Found.Buckets
import Libfork.Numa.Model
import Libfork.Numa.Distribute
import Libfork.Pool.Objects
import Libfork.Pool.Custody
import Libfork.Found.Tally
import Libfork.Lazy.Model
import Libfork.Lazy.Moves
import Libfork.Lazy.Counts
import Libfork.Lazy.Keyed
import Libfork.Lazy.Wakeups
import Libfork.Lazy.Awake
import Libfork.Lazy.Shutdown
import Libfork.Found.Cactus
import Libfork.Runtime.Steals
import Libfork.Runtime.Progress
import Libfork.Stacks.Model
import Libfork.Stacks.Pointers
import Libfork.Stacks.Effects
import Libfork.Stacks.Steps
import Libfork.Stacks.Owned
import Libfork.Stacks.Asserts
import Libfork.Stacks.Ownership
import Libfork.SegmentedStack.Depths
import Libfork.SegmentedStack.Mirror
import Libfork.Found.Shared
import Libfork.Future.Model
import Libfork.Future.Results
import Libfork.Found.Spread
import Libfork.Found.Cost
import Libfork.Runtime.Scopes
import Libfork.Runtime.Loaded
import Libfork.Runtime.Total
import Libfork.Found.Nesting
import Libfork.Runtime.Space
import Libfork.Found.Work
import Libfork.Algorithm.Workers
