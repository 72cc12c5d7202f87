import GaspiCxx.Collectives.AllgathervRing.Correct
import GaspiCxx.Collectives.AllreduceRing.Correct
import GaspiCxx.Collectives.AllreduceRing.CopyLoops
import GaspiCxx.Collectives.Barrier.Partners
import GaspiCxx.Collectives.BroadcastBasicLinear.Reuse
import GaspiCxx.Collectives.BroadcastSendToAll.OneRun
import GaspiCxx.Collectives.AllreduceRecursiveDoubling.Correct
import GaspiCxx.Collectives.AllreduceRecursiveDoubling.Pairing
import GaspiCxx.Segment.MemoryManager
import GaspiCxx.SingleSided.Connect.Correct
import GaspiCxx.Collectives.Wrappers
import GaspiCxx.Serialization.Pairs
import GaspiCxx.Collectives.Exchange.Correct
import GaspiCxx.Collectives.Exchange.Strips
import GaspiCxx.Collectives.Alltoall
import GaspiCxx.Collectives.Allgather
import GaspiCxx.Segment.NotificationManager
import GaspiCxx.ProgressEngine.Handles
import GaspiCxx.ProgressEngine.Passes
import GaspiCxx.Context.Guards
import GaspiCxx.Context.Interchangeable
import GaspiCxx.Context.Threads
import GaspiCxx.Segment.DynamicSegmentPool
import GaspiCxx.SingleSided.Recycling
import GaspiCxx.SingleSided.Settling
import GaspiCxx.SingleSided.Sharing
import GaspiCxx.Collectives.Exchange.Failure
import GaspiCxx.Passive.HandOver
import GaspiCxx.Collectives.Deployment.Correct
import GaspiCxx.Collectives.AllreduceRecursiveDoubling.Deployed
import GaspiCxx.Collectives.AllgathervRing.Deployed
import GaspiCxx.Collectives.BroadcastSendToAll.Deployed
import GaspiCxx.Collectives.BroadcastBasicLinear.Deployed
import GaspiCxx.Passive.Messaging.Correct
import GaspiCxx.Group.Group
