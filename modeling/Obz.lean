import Obz.MpscRingQueue.Delivery
import Obz.MpscRingQueue.Sequential
import Obz.MpscRingQueue.SoloRuns
import Obz.SpscRingQueue.Queue
import Obz.RingQueues.Comparison
import Obz.SpscRingQueue.Protocol
import Obz.SpscRingQueue.Invariant
import Obz.SpscRingQueue.Fifo
import Obz.Foundation.Monitor
import Obz.Foundation.WakeupLedger
import Obz.BlockingQueues.BoundedBlockingQueue
import Obz.BlockingQueues.BlockingQueue
import Obz.BlockingQueues.Wakeups
import Obz.Foundation.WakeupLoss
import Obz.Foundation.Simulation
import Obz.Foundation.CumulativeSelection
import Obz.WeightedSet.MovedFrom
import Obz.Foundation.ByteStream
import Obz.Transport.Delivery
import Obz.Foundation.Program
import Obz.Foundation.Custody
import Obz.Transport.HandleOwnership
import Obz.Transport.Interruptions
import Obz.MpscRingQueue.Drain
import Obz.BlockingQueues.Safety
import Obz.RingBuffer.Refinement
import Obz.Endian.Layout
import Obz.EmotionalState.Tracking
import Obz.MpscRingQueue.Refusals
import Obz.MpscRingQueue.Size
import Obz.MpscRingQueue.SignedComparison
import Obz.MpscRingQueue.Retries
import Obz.SpscRingQueue.WrapAround
import Obz.RingQueues.Snapshots
import Obz.Endian.ByteOrders
import Obz.EmotionalState.Axes
import Obz.EmotionalState.NestedUpdates
import Obz.Transport.Platforms
import Obz.Transport.Addresses
import Obz.SpscRingQueue.WeakerOrders
import Obz.MpscRingQueue.WeakerOrders
import Obz.BlockingQueues.Completion
import Obz.BlockingQueues.Linearization
import Obz.BlockingQueues.Sections
import Obz.SpscRingQueue.Linearization
import Obz.MpscRingQueue.Linearization
import Obz.MpscRingQueue.WaitFreedom
import Obz.Transport.Multicast
import Obz.Transport.UdpViews
