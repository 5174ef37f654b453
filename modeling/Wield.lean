import Wield.Theory.Lts
import Wield.Theory.Tally
import Wield.StageEnum
import Wield.Utils.ThreadAssignments
import Wield.Utils.MessageCount
import Wield.Schedulers.StageChooser
import Wield.Schedulers.RoundRobin
import Wield.Schedulers.SRPT
import Wield.Schedulers.RandomVisit
import Wield.Schedulers.Color
import Wield.Schedulers.ColorMinus
import Wield.SchedulingPolicy
import Wield.Schedulers.Slots
import Wield.Schedulers.Calls
import Wield.Schedulers.NextStage
import Wield.Schedulers.SRPT.Order
import Wield.SchedulerBase
import Wield.StageGraph
import Wield.StageGraph.Events
import Wield.Schedulers.RandomVisit.Tables
import Wield.Schedulers.Retry
import Wield.SchedulerBase.Slots
import Wield.SchedulerBase.Stopping
import Wield.SchedulerBase.Stop
import Wield.SchedulerBase.Process
import Wield.SchedulerBase.Restart
import Wield.SchedulerBase.Capacity
import Wield.SchedulerBase.Pipeline
import Wield.SchedulerBase.Work
import Wield.SchedulerBase.LostWork
import Wield.Messages.References
import Wield.Theory.Ranked
import Wield.Utils.ThreadAssignments.Size
import Wield.Utils.ThreadAssignments.TryAssign
import Wield.Schedulers.Serialised
import Wield.Schedulers.RoundRobin.Order
import Wield.Schedulers.SRPT.SearchOrder
import Wield.Schedulers.Bounded
import Wield.Schedulers.RandomVisit.Occurs
import Wield.Schedulers.Color.Indices
import Wield.Schedulers.ColorMinus.Progress
import Wield.DispatcherBase
import Wield.Adapters.MultipleInputQueueAdapter
import Wield.Adapters.MultipleInputQueueAdapter.AddQueue
import Wield.Messages.Exceptions
import Wield.Theory.Returns
import Wield.SchedulerBase.Sweep
import Wield.Utils.MessageCount.History
import Wield.Utils.NumberOfThreads
import Wield.Schedulers.ColorMinus.MostLoaded
import Wield.Adapters.MultipleInputQueueAdapter.TryPop
import Wield.Adapters.MultipleInputQueueAdapter.Fairness
import Wield.Schedulers.RandomVisit.Draws
import Wield.StageBase
import Wield.SchedulerBase.Deliveries
import Wield.StageGraph.Threads
import Wield.Schedulers.LockFree
import Wield.SchedulerBase.StopAll
import Wield.SchedulerBase.StageTree
import Wield.PoisonPill
import Wield.SchedulerBase.Liveness
import Wield.SchedulerBase.KeptWork
import Wield.SchedulerBase.VisitTables
import Wield.MultipleSchedulers
import Wield.MultipleSchedulers.Drained
import Wield.SchedulerBase.SelfDispatch
