import Mil.Applications.Mixed
import Mil.Arrive.Exact
import Mil.Blocks.Chains
import Mil.Blocks.Represent
import Mil.Communicator.Attribution
import Mil.Fcfs.Counting
import Mil.Fcfs.Immediate
import Mil.Fcfs.MemoKey
import Mil.Fcfs.Merge
import Mil.Fcfs.Packing
import Mil.Fcfs.RestartChain
import Mil.Fcfs.RestartCosts
import Mil.Fcfs.SingleLevel
import Mil.Fcfs.Usage
import Mil.Fusion.Levels
import Mil.Fusion.PlanGroups
import Mil.Handshake.Safety
import Mil.HybridFlow.Allocs
import Mil.InferStage.Run
import Mil.LightRule.Schedule
import Mil.LlmEngine.Loop
import Mil.Requests.Admission
import Mil.Sampler.Forward
import Mil.Schedule.Deadlock
import Mil.Schedule.Reassign
import Mil.Search.Enumerate
import Mil.Search.Sharing
import Mil.Stages.Schedule
import Mil.Weights.Passes
import Mil.Weights.Residency
