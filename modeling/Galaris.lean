import Galaris.Process.Outcome
import Galaris.Process.Values
import Galaris.Process.RunData
import Galaris.Process.ActivityControls
import Galaris.Process.ActivityJobs
import Galaris.Process.Bpmn.Roundtrip
import Galaris.Process.Bpmn.Soundness
import Galaris.Task.Recovery
import Galaris.Task.Replay
import Galaris.Task.Holds
import Galaris.Task.FanIn
import Galaris.Task.Dialogue
import Galaris.Task.Successor
import Galaris.Harness.Effects
import Galaris.Tools.OneDispatch
import Galaris.Core.ByteBudget
import Galaris.Voice.Resampling
import Galaris.Goal.CycleRuns
import Galaris.Goal.Schedule
import Galaris.Core.DeepMerge
import Galaris.Document.AgentAccess
import Galaris.Document.DataAggregates
import Galaris.Document.DataLines
import Galaris.Document.DataQuery
import Galaris.Document.DataValues
import Galaris.Document.LeastSharing
import Galaris.Document.TreeRuns
import Galaris.Task.Admission
import Galaris.Conversation.Inputs
import Galaris.Llm.Protection
import Galaris.Llm.ResponsesStream
import Galaris.Llm.Subscription
import Galaris.FileShare.Canonical
import Galaris.FileShare.PathNormalization
import Galaris.Llm.InferenceClients
import Galaris.FileShare.Discovery
import Galaris.Task.WorkingSet
import Galaris.Harness.Barrier
import Galaris.Agent.Degeneration
import Galaris.Agent.PlanCosts
import Galaris.Harness.ToolResults
import Galaris.Process.Expressions
import Galaris.Process.Integration
import Galaris.Process.Sanitizer
import Galaris.Process.Native.Debugger
import Galaris.Process.Native.Frontier
import Galaris.Core.Temporal
import Galaris.Voice.Turns
import Galaris.Llm.MessageCleanup
import Galaris.Memory.Passages
import Galaris.Core.RefreshSessions
import Galaris.Core.StoredFiles
