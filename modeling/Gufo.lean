import Gufo.Speculative.Preserved
import Gufo.Speculative.Lossless
import Gufo.Speculative.PromptScan
import Gufo.Ledger.Exclusive
import Gufo.Disk.Corruption
import Gufo.DiskStore.PrefixNode
import Gufo.Chat.Turns
import Gufo.Component.Leases
import Gufo.Continuation.Prefixes
import Gufo.ToolCall.Growth
import Gufo.History.SentBack
import Gufo.Scheduler.Delivery
import Gufo.Tp.Exact
import Gufo.Tp.Containment
import Gufo.Persistence.Delivery
import Gufo.Retention.Standing
import Gufo.Retention.Captures
import Gufo.Constraint.Arguments
import Gufo.Constraint.Linked
import Gufo.Catalog.Eviction
import Gufo.Execution.Estimate
import Gufo.Execution.Branches
import Gufo.Prefix.Flat
import Gufo.Streaming.Restore
import Gufo.Store.Budget
import Gufo.Store.Crash
import Gufo.Lexeme.Exact
import Gufo.Lexeme.MultipleOf
import Gufo.Serve.StopSequences
import Gufo.Serve.LogprobsOnce
import Gufo.Serve.WebSocketExact
import Gufo.Serve.ReasoningAgrees
import Gufo.Sampling.Reasoning
import Gufo.Json.Exact
