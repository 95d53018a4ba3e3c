import OcrOrchestrator.Lib.Prog
import OcrOrchestrator.Lib.Protocol
import OcrOrchestrator.Lib.System
import OcrOrchestrator.Values
import OcrOrchestrator.Config
import OcrOrchestrator.Queue.State
import OcrOrchestrator.Queue.Streams
import OcrOrchestrator.Queue.Results
import OcrOrchestrator.Command
import OcrOrchestrator.Queue.Store
import OcrOrchestrator.Queue.Accounting
import OcrOrchestrator.Queue.Expiry
import OcrOrchestrator.Queue.Read
import OcrOrchestrator.Queue.Claim
import OcrOrchestrator.Queue.Delivery
import OcrOrchestrator.Worker.Pipeline
import OcrOrchestrator.Worker.Handler
import OcrOrchestrator.Worker.Faults
import OcrOrchestrator.Worker.Fleet
import OcrOrchestrator.Worker.Step
import OcrOrchestrator.Worker.Phase
import OcrOrchestrator.Worker.Tick
import OcrOrchestrator.Worker.History
import OcrOrchestrator.Worker.Ledger
import OcrOrchestrator.Worker.ZeroDrop
import OcrOrchestrator.Worker.Checkpoint
import OcrOrchestrator.Worker.Exclusivity
import OcrOrchestrator.Worker.LayoutSafety
import OcrOrchestrator.Worker.Events
import OcrOrchestrator.Worker.Completion
import OcrOrchestrator.Worker.Backstop
import OcrOrchestrator.Worker.Coverage
import OcrOrchestrator.Worker.Chain
import OcrOrchestrator.Worker.Spared
import OcrOrchestrator.Worker.Replicas
import OcrOrchestrator.Worker.Reapers
import OcrOrchestrator.Lib.Fold
import OcrOrchestrator.Lib.TreeMapping
import OcrOrchestrator.Lib.MappingMetric
import OcrOrchestrator.Lib.Postorder
import OcrOrchestrator.Eval.Ted
import OcrOrchestrator.Eval.OrderedTree
import OcrOrchestrator.Eval.Parse
import OcrOrchestrator.Eval.Regions
import OcrOrchestrator.Eval.Work
import OcrOrchestrator.Eval.Distance
import OcrOrchestrator.Eval.Metric
import OcrOrchestrator.Eval.Arrays
import OcrOrchestrator.Eval.Matrices
import OcrOrchestrator.Eval.TreeScore
import OcrOrchestrator.Lib.EditDistance
import OcrOrchestrator.Eval.Text
import OcrOrchestrator.Lib.Greedy
import OcrOrchestrator.Lib.Rectangle
import OcrOrchestrator.Lib.ExtRat
import OcrOrchestrator.Lib.Rounding
import OcrOrchestrator.Lib.JsonText
import OcrOrchestrator.Lib.Dict
import OcrOrchestrator.Lib.Lru
import OcrOrchestrator.Eval.Iou
import OcrOrchestrator.Eval.Geometry
import OcrOrchestrator.Eval.Document
import OcrOrchestrator.Queue.EntryId
import OcrOrchestrator.Eval.FloatBox
import OcrOrchestrator.Eval.RoundedBox
import OcrOrchestrator.Eval.Aggregate
import OcrOrchestrator.RateLimit.Breaker
import OcrOrchestrator.RateLimit.Cooldown
import OcrOrchestrator.RateLimit.Bucket
import OcrOrchestrator.RateLimit.Adaptive
import OcrOrchestrator.RateLimit.Reservation
import OcrOrchestrator.Worker.Client
import OcrOrchestrator.Worker.Dispatch
import OcrOrchestrator.Worker.Reserve
import OcrOrchestrator.Lib.Cursor
import OcrOrchestrator.Api.Stream
import OcrOrchestrator.Api.Gap
import OcrOrchestrator.Api.Close
import OcrOrchestrator.Api.Slots
import OcrOrchestrator.Api.Admission
import OcrOrchestrator.Api.Hysteresis
import OcrOrchestrator.Api.Ingest
import OcrOrchestrator.Api.Evaluate
import OcrOrchestrator.Metrics.Registry
import OcrOrchestrator.Metrics.Exposition
import OcrOrchestrator.Metrics.Fleet
import OcrOrchestrator.Metrics.Text
import OcrOrchestrator.Metrics.Gauges
import OcrOrchestrator.Metrics.Sink
import OcrOrchestrator.Metrics.Backlog
import OcrOrchestrator.Mock.Idempotency
import OcrOrchestrator.Mock.SingleFlight
import OcrOrchestrator.Worker.Lines
import OcrOrchestrator.Worker.Leases
import OcrOrchestrator.Api.Documents
import OcrOrchestrator.Api.Directory
import OcrOrchestrator.Lib.JsonValue
import OcrOrchestrator.Lib.EventStream
import OcrOrchestrator.Api.Reconnect
import OcrOrchestrator.Worker.Retries
import OcrOrchestrator.Mock.Server
import OcrOrchestrator.Api.JobView
import OcrOrchestrator.Common.Tracing
import OcrOrchestrator.Worker.Tracing
import OcrOrchestrator.Lib.Liveness
import OcrOrchestrator.Worker.Drain
