import PreauthGateway.Json.Balance
import PreauthGateway.Text.Lines
import PreauthGateway.Json.Lines
import PreauthGateway.Json.Key
import PreauthGateway.Wal.AuditWal
import PreauthGateway.Wal.Recovery
import PreauthGateway.Program.Runs
import PreauthGateway.Program.Calls
import PreauthGateway.Shipping.SegmentedWal
import PreauthGateway.Shipping.TornWrite
import PreauthGateway.Json.Sound
import PreauthGateway.Shipping.Watermark
import PreauthGateway.Shipping.Shipper
import PreauthGateway.Shipping.System
import PreauthGateway.Shipping.Passes
import PreauthGateway.Shipping.CrashSafety
import PreauthGateway.Shipping.Delivery
import PreauthGateway.Shipping.ShipOnce
import PreauthGateway.Shipping.Truncation
import PreauthGateway.Shipping.NineDigits
import PreauthGateway.Shipping.Rejection
import PreauthGateway.Number.Double
import PreauthGateway.Program.Machine
import PreauthGateway.Window.Trim
import PreauthGateway.Velocity.SafeCounter
import PreauthGateway.Velocity.Redis
import PreauthGateway.Velocity.RedisVelocity
import PreauthGateway.Velocity.Instances
import PreauthGateway.Velocity.SharedCount
import PreauthGateway.Velocity.Agreement
import PreauthGateway.Velocity.Interchange
import PreauthGateway.Velocity.ExtraRequest
import PreauthGateway.Program.Dict
import PreauthGateway.Gateway.Budget
import PreauthGateway.Wal.Durable
import PreauthGateway.Number.PyFloat
import PreauthGateway.Gateway.Features
import PreauthGateway.Gateway.Breaker
import PreauthGateway.Gateway.Decision
import PreauthGateway.Gateway.Pipeline
import PreauthGateway.Gateway.Ruling
import PreauthGateway.Gateway.EveryRequest
import PreauthGateway.Gateway.VelocityPolicy
import PreauthGateway.Gateway.Exposure
import PreauthGateway.Gateway.Probe
import PreauthGateway.Gateway.RateLimit
import PreauthGateway.Service.Metrics
import PreauthGateway.Service.Serve
import PreauthGateway.Service.VelocityErrors
import PreauthGateway.Service.Exports
import PreauthGateway.Service.Recovery
import PreauthGateway.Program.Returns
import PreauthGateway.Shipping.MemorySink
import PreauthGateway.Shipping.Contents
import PreauthGateway.Shipping.Accounting
import PreauthGateway.Program.Framing
import PreauthGateway.Transport.Binary
import PreauthGateway.Transport.OwnAnswer
import PreauthGateway.Program.Threads
import PreauthGateway.Gateway.BreakerThreads
import PreauthGateway.Gateway.BreakerRuns
import PreauthGateway.Gateway.VelocityBooks
import PreauthGateway.Gateway.Freshness
import PreauthGateway.Gateway.Leniency
import PreauthGateway.Gateway.ModelApproval
import PreauthGateway.Gateway.AuditThreads
import PreauthGateway.Shipping.Deletion
import PreauthGateway.Shipping.CleanPass
import PreauthGateway.Shipping.Replay
import PreauthGateway.Json.Limits
import PreauthGateway.Shipping.Unreadable
import PreauthGateway.Program.Durability
import PreauthGateway.Shipping.MachineCrash
import PreauthGateway.Program.Sockets
import PreauthGateway.Transport.RecvExact
import PreauthGateway.Program.Isolation
import PreauthGateway.Gateway.CardIsolation
import PreauthGateway.Number.Rank
import PreauthGateway.Gateway.Percentile
import PreauthGateway.Number.Buckets
import PreauthGateway.Service.Quantile
import PreauthGateway.Program.Mutex
import PreauthGateway.Velocity.CounterThreads
import PreauthGateway.Program.LostUpdate
import PreauthGateway.Velocity.UnsafeCounter
import PreauthGateway.Service.MetricsThreads
import PreauthGateway.Wal.AppendThreads
import PreauthGateway.Service.Deployment
import PreauthGateway.Gateway.UnscoredExposure
import PreauthGateway.Shipping.Discipline
import PreauthGateway.Shipping.Courier
import PreauthGateway.Gateway.Outage
import PreauthGateway.Gateway.Funnel
import PreauthGateway.Shipping.DiskUsage
import PreauthGateway.Window.Skew
import PreauthGateway.Gateway.LimitThreads
import PreauthGateway.Text.Exposition
import PreauthGateway.Number.Format
import PreauthGateway.Service.Render
import PreauthGateway.Service.Scrape
import PreauthGateway.Gateway.StubModel
import PreauthGateway.Number.Bounds
import PreauthGateway.Transport.RemoteModel
