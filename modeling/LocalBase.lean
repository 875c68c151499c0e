import LocalBase.Lib.Machine
import LocalBase.Lib.Tally
import LocalBase.Lib.Records
import LocalBase.Lib.Buckets
import LocalBase.Lib.RwLock
import LocalBase.Lib.Program
import LocalBase.Lib.Files
import LocalBase.Memory.Controller
import LocalBase.Memory.Admission
import LocalBase.Memory.Permanent
import LocalBase.Memory.WorkingSet
import LocalBase.Memory.Headroom
import LocalBase.Memory.Hysteresis
import LocalBase.Runtime.WaitQueue
import LocalBase.Runtime.Holders
import LocalBase.Runtime.Plan
import LocalBase.Runtime.Llm
import LocalBase.Runtime.LlmQueue
import LocalBase.Runtime.LlmReserve
import LocalBase.Runtime.Service
import LocalBase.Runtime.ServiceQueue
import LocalBase.Runtime.ServiceReserve
import LocalBase.Runtime.LlmUnload
import LocalBase.Runtime.ServiceUnload
import LocalBase.Lease.Model
import LocalBase.Lease.Mutation
import LocalBase.Lease.Operation
import LocalBase.Lease.Recovery
import LocalBase.Lib.Code
import LocalBase.Lib.Fuel
import LocalBase.StructuredOutput.Json
import LocalBase.StructuredOutput.Prepare
import LocalBase.StructuredOutput.Valid
import LocalBase.StructuredOutput.Accepted
import LocalBase.StructuredOutput.Safe
import LocalBase.StructuredOutput.Meaning
import LocalBase.Runs.Run
import LocalBase.Runs.Call
import LocalBase.Runs.Manager
import LocalBase.Runs.Moves
import LocalBase.Runs.Stage
import LocalBase.Runs.Held
import LocalBase.Runs.Returned
import LocalBase.Runs.Output
import LocalBase.Lib.Pieces
import LocalBase.Runs.Cut
import LocalBase.Runs.Stream
import LocalBase.Runs.Ended
import LocalBase.Video.Job
import LocalBase.Video.Manager
import LocalBase.Video.Moves
import LocalBase.Video.Callers
import LocalBase.Video.Law
import LocalBase.Management.Installer
import LocalBase.Management.Claim
import LocalBase.Backup.Disk
import LocalBase.Backup.Undo
import LocalBase.Auth.Permissions
import LocalBase.Auth.Keys
import LocalBase.Auth.Breeding
import LocalBase.Backup.Keys
import LocalBase.Backup.Compared
import LocalBase.Backup.People
import LocalBase.Usage.Totals
import LocalBase.Usage.Report
import LocalBase.Usage.Recorder
import LocalBase.Usage.Exact
import LocalBase.Lib.Base64
import LocalBase.Auth.LoginState
import LocalBase.Auth.Replay
import LocalBase.Auth.Policy
import LocalBase.Auth.Decision
import LocalBase.Auth.Users
import LocalBase.Auth.Guard
import LocalBase.Auth.Authority
import LocalBase.Auth.Standing
import LocalBase.Auth.Changes
import LocalBase.Auth.Stored
import LocalBase.Auth.Loaded
import LocalBase.Auth.PolicyChange
import LocalBase.Auth.Lockout
import LocalBase.Auth.LetIn
import LocalBase.Auth.Granting
import LocalBase.Upgrade.Swap
import LocalBase.Upgrade.Kept
import LocalBase.Upgrade.Intact
import LocalBase.Upgrade.Restarted
import LocalBase.Placement.Sizes
import LocalBase.Placement.Resolve
import LocalBase.Placement.Order
import LocalBase.Placement.Refused
import LocalBase.Lib.Double
import LocalBase.Placement.Check
import LocalBase.Acquire.Download
import LocalBase.Acquire.OneObject
import LocalBase.ModelCatalog.Spec
import LocalBase.ModelCatalog.Layers
import LocalBase.ModelCatalog.Feed
import LocalBase.Lib.Crew
import LocalBase.Obs.Sink
import LocalBase.Obs.Lines
import LocalBase.Wal.Owner
import LocalBase.Wal.Refused
import LocalBase.Install.Pinned
import LocalBase.Install.Spared
import LocalBase.StructuredOutput.Loops
import LocalBase.Lib.Turns
import LocalBase.StructuredOutput.Order
import LocalBase.Lib.JsonText
import LocalBase.StructuredOutput.Outcome
import LocalBase.Lib.Tree
import LocalBase.Unpack.Target
import LocalBase.Unpack.Extract
import LocalBase.Lib.Subtree
import LocalBase.Unpack.Inside
import LocalBase.Unpack.Links
import LocalBase.Acquire.Profiles
import LocalBase.Acquire.Credentials
import LocalBase.Backends.Definition
import LocalBase.Backends.Assess
import LocalBase.Backends.Routing
import LocalBase.Backends.Automatic
import LocalBase.Backends.Selection
import LocalBase.Backends.Reload
import LocalBase.Library.ImportJob
import LocalBase.Imports.Whole
import LocalBase.Toml.Total
import LocalBase.Toml.Headers
import LocalBase.Lib.Buffered
import LocalBase.Relay.Whole
import LocalBase.Toml.Written
import LocalBase.Auth.Reach
import LocalBase.Auth.RoundTrip
import LocalBase.ModelCatalog.Shared
import LocalBase.Lib.Follows
import LocalBase.Lib.Checked
import LocalBase.Gguf.Reader
import LocalBase.Gguf.Plain
import LocalBase.Gguf.Skipped
import LocalBase.Gguf.Geometry
import LocalBase.Gguf.Limits
import LocalBase.Lib.JsonTree
import LocalBase.Jsjson.Value
import LocalBase.Jsjson.Seen
import LocalBase.Jsjson.RoundTrip
import LocalBase.Jsjson.Compact
import LocalBase.Conf.Plan
import LocalBase.Conf.Fields
import LocalBase.Conf.Settled
import LocalBase.Models.Evidence
import LocalBase.Hub.Collate
import LocalBase.Hub.Shards
import LocalBase.Usage.Clear
import LocalBase.ModelCatalog.Former
import LocalBase.Voices.Encoded
import LocalBase.Otlp.Fields
import LocalBase.Backup.Commands
import LocalBase.Netguard.Judged
import LocalBase.Runtime.LlmServed
import LocalBase.Runtime.LlmClosed
import LocalBase.Netlimit.Connections
import LocalBase.Lib.Bytes
import LocalBase.Otlp.Reporter
import LocalBase.Otlp.Batch
import LocalBase.Otlp.Trace
import LocalBase.Upgrade.Prepare
import LocalBase.Upgrade.Vouched
import LocalBase.Auth.Local
import LocalBase.Auth.LocalOnce
import LocalBase.Auth.MagicLink
