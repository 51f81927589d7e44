import DigDownload.Lib.Prog
import DigDownload.Lib.Slices
import DigDownload.Lib.Tiling
import DigDownload.Lib.Past
import DigDownload.Lib.Runs
import DigDownload.Lib.Recency
import DigDownload.Lib.Metering
import DigDownload.Lib.Texts
import DigDownload.Lib.Sorting
import DigDownload.Lib.Keyed
import DigDownload.Error
import DigDownload.Basic
import DigDownload.Identifiers
import DigDownload.Onion.HopPath
import DigDownload.Rendering
import DigDownload.Addr
import DigDownload.Progress
import DigDownload.Storage
import DigDownload.Module.Plan
import DigDownload.Module.Reader
import DigDownload.Module.Pull
import DigDownload.Module.Capsules
import DigDownload.Calls
import DigDownload.Module.Windows
import DigDownload.Module.Steps
import DigDownload.Module.Integrity
import DigDownload.Module.Truth
import DigDownload.Module.Verdicts
import DigDownload.Module.Minority
import DigDownload.Module.Availability
import DigDownload.Module.Resumption
import DigDownload.Module.Elimination
import DigDownload.Module.Reputation
import DigDownload.Module.Leftovers
import DigDownload.Module.Rounds
import DigDownload.Module.Attribution
import DigDownload.Module.Turns
import DigDownload.Resource.Greedy
import DigDownload.Resource.Verify
import DigDownload.Resource.Boundaries
import DigDownload.Resource.Feeds
import DigDownload.Metadata
import DigDownload.Resource.Download
import DigDownload.Resource.Steps
import DigDownload.Resource.Visits
import DigDownload.Resource.Traces
import DigDownload.Resource.Planning
import DigDownload.Resource.Scheduling
import DigDownload.Resource.Work
import DigDownload.Resource.Errors
import DigDownload.Resource.Inheritance
import DigDownload.Resource.Hashing
import DigDownload.Resource.Integrity
import DigDownload.Resource.Roots
import DigDownload.Resource.GivingUp
import DigDownload.Resource.Backoff
import DigDownload.Resource.Holders
import DigDownload.Resource.Layouts
import DigDownload.Resource.Stopping
import DigDownload.Resource.Scheduled
import DigDownload.Resource.Reports
import DigDownload.Resource.Absence
import DigDownload.Resource.Untrusted
import DigDownload.Resource.Obliging
import DigDownload.Resource.Filling
import DigDownload.Resource.Rotation
import DigDownload.Resource.Honest
import DigDownload.Resource.Completion
import DigDownload.Resource.Resuming
import DigDownload.Resource.Denial
import DigDownload.Resource.Endings
import DigDownload.Resource.Snapshots
import DigDownload.Resource.Durable
import DigDownload.Resource.Credits
import DigDownload.Resource.Lives
import DigDownload.Resource.Locating
import DigDownload.Onion.Relay
import DigDownload.Transport.Pool
import DigDownload.Transport.Sessions
import DigDownload.Transport.Requests
import DigDownload.Transport.Endings
import DigDownload.Ladder.Resolver
import DigDownload.Ladder.Agreement
import DigDownload.Promotion
import DigDownload.Files
import DigDownload.Holders
import DigDownload.Staging
import DigDownload.Handle
import DigDownload.Control
import DigDownload.Queue.Workers
import DigDownload.Queue.Events
import DigDownload.Module.Traffic
import DigDownload.Sinks.Promote
import DigDownload.Sinks.Refinement
import DigDownload.Reputation.Record
import DigDownload.Reputation.Decay
import DigDownload.Reputation.Races
import DigDownload.Store.Calls
import DigDownload.Store.Refinement
import DigDownload.Store.Sweeps
import DigDownload.Throttle.Limiter
import DigDownload.Throttle.RateBound
import DigDownload.Throttle.HeadOfLine
import DigDownload.Throttle.Cancellation
import DigDownload.Throttle.Order
