import LocalSpace.Slots
import LocalSpace.Recorded
import LocalSpace.Proposals
import LocalSpace.Landing
import LocalSpace.Replicas
import LocalSpace.Faults
import LocalSpace.Handoffs
import LocalSpace.Exports
import LocalSpace.Bounds
import LocalSpace.Tightenings
import LocalSpace.Links
import LocalSpace.Sessions
import LocalSpace.Lockouts
import LocalSpace.AuditLog
import LocalSpace.Replies
import LocalSpace.Reconcile
import LocalSpace.Installs
import LocalSpace.Planner
import LocalSpace.Boards
import LocalSpace.ToolNames
import LocalSpace.Histories
import LocalSpace.Manifests
import LocalSpace.Conversations
import LocalSpace.Streaming
import LocalSpace.Prompts
import LocalSpace.Attachments
import LocalSpace.Origins
import LocalSpace.Pump
import LocalSpace.Bridge
import LocalSpace.Channels
import LocalSpace.Stacking
import LocalSpace.Reverts
import LocalSpace.Syncing
import LocalSpace.Durable
import LocalSpace.Opening
import LocalSpace.HandsOff
import LocalSpace.Entries
import LocalSpace.Gateway
import LocalSpace.Picking
import LocalSpace.Verified
import LocalSpace.Migration
import LocalSpace.Shell
import LocalSpace.CarriedOn
import LocalSpace.Entities
import LocalSpace.Ranges
import LocalSpace.Streamed
import LocalSpace.Simplifying
import LocalSpace.Showing
import LocalSpace.Pages
import LocalSpace.Snapping
import LocalSpace.Resolving
import LocalSpace.Resolved
import LocalSpace.Sharing
import LocalSpace.Reading
import LocalSpace.Trimming
import LocalSpace.Fitting
import LocalSpace.Counting
import LocalSpace.Extracts
import LocalSpace.Enclosed
import LocalSpace.Providers
import LocalSpace.Bodies
import LocalSpace.Repeating
import LocalSpace.Decoding
import LocalSpace.Widenings
import LocalSpace.Presence
import LocalSpace.Placing
import LocalSpace.GivenNames
import LocalSpace.Lock
import LocalSpace.Dropping
import LocalSpace.Residency
import LocalSpace.Proxies
import LocalSpace.Arriving
import LocalSpace.Recommending
import LocalSpace.Maths
import LocalSpace.Replanning
import LocalSpace.Watching
