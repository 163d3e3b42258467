import McpgSdk.Lib.Json
import McpgSdk.Lib.OrdMap
import McpgSdk.Lib.Run
import McpgSdk.Lib.Fair
import McpgSdk.Lib.Iterate
import McpgSdk.Lib.Traverse
import McpgSdk.Lib.Words
import McpgSdk.Lib.Utf8
import McpgSdk.Lib.Base64
import McpgSdk.Protocol
import McpgSdk.Inventory.Model
import McpgSdk.Inventory.Diff
import McpgSdk.Inventory.Run
import McpgSdk.Inventory.History
import McpgSdk.Inventory.EventId
import McpgSdk.Inventory.Digest
import McpgSdk.Inventory.Details
import McpgSdk.Inventory.Seen
import McpgSdk.Inventory.Describe
import McpgSdk.Inventory.Converge
import McpgSdk.Inventory.Stable
import McpgSdk.Inventory.Restart
import McpgSdk.Inventory.Recovery
import McpgSdk.Inventory.Resume
import McpgSdk.Inventory.Watch
import McpgSdk.Inventory.Refine
import McpgSdk.Inventory.Stops
import McpgSdk.Inventory.Resource
import McpgSdk.Inventory.Attended
import McpgSdk.Inventory.CatchUp
import McpgSdk.Inventory.Window
import McpgSdk.Inventory.Report
import McpgSdk.Inventory.Walk
import McpgSdk.Inventory.Lister
import McpgSdk.Watch.Diffing
import McpgSdk.Watch.Polling
import McpgSdk.Cluster.Wire
import McpgSdk.Cluster.Lease
import McpgSdk.Cluster.Kv
import McpgSdk.Cluster.Pages
import McpgSdk.Cluster.Shared
import McpgSdk.Queue.Model
import McpgSdk.Queue.Step
import McpgSdk.Queue.Window
import McpgSdk.Queue.Settle
import McpgSdk.Queue.Acks
import McpgSdk.Queue.Shutdown
import McpgSdk.Queue.Start
import McpgSdk.Queue.Process
import McpgSdk.Queue.Returns
import McpgSdk.Queue.Progress
import McpgSdk.Queue.Receives
import McpgSdk.Queue.Offers
import McpgSdk.PluginLog.Registry
import McpgSdk.Backend.Bridge
import McpgSdk.Host.Handle
import McpgSdk.Stream.Cancel
import McpgSdk.Stream.Forward
import McpgSdk.Subscribe.Model
import McpgSdk.Subscribe.Safety
import McpgSdk.Testing.Gateway
import McpgSdk.Testing.Routes
import McpgSdk.Testing.Slots
import McpgSdk.SqlGuard.Model
import McpgSdk.SqlGuard.Grammar
import McpgSdk.SqlGuard.Accept
import McpgSdk.SqlGuard.Blank
