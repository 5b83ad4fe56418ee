import PennCloud.Library.Runs
import PennCloud.KV.TabletCells
import PennCloud.Common.Token
import PennCloud.Library.FileStream
import PennCloud.KV.DiskRecord
import PennCloud.KV.LogFile
import PennCloud.KV.CheckpointFile
import PennCloud.KV.PrimaryView
import PennCloud.Library.Transducer
import PennCloud.KV.Handlers
import PennCloud.KV.FlatStore
import PennCloud.KV.CompareAndSet
import PennCloud.Coordinator.Election
import PennCloud.Coordinator.Views
import PennCloud.Library.Trail
import PennCloud.Coordinator.SplitBrain
import PennCloud.Coordinator.Forwarding
import PennCloud.Replication.Serving
import PennCloud.Replication.Visibility
import PennCloud.KV.Durability
import PennCloud.Replication.NodeActions
import PennCloud.Replication.Agreement
import PennCloud.Replication.Interleaving
import PennCloud.Replication.Convergence
import PennCloud.Replication.Reads
import PennCloud.Library.CBuffer
import PennCloud.Library.History
import PennCloud.Webmail.MailServer
import PennCloud.Webmail.Protocol
import PennCloud.Webmail.Transactions
import PennCloud.Webmail.Framing
import PennCloud.Webmail.Delivery
import PennCloud.Library.Programs
import PennCloud.Library.RelyGuarantee
import PennCloud.Frontend.KVClient
import PennCloud.Frontend.Accounts
import PennCloud.Frontend.Passwords
import PennCloud.Frontend.Mail
import PennCloud.Frontend.Storage
import PennCloud.Frontend.Routing
import PennCloud.Frontend.Access
import PennCloud.Frontend.AdminConsole
import PennCloud.Frontend.StorageIndex
import PennCloud.Frontend.IndexUpdates
import PennCloud.Frontend.FileEntries
import PennCloud.Frontend.IndexSharing
import PennCloud.Frontend.IndexRequests
import PennCloud.Frontend.FileMoves
import PennCloud.Frontend.ClientRetries
import PennCloud.Library.LeastLoaded
import PennCloud.Loadbalancer.Selection
import PennCloud.Frontend.Reception
import PennCloud.Frontend.Uploads
import PennCloud.Library.SlotTable
import PennCloud.Webmail.Connections
import PennCloud.Frontend.LoginSessions
import PennCloud.Coordinator.Configuration
import PennCloud.Webmail.Submission
import PennCloud.Frontend.IndexPaths
import PennCloud.Frontend.DistinctPaths
import PennCloud.KV.RecordCodes
import PennCloud.KV.DiskCalls
import PennCloud.KV.Recovery
import PennCloud.KV.TabletSync
import PennCloud.KV.WriteFailures
import PennCloud.Frontend.ServerVerdict
import PennCloud.KV.AdminList
import PennCloud.Frontend.HeaderSections
import PennCloud.Frontend.RequestParsing
import PennCloud.Frontend.WebRoot
import PennCloud.Frontend.Downloads
import PennCloud.Frontend.Listings
import PennCloud.Frontend.DriveMoves
import PennCloud.Frontend.FolderMoves
import PennCloud.Frontend.Renames
import PennCloud.Frontend.Deletions
import PennCloud.Frontend.Mailboxes
import PennCloud.Frontend.JsonText
import PennCloud.Frontend.Cookies
import PennCloud.Frontend.MailPage
import PennCloud.Frontend.ResponseFraming
import PennCloud.Coordinator.Indexing
import PennCloud.Frontend.ConsoleConfiguration
import PennCloud.Loadbalancer.Redirect
import PennCloud.Webmail.Disconnects
import PennCloud.Webmail.MessageEnd
import PennCloud.Webmail.Refusals
import PennCloud.Coordinator.ClientChannels
import PennCloud.Frontend.HealthReports
import PennCloud.Frontend.AdminCommands
import PennCloud.Frontend.CommaCleanup
import PennCloud.Frontend.SplitJoin
import PennCloud.Cluster.StorageClient
import PennCloud.Cluster.OneMap
import PennCloud.Cluster.AgreedCluster
import PennCloud.Cluster.Listing
import PennCloud.Replication.Progress
import PennCloud.Replication.Deadlock
import PennCloud.Webmail.MailboxLocks
import PennCloud.Frontend.MissingIndex
import PennCloud.Cluster.Unlisted
import PennCloud.Cluster.Restarts
import PennCloud.Cluster.Outages
import PennCloud.Library.Layers
import PennCloud.Cluster.ManyClients
import PennCloud.Frontend.FileSystem
import PennCloud.Frontend.FileSystemMoves
import PennCloud.Library.Sessions
import PennCloud.Frontend.DriveSessions
import PennCloud.Frontend.ClientLoops
