import FeoxServer.Foundation.Text
import FeoxServer.Foundation.Decimal
import FeoxServer.Foundation.Prog
import FeoxServer.Foundation.Incremental
import FeoxServer.Protocol.Resp
import FeoxServer.Protocol.RespScanning
import FeoxServer.Protocol.RespStability
import FeoxServer.Protocol.RespParser
import FeoxServer.Protocol.RespRoundTrip
import FeoxServer.Foundation.Words
import FeoxServer.Foundation.Window
import FeoxServer.Store.FeoxStore
import FeoxServer.Protocol.ListOperations
import FeoxServer.Protocol.ListRefinement
import FeoxServer.Protocol.ListCorrectness
import FeoxServer.Store.MapStore
import FeoxServer.Foundation.ListSet
import FeoxServer.Pubsub.Message
import FeoxServer.Pubsub.Pattern
import FeoxServer.Pubsub.Registry
import FeoxServer.Pubsub.Manager
import FeoxServer.Pubsub.Interest
import FeoxServer.Pubsub.Cluster
import FeoxServer.Protocol.Command
import FeoxServer.Protocol.CommandParser
import FeoxServer.Protocol.CommandTable
import FeoxServer.WatchRegistry
import FeoxServer.ClientRegistry
import FeoxServer.Config
import FeoxServer.World
import FeoxServer.Protocol.HashOperations
import FeoxServer.Protocol.ClientOperations
import FeoxServer.Protocol.Executor
import FeoxServer.Network.Connection
import FeoxServer.Foundation.Versioning
import FeoxServer.Protocol.ExecutorCalls
import FeoxServer.Network.Frames
import FeoxServer.Network.Transactions
import FeoxServer.Protocol.ReplyLines
import FeoxServer.Pubsub.Subscriptions
import FeoxServer.Pubsub.Accesses
import FeoxServer.Pubsub.Interleaving
import FeoxServer.Pubsub.Handler
import FeoxServer.Pubsub.Agreement
import FeoxServer.Pubsub.PublishOrder
import FeoxServer.Pubsub.PublishCount
import FeoxServer.Server
import FeoxServer.Network.Transcripts
import FeoxServer.Network.Sessions
import FeoxServer.Network.Queuing
import FeoxServer.Protocol.ClientListings
import FeoxServer.Protocol.ExecutorWorlds
import FeoxServer.Network.DirectExecution
import FeoxServer.Network.QueuedExecution
import FeoxServer.Foundation.FiniteMap
import FeoxServer.Protocol.HashRefinement
import FeoxServer.Protocol.HashCounters
import FeoxServer.Protocol.HashCorrectness
import FeoxServer.Foundation.Cells
import FeoxServer.Store.KeyedStore
import FeoxServer.Protocol.DerivedKeys
import FeoxServer.Protocol.Footprints
import FeoxServer.Protocol.ListIsolation
import FeoxServer.Protocol.HashFootprints
import FeoxServer.Protocol.HashIsolation
import FeoxServer.Protocol.TypeIsolation
import FeoxServer.Protocol.PartialWrites
import FeoxServer.Protocol.FlatKeyspace
import FeoxServer.Foundation.Pool
import FeoxServer.Protocol.Increments
import FeoxServer.Protocol.FieldTallies
import FeoxServer.Foundation.Bags
import FeoxServer.Protocol.ListTallies
import FeoxServer.Protocol.ListTurns
import FeoxServer.Foundation.Guarded
import FeoxServer.Protocol.ListFaults
import FeoxServer.Network.Company
import FeoxServer.Network.ExecIsolation
import FeoxServer.Foundation.Glob
import FeoxServer.Protocol.KeyPatterns
import FeoxServer.Pubsub.ChannelPatterns
import FeoxServer.Foundation.GlobLanguages
import FeoxServer.Pubsub.PatternLanguage
import FeoxServer.Pubsub.PatternSearch
import FeoxServer.Pubsub.PatternSharing
import FeoxServer.Pubsub.PatternRemoval
import FeoxServer.Network.FastPath
import FeoxServer.Network.Rejections
import FeoxServer.Foundation.DecimalWords
import FeoxServer.Network.Counters
import FeoxServer.Network.ReplyFraming
import FeoxServer.Foundation.Phases
import FeoxServer.Network.Modes
import FeoxServer.Network.ReplyOrder
import FeoxServer.Protocol.AcceptedCommands
import FeoxServer.Network.ReplyCounts
import FeoxServer.Network.Admission
import FeoxServer.Foundation.Pages
import FeoxServer.Protocol.Scanning
import FeoxServer.Protocol.PatternScans
import FeoxServer.Protocol.HashListings
import FeoxServer.Protocol.ExactSums
import FeoxServer.Protocol.SetGrammar
import FeoxServer.Protocol.NumericArguments
import FeoxServer.Protocol.Expiries
import FeoxServer.Foundation.Rounds
import FeoxServer.Protocol.PushRounds
import FeoxServer.Network.ConfirmationCounts
import FeoxServer.Foundation.Checked
import FeoxServer.Protocol.RespPanics
import FeoxServer.Protocol.RespSafety
import FeoxServer.Protocol.ParserRuns
import FeoxServer.Network.SubscriberMode
import FeoxServer.Store.SteadfastStore
import FeoxServer.Protocol.ReadingCommands
import FeoxServer.Protocol.Announcements
import FeoxServer.Network.SubscriptionCounts
import FeoxServer.Network.OutputBuffering
import FeoxServer.Protocol.PopReplies
import FeoxServer.Network.ClientNames
import FeoxServer.Protocol.TableAgreement
import FeoxServer.Pubsub.CharClasses
import FeoxServer.Network.Notifications
import FeoxServer.Protocol.PopSafety
import FeoxServer.Protocol.ParserBounds
import FeoxServer.Protocol.SilentChanges
import FeoxServer.Foundation.Machines
import FeoxServer.Network.EventLoop
import FeoxServer.Network.ClientOutput
import FeoxServer.Network.Readings
import FeoxServer.Network.OpenConnections
import FeoxServer.Network.OpenClients
import FeoxServer.Network.ActiveConnections
import FeoxServer.Network.ServiceTurns
import FeoxServer.Network.OpenSubscriptions
import FeoxServer.Network.ServerCluster
import FeoxServer.Network.Deliveries
import FeoxServer.Network.Stalls
import FeoxServer.Network.Closing
import FeoxServer.Protocol.RespGrammar
import FeoxServer.Protocol.RespUnfinished
import FeoxServer.Protocol.Requests
import FeoxServer.Network.Chunking
import FeoxServer.Store.SharedStore
import FeoxServer.Protocol.StringRefinement
import FeoxServer.Protocol.HashFamilies
import FeoxServer.Protocol.KeyspaceRefinement
import FeoxServer.Network.ServedKeyspace
import FeoxServer.Network.KeyspaceTurns
import FeoxServer.Network.SharedKeyspace
