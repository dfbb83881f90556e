import Roomie.AdmissionCounters
import Roomie.Admissions
import Roomie.AppKeys
import Roomie.AppSettings
import Roomie.Bans
import Roomie.Bincode
import Roomie.ByteBuffers
import Roomie.ClearChannels
import Roomie.ClientCallbacks
import Roomie.ClientDecoders
import Roomie.ClientEncoders
import Roomie.ClientSessions
import Roomie.ClosingChannels
import Roomie.ConnectionCounts
import Roomie.CppCallbacks
import Roomie.CppClient
import Roomie.CppDecoder
import Roomie.CppPolling
import Roomie.CppProgress
import Roomie.CppSending
import Roomie.CppStreams
import Roomie.CppTraces
import Roomie.CsharpDecoder
import Roomie.CsharpFaults
import Roomie.CsharpPolling
import Roomie.CsharpReconnects
import Roomie.CsharpStreams
import Roomie.CsharpTraces
import Roomie.CursorGrammars
import Roomie.CursorSimulations
import Roomie.CursorTraces
import Roomie.Cursors
import Roomie.CustomSettings
import Roomie.DeadRooms
import Roomie.DecoderAgreement
import Roomie.DelayedReplies
import Roomie.DeliveryOrder
import Roomie.Dispatch
import Roomie.Episodes
import Roomie.EventCompletion
import Roomie.FairRuns
import Roomie.FilePaths
import Roomie.FirstReads
import Roomie.FrameLimits
import Roomie.Frames
import Roomie.GmlCallbacks
import Roomie.GmlCalls
import Roomie.GmlDecoder
import Roomie.GmlMessages
import Roomie.GmlPolling
import Roomie.GmlReports
import Roomie.GmlSending
import Roomie.GmlSessions
import Roomie.GmlStreams
import Roomie.GmlVarints
import Roomie.GuardedRuns
import Roomie.HashTables
import Roomie.Hearing
import Roomie.HelloOutcomes
import Roomie.HelloValidation
import Roomie.Histories
import Roomie.HostAgreement
import Roomie.Hosts
import Roomie.Isolation
import Roomie.JoinRaces
import Roomie.JsBridge
import Roomie.Loops
import Roomie.MembershipEvents
import Roomie.MessageCodec
import Roomie.Outsiders
import Roomie.Passwords
import Roomie.PeerIds
import Roomie.ProtocolMessages
import Roomie.PruningBroadcasts
import Roomie.Queues
import Roomie.RateLimits
import Roomie.RateWindows
import Roomie.RejectedHellos
import Roomie.Relays
import Roomie.RoomCodes
import Roomie.RoomCreation
import Roomie.RoomInvariants
import Roomie.RoomOperations
import Roomie.RoomPools
import Roomie.RoomScans
import Roomie.RoomSections
import Roomie.RoomTopics
import Roomie.Rooms
import Roomie.RoundTrips
import Roomie.Seats
import Roomie.SentMessages
import Roomie.SerialHalls
import Roomie.SerialRuns
import Roomie.ServerRuns
import Roomie.ServerSteps
import Roomie.SettingsAgreement
import Roomie.SharedHosts
import Roomie.SharedRooms
import Roomie.SharedScreens
import Roomie.SharedSessions
import Roomie.SharedSockets
import Roomie.SharedSteps
import Roomie.Sides
import Roomie.SilentConnections
import Roomie.Sockets
import Roomie.StateAgreement
import Roomie.Statistics
import Roomie.Transports
import Roomie.TruncatedMessages
import Roomie.WebSockets
import Roomie.WireHellos
