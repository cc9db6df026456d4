import Pinhead.NinepRuns
import Pinhead.NinepTotality
import Pinhead.QidDisciplines
import Pinhead.QidTable
import Pinhead.QidRenumbering
import Pinhead.ConnectionIsolation
import Pinhead.ByteStreams
import Pinhead.NinepMux
import Pinhead.NinepConnections
import Pinhead.NinepDatagrams
import Pinhead.SshAuth
import Pinhead.RouteResolution
import Pinhead.StateMachines
import Pinhead.WorkerPool
import Pinhead.HandlerSerialization
import Pinhead.StatRecords
import Pinhead.Histories
import Pinhead.NinepScripts
import Pinhead.QidRenames
import Pinhead.NinepContracts
import Pinhead.QidReports
import Pinhead.NinepClient
import Pinhead.WstatParsing
import Pinhead.SftpSessions
import Pinhead.FuseFilesystem
import Pinhead.WritePositions
import Pinhead.MutationReplies
import Pinhead.FuseSteps
import Pinhead.AbsentIdentifiers
import Pinhead.FuseInodes
import Pinhead.NormalPaths
import Pinhead.OpenFids
import Pinhead.NinepCalls
import Pinhead.NinepLockstep
import Pinhead.TextWords
import Pinhead.DirectoryListings
import Pinhead.AttributeReports
import Pinhead.AttributeChanges
import Pinhead.InventedDirectories
import Pinhead.MuxServers
import Pinhead.SshLimits
import Pinhead.OrderedMaps
import Pinhead.LuaJson
import Pinhead.DocumentStore
import Pinhead.JsonTexts
import Pinhead.ReadWindows
import Pinhead.SftpReplies
import Pinhead.FileWindows
import Pinhead.FiniteTables
import Pinhead.ByteStrings
import Pinhead.FailedWalks
import Pinhead.FsRequests
import Pinhead.NinepHandlers
import Pinhead.NinepShared
import Pinhead.RealPaths
import Pinhead.Resumption
import Pinhead.WindowedReads
import Pinhead.MessageSizes
import Pinhead.IoUnits
import Pinhead.ClientOperations
import Pinhead.FidBindings
import Pinhead.ClientSessions
import Pinhead.ClientReads
import Pinhead.ClientWrites
import Pinhead.ClientFids
import Pinhead.WorkerBounds
import Pinhead.DirectoryPages
import Pinhead.SftpHandles
import Pinhead.PathQueries
import Pinhead.JsonRoundTrips
import Pinhead.DroppedPairs
import Pinhead.TableGraphs
import Pinhead.RouterDirectories
import Pinhead.CsvTexts
import Pinhead.NumberTexts
import Pinhead.CsvRows
import Pinhead.CsvQueries
import Pinhead.Base64Decoding
import Pinhead.AuthorizedKeys
import Pinhead.StoreWrites
import Pinhead.DocumentSearches
import Pinhead.HostileReplies
import Pinhead.CreatedPaths
import Pinhead.NestedRequests
import Pinhead.MuxReplies
import Pinhead.ServiceProgress
import Pinhead.StoreSessions
import Pinhead.ClientLedgers
import Pinhead.AtomicCalls
import Pinhead.FrontendStack
import Pinhead.ScriptRuns
import Pinhead.DecodedQueries
import Pinhead.SideBySide
import Pinhead.WholeProgram
import Pinhead.StoreWorlds
