import TRex.Lib.Bisect
import TRex.Lib.SortedBy
import TRex.Lib.Positions
import TRex.Lib.OrdMap
import TRex.Lib.Tally
import TRex.Lib.Interleave
import TRex.Lib.Wire
import TRex.Lib.Feedback
import TRex.Lib.RefCount
import TRex.Lib.Grammar
import TRex.Lib.Framing
import TRex.Lib.Appending
import TRex.Lib.Cursor
import TRex.Lib.Equations
import TRex.Lib.Roster
import TRex.Lib.Stateful
import TRex.Lib.History
import TRex.Lib.Ownership
import TRex.Lib.Ring
import TRex.Lib.StackMachine
import TRex.Lib.Reordering
import TRex.Lib.Links
import TRex.Lib.FirstSeen
import TRex.Lib.Raising
import TRex.Lib.Guarded
import TRex.Structures
import TRex.RulePkt
import TRex.ColumnSearch
import TRex.CompositeEventGenerator
import TRex.StacksRule
import TRex.StateParameters
import TRex.StacksInvariant
import TRex.PatternSearch
import TRex.PatternSemantics
import TRex.Expiry
import TRex.ExpiryInvisible
import TRex.NegationExpiry
import TRex.IndexingTable
import TRex.IndexInvariant
import TRex.TableInstallation
import TRex.IndexExactness
import TRex.StringIndex
import TRex.TRexEngine
import TRex.ParallelProcessing
import TRex.RecursiveProcessing
import TRex.DerivationDepth
import TRex.Consumption
import TRex.StacksAccesses
import TRex.Marshaller
import TRex.Subscription
import TRex.EventTypes
import TRex.JavaClient
import TRex.JavaUnmarshaller
import TRex.JavaRuleRoundTrip
import TRex.SubscriptionMatching
import TRex.ActiveSubscriptions
import TRex.RuleUnmarshaller
import TRex.RuleCodec
import TRex.RuleBuilding
import TRex.RuleInstallation
import TRex.RuleMarshaller
import TRex.RuleRoundTrip
import TRex.Handshake
import TRex.HandshakeSafety
import TRex.RecursionFlag
import TRex.ResultOrder
import TRex.ReferenceCounts
import TRex.ReferenceSafety
import TRex.ConcurrentCalls
import TRex.WatchedUnmarshaller
import TRex.ServerPackets
import TRex.BodyFormat
import TRex.ParameterFormat
import TRex.PacketFormat
import TRex.PacketFraming
import TRex.JavaPacketFraming
import TRex.JsClient
import TRex.JsParsing
import TRex.PublicationCodecs
import TRex.SubscriptionCodecs
import TRex.RuleParser
import TRex.RuleExpressions
import TRex.AggregateTable
import TRex.AggregateReferences
import TRex.MemoryManager
import TRex.PageOwnership
import TRex.GPUProcessor
import TRex.ColumnOrder
import TRex.EventStore
import TRex.TimestampColumns
import TRex.CudaKernels
import TRex.NegationChecks
import TRex.GPUParameters
import TRex.ParameterKernels
import TRex.ArrivalOrder
import TRex.BuilderChecks
import TRex.ParameterMeaning
import TRex.PartialResults
import TRex.TimeSpan
import TRex.ResultParameters
import TRex.AggregateValues
import TRex.SimpleParameters
import TRex.EqualityParameters
import TRex.AggregateExpiry
import TRex.TreeBounds
import TRex.PacketCopies
import TRex.RuleCopies
import TRex.PacketLengths
import TRex.SubscriptionEquality
import TRex.PublicationService
import TRex.NotificationFilter
import TRex.ConstraintChecks
import TRex.IntegerDivision
import TRex.TreeReads
import TRex.JavaStrings
import TRex.StringLiterals
import TRex.RuleGraph
import TRex.EventKernels
import TRex.PageResidency
import TRex.EventRemoval
import TRex.EventRouting
import TRex.AggregateCount
import TRex.Lib.Contest
import TRex.SingleSelection
import TRex.GPUExpiry
import TRex.SearchExactness
import TRex.CircularSearch
import TRex.CircularUpperBound
import TRex.FlattenedTrees
import TRex.WalkOrder
import TRex.PatternStates
import TRex.NameResolution
import TRex.Addresses
import TRex.Placements
import TRex.Detection
import TRex.ExactDetection
import TRex.EngineDetection
import TRex.Chronology
import TRex.Sessions
import TRex.Shutdown
import TRex.DeviceComputation
import TRex.Heartbeat
import TRex.ConnectionEnd
import TRex.DeviceReduction
import TRex.DeviceAggregates
import TRex.IdleClient
import TRex.HttpProxy
