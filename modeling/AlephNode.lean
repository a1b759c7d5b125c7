import AlephNode.FiniteMaps
import AlephNode.LabelledRuns
import AlephNode.SessionArithmetic
import AlephNode.FinalitySafety
import AlephNode.DataStoreAvailability
import AlephNode.DataStoreConsistency
import AlephNode.DataStoreLedger
import AlephNode.JustificationRuns
import AlephNode.AuthenticatedPeers
import AlephNode.SessionOrder
import AlephNode.LateJoiners
import AlephNode.Announcements
import AlephNode.ValidatorChanges
import AlephNode.SessionAuthorities
import AlephNode.PrunedSessions
import AlephNode.NeededAuthorities
import AlephNode.SessionShutdown
import AlephNode.SessionIsolation
import AlephNode.KeptSessions
import AlephNode.ExtensionPaths
import AlephNode.AggregationCalls
import AlephNode.MultisignedHashes
import AlephNode.WireFormat
import AlephNode.SessionBounds
import AlephNode.ReleaseOrder
import AlephNode.CacheIndependence
import AlephNode.JustificationOrder
import AlephNode.FinalityLogs
import AlephNode.ReplayedLogs
import AlephNode.FinalityProgress
import AlephNode.AggregatedJustifications
import AlephNode.AuthorityTurns
import AlephNode.JustificationRequests
import AlephNode.MutualAuthentication
import AlephNode.DataStoreWaiting
import AlephNode.LosslessTransport
import AlephNode.SuppliedSessions
