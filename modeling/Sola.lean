import Sola.Daisi.AmrFleet
import Sola.Daisi.AmrPhysicalAsset
import Sola.Daisi.AuctionSelection
import Sola.Daisi.CentralServer
import Sola.Daisi.DirectedGraph
import Sola.Daisi.PaxosReplication
import Sola.Daisi.PaxosReservations
import Sola.Daisi.RoundRobin
import Sola.Daisi.SimpleTaskManagement
import Sola.Daisi.StnClock
import Sola.Daisi.StnMarginals
import Sola.Daisi.StnPrecedence
import Sola.Daisi.StnRedemption
import Sola.Minhton.CoverData
import Sola.Minhton.DsnReports
import Sola.Minhton.FindCoverage
import Sola.Minhton.FindTimeouts
import Sola.Minhton.HopLimit
import Sola.Minhton.LeaveDecision
import Sola.Minhton.QueryGrammar
import Sola.Minhton.RoutingLookup
import Sola.Minhton.Timeouts
import Sola.Minhton.TreeMapper
import Sola.Minhton.UpdateHistories
import Sola.Natter.InlevelForwarding
