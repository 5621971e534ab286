import GhostConsensus.Payment
import GhostConsensus.Closing
import GhostConsensus.Chain
import GhostConsensus.Stakes
import GhostConsensus.Downtime
import GhostConsensus.Genesis
import GhostConsensus.Participants
import GhostConsensus.Frame
import GhostConsensus.Store
import GhostConsensus.Binding
import GhostConsensus.Idle
import GhostConsensus.Intervals
import GhostConsensus.Records
import GhostConsensus.Reports
import GhostConsensus.Difficulty
import GhostConsensus.Window
import GhostConsensus.Solutions
import GhostConsensus.Search
import GhostConsensus.Mined
import GhostConsensus.Schedules
import GhostConsensus.Draws
import GhostConsensus.Payout
import GhostConsensus.Limits
import GhostConsensus.Retarget
import GhostConsensus.Centralization
import GhostConsensus.Builds
import GhostConsensus.Keys
import GhostConsensus.Blocks
import GhostConsensus.Escrow
import GhostConsensus.Observer
import GhostConsensus.Hardness
import GhostConsensus.Footprint
import GhostConsensus.Iteration
import GhostConsensus.Coalition
import GhostConsensus.Distribution
import GhostConsensus.Dormant
import GhostConsensus.Wealth
import GhostConsensus.Attrition
import GhostConsensus.Growth
import GhostConsensus.Finality
