import Chainspace.Blockmania.Certificate
import Chainspace.Blockmania.OneVote
import Chainspace.Blockmania.Finality
import Chainspace.Blockmania.Creator
import Chainspace.Blockmania.Agreement
import Chainspace.Blockmania.Quorums
import Chainspace.Blockmania.Validity
import Chainspace.Blockmania.Range
import Chainspace.Blockmania.Consumption
import Chainspace.Blockmania.Threshold
import Chainspace.Blockmania.NewViews
import Chainspace.Blockmania.Monotone
import Chainspace.Blockmania.Pruning
import Chainspace.Blockmania.Timeouts
import Chainspace.Broadcast.Publishing
import Chainspace.Broadcast.Acceptance
import Chainspace.Broadcast.Membership
import Chainspace.Broadcast.Queue
import Chainspace.Broadcast.Release
import Chainspace.Broadcast.Index
import Chainspace.Broadcast.Refinement
import Chainspace.Broadcast.Delivery
import Chainspace.Broadcast.Received
import Chainspace.Broadcast.Graphs
import Chainspace.Broadcast.Replay
import Chainspace.Broadcast.Missing
import Chainspace.Broadcast.Unsent
import Chainspace.Network.Duplex
import Chainspace.Node.Hello
import Chainspace.Sbac.Atomicity
import Chainspace.Sbac.Scheduler
import Chainspace.Sbac.Spending
import Chainspace.Sbac.Binding
import Chainspace.Sbac.Routing
import Chainspace.Sbac.Replay
import Chainspace.Sbac.EventOrder
import Chainspace.Sbac.Objects
import Chainspace.Sbac.Outputs
import Chainspace.Sbac.NilSafety
import Chainspace.Sbac.MoveState
import Chainspace.Sbac.Limbo
import Chainspace.Checker.Inputs
import Chainspace.Checker.Linear
import Chainspace.Checker.Evidence
import Chainspace.Checker.Client
import Chainspace.Config.ByteSize
import Chainspace.Pubsub.Conn
import Chainspace.Internal.Conns
