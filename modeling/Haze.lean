import Haze.Devnet
import Haze.Lib.Checked
import Haze.Lib.Counter
import Haze.Lib.Coins
import Haze.Chain.Accept
import Haze.Chain.Spending
import Haze.Lib.Links
import Haze.Chain.Runs
import Haze.Chain.Kernels
import Haze.Chain.Store
import Haze.Chain.Undo
import Haze.Chain.Ledger
import Haze.Chain.Stakes
import Haze.Chain.TipState
import Haze.Lib.Eras
import Haze.Chain.Supply
import Haze.Chain.Redirect
import Haze.Chain.Aggregate
import Haze.Chain.Written
import Haze.Lib.Custody
import Haze.Chain.Ownership
import Haze.Chain.Quota
import Haze.Chain.Stepwise
import Haze.Chain.ForkPath
import Haze.Chain.Replay
import Haze.Chain.Delivery
import Haze.Chain.Range
import Haze.Lib.Ladder
import Haze.Chain.Serving
import Haze.P2p.Session
import Haze.P2p.Snapshot
import Haze.Chain.Compaction
import Haze.Lib.Inevitable
import Haze.P2p.Sync
import Haze.Lib.Cancel
import Haze.CutThrough
import Haze.Mempool
import Haze.Chain.Checks
import Haze.Chain.Candidates
import Haze.Lib.Draw
import Haze.Proposer.Round
import Haze.Proposer.Order
import Haze.Proposer.Filters
import Haze.Proposer.Roots
import Haze.Proposer.Body
import Haze.Proposer.Fate
import Haze.P2p.Freshness
import Haze.Lib.Index
import Haze.Storage.Disk
import Haze.Storage.Persist
import Haze.Storage.Coins
import Haze.Storage.Registries
import Haze.Storage.Validators
import Haze.Storage.Resume
import Haze.Chain.Headers
import Haze.Chain.Pruning
import Haze.Chain.Anchor
import Haze.P2p.Conversation
import Haze.P2p.Adoption
import Haze.Storage.Crash
import Haze.Lib.Encoding
import Haze.Chain.Pinned
import Haze.Chain.Phases
import Haze.P2p.Dandelion
import Haze.Market
import Haze.Messages
import Haze.Lib.Flood
import Haze.P2p.Gossip
import Haze.Wallet.Store
import Haze.Wallet.Planner
import Haze.Wallet.Slate
import Haze.Wallet.Cli
import Haze.Lib.Reserve
import Haze.Wallet.Reserve
import Haze.Wallet.Send
import Haze.Proposer.Fees
import Haze.Lib.Priority
import Haze.Mempool.Selection
import Haze.Lib.Tasks
import Haze.P2p.Relay
import Haze.P2p.Listings
import Haze.P2p.SyncFees
import Haze.Chain.Horizon
import Haze.Lib.Merkle
import Haze.Merkle
import Haze.Mint
import Haze.Creator
import Haze.Lib.Cover
import Haze.Wallet.Exact
import Haze.Wallet.Richer
import Haze.Wallet.Rotate
import Haze.Wallet.Notes
import Haze.Wallet.Sweep
import Haze.Wallet.Recovery
import Haze.Wallet.Restore
import Haze.Wallet.Hex
import Haze.Lib.Window
import Haze.RateLimit
import Haze.Chain.Calls
import Haze.Transfers
import Haze.Api.Scan
import Haze.Api.Explorer
import Haze.P2p.Transport
import Haze.Lib.Mailbox
import Haze.Api.Inbox
import Haze.Api.Faucet
import Haze.Lib.Rumor
import Haze.P2p.Blocks
import Haze.P2p.Ops
import Haze.P2p.Replication
import Haze.Proposer.Turn
import Haze.P2p.Budget
import Haze.Api.Payouts
import Haze.Lib.Fifo
import Haze.Proposer.Lanes
import Haze.Proposer.Waiting
import Haze.Api.Submissions
import Haze.Lib.Ranked
import Haze.Api.Lookups
import Haze.P2p.Peers
import Haze.Api.Sponsored
import Haze.Api.Restart
import Haze.Wallet.Drop
