import AcCore.Lib.Run
import AcCore.Lib.Served
import AcCore.Lib.Bytes
import AcCore.Lib.Chunks
import AcCore.Lib.Words
import AcCore.Lib.Table
import AcCore.Lib.Linked
import AcCore.Lib.Plurality
import AcCore.Lib.Positional
import AcCore.Lib.Postings
import AcCore.Lib.Keyed
import AcCore.Lib.Reader
import AcCore.Gov.Base58
import AcCore.Gov.Crypto
import AcCore.Gov.Cash.Tx
import AcCore.Gov.Cash.Delta
import AcCore.Gov.Engine.Policies
import AcCore.Gov.Engine.AuthDelta
import AcCore.Gov.Cash.App
import AcCore.Gov.Cash.TxCodec
import AcCore.Gov.Cash.Balance
import AcCore.Gov.Cash.Overdraft
import AcCore.Gov.Cash.Supply
import AcCore.Gov.Engine.Evidence
import AcCore.Gov.Engine.Votes
import AcCore.Gov.Id.Peer
import AcCore.Gov.Id.Handshake
import AcCore.Gov.Id.Dialogue
import AcCore.Gov.Engine.VoteAuth
import AcCore.Gov.Engine.Diff
import AcCore.Gov.Engine.DiffOrder
import AcCore.Gov.Engine.AuthApp
import AcCore.Gov.Engine.Daemon
import AcCore.Gov.Engine.Outsiders
import AcCore.Gov.Engine.Replay
import AcCore.Gov.Engine.Networking
import AcCore.Gov.Engine.Authorization
import AcCore.Tex.Cex.Efp
import AcCore.Tex.Cex.Order
import AcCore.Tex.Cex.WaitingQueue
import AcCore.Tex.Cex.Front
import AcCore.Tex.Cex.Market
import AcCore.Tex.Cex.Account
import AcCore.Tex.Cex.Engine
import AcCore.Tex.Cex.Steps
import AcCore.Tex.Cex.Matching
import AcCore.Tex.Cex.Queues
import AcCore.Tex.Cex.ListQueue
import AcCore.Tex.Cex.Fronts
import AcCore.Tex.Cex.Priority
import AcCore.Tex.Cex.Execution
import AcCore.Tex.Cex.Markets
import AcCore.Tex.Cex.Trades
import AcCore.Tex.Cex.Positive
import AcCore.Tex.Cex.Ledger
import AcCore.Tex.Cex.Books
import AcCore.Tex.Cex.Sells
import AcCore.Tex.Cex.Amends
import AcCore.Tex.Cex.Reach
import AcCore.Tex.Cex.Solvency
import AcCore.Tex.Cex.Amounts
import AcCore.Tex.Cex.Conservation
import AcCore.Tex.Cex.Indexes
import AcCore.Tex.Cex.Commission
import AcCore.Tex.Cex.Currencies
import AcCore.Tex.Cex.Failures
import AcCore.Tex.Cex.Numerals
import AcCore.Tex.Cex.Reports
import AcCore.Tex.Cex.Spots
import AcCore.Tex.Cex.Conversions
import AcCore.Tex.Cex.Ranges
import AcCore.Tex.Cex.Ownership
import AcCore.Tex.Cex.Crossing
import AcCore.Tex.Cex.FrontRuns
import AcCore.Gov.Engine.Membership
import AcCore.Gov.Engine.Growth
import AcCore.Gov.Engine.Draws
import AcCore.Gov.Engine.Cycle
import AcCore.Gov.Engine.Admission
import AcCore.Tex.Cex.Funding
import AcCore.Tex.Cex.Progress
import AcCore.Gov.Engine.Hold
import AcCore.Gov.Engine.Deadlock
import AcCore.Gov.Engine.DiffCodec
import AcCore.Gov.Engine.Payloads
import AcCore.Gov.Engine.RoundTrip
import AcCore.Gov.Engine.Synced
import AcCore.Gov.Engine.Patches
import AcCore.Gov.Engine.Syncd
import AcCore.Gov.Curve
import AcCore.Gov.Engine.Relay
import AcCore.Gov.Engine.Sizes
import AcCore.Gov.Cash.LockingPrograms.P2pkh
import AcCore.Gov.Cash.Sigmsg
import AcCore.Wallet.Wallet
import AcCore.Wallet.Selection
import AcCore.Gov.Cash.TxRoundTrip
import AcCore.Gov.Cash.Fees
import AcCore.Gov.Cash.Rewards
import AcCore.Gov.Cash.Effects
import AcCore.Gov.Cash.Majority
import AcCore.Wallet.Payments
import AcCore.Wallet.Signing
import AcCore.Gov.Socket.Bounds
import AcCore.Gov.Socket.Replies
import AcCore.Gov.Engine.Storage
import AcCore.Tex.Cex.Ruler
import AcCore.Tex.Cex.Window
import AcCore.Tex.Cex.Exit
import AcCore.Gov.PubKey
import AcCore.Wallet.Pairing
import AcCore.Tex.Cexapi.UriDecode
import AcCore.Lib.StrictOrder
import AcCore.Gov.HashOrder
import AcCore.Gov.Socket.Hurried
import AcCore.Lib.Flooding
import AcCore.Lib.Iterated
import AcCore.Gov.Hasher
import AcCore.Gov.Digests
import AcCore.Gov.Engine.EvidenceFlood
import AcCore.Gov.Engine.PoolFlood
import AcCore.Gov.Engine.VoteFlood
import AcCore.Wallet.Query
import AcCore.Wallet.Settlement
import AcCore.Wallet.Cosigning
import AcCore.Gov.Engine.CatchUp
import AcCore.Wallet.Keys
import AcCore.Gov.Engine.Mempool
import AcCore.Gov.Engine.Replication
import AcCore.Gov.Engine.Commitment
import AcCore.Gov.Engine.Replicas
