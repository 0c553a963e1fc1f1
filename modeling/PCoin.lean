import PCoin.Limb.Basic
import PCoin.Limb.Div
import PCoin.Arith.Uint256
import PCoin.Pow.CompactRef
import PCoin.Arith.Compact
import PCoin.Pow.Chain
import PCoin.Pow.Lwma
import PCoin.Pow.Refines
import PCoin.Pow.Liveness
import PCoin.Pow.Backdating
import PCoin.Pow.Solvetime
import PCoin.Pow.Bracket
import PCoin.Pow.RuleChain
import PCoin.Run.Basic
import PCoin.Store.Sqlite
import PCoin.Store.Alignment
import PCoin.Store.Pipes
import PCoin.Store.Answers
import PCoin.Store.Payout
import PCoin.Pool.Block
import PCoin.Store.PayoutSpec
import PCoin.Hex.Basic
import PCoin.Pool.State
import PCoin.Pool.Step
import PCoin.Pool.Serve
import PCoin.Pool.Transition
import PCoin.Pool.Ledger
import PCoin.Pool.Registry
import PCoin.Pool.RegistryStep
import PCoin.Pool.DoubleCredit
import PCoin.Pool.Credited
import PCoin.Market.Delivery
import PCoin.Market.Guard
import PCoin.Market.Lock
import PCoin.Market.Orderly
import PCoin.Market.OneSend
import PCoin.Table.Basic
import PCoin.Table.Group
import PCoin.Table.Evolves
import PCoin.Js.Text
import PCoin.Market.Ops
import PCoin.Market.OpsKeyed
import PCoin.Market.OpsIdempotent
import PCoin.Market.Ladder
import PCoin.Market.Inventory
import PCoin.Market.Callback
import PCoin.Market.Ipn
import PCoin.Market.IpnRows
import PCoin.Market.IpnCalls
import PCoin.Market.OnePayment
import PCoin.Market.Desk
import PCoin.Market.Sale
import PCoin.Market.FloatFloor
import PCoin.Floating.Basic
import PCoin.Market.Retire
import PCoin.Market.RetireOnce
import PCoin.Market.Cookies
import PCoin.Explorer.Index
import PCoin.Explorer.Sync
import PCoin.Explorer.Consensus
import PCoin.Explorer.Replay
import PCoin.Explorer.Rollup
import PCoin.Explorer.Unwind
import PCoin.Explorer.Balance
import PCoin.Explorer.Independent
import PCoin.Explorer.Fresh
import PCoin.Bot.Db
import PCoin.Bot.Deposits
import PCoin.Bot.Billing
import PCoin.Bot.Rewards
import PCoin.Bot.Books
import PCoin.Bot.Closing
import PCoin.Bot.Reconcile
import PCoin.Bot.Studio
import PCoin.Bot.Process
import PCoin.Bot.Cards
import PCoin.Bot.Fair
import PCoin.Bot.Payments
import PCoin.Bot.Refund
import PCoin.Keeper.Chain
import PCoin.Keeper.Pay
import PCoin.Keeper.PaidOnce
import PCoin.Wrapdesk.Watch
import PCoin.Redeem.Returns
import PCoin.Redeem.Watch
import PCoin.Redeem.Returned
import PCoin.WpcnPay.Rail
import PCoin.WpcnPay.System
import PCoin.WpcnPay.Credit
import PCoin.WpcnPay.Invariant
import PCoin.WpcnPay.EndToEnd
import PCoin.Wrapdesk.Desk
import PCoin.Wrapdesk.Requests
import PCoin.Wrapdesk.Return
import PCoin.Wrapdesk.SettledOnce
import PCoin.Run.Ledger
import PCoin.Keeper.Peg
import PCoin.Redeem.Runs
import PCoin.Wrapdesk.Request
import PCoin.Wrapdesk.Runs
import PCoin.Wrapdesk.Unreadable
import PCoin.Wrapdesk.Limits
import PCoin.Store.Blocks
import PCoin.Store.Reconciled
import PCoin.Store.Strikes
import PCoin.Bot.Watch
import PCoin.Bot.Credit
import PCoin.Bot.Recover
import PCoin.Bot.Recovered
import PCoin.Forward.Policy
import PCoin.Run.Resume
import PCoin.Forward.Node
import PCoin.Forward.Engine
import PCoin.Forward.Asks
import PCoin.Forward.Tray
import PCoin.Forward.Guarded
import PCoin.Forward.Guards
import PCoin.Forward.Cleared
import PCoin.Forward.Free
import PCoin.Forward.OneTray
import PCoin.Forward.TwoTrays
import PCoin.Forward.Told
import PCoin.Forward.Tells
import PCoin.Forward.Commits
import PCoin.Forward.Probed
import PCoin.Forward.Alike
import PCoin.Forward.Ported
import PCoin.Forward.Adopts
import PCoin.Forward.Refines
import PCoin.Keeper.Live
import PCoin.Keeper.Daily
import PCoin.Wrapdesk.Allowance
import PCoin.Wrapdesk.Settle
import PCoin.Bot.Exact
import PCoin.Bot.Rebated
import PCoin.Market.Ahead
import PCoin.Market.Deferred
import PCoin.Bot.Invites
import PCoin.Bot.Backed
import PCoin.Decimal.Literal
import PCoin.Univalue.Read
import PCoin.PoolClient.Client
import PCoin.Univalue.WellFormed
import PCoin.PoolClient.Line
import PCoin.PoolClient.Survives
import PCoin.Wallet.Amounts
import PCoin.Wallet.AmountValue
import PCoin.Wallet.AmountsAgree
import PCoin.Wallet.OneAmount
import PCoin.Codec.Radix
import PCoin.Swift.Text
import PCoin.Address.Base58
import PCoin.Codec.Checksum
import PCoin.Codec.Regroup
import PCoin.Address.Bech32
import PCoin.Address.Parse
import PCoin.Address.Node
import PCoin.Address.Valid
import PCoin.Address.Accepts
import PCoin.Address.NodeReads
import PCoin.Address.Exact
import PCoin.Select.Basic
import PCoin.Send.Transaction
import PCoin.Send.TxBuilder
import PCoin.Send.Planned
import PCoin.Codec.Bits
import PCoin.Wpcn.Token
import PCoin.Redeem.Audit
import PCoin.Store.PayoutExact
import PCoin.Wallet.Bip39
import PCoin.Explorer.FindFork
import PCoin.Explorer.Follows
import PCoin.Codec.Reader
import PCoin.Explorer.Txid
import PCoin.Explorer.TxidExact
import PCoin.Explorer.Broadcast
import PCoin.Wrapdesk.Missed
import PCoin.Search.Basic
import PCoin.Keeper.Target
import PCoin.Amm.Product
import PCoin.Market.Walks
import PCoin.Market.Alike
import PCoin.Market.Curved
import PCoin.Market.CapPolicy
import PCoin.Market.CapFollows
import PCoin.Pool.Format
import PCoin.Pool.Assembly
import PCoin.Pool.Bits
import PCoin.Pool.Login
import PCoin.Pow.Monotone
import PCoin.Pow.Relative
import PCoin.Store.Window
import PCoin.Store.Prune
import PCoin.Wallet.Scanner
import PCoin.Codec.Interleave
import PCoin.Codec.ReedSolomon
import PCoin.Qr.Field
import PCoin.Qr.Codewords
import PCoin.Qr.Matrix
