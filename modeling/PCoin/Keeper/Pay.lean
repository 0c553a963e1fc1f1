import PCoin.Keeper.Chain
import PCoin.Table.Evolves

/-! `pcoin-keeper-pay`: the ledger of payouts, and a run of `--send`. -/

namespace pcoin.keeper

/-- The sender, and the ceilings in micro-dollars. -/
structure Config where
  address : String
  PER_SEND_MAX : Nat
  DAILY_MAX : Nat

def USDT : String := "0x55d398326f99059fF775485246999027B3197955"

def USDT_DECIMALS : Nat := 18

def TRANSFER_TOPIC : String :=
  "0xddf252ad1be2c89b69c2b068fc378daa952ba7f163c4a11628f55a4df523b3ef"

inductive RecState
  | signed
  | rejected
  | dead
  | reverted
  | mined_unverified
  | confirmed
deriving DecidableEq

/-- The transaction has mined, or it still can. -/
def RecState.live : RecState → Bool
  | signed | mined_unverified | confirmed => true
  | rejected | dead | reverted => false

/-- An entry of the ledger, with its key. -/
structure Rec where
  key : String
  dest : String
  micro : Nat
  day : String
  tx : Tx
  state : RecState := .signed
deriving DecidableEq

/-- `sent_today_micro`. -/
def sent_today_micro (payouts : List Rec) (day : String) : Nat :=
  ((payouts.filter fun r => r.day = day && (r.state = .signed || r.state = .confirmed)).map
    Rec.micro).sum

/-- `x.lower()[2:].rjust(64, "0")`. -/
def word (address : String) : List Char :=
  let digits := (lower address).drop 2
  List.replicate (64 - digits.length) '0' ++ digits

/-- `t.lower()[-64:]`. -/
def last64 (topic : String) : List Char := (lower topic).drop (topic.toList.length - 64)

/-- `verify_receipt`. -/
def verify_receipt (cfg : Config) (r : Rec) (receipt : Receipt) : Bool :=
  receipt.logs.any fun lg => lower lg.address = lower USDT && match lg.topics with
    | topic :: sender :: dest :: _ =>
      lower topic = TRANSFER_TOPIC.toList && last64 sender = word cfg.address &&
        last64 dest = word r.dest && lg.data = r.micro * 10 ^ (USDT_DECIMALS - 6)
    | _ => false

/-- Why a payout is refused. -/
inductive Refusal
  | no_ledger
  | other_payout
  | no_connection
  | per_payout
  | daily
  | busy
  | no_floor
  | floor
  | no_gas
  | node_refused
  | reverted
deriving DecidableEq

/-- The message has the words 'Nothing was sent'. The exit code alone, which other refusals end with as
well, does not say so. -/
def Refusal.nothingSent : Refusal → Bool
  | no_ledger | other_payout | reverted => false
  | no_connection | per_payout | daily | busy | no_floor | floor | no_gas | node_refused => true

inductive Result
  | sent
  | already
  | dry_run
  | refused (why : Refusal)
  | unknown
deriving DecidableEq

def Result.nothingSent : Result → Bool
  | refused why => why.nothingSent
  | sent | already | dry_run | unknown => false

/-- Where a run of `send` stands, before each of its calls. -/
inductive Point
  | connect
  | resume
  | count
  | recheck
  | rebroadcast
  | checks
  | nonce
  | sign (nonce : Nat)
  | broadcast
  | ask
  | settle
deriving DecidableEq

/-- The run that holds the lock. -/
structure Proc where
  key : String
  dest : String
  micro : Nat
  dry : Bool
  point : Point := .connect
deriving DecidableEq

/-- The ledger, the run and the chain. `sent` is what was ever broadcast, and the node may have it
at any time. The rest is history: what was signed for a key, what the node did not know after its
broadcast had failed, and what was said not to be sent. -/
structure State where
  payouts : List Rec := []
  proc : Option Proc := none
  chain : Chain := {}
  sent : List Tx := []
  said : List (String × Result) := []
  signed : List (String × Tx) := []
  rejected : List (String × Tx) := []
  told : List (String × Tx) := []
deriving DecidableEq

namespace State

variable (s : State)

def payout (key : String) : Option Rec := table.find Rec.key key s.payouts

/-- The transactions signed for a key that have not reverted. -/
def unsent (key : String) : List (String × Tx) :=
  s.signed.filter fun q => q.1 = key && !s.chain.mined.any fun r => r.tx = q.2 && r.status ≠ 1

/-- `result`, which ends the run. -/
def result (key : String) (r : Result) : State :=
  { s with
    proc := none
    said := s.said ++ [(key, r)]
    told := if r.nothingSent then s.told ++ s.unsent key else s.told }

/-- The run goes on. -/
def goes (p : Proc) (point : Point) : State := { s with proc := some { p with point := point } }

/-- `rec["state"] = ..; save_ledger(d)`. -/
def marks (key : String) (state : RecState) : State :=
  { s with payouts := table.update Rec.key key (fun r => { r with state := state }) s.payouts }

/-- `send_raw_transaction`: if it fails, the node may still get the transaction. -/
def sends (tx : Tx) (ok : Bool) : State :=
  { s with sent := s.sent ++ [tx], chain := if ok then s.chain.accept tx else s.chain }

end State

inductive Event
  /-- `--send`, with what it was given. -/
  | press (key dest : String) (micro : Nat) (dry : Bool)
  /-- The lock or the ledger cannot be had. -/
  | lockedOut (key : String)
  | connects (ok : Bool)
  | resumes
  | counts
  | rechecks
  | rebroadcasts (ok : Bool)
  /-- The checks of a fresh payment: the balance, `keeper_busy` and the floor in units, if it can
  be read. -/
  | checks (day : String) (have_ : Nat) (busy : Bool) (floor : Option Nat)
  | takesNonce
  | signs (day : String) (gas gasPrice balance : Nat)
  | broadcasts (ok : Bool)
  /-- `known_to_node`, if it answers. -/
  | asks (answered : Bool)
  /-- A read of the receipt, the last one if it is late. -/
  | settles (late : Bool)
  /-- The run is killed, or a call raises. -/
  | dies
  | accepts (tx : Tx)
  | drops (tx : Tx)
  | mines (tx : Tx) (status : Nat) (logs : List Log)
  /-- Another program sends a transaction from the account. -/
  | others (nonce id : Nat)
deriving DecidableEq

/-- `send`, up to the connection. -/
def press (s : State) (p : Proc) : State :=
  match s.payout p.key with
  | none => s.goes p .connect
  | some r =>
    if lower r.dest ≠ lower p.dest ∨ r.micro ≠ p.micro then s.result p.key (.refused .other_payout)
    else if r.state = .confirmed then s.result p.key .already
    else if r.state = .mined_unverified then s.result p.key .unknown
    else s.goes p .connect

/-- A transaction for this key already exists: is its receipt there? -/
def resume (s : State) (p : Proc) (tx : Tx) (absent : Point) : State :=
  match s.chain.receipt_of tx with
  | none => s.goes p absent
  | some _ => if p.dry then s.result p.key .unknown else s.goes p .settle

/-- The refusals of a fresh payment. -/
def refusal (cfg : Config) (payouts : List Rec) (p : Proc) (day : String) (have_ : Nat) (busy : Bool)
    (floor : Option Nat) : Option Refusal :=
  if cfg.PER_SEND_MAX < p.micro then some .per_payout
  else if cfg.DAILY_MAX < sent_today_micro payouts day + p.micro then some .daily
  else if busy then some .busy
  else match floor with
    | none => some .no_floor
    | some floor =>
      if (have_ : Int) - p.micro * 10 ^ (USDT_DECIMALS - 6) < floor then some .floor else none

/-- The signature, which is in the ledger before anything is broadcast. -/
def sign (s : State) (p : Proc) (nonce : Nat) (day : String) (gas gasPrice : Nat) : State :=
  let tx : Tx :=
    { nonce := nonce, body := .transfer USDT p.dest (p.micro * 10 ^ (USDT_DECIMALS - 6)), gas := gas,
      gasPrice := gasPrice }
  let r : Rec := { key := p.key, dest := p.dest, micro := p.micro, day := day, tx := tx }
  { s with
    payouts := table.upsert Rec.key p.key (fun _ => r) r s.payouts
    proc := some { p with point := .broadcast }
    signed := s.signed ++ [(p.key, tx)]
    rejected := s.rejected.filter (· ≠ (p.key, tx))
    told := s.told.filter (· ≠ (p.key, tx)) }

/-- `settle`. -/
def settle (cfg : Config) (s : State) (p : Proc) (r : Rec) (late : Bool) : State :=
  match s.chain.receipt_of r.tx with
  | none => if late then s.result p.key .unknown else s
  | some receipt =>
    if receipt.status ≠ 1 then (s.marks p.key .reverted).result p.key (.refused .reverted)
    else if verify_receipt cfg r receipt then (s.marks p.key .confirmed).result p.key .sent
    else (s.marks p.key .mined_unverified).result p.key .unknown

/-- A step of the run, of the node or of another program. -/
def step (cfg : Config) (s : State) : Event → Option State
  | .press key dest micro dry => do
    guard (s.proc = none ∧ 0 < micro)
    return press s { key := key, dest := dest, micro := micro, dry := dry }
  | .lockedOut key => some { s with said := s.said ++ [(key, .refused .no_ledger)] }
  | .connects ok => do
    let p ← s.proc
    guard (p.point = .connect)
    if ok then
      let resumes := (s.payout p.key).any (·.state = .signed)
      return s.goes p (if resumes then .resume else .checks)
    else return s.result p.key (.refused .no_connection)
  | .resumes => do
    let p ← s.proc
    guard (p.point = .resume)
    let r ← s.payout p.key
    return resume s p r.tx .count
  | .counts => do
    let p ← s.proc
    guard (p.point = .count)
    let r ← s.payout p.key
    if r.tx.nonce < s.chain.latest then return s.goes p .recheck
    else if p.dry then return s.result p.key .unknown
    else return s.goes p .rebroadcast
  | .rechecks => do
    let p ← s.proc
    guard (p.point = .recheck)
    let r ← s.payout p.key
    if (s.chain.receipt_of r.tx).isNone then return (s.marks p.key .dead).goes p .checks
    else return resume s p r.tx .checks
  | .rebroadcasts ok => do
    let p ← s.proc
    guard (p.point = .rebroadcast)
    let r ← s.payout p.key
    guard (ok → s.chain.latest ≤ r.tx.nonce)
    return (s.sends r.tx ok).goes p .settle
  | .checks day have_ busy floor => do
    let p ← s.proc
    guard (p.point = .checks)
    match refusal cfg s.payouts p day have_ busy floor with
    | some why => return s.result p.key (.refused why)
    | none => return s.goes p .nonce
  | .takesNonce => do
    let p ← s.proc
    guard (p.point = .nonce)
    return s.goes p (.sign s.chain.pending)
  | .signs day gas gasPrice balance => do
    let p ← s.proc
    match p.point with
    | .sign nonce =>
      if balance < gas * gasPrice then return s.result p.key (.refused .no_gas)
      else if p.dry then return s.result p.key .dry_run
      else return sign s p nonce day gas gasPrice
    | _ => none
  | .broadcasts ok => do
    let p ← s.proc
    guard (p.point = .broadcast)
    let r ← s.payout p.key
    guard (ok → s.chain.latest ≤ r.tx.nonce)
    return (s.sends r.tx ok).goes p (if ok then .settle else .ask)
  | .asks answered => do
    let p ← s.proc
    guard (p.point = .ask)
    let r ← s.payout p.key
    if !answered then return s.result p.key .unknown
    else if s.chain.known_to_node r.tx then return s.goes p .settle
    else
      let s := { s.marks p.key .rejected with rejected := s.rejected ++ [(p.key, r.tx)] }
      return s.result p.key (.refused .node_refused)
  | .settles late => do
    let p ← s.proc
    guard (p.point = .settle)
    let r ← s.payout p.key
    return settle cfg s p r late
  | .dies => some { s with proc := none }
  | .accepts tx => do
    guard (tx ∈ s.sent ∧ s.chain.latest ≤ tx.nonce)
    return { s with chain := s.chain.accept tx }
  | .drops tx => some { s with chain := s.chain.drop tx }
  | .mines tx status logs =>
    if h : tx ∈ s.chain.pool ∧ tx.nonce = s.chain.mined.length then
      some { s with chain := s.chain.mine ⟨tx, status, logs⟩ h.2 }
    else none
  | .others nonce id => do
    guard (s.chain.latest ≤ nonce)
    return { s with chain := s.chain.accept ⟨nonce, .other id, 0, 0⟩ }

/-- What is promised of the payouts. -/
structure Exact (s : State) : Prop where
  /-- At most one transfer that was signed for a key is mined successfully. -/
  once : ∀ key, (s.chain.mined.filter fun r => r.status = 1 && (key, r.tx) ∈ s.signed).length ≤ 1
  /-- What was said not to be sent is not mined, unless it is signed again. -/
  told : ∀ q ∈ s.told, ∀ r ∈ s.chain.mined, r.tx ≠ q.2

/-- The node does not come to have a transaction that it did not know when it was asked, and a run
that cannot connect has no transaction that can still mine or has mined. -/
def Heeded (s : State) : Event → Prop
  | .accepts tx => ∀ q ∈ s.rejected, q.2 ≠ tx
  | .rebroadcasts ok | .broadcasts ok => ok → ∀ p ∈ s.proc, ∀ r ∈ s.payout p.key,
    ∀ q ∈ s.rejected, q.2 ≠ r.tx
  | .connects ok => ok = false → ∀ p ∈ s.proc, ∀ r ∈ s.payout p.key, r.state = .signed →
    r.tx.nonce < s.chain.latest ∧ ∀ receipt ∈ s.chain.receipt_of r.tx, receipt.status ≠ 1
  | _ => True

instance (s : State) : (e : Event) → Decidable (Heeded s e)
  | .accepts _ => inferInstanceAs (Decidable (∀ q ∈ s.rejected, q.2 ≠ _))
  | .rebroadcasts ok | .broadcasts ok =>
    inferInstanceAs (Decidable (ok → ∀ p ∈ s.proc, ∀ r ∈ s.payout p.key, ∀ q ∈ s.rejected, _))
  | .connects ok =>
    inferInstanceAs (Decidable (ok = false → ∀ p ∈ s.proc, ∀ r ∈ s.payout p.key, _ → _))
  | .press _ _ _ _ | .lockedOut _ | .resumes | .counts | .rechecks | .checks _ _ _ _ | .takesNonce
  | .signs _ _ _ _ | .asks _ | .settles _ | .dies | .drops _ | .mines _ _ _ | .others _ _ =>
    .isTrue trivial

end pcoin.keeper
