import PCoin.Keeper.Chain
import PCoin.Table.Evolves
import Mathlib.Algebra.BigOperators.Group.List.Basic
import Mathlib.Data.Rat.Floor

/-! `pcoin-wrapdesk-watch`: its ledger, the run of the timer, and what an operator makes it do. -/

namespace pcoin.wrapdesk.watch

open keeper

structure Config where
  TOKEN : String
  PER_PERSON : ℚ
  TOTAL_ALLOC : ℚ
  MAX_SEND : ℚ
  FEE_PCT : ℚ
  SEND_DAILY_CAP : ℚ
  CONFIRMATIONS : Nat
  OPENED_AT_HEIGHT : Nat
  CLOSED_AT_HEIGHT : Nat

def Config.PER_ADDRESS_CEILING (cfg : Config) : ℚ := cfg.PER_PERSON * (95 / 100)

def WPCN_DECIMALS : Nat := 8

def TRANSFER_TOPIC : List Char :=
  "ddf252ad1be2c89b69c2b068fc378daa952ba7f163c4a11628f55a4df523b3ef".toList

/-- A transaction of the keeper, or the hash of one of another account. -/
inductive Hash
  | ours (tx : Tx)
  | foreign (hash : String)
deriving DecidableEq

/-- A transaction of another account. -/
structure Foreign where
  hash : String
  status : Nat
  logs : List Log
deriving DecidableEq

/-- What a release says that it was verified by. -/
structure Evidence where
  sent : ℚ
  dest : String
  hash : Hash
deriving DecidableEq

/-- What `float` makes of a text. -/
inductive Amount
  | nan
  | infinite (negative : Bool)
  | num (q : ℚ)
deriving DecidableEq

namespace Amount

/-- `min(back, limit)`. -/
def upTo (limit : ℚ) : Amount → Amount
  | .nan => .nan
  | .infinite negative => if negative then .infinite true else .num limit
  | .num q => .num (min q limit)

/-- `back * rate`. -/
def times (rate : ℚ) : Amount → Amount
  | .nan => .nan
  | .infinite negative => if rate = 0 then .nan else .infinite (negative != decide (rate < 0))
  | .num q => .num (q * rate)

def add : Amount → Amount → Amount
  | .num a, .num b => .num (a + b)
  | .infinite a, .infinite b => if a = b then .infinite a else .nan
  | .infinite a, .num _ => .infinite a
  | .num _, .infinite b => .infinite b
  | .nan, _ => .nan
  | _, .nan => .nan

/-- `amount > limit`, which is false of what is no number. -/
def exceeds (limit : ℚ) : Amount → Bool
  | .nan => false
  | .infinite negative => !negative
  | .num q => limit < q

/-- The number, if it is one. -/
def finite : Amount → Option ℚ
  | .num q => some q
  | _ => none

end Amount

/-- `seen["wrap:" + key]`, where the key is `<txid>:<address>`. -/
structure Seen where
  key : String
  released : Bool := false
  refunded : Bool := false
  bsc_txhash : Option Hash := none
  verified : Option Evidence := none
  send_wpcn : Option ℚ := none
  refund_pcn : Option Amount := none
deriving DecidableEq

/-- `sends["wrap:" + key]`. -/
structure Send where
  key : String
  day : String
  wpcn : ℚ
  dest : String
  broadcast : Tx
  confirmed : Bool := false
deriving DecidableEq

/-- `outstanding[key]`, with the requester if there is one. -/
structure Outstanding where
  key : String
  pcn : ℚ
  send_wpcn : ℚ
  dest : Option String
  address : String
deriving DecidableEq

def startsWith (s pre : String) : Bool := pre.toList.isPrefixOf s.toList

def endsWith (s suf : String) : Bool := suf.toList.isSuffixOf s.toList

/-- `txid[5:]` if it starts with `wrap:`. -/
def bare (arg : String) : String :=
  if startsWith arg "wrap:" then String.ofList (arg.toList.drop 5) else arg

/-! The run of the timer. -/

/-- An entry of the explorer's history of an address. -/
structure Item where
  txid : String
  confirmations : Nat
  received_pcn : ℚ
  height : Option Nat

/-- A watched address, with its history if the explorer can be read. -/
structure Watched where
  address : String
  requester : Option String
  items : Option (List Item)

/-- The deposit is closed. -/
def closed (seen : List Seen) (key : String) : Bool :=
  (table.find Seen.key key seen).any fun v => v.released || v.refunded

def Config.net (cfg : Config) (amt : ℚ) : ℚ :=
  let eligible := if cfg.PER_PERSON < amt then cfg.PER_PERSON else amt
  eligible - eligible * cfg.FEE_PCT / 100

/-- `released_wpcn`; a release with no amount counts as the largest one. -/
def released_wpcn (cfg : Config) (seen : List Seen) : ℚ :=
  ((seen.filter fun v => v.released && !v.refunded).map fun v =>
    let amt := v.send_wpcn.getD 0
    if 0 < amt then amt else cfg.PER_PERSON * (1 - cfg.FEE_PCT / 100)).sum

/-- The sums of a run: of this depositor, and of all that it has instructed. -/
structure Tally where
  prior : ℚ := 0
  pledged : ℚ := 0
  outstanding : List Outstanding := []

/-- One confirmed entry. -/
def rebuildItem (cfg : Config) (seen : List Seen) (w : Watched) (t : Tally) (it : Item) : Tally :=
  let key := it.txid ++ ":" ++ w.address
  match it.height with
  | none => t
  | some h =>
    if it.received_pcn ≤ 0 ∨ h ≤ cfg.OPENED_AT_HEIGHT ∨ closed seen key then t
    else if 0 < cfg.CLOSED_AT_HEIGHT ∧ cfg.CLOSED_AT_HEIGHT < h then t
    else if it.confirmations < cfg.CONFIRMATIONS then t
    else
      let net := cfg.net it.received_pcn
      let breach :=
        cfg.PER_PERSON * (1 - cfg.FEE_PCT / 100) + 1 / 10 ^ 9 < t.prior + net ∨
        cfg.TOTAL_ALLOC + 1 / 10 ^ 9 < released_wpcn cfg seen + t.pledged + net ∨
        cfg.MAX_SEND + 1 / 10 ^ 9 < net
      if breach then { t with prior := t.prior + net }
      else
        let new : Outstanding :=
          { key := key, pcn := it.received_pcn, send_wpcn := net, dest := w.requester,
            address := w.address }
        { prior := t.prior + net, pledged := t.pledged + net,
          outstanding := table.upsert Outstanding.key key (fun _ => new) new t.outstanding }

def rebuildAddress (cfg : Config) (seen : List Seen) (t : Tally) (w : Watched) : Tally :=
  (w.items.getD []).foldl (rebuildItem cfg seen w) { t with prior := 0 }

/-- `st["outstanding"]`, which the timer rebuilds from the chain. -/
def rebuild (cfg : Config) (seen : List Seen) (watch : List Watched) : List Outstanding :=
  (watch.foldl (rebuildAddress cfg seen) {}).outstanding

/-! The check of a payment. -/

def last40 (topic : String) : List Char :=
  let t := topic.toList.map Char.toLower
  t.drop (t.length - 40)

/-- `t.lower().removeprefix("0x")`. -/
def bareHex (topic : String) : List Char :=
  let t := topic.toList.map Char.toLower
  if ['0', 'x'].isPrefixOf t then t.drop 2 else t

/-- What the logs move to an address. -/
def wpcnTo (cfg : Config) (logs : List Log) (dest : String) : Nat :=
  ((logs.filter fun lg => lower lg.address = lower cfg.TOKEN && match lg.topics with
    | topic :: _ :: to2 :: _ => bareHex topic = TRANSFER_TOPIC && '0' :: 'x' :: last40 to2 = lower dest
    | _ => false).map Log.data).sum

inductive Verdict
  | yes (e : Evidence)
  | no
  | unknown
deriving DecidableEq

/-- `verify_wpcn_sent`, if the chain answers. -/
def verify_wpcn_sent (cfg : Config) (receipt : Option (Nat × List Log)) (hash : Hash) (dest : String)
    (expect : ℚ) : Verdict :=
  match receipt with
  | none => .no
  | some (status, logs) =>
    if status ≠ 1 then .no
    else
      let sent : ℚ := wpcnTo cfg logs dest / 10 ^ WPCN_DECIMALS
      if sent + 5 / 1000 < expect then .no else .yes { sent := sent, dest := dest, hash := hash }

/-! What an operator asks for. -/

/-- Where a run of `--send` stands, before each of its calls. -/
inductive Point
  | connect
  | nonce
  | send (nonce : Nat)
  | remember (tx : Tx)
  | wait (tx : Tx)
  | verify (tx : Tx)
deriving DecidableEq

/-- The run that holds the lock. -/
structure Proc where
  key : String
  dest : String
  amount : ℚ
  point : Point := .connect
deriving DecidableEq

/-- The ledger, the run and the chains. `signed` is history: what `--send` signed for a wrap. -/
structure State where
  seen : List Seen := []
  sends : List Send := []
  outstanding : List Outstanding := []
  proc : Option Proc := none
  chain : Chain := {}
  foreign : List Foreign := []
  sent : List Tx := []
  signed : List (String × Tx) := []
deriving DecidableEq

namespace State

variable (s : State)

def receipt (hash : Hash) : Option (Nat × List Log) :=
  match hash with
  | .ours tx => (s.chain.receipt_of tx).map fun r => (r.status, r.logs)
  | .foreign hash => (table.find Foreign.hash hash s.foreign).map fun r => (r.status, r.logs)

/-- `setdefault(key, {})`, and an update. -/
def mark (key : String) (f : Seen → Seen) : State :=
  { s with seen := table.upsert Seen.key key f (f { key := key }) s.seen }

def goes (p : Proc) (point : Point) : State := { s with proc := some { p with point := point } }

end State

/-- The wrap that a text names: the only outstanding one that starts with it. -/
def resolve (outstanding : List Outstanding) (txid : String) : Option String :=
  match outstanding.filter fun o => startsWith o.key txid with
  | [o] => some o.key
  | _ :: _ :: _ => none
  | [] => some txid

/-- `sent_today`. -/
def sent_today (sends : List Send) (day : String) : ℚ :=
  ((sends.filter (·.day = day)).map Send.wpcn).sum

/-- What `--send` takes a record for. -/
def Seen.charge (cfg : Config) (v : Seen) : Amount :=
  if v.released then .num (v.send_wpcn.getD 0)
  else if v.refunded then match v.refund_pcn with
    | some back => (back.upTo cfg.PER_PERSON).times (1 - cfg.FEE_PCT / 100)
    | none => .num cfg.PER_ADDRESS_CEILING
  else .num 0

/-- What an address has used of its allowance, paid or refunded. -/
def allowanceUsed (cfg : Config) (seen : List Seen) (address : String) : Amount :=
  ((seen.filter fun v => endsWith v.key (":" ++ address)).map (Seen.charge cfg)).foldl Amount.add (.num 0)

inductive Refusal
  | no_match
  | no_recipient
  | released
  | ceiling
  | allowance
  | daily_cap
  | unconfirmed
deriving DecidableEq

/-- `--send`, up to the connection. -/
def send (cfg : Config) (s : State) (txid day : String) : Except Refusal Proc := do
  let some key := resolve s.outstanding txid | throw .no_match
  let some out := table.find Outstanding.key key s.outstanding | throw .no_match
  let some dest := out.dest | throw .no_recipient
  if out.send_wpcn ≤ 0 then throw .no_recipient
  if (table.find Seen.key key s.seen).any Seen.released then throw .released
  if cfg.PER_ADDRESS_CEILING + 1 / 10 ^ 9 < out.send_wpcn then throw .ceiling
  if ((allowanceUsed cfg s.seen out.address).add (.num out.send_wpcn)).exceeds
      (cfg.PER_ADDRESS_CEILING + 1 / 10 ^ 9) then
    throw .allowance
  if cfg.SEND_DAILY_CAP + 1 / 10 ^ 9 < sent_today s.sends day + out.send_wpcn then throw .daily_cap
  if (table.find Send.key key s.sends).any (!·.confirmed) then throw .unconfirmed
  return { key := key, dest := dest, amount := out.send_wpcn }

/-- `round`, which takes a half to the even number. -/
def roundEven (q : ℚ) : Int :=
  let f := q.floor
  if q - f < 1 / 2 then f else if 1 / 2 < q - f then f + 1 else if f % 2 = 0 then f else f + 1

/-- `int(round(amount_wpcn * (10 ** WPCN_DECIMALS)))`. -/
def units (amount : ℚ) : Int := roundEven (amount * 10 ^ WPCN_DECIMALS)

/-- `--released`, without `--force`. -/
def release (cfg : Config) (s : State) (arg : String) (hash : Option Hash) (answered : Bool) :
    Option State := do
  let key ← resolve s.outstanding (bare arg)
  guard (s.outstanding = [] ∨ key ∈ s.outstanding.map Outstanding.key)
  guard (':' ∈ key.toList)
  let hash ← hash
  let out ← table.find Outstanding.key key s.outstanding
  let dest ← out.dest
  guard (0 < out.send_wpcn ∧ answered = true)
  match verify_wpcn_sent cfg (s.receipt hash) hash dest out.send_wpcn with
  | .yes e =>
    return s.mark key fun v =>
      { v with released := true, bsc_txhash := some hash, verified := some e,
               send_wpcn := some out.send_wpcn }
  | _ => none

/-- `--released` with `--force`. -/
def force (s : State) (arg : String) (hash : Option Hash) : Option State := do
  let key ← resolve s.outstanding (bare arg)
  guard (s.outstanding = [] ∨ key ∈ s.outstanding.map Outstanding.key)
  guard (':' ∈ key.toList)
  let sent := ((table.find Outstanding.key key s.outstanding).map Outstanding.send_wpcn).getD 0
  return s.mark key fun v =>
    { v with released := true, bsc_txhash := hash, verified := none,
             send_wpcn := if 0 < sent then some sent else v.send_wpcn }

/-- `--refunded`. -/
def refund (s : State) (arg : String) (pcn : Option Amount) : Option State := do
  guard (':' ∈ (bare arg).toList)
  return s.mark (bare arg) fun v =>
    { v with refunded := true, refund_pcn := pcn.orElse fun _ => v.refund_pcn }

inductive Event
  | timer (watch : List Watched)
  | send (arg day : String)
  | connects (ok : Bool)
  /-- The balances are read, and the nonce. -/
  | takesNonce (have_ bnb : Nat)
  /-- The transaction is signed and broadcast; the answer may be lost. -/
  | sends (gas gasPrice : Nat) (ok : Bool)
  | remembers (day : String)
  /-- A read of the receipt, the last one if it is late. -/
  | waits (late : Bool)
  | verifies (answered : Bool)
  | released (arg : String) (hash : Option Hash) (answered : Bool)
  | refunded (arg : String) (pcn : Option Amount)
  /-- The run is killed, or a call raises. -/
  | dies
  | accepts (tx : Tx)
  | drops (tx : Tx)
  | mines (tx : Tx) (status : Nat) (logs : List Log)
  /-- Another program sends a transaction from the account. -/
  | others (nonce id : Nat)
  /-- A transaction of another account is mined. -/
  | minesForeign (tx : Foreign)

/-- A step of the tool, of the node or of another program. -/
def step (cfg : Config) (s : State) : Event → Option State
  | .timer watch => do
    guard (s.proc = none)
    return { s with outstanding := rebuild cfg s.seen watch }
  | .send arg day => do
    guard (s.proc = none)
    let p ← (send cfg s (bare arg) day).toOption
    return s.goes p .connect
  | .connects ok => do
    let p ← s.proc
    guard (p.point = .connect)
    if ok then return s.goes p .nonce else return { s with proc := none }
  | .takesNonce have_ bnb => do
    let p ← s.proc
    guard (p.point = .nonce)
    if units p.amount ≤ 0 ∨ (have_ : Int) < units p.amount ∨ bnb = 0 then return { s with proc := none }
    else return s.goes p (.send s.chain.latest)
  | .sends gas gasPrice ok => do
    let p ← s.proc
    match p.point with
    | .send nonce =>
      let tx : Tx :=
        { nonce := nonce, body := .transfer cfg.TOKEN p.dest (units p.amount).toNat, gas := gas,
          gasPrice := gasPrice }
      guard (ok → s.chain.latest ≤ nonce)
      let proc := if ok then some { p with point := .remember tx } else none
      return { s with
        proc := proc, sent := s.sent ++ [tx], signed := s.signed ++ [(p.key, tx)]
        chain := if ok then s.chain.accept tx else s.chain }
    | _ => none
  | .remembers day => do
    let p ← s.proc
    match p.point with
    | .remember tx =>
      let new : Send := { key := p.key, day := day, wpcn := p.amount, dest := p.dest, broadcast := tx }
      let sends := table.upsert Send.key p.key (fun _ => new) new s.sends
      return { s with sends := sends }.goes p (.wait tx)
    | _ => none
  | .waits late => do
    let p ← s.proc
    match p.point with
    | .wait tx =>
      match s.chain.receipt_of tx with
      | none => return if late then { s with proc := none } else s
      | some r => if r.status ≠ 1 then return { s with proc := none } else return s.goes p (.verify tx)
    | _ => none
  | .verifies answered => do
    let p ← s.proc
    match p.point with
    | .verify tx =>
      let verdict :=
        if answered then verify_wpcn_sent cfg (s.receipt (.ours tx)) (.ours tx) p.dest p.amount
        else .unknown
      match verdict with
      | .yes e =>
        let confirm (r : Send) : Send := { r with confirmed := true }
        let release (v : Seen) : Seen :=
          { v with released := true, bsc_txhash := some (.ours tx), verified := some e,
                   send_wpcn := some p.amount }
        return { s.mark p.key release with
          proc := none, sends := table.update Send.key p.key confirm s.sends }
      | _ => return { s with proc := none }
    | _ => none
  | .released arg hash answered => do
    guard (s.proc = none)
    release cfg s arg hash answered
  | .refunded arg pcn => do
    guard (s.proc = none)
    refund s arg pcn
  | .dies => some { s with proc := none }
  | .accepts tx => do
    guard (tx ∈ s.sent ∧ s.chain.latest ≤ tx.nonce)
    return { s with chain := s.chain.accept tx }
  | .drops tx => some { s with chain := s.chain.drop tx }
  | .mines tx status logs =>
    if h : tx ∈ s.chain.pool ∧ tx.nonce = s.chain.mined.length then
      some { s with chain := s.chain.mine ⟨tx, status, logs⟩ h.2 }
    else none
  | .others nonce id => do
    guard (s.chain.latest ≤ nonce)
    return { s with chain := s.chain.accept ⟨nonce, .other id, 0, 0⟩ }
  | .minesForeign tx => do
    guard (table.find Foreign.hash tx.hash s.foreign = none)
    return { s with foreign := s.foreign ++ [tx] }

end pcoin.wrapdesk.watch
