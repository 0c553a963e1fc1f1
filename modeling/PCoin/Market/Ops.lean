import PCoin.Market.Delivery
import Mathlib.Algebra.BigOperators.Group.List.Basic
import Mathlib.Data.Rat.Floor
import Mathlib.Data.Nat.Basic

namespace pcoin.market.ops

/-- `POST /api/ops/send-pcn`, which calls `opsSendPcn`, and `POST /api/ops/refund-pcn`. -/
inductive Endpoint
  | send
  | refund
deriving DecidableEq

/-- The settings of the two endpoints; `0` stands for a limit that is not set. -/
structure Cfg where
  sendToken : Option String := none
  refundToken : Option String := none
  sendMaxPcn : ℚ := 0
  sendDayMaxPcn : ℚ := 0
  refundMaxPcn : ℚ := 0
deriving DecidableEq

namespace Cfg

def token (cfg : Cfg) : Endpoint → Option String
  | .send => cfg.sendToken.filter (· ≠ "")
  | .refund => cfg.refundToken.filter (· ≠ "")

/-- `MAX`, if it is finite, and `MAX_REFUND_PCN`. -/
def max (cfg : Cfg) : Endpoint → Option ℚ
  | .send => if 0 < cfg.sendMaxPcn then some cfg.sendMaxPcn else none
  | .refund => some (if cfg.refundMaxPcn = 0 then 600 else cfg.refundMaxPcn)

end Cfg

inductive Answer
  | off
  | unauthorized
  | notJson
  | badKey
  | badAddress
  | badAmount
  | overMax
  | unreadable
  | already (txid : String)
  | overDay
  | tooLittle
  | failedOrLost
  | sent (txid : String)
deriving DecidableEq

def Answer.code : Answer → Nat
  | .off => 503
  | .unauthorized => 401
  | .unreadable => 503
  | .already _ => 200
  | .failedOrLost => 502
  | .sent _ => 200
  | _ => 400

/-- A body after `String(..).trim()` and `Number(..)`; `pcn` is none when that is not
finite. -/
structure Body where
  key : String
  toAddress : String
  pcn : Option ℚ
deriving DecidableEq

/-- A request with the token of its `Bearer` header; the body is none when it is not one
JSON object. -/
structure Post where
  endpoint : Endpoint
  bearer : Option String
  body : Option Body
deriving DecidableEq

/-- `[0-9A-Za-z._-]`. -/
def keyChar (c : Char) : Bool := c.isAlphanum || c = '.' || c = '_' || c = '-'

/-- `[02-9ac-hj-np-z]`. -/
def bech32Char (c : Char) : Bool :=
  c = '0' || ('2' ≤ c && c ≤ '9') || c = 'a' || ('c' ≤ c && c ≤ 'h') || ('j' ≤ c && c ≤ 'n') ||
    ('p' ≤ c && c ≤ 'z')

def sendText : List Char := ['s', 'e', 'n', 'd', ':']

/-- The comment starts with `send:`. -/
def startsWithSend (text : String) : Bool := sendText.isPrefixOf text.toList

def keyOk : Endpoint → String → Bool
  | .send, key =>
    let rest := key.toList.drop 5
    startsWithSend key && 6 ≤ rest.length && rest.length ≤ 80 && rest.all keyChar
  | .refund, key =>
    4 ≤ key.toList.length && key.toList.length ≤ 160 &&
      key.toList.all fun c => keyChar c || c = ':'

def addressOk (address : String) : Bool :=
  let rest := address.toList.drop 3
  ['p', 'c', '1'].isPrefixOf address.toList && 20 ≤ rest.length && rest.length ≤ 87 &&
    rest.all bech32Char

/-- `Number(pcn.toFixed(8))` in units of `1e-8` PCN: the nearest one, of two the larger. -/
def toFixed8 (pcn : ℚ) : Nat := ⌊pcn * 10 ^ 8 + 1 / 2⌋₊

/-- A request that has passed the checks; `now` is the clock in milliseconds when it
came in. -/
structure Request where
  endpoint : Endpoint
  key : String
  toAddress : String
  amount : Nat
  now : Nat
  key_ok : keyOk endpoint key = true
deriving DecidableEq

/-- What both endpoints check before their first `await`. -/
def parse (cfg : Cfg) (now : Nat) (p : Post) : Except Answer Request :=
  match cfg.token p.endpoint with
  | none => .error .off
  | some want =>
    if p.bearer ≠ some want then .error .unauthorized else
    match p.body with
    | none => .error .notJson
    | some b =>
      if hkey : keyOk p.endpoint b.key = true then
        if addressOk b.toAddress = false then .error .badAddress else
        match b.pcn with
        | none => .error .badAmount
        | some pcn =>
          if pcn ≤ 0 then .error .badAmount
          else if (cfg.max p.endpoint).any (· < pcn) then
            .error (if p.endpoint = .send then .overMax else .badAmount)
          else .ok ⟨p.endpoint, b.key, b.toAddress, toFixed8 pcn, now, hkey⟩
      else .error .badKey

/-- An entry of `listtransactions` with its amount, negative for a send, and its time in
seconds. `source` is the endpoint that made it; the wallet does not keep that. -/
structure Entry extends Tx where
  amount : Int
  time : Nat
  source : Option Endpoint := none
deriving DecidableEq

def Entry.isLive (e : Entry) : Bool :=
  e.category = .send && !e.abandoned && e.confirmations > -1

/-- `listtransactions('*', 1000, 0, true)`. -/
def recent (history : List Entry) : List Entry := history.drop (history.length - 1000)

/-- The time counts in the last 24 hours before `now`, in milliseconds. -/
def isToday (now time : Nat) : Bool := (now / 1000 : Nat) - (time : Int) < 86400

/-- `sentToday` of the live `send:` entries. -/
def sentToday (now : Nat) (live : List Entry) : Nat :=
  (live.map fun e => if isToday now e.time then e.amount.natAbs else 0).sum

/-- What both endpoints conclude from the wallet's history: already sent, over the
limit of the day, or go on. -/
def look (cfg : Cfg) (history : List Entry) (r : Request) : Except Answer Unit :=
  match r.endpoint with
  | .send =>
    let live := (recent history).filter fun e => e.isLive && startsWithSend e.comment
    match live.find? (·.comment = r.key) with
    | some prior => .error (.already prior.txid)
    | none =>
      if 0 < cfg.sendDayMaxPcn ∧
          cfg.sendDayMaxPcn * 10 ^ 8 + 1 / 10 < (sentToday r.now live + r.amount : ℕ) then
        .error .overDay
      else .ok ()
  | .refund =>
    match (recent history).find? fun e => e.comment = r.key && e.isLive with
    | some prior => .error (.already prior.txid)
    | none => .ok ()

/-- A request in progress. -/
structure Pending where
  fid : Nat
  req : Request
deriving DecidableEq

/-- The process and the wallet. A request waits for `listtransactions` in `lookups`, for
`getbalances` in `balances`, and `sends` holds the `sendtoaddress` calls that have reached
the wallet and were not committed; `waiting` are the requests not answered yet. -/
structure State where
  cfg : Cfg
  now : Nat := 0
  nextFid : Nat := 0
  waiting : List Nat := []
  lookups : List Pending := []
  balances : List Pending := []
  sends : List Pending := []
  history : List Entry := []
  answers : List (Nat × Answer) := []
deriving DecidableEq

namespace State

/-- Answer a request, if it still waits. -/
def answer (s : State) (fid : Nat) (a : Answer) : State :=
  if fid ∈ s.waiting then
    { s with waiting := s.waiting.filter (· ≠ fid), answers := s.answers ++ [(fid, a)] }
  else s

end State

/-- Take the request out of a list. -/
def without (fid : Nat) (l : List Pending) : List Pending := l.filter (·.fid ≠ fid)

/-- What can happen: requests come in, what they wait for answers or throws, the wallet
commits or refuses a send, lists other transactions, and marks some as abandoned,
conflicted or confirmed, and the process dies. -/
inductive Event
  | post (p : Post)
  | lookup (fid : Nat)
  | balance (fid : Nat) (have_ : Option Int)
  | commit (fid : Nat) (txid : String)
  | refuse (fid : Nat)
  | throws (fid : Nat)
  | other (e : Entry)
  | mark (txid : String) (abandoned : Bool) (confirmations : Int)
  | tick (ms : Nat)
  | crash

/-- The entry of a committed `sendtoaddress`. -/
def Pending.entry (p : Pending) (now : Nat) (txid : String) : Entry :=
  { txid := txid, comment := p.req.key, category := .send, abandoned := false,
    confirmations := 0, amount := -p.req.amount, time := now / 1000,
    source := some p.req.endpoint }

def Entry.mark (txid : String) (abandoned : Bool) (confirmations : Int) (e : Entry) : Entry :=
  if e.txid = txid then { e with abandoned := abandoned, confirmations := confirmations } else e

def step (s : State) : Event → Option State
  | .post p =>
    let s' := { s with nextFid := s.nextFid + 1, waiting := s.waiting ++ [s.nextFid] }
    match parse s.cfg s.now p with
    | .error a => some (s'.answer s.nextFid a)
    | .ok r => some { s' with lookups := s.lookups ++ [⟨s.nextFid, r⟩] }
  | .lookup fid => do
    let p ← s.lookups.find? (·.fid = fid)
    let s' := { s with lookups := without fid s.lookups }
    match look s.cfg s.history p.req with
    | .error a => return s'.answer fid a
    | .ok () =>
      match p.req.endpoint with
      | .send => return { s' with balances := s.balances ++ [p] }
      | .refund => return { s' with sends := s.sends ++ [p] }
  | .balance fid have_ => do
    let p ← s.balances.find? (·.fid = fid)
    let s' := { s with balances := without fid s.balances }
    -- a balance that cannot be read does not block
    if have_.any (· < (p.req.amount : Int)) then return s'.answer fid .tooLittle
    else return { s' with sends := s.sends ++ [p] }
  | .commit fid txid => do
    let p ← s.sends.find? (·.fid = fid)
    return { s with sends := without fid s.sends
                    history := s.history ++ [p.entry s.now txid] }.answer fid (.sent txid)
  | .refuse fid => do
    let _ ← s.sends.find? (·.fid = fid)
    return { s with sends := without fid s.sends }.answer fid .failedOrLost
  | .throws fid =>
    if s.lookups.any (·.fid = fid) then
      some ({ s with lookups := without fid s.lookups }.answer fid .unreadable)
    -- the send is still in the wallet
    else if s.sends.any (·.fid = fid) then some (s.answer fid .failedOrLost)
    else none
  | .other e => do
    guard (e.source = none)
    return { s with history := s.history ++ [e] }
  | .mark txid abandoned confirmations =>
    some { s with history := s.history.map (Entry.mark txid abandoned confirmations) }
  | .tick ms => some { s with now := s.now + ms }
  | .crash => some { s with waiting := [], lookups := [], balances := [] }

end pcoin.market.ops
