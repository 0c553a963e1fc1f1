import PCoin.Run.Basic

namespace pcoin.market

/-- The statuses of an order that `delivery.mjs` tells apart; `other` is any of the
rest. -/
inductive Status
  | awaiting_delivery
  | sending
  | delivered
  | needs_review
  | other (name : String)
deriving DecidableEq

inductive Mode
  | auto
  | manual
deriving DecidableEq

/-- What the delivery code reads and writes of an order's row. Amounts are exact, in
cents and in units of `1e-8` PCN; `paid_at` is in seconds. -/
structure Order where
  usd : Int
  quoted_pcn : Int
  status : Status
  delivered_txid : Option String := none
  delivery_mode : Option Mode := none
  paid_at : Option Nat := none
deriving DecidableEq

inductive Category
  | send
  | receive
  | generate
  | immature
  | orphan
deriving DecidableEq

/-- An entry of `listtransactions`. -/
structure Tx where
  txid : String
  comment : String
  category : Category
  abandoned : Bool
  confirmations : Int
deriving DecidableEq

/-- The latest `count` entries of the wallet's history, which is oldest first. -/
def listtransactions (history : List Tx) (count : Nat) : List Tx :=
  history.drop (history.length - count)

/-- `findSentTx`. -/
def findSentTx (history : List Tx) (orderId : String) : Option String :=
  ((listtransactions history 1000).find? fun t =>
    t.comment = orderId ∧ t.category = .send ∧ t.abandoned ≠ true ∧
      t.confirmations > -1).map Tx.txid

/-- The `await` at which a call for the order is suspended: in `deliver`, from its
`SELECT` to what follows a `sendtoaddress` that failed, in `recordSent`, in
`reconcileSending`, and in the admin actions `order/send` and `order/deliver`. In `tail`
only messages are left. The number in a sweep is that of the claims made before its
in-flight check, which the source does not keep. -/
inductive Pc
  | select (force : Bool)
  | lookup (force : Bool)
  | markManual
  | balance
  | floatTooLow
  | claim
  | recheck
  | release
  | send (reply : Option String)
  | failedLookup
  | failedReview
  | recordSent (txid : String)
  | sweepSelect
  | sweepCheck
  | sweepLookup (era : Nat)
  | sweepReview (era : Nat)
  | adminLookup (reviewed : Bool)
  | adminSelect (reviewed : Bool)
  | adminReopen
  | markSelect (txid : String)
  | markDelivered (txid : String)
  | tail
deriving DecidableEq

/-- A call of `deliver`, `reconcileSending` or an admin action; `entered` says that
it counts in `sendingNow`. -/
structure Call where
  fid : Nat
  entered : Bool := false
  pc : Pc
deriving DecidableEq

/-- A `sendtoaddress` that has reached the wallet and was not committed yet, with the
claim it was made under. -/
structure Send where
  fid : Nat
  era : Nat
deriving DecidableEq

/-- The market process, the order's row and the wallet. `claims` counts the claims
that succeeded; it is not in the source. -/
structure State where
  orderId : String
  order : Order
  autoMaxUsd : Int
  floatStop : Int
  now : Nat := 0
  calls : List Call := []
  sendingNow : Nat := 0
  nextFid : Nat := 0
  claims : Nat := 0
  history : List Tx := []
  sends : List Send := []
deriving DecidableEq

namespace State

def call (s : State) (fid : Nat) : Option Call := s.calls.find? (·.fid = fid)

/-- Resume a call at its next `await`. -/
def goto (s : State) (fid : Nat) (pc : Pc) : State :=
  { s with calls := s.calls.map fun c => if c.fid = fid then { c with pc := pc } else c }

def start (s : State) (pc : Pc) : State :=
  { s with calls := s.calls ++ [{ fid := s.nextFid, pc := pc }], nextFid := s.nextFid + 1 }

/-- A call returns; `leaveSending` if it had entered. -/
def leave (s : State) (c : Call) : State :=
  { s with calls := s.calls.filter (·.fid ≠ c.fid)
           sendingNow := if c.entered then s.sendingNow - 1 else s.sendingNow }

/-- `enterSending`, right before the claim is sent. -/
def enterSending (s : State) (fid : Nat) : State :=
  { s with calls := s.calls.map fun c =>
             if c.fid = fid then { c with entered := true, pc := .claim } else c
           sendingNow := s.sendingNow + 1 }

/-- Call `sendtoaddress`. -/
def sendtoaddress (s : State) (fid : Nat) : State :=
  { s.goto fid (.send none) with sends := s.sends ++ [⟨fid, s.claims⟩] }

def isAuto (s : State) : Bool := s.autoMaxUsd > 0 && s.order.usd ≤ s.autoMaxUsd

end State

/-- The `UPDATE` of `recordSent`, guarded on `delivered_txid IS NULL`. -/
def Order.recordSent (o : Order) (txid : String) : Order :=
  if o.delivered_txid = none then { o with status := .delivered, delivered_txid := some txid }
  else o

/-- The row that the statement of a suspended call leaves, and where the call goes on
once it is answered. -/
def statement (s : State) : Pc → Option (Order × Pc)
  | .select force =>
    if s.order.delivered_txid.isSome ∨ s.order.status ≠ .awaiting_delivery then
      some (s.order, .tail)
    else some (s.order, .lookup force)
  | .markManual =>
    some ({ s.order with delivery_mode := s.order.delivery_mode <|> some .manual }, .tail)
  | .floatTooLow => some ({ s.order with delivery_mode := some .manual }, .tail)
  | .claim =>
    if s.order.status = .awaiting_delivery ∧ s.order.delivered_txid = none then
      some ({ s.order with status := .sending, delivery_mode := some .auto }, .recheck)
    else some (s.order, .tail)
  | .release =>
    if s.order.status = .sending then
      some ({ s.order with status := .awaiting_delivery, delivery_mode := some .manual }, .tail)
    else some (s.order, .tail)
  | .failedReview => some ({ s.order with status := .needs_review }, .tail)
  | .recordSent txid => some (s.order.recordSent txid, .tail)
  | .sweepSelect =>
    if s.order.status = .sending ∧ s.order.delivered_txid = none ∧
        s.order.paid_at.all (· + 300 < s.now) then some (s.order, .sweepCheck)
    else some (s.order, .tail)
  | .sweepReview _ =>
    if s.order.status = .sending then some ({ s.order with status := .needs_review }, .tail)
    else some (s.order, .tail)
  | .adminSelect reviewed =>
    if s.order.status = .needs_review then
      some (s.order, if reviewed then .adminReopen else .tail)
    else some (s.order, .select true)
  | .adminReopen =>
    if s.order.status = .needs_review then
      some ({ s.order with status := .awaiting_delivery }, .select true)
    else some (s.order, .select true)
  | .markSelect txid =>
    some (s.order, if s.order.delivered_txid.isSome then .tail else .markDelivered txid)
  | .markDelivered txid =>
    if s.order.delivered_txid = none then
      some ({ s.order.recordSent txid with
                delivery_mode := s.order.delivery_mode <|> some .manual }, .tail)
    else some (s.order, .tail)
  | _ => none

/-- Where a call goes on when its wallet lookup has answered. -/
def lookedUp (s : State) (found : Option String) : Pc → Option Pc
  | .lookup force =>
    match found with
    | some txid => some (.recordSent txid)
    | none => some (if !force && !s.isAuto then .markManual else .balance)
  | .failedLookup =>
    match found with
    | some txid => some (.recordSent txid)
    | none => some .failedReview
  | .sweepLookup era =>
    match found with
    | some txid => some (.recordSent txid)
    | none => some (.sweepReview era)
  | .adminLookup reviewed => some (if found.isSome then .tail else .adminSelect reviewed)
  | _ => none

/-- What can happen: calls begin, what they wait for answers or throws, the wallet
commits a send, lists other transactions and marks some as abandoned, conflicted or
confirmed, and the process dies. A `query` that is not answered was executed, but its
caller sees an error. -/
inductive Event
  | deliver (force : Bool)
  | reconcileSending
  | orderSend (reviewed : Bool)
  | orderDeliver (txid : String)
  | query (fid : Nat) (answered : Bool)
  | lookup (fid : Nat)
  | balance (fid : Nat) (bal : Int)
  | sent (fid : Nat)
  | throws (fid : Nat)
  | next (fid : Nat)
  | commit (fid : Nat) (txid : String)
  | other (tx : Tx)
  | mark (txid : String) (abandoned : Bool) (confirmations : Int)
  | settings (autoMaxUsd floatStop : Int)
  | tick
  | crash

/-- What the wallet says of a transaction from now on: it is conflicted at `-1` confirmations. -/
def Tx.mark (txid : String) (abandoned : Bool) (confirmations : Int) (t : Tx) : Tx :=
  if t.txid = txid then { t with abandoned := abandoned, confirmations := confirmations } else t

def step (s : State) : Event → Option State
  | .deliver force => some (s.start (.select force))
  | .reconcileSending => some (s.start .sweepSelect)
  | .orderSend reviewed => some (s.start (.adminLookup reviewed))
  | .orderDeliver txid => some (s.start (.markSelect txid))
  | .query fid answered => do
    let c ← s.call fid
    let (order, pc) ← statement s c.pc
    let claims := if c.pc = .claim ∧ pc = .recheck then s.claims + 1 else s.claims
    return { s with order := order, claims := claims }.goto fid (if answered then pc else .tail)
  | .lookup fid => do
    let c ← s.call fid
    let pc ← lookedUp s (findSentTx s.history s.orderId) c.pc
    return s.goto fid pc
  | .balance fid bal => do
    let c ← s.call fid
    let low := bal - s.order.quoted_pcn < s.floatStop
    match c.pc with
    | .balance => return if low then s.goto fid .floatTooLow else s.enterSending fid
    | .recheck => return if low then s.goto fid .release else s.sendtoaddress fid
    | _ => none
  | .sent fid => do
    let c ← s.call fid
    match c.pc with
    | .send (some txid) => return s.goto fid (.recordSent txid)
    | _ => none
  | .throws fid => do
    let c ← s.call fid
    match c.pc with
    -- an unreadable balance does not block a claimed order
    | .recheck => return s.sendtoaddress fid
    | .send _ => return s.goto fid .failedLookup
    | .sweepCheck => none
    | .tail => none
    | _ => return s.goto fid .tail
  | .next fid => do
    let c ← s.call fid
    match c.pc with
    | .sweepCheck =>
      return if s.sendingNow = 0 then s.goto fid (.sweepLookup s.claims) else s.goto fid .tail
    | .tail => return s.leave c
    | _ => none
  | .commit fid txid => do
    let _ ← s.sends.find? (·.fid = fid)
    return { s with
      sends := s.sends.filter (·.fid ≠ fid)
      history := s.history ++ [⟨txid, s.orderId, .send, false, 0⟩]
      calls := s.calls.map fun c =>
        if c.fid = fid ∧ c.pc = .send none then { c with pc := .send (some txid) } else c }
  | .other tx => do
    guard (tx.comment ≠ s.orderId)
    return { s with history := s.history ++ [tx] }
  | .mark txid abandoned confirmations =>
    some { s with history := s.history.map (Tx.mark txid abandoned confirmations) }
  | .settings autoMaxUsd floatStop =>
    some { s with autoMaxUsd := autoMaxUsd, floatStop := floatStop }
  | .tick => some { s with now := s.now + 1 }
  | .crash => some { s with calls := [], sendingNow := 0 }

end pcoin.market
