import PCoin.Market.Callback
import PCoin.Run.Basic

namespace pcoin.market.ipn

open ladder (OrderRow OrderStatus Fill FillState)

/-- Why an unpaid order is held for a human. -/
inductive Hold
  | child
  | mismatch
  | unreadable
  | underpaid
deriving DecidableEq

def Hold.code : Hold → String
  | .child => "CHILD PAYMENT"
  | .mismatch => "DOES NOT MATCH ITS INVOICE"
  | .unreadable => "AMOUNT UNREADABLE"
  | .underpaid => "PARTIAL PAYMENT"

/-- Where a call of the handler stands: the statement or transaction it makes next, with
the order as it read it and how often it has read it again. -/
inductive Pc
  | log
  | load
  | tied (order : OrderRow) (depth : Nat)
  | elsewhere (order : OrderRow) (depth : Nat)
  | accept (order : OrderRow) (depth : Nat)
  | holdRelease (order : OrderRow) (depth : Nat)
  | hold (order : OrderRow) (depth : Nat) (why : Hold) (rel : Option Release)
  | reload (order : OrderRow) (depth : Nat)
  | contradicted (order : OrderRow)
  | moreRelease (order : OrderRow)
  | moreMoney (order : OrderRow) (rel : Option Release)
  | close (order : OrderRow)
  | reversed (order : OrderRow)
deriving DecidableEq

/-- A signed callback that is being handled. -/
structure Call where
  d : Callback
  ev : Ev := {}
  pc : Pc := .log
deriving DecidableEq

/-- The database and what is under way in the process: the calls of the handler, the
orders that wait for their invoice, those whose invoice failed and whose reservation is
still to be released, and those a delivery has claimed. -/
structure State where
  db : ladder.State
  events : List EventRow := []
  nextEvent : Nat := 1
  calls : List (Nat × Call) := []
  nextCall : Nat := 0
  buys : List String := []
  dropped : List String := []
  sends : List String := []
deriving DecidableEq

/-- `loadOrder`. -/
def State.order (s : State) (orderId : String) : Option OrderRow :=
  table.find OrderRow.order_id orderId s.db.orders

/-! ### Decisions -/

/-- Where `decide` goes on, `none` when the callback is answered. -/
def decide (d : Callback) : Option OrderRow → Option Pc
  | none => none
  | some order =>
    match classify d with
    | .fail => some (.tied order 0)
    | .wait => none
    | _ => if d.payment_id = "" then none else some (.tied order 0)

/-- A delivery that is finished by the callback is one of the deliveries. -/
def samePayment (d : Callback) (order : OrderRow) : Option Pc :=
  if truthy order.delivered_txid then none
  else
    match order.status with
    | .awaiting_delivery => if classify d = .underpaid then some (.contradicted order) else none
    | .needs_review =>
      match readNumber d.actually_paid with
      | none => none
      | some paid =>
        if order.paid_amount.all fun had => 1 / 10 ^ 8 < paid - had then some (.moreRelease order)
        else none
    | _ => none

/-- `money`, once it knows the payment the order is tied to. -/
def money (d : Callback) (order : OrderRow) (depth : Nat) (tied : Option String) : Option Pc :=
  if tied = some d.payment_id then samePayment d order
  else if tied ≠ none then none
  else some (.elsewhere order depth)

/-- What is wrong with a payment for an unpaid order. -/
def holdFor (d : Callback) (order : OrderRow) : Option Hold :=
  if truthy (parentPaymentId d) then some .child
  else if invoiceMismatch d order ≠ none then some .mismatch
  else
    match classify d with
    | .unreadable => some .unreadable
    | .underpaid => some .underpaid
    | _ => none

/-- The rest of `money`, for a payment that no other order has. -/
def settle (d : Callback) (order : OrderRow) (depth : Nat) : Pc :=
  match holdFor d order with
  | none => .accept order depth
  | some .underpaid => .holdRelease order depth
  | some why => .hold order depth why none

def afterRace (order : OrderRow) (depth : Nat) : Option Pc :=
  if 2 ≤ depth then none else some (.reload order depth)

def terminal (d : Callback) (order : OrderRow) : Option String → Option Pc
  | none =>
    if order.status ≠ .pending then none
    else if invoiceMismatch d order ≠ none then none
    else some (.close order)
  | some tied =>
    if tied = d.payment_id ∧ d.payment_id ≠ "" then
      if ¬ truthy order.delivered_txid ∧ order.status ∈ [.awaiting_delivery, .needs_review] then
        some (.reversed order)
      else none
    else none

/-! ### Statements -/

/-- What a transaction that ties an order to a payment comes to; `taken` is
`ER_DUP_ENTRY`. -/
inductive Written
  | done (db : ladder.State)
  | raced
  | taken
deriving DecidableEq

/-- The `UPDATE` that ties an order, under the index on `paid_payment_id`. -/
def tie (db : ladder.State) (orderId pid : String) (f : OrderRow → OrderRow) : Written :=
  if db.orders.any fun o => o.order_id ≠ orderId && o.paid_payment_id = some pid then .taken
  else .done (db.updateOrder orderId fun o => { f o with paid_payment_id := some pid })

def UNBACKED : String :=
  "UNBACKED: the ladder reservation was released before the payment confirmed, " ++
    "so these rungs may already have been sold to someone else"

/-- What `accept` writes on the order, the payment apart. -/
def accepted (d : Callback) (backed : Bool) (o : OrderRow) : OrderRow :=
  { o with
    invoice_usd := some (invoicePrice o)
    status := if backed then .awaiting_delivery else .needs_review
    paid_amount := paidValue d
    delivery_error := if backed then none else some UNBACKED }

/-- The transaction of `accept`. -/
def accept (db : ladder.State) (d : Callback) (order : OrderRow) : Written :=
  let moved := (db.fills.filter (Fill.isOpen order.order_id)).length
  let settled := ladder.settleLadder db order.order_id
  match table.find OrderRow.order_id order.order_id settled.orders with
  | none => .raced
  | some row =>
    if truthy row.paid_payment_id ∨ truthy row.delivered_txid ∨ row.status ∉ UNPAID then .raced
    else
      let backed := 0 < moved ||
        settled.fills.any fun f => f.order_id = order.order_id && f.state = .sold
      tie settled order.order_id d.payment_id (accepted d backed)

/-- The text of a hold, with its formatted part. -/
def holdText (d : Callback) (why : Hold) (detail : String) : String :=
  match why with
  | .underpaid => why.code ++ " (" ++ d.payment_status ++ "): " ++ detail
  | _ => why.code ++ ": " ++ detail ++ "."

/-- What `holdForHuman` writes on the order, the payment apart. -/
def held (d : Callback) (why : Hold) (rel : Option Release) (detail : String) (o : OrderRow) :
    OrderRow :=
  { o with
    invoice_usd := some (invoicePrice o)
    status := .needs_review
    paid_amount := paidValue d
    delivery_error := some (slice 2000 (holdText d why detail))
    usd := (rel.bind Release.usd).getD o.usd
    quoted_pcn := (rel.map Release.pcn).getD o.quoted_pcn }

/-- The conditional `UPDATE` of `holdForHuman`. -/
def holdForHuman (db : ladder.State) (d : Callback) (order : OrderRow) (why : Hold)
    (rel : Option Release) (detail : String) : Written :=
  match table.find OrderRow.order_id order.order_id db.orders with
  | none => .raced
  | some row =>
    if row.paid_payment_id = none ∧ row.delivered_txid = none ∧ row.status ∈ UNPAID then
      tie db order.order_id d.payment_id (held d why rel detail)
    else .raced

/-- The conditional `UPDATE` of `contradicted`. -/
def contradicted (d : Callback) (detail : String) (o : OrderRow) : OrderRow :=
  if o.paid_payment_id = some d.payment_id ∧ o.status = .awaiting_delivery ∧ o.delivered_txid = none then
    { o with
      status := .needs_review
      delivery_error := some (slice 2000 ("NOWPayments now reports this payment " ++ detail)) }
  else o

/-- The price an underpayment is worked out from again. -/
def moreBase (d : Callback) (order : OrderRow) : js.Num :=
  match order.invoice_usd with
  | some usd => .finite (usd / 100)
  | none => d.price_amount.number

/-- That price in cents. -/
def moreCents (d : Callback) (order : OrderRow) : Option Int :=
  match order.invoice_usd with
  | some usd => toCents (usd / 100)
  | none => cents d.price_amount

/-- What `moreMoney` writes on the order. -/
def moreHeld (d : Callback) (order : OrderRow) (rel : Option Release) (detail : String) (paid : ℚ)
    (o : OrderRow) : OrderRow :=
  { o with
    paid_amount := some ((fixed 8 paid : ℚ) / 10 ^ 8)
    invoice_usd := o.invoice_usd.or (moreCents d order)
    usd := (rel.bind Release.usd).getD o.usd
    quoted_pcn := (rel.map Release.pcn).getD o.quoted_pcn
    delivery_error :=
      if rel.isSome then some (slice 2000 (holdText d .underpaid detail)) else o.delivery_error }

/-- The conditional `UPDATE` of `moreMoney`. Amounts that the columns cannot hold fail it. -/
def moreMoney (d : Callback) (order : OrderRow) (rel : Option Release) (detail : String)
    (o : OrderRow) : OrderRow :=
  match readNumber d.actually_paid with
  | none => o
  | some paid =>
    if o.paid_payment_id = some d.payment_id ∧ o.status = .needs_review ∧ o.delivered_txid = none ∧
        o.paid_amount.all (· < paid) ∧ |paid| < 10 ^ 16 ∧ rel.all (·.usd.isSome) then
      moreHeld d order rel detail paid o
    else o

/-- The transaction that closes an unpaid order. -/
def close (db : ladder.State) (d : Callback) (order : OrderRow) : ladder.State :=
  let released := ladder.releaseLadder db order.order_id
  match table.find OrderRow.order_id order.order_id released.orders with
  | none => db
  | some row =>
    if row.status = .pending ∧ row.paid_payment_id = none then
      released.setStatus order.order_id (closedStatus d)
    else db

def escape : Char := Char.ofNat 0x5c

/-- MariaDB's `LIKE`: `%` stands for any text, `_` for one character, a backslash takes the
next character as it is, and letters match in either case. -/
def like : List Char → List Char → Bool
  | [], text => text.isEmpty
  | '%' :: pattern, text => text.tails.any (like pattern)
  | '_' :: pattern, _ :: text => like pattern text
  | p :: q :: pattern, c :: text =>
    if p = escape then q.toLower = c.toLower && like pattern text
    else p.toLower = c.toLower && like (q :: pattern) text
  | [p], c :: text => p.toLower = c.toLower && text.isEmpty
  | _ :: _, [] => false

/-- `tag` of `paidPaymentReversed`. -/
def reversedTag (d : Callback) : String :=
  String.ofList (d.payment_status.toList.map Char.toUpper) ++ " by NOWPayments (payment " ++
    d.payment_id ++ ")"

def reversedAdvice (d : Callback) : String :=
  if d.payment_status = "refunded" then
    "The money went back to the customer. Do not send unless the refund was a mistake."
  else "Check this payment in NOWPayments before sending anything."

/-- The conditional `UPDATE` of `paidPaymentReversed`, which does not look at the payment. -/
def paidPaymentReversed (d : Callback) (o : OrderRow) : OrderRow :=
  if o.delivered_txid = none ∧ o.status ∈ [.awaiting_delivery, .needs_review] ∧
      o.delivery_error.all (fun e => ¬ like (reversedTag d ++ "%").toList e.toList) then
    let before := (o.delivery_error.map (" | before: " ++ ·)).getD ""
    { o with
      status := .needs_review
      delivery_error := some (slice 2000 (reversedTag d ++ ". " ++ reversedAdvice d ++ before)) }
  else o

/-! ### Calls -/

/-- `logEvent`; the duplicate and the read of the row it ran into are one step. -/
def logEvent (s : State) (d : Callback) : State × Ev :=
  let key := if d.payment_id ≠ "" then d.payment_id else slice 64 ("(none) " ++ d.order_id.getD "")
  match s.events.find? fun e => e.payment_id = key && e.status = d.payment_status with
  | some row => (s, ⟨row.id, false⟩)
  | none =>
    ({ s with events := s.events ++ [⟨s.nextEvent, key, d.order_id, d.payment_status⟩]
              nextEvent := s.nextEvent + 1 }, ⟨s.nextEvent, true⟩)

/-- The call goes on, or is answered. -/
def Call.goto (c : Call) (pc : Option Pc) : Option Call := pc.map fun pc => { c with pc := pc }

/-- What a call does next, with the formatted part of the text it may write. -/
def perform (s : State) (c : Call) (detail : String) : State × Option Call :=
  match c.pc with
  | .log =>
    let (s, ev) := logEvent s c.d
    (s, some { c with ev := ev, pc := .load })
  | .load => (s, c.goto (decide c.d (c.d.order_id.bind s.order)))
  | .tied order depth =>
    let tied := tiedPayment s.events order c.ev
    (s, c.goto (if classify c.d = .fail then terminal c.d order tied else money c.d order depth tied))
  | .elsewhere order depth =>
    let elsewhere := s.db.orders.any fun o =>
      o.paid_payment_id = some c.d.payment_id && o.order_id ≠ order.order_id
    (s, c.goto (if elsewhere then none else some (settle c.d order depth)))
  | .accept order depth =>
    match accept s.db c.d order with
    | .done db => ({ s with db := db }, none)
    | .raced => (s, c.goto (afterRace order depth))
    | .taken => (s, none)
  | .holdRelease order depth =>
    let rel := releaseFor s.db.fills order (paidRatio c.d) (.finite (invoicePrice order / 100))
    (s, c.goto (some (.hold order depth .underpaid rel)))
  | .hold order depth why rel =>
    match holdForHuman s.db c.d order why rel detail with
    | .done db => ({ s with db := db }, none)
    | .raced => (s, c.goto (afterRace order depth))
    | .taken => (s, none)
  | .reload order depth => (s, c.goto ((s.order order.order_id).map (.tied · (depth + 1))))
  | .contradicted order =>
    ({ s with db := s.db.updateOrder order.order_id (contradicted c.d detail) }, none)
  | .moreRelease order =>
    let isUnderpaid := "PARTIAL PAYMENT".toList.isPrefixOf (order.delivery_error.getD "").toList
    let rel := if isUnderpaid then
      releaseFor s.db.fills order (paidRatio c.d) (moreBase c.d order) else none
    (s, c.goto (some (.moreMoney order rel)))
  | .moreMoney order rel =>
    ({ s with db := s.db.updateOrder order.order_id (moreMoney c.d order rel detail) }, none)
  | .close order => ({ s with db := close s.db c.d order }, none)
  | .reversed order =>
    ({ s with db := s.db.updateOrder order.order_id (paidPaymentReversed c.d) }, none)

/-! ### Runs -/

/-- The statements with which deliveries, the reconcile sweep and the operator update an
order. -/
inductive Write
  | note (error : String)
  | manual
  | queue (error : String)
  | claim
  | unclaim (error : String)
  | unresolved (error : String)
  | failed (error : String)
  | recordSent (txid : String)
  | markDelivered (txid : String)
  | stuck
  | reviewed

def Write.apply : Write → OrderRow → OrderRow
  | .note error, o => { o with delivery_error := some (slice 2000 error) }
  | .manual, o => if o.delivery_mode = none then { o with delivery_mode := some .manual } else o
  | .queue error, o => { o with delivery_mode := some .manual, delivery_error := some error }
  | .claim, o =>
    if o.status = .awaiting_delivery ∧ o.delivered_txid = none then
      { o with status := .sending, delivery_mode := some .auto }
    else o
  | .unclaim error, o =>
    if o.status = .sending then
      { o with
        status := .awaiting_delivery
        delivery_mode := some .manual
        delivery_error := some error }
    else o
  | .unresolved error, o =>
    if o.status = .sending then { o with delivery_error := some (slice 2000 error) } else o
  | .failed error, o => { o with status := .needs_review, delivery_error := some (slice 2000 error) }
  | .recordSent txid, o =>
    if o.delivered_txid = none then
      { o with status := .delivered, delivered_txid := some txid, delivery_error := none }
    else o
  | .markDelivered txid, o =>
    if o.delivered_txid = none then
      { o with
        status := .delivered
        delivered_txid := some txid
        delivery_mode := o.delivery_mode.or (some .manual)
        delivery_error := none }
    else o
  | .stuck, o =>
    if o.status = .sending then
      { o with
        status := .needs_review
        delivery_error := some "claimed for sending but no transaction was found" }
    else o
  | .reviewed, o => if o.status = .needs_review then { o with status := .awaiting_delivery } else o

/-- A send fails only in the delivery that has claimed the order. -/
def Write.needsClaim : Write → Bool
  | .failed _ => true
  | _ => false

def Write.isClaim : Write → Bool
  | .claim => true
  | _ => false

/-- What `/api/buy` writes when there is no invoice. -/
def failPending (o : OrderRow) : OrderRow :=
  if o.status = .pending then { o with status := .failed } else o

/-- What buyers, the sweeper, the retirement ledger and the clock do. -/
def isTrade : ladder.Event → Bool
  | .buy .. | .expire .. | .retire _ | .sweep | .sweepNext .. | .tick => true
  | _ => false

/-- The order that is now waiting for its invoice. -/
def bought : ladder.Event → List String
  | .buy orderId .. => [orderId]
  | _ => []

/-- What can happen, each a statement, a transaction or a read of its own: a signed
callback arrives; a call goes on, or ends in an error; something happens on the market; an
order gets its invoice, or does not and is dropped; an order is updated on the way of a
delivery; and the process dies. -/
inductive Event
  | callback (d : Callback)
  | next (cid : Nat) (detail : String)
  | fail (cid : Nat)
  | trade (e : ladder.Event)
  | invoiced (orderId : String) (invoiceId : Option String)
  | invoiceFailed (orderId : String)
  | drop (orderId : String)
  | deliver (orderId : String) (w : Write)
  | crash

/-- The call with an id goes on as `c`, or is over. -/
def setCall (cid : Nat) (c : Option Call) (calls : List (Nat × Call)) : List (Nat × Call) :=
  match c with
  | none => calls.filter (·.1 ≠ cid)
  | some c => table.update Prod.fst cid (fun _ => (cid, c)) calls

def step (s : State) : Event → Option State
  | .callback d =>
    some { s with calls := s.calls ++ [(s.nextCall, { d := d })], nextCall := s.nextCall + 1 }
  | .next cid detail => do
    let (_, c) ← table.find Prod.fst cid s.calls
    let (s, c) := perform s c detail
    return { s with calls := setCall cid c s.calls }
  | .fail cid => some { s with calls := setCall cid none s.calls }
  | .trade e => do
    guard (isTrade e)
    let db ← ladder.step s.db e
    return { s with db := db, buys := s.buys ++ bought e }
  | .invoiced orderId invoiceId => do
    guard (orderId ∈ s.buys)
    return { s with
      db := s.db.updateOrder orderId fun o => { o with invoice_id := invoiceId }
      buys := s.buys.filter (· ≠ orderId) }
  | .invoiceFailed orderId => do
    guard (orderId ∈ s.buys)
    return { s with
      db := s.db.updateOrder orderId failPending
      buys := s.buys.filter (· ≠ orderId)
      dropped := s.dropped ++ [orderId] }
  | .drop orderId => do
    guard (orderId ∈ s.dropped)
    return { s with
      db := ladder.releaseLadder s.db orderId
      dropped := s.dropped.filter (· ≠ orderId) }
  | .deliver orderId w => do
    guard (w.needsClaim → orderId ∈ s.sends)
    let claims := w.isClaim && (s.order orderId).any fun o => w.apply o ≠ o
    return { s with
      db := s.db.updateOrder orderId w.apply
      sends := if claims then s.sends ++ [orderId] else s.sends }
  | .crash => some { s with db := { s.db with sweeps := [] }
                            calls := [], buys := [], dropped := [], sends := [] }

end pcoin.market.ipn
