import PCoin.Js.Text
import PCoin.Market.Ladder
import Mathlib.Data.Rat.Floor

namespace pcoin.market.ipn

open ladder (OrderRow OrderStatus Fill)

/-- A field of a callback: missing or `null`, a number with the text `String` gives it, a
text, or anything else with what `Number` and `String` give. -/
inductive Value
  | null
  | num (n : js.Num) (text : String)
  | str (text : String)
  | other (n : js.Num) (text : String)
deriving DecidableEq

/-- What the handler reads of a signed callback. `payment_id` is empty when it is missing;
the ids are already text. -/
structure Callback where
  payment_id : String
  order_id : Option String
  payment_status : String
  actually_paid : Value := .null
  pay_amount : Value := .null
  price_amount : Value := .null
  price_currency : Value := .null
  parent_payment_id : Value := .null
  invoice_id : Option String := none
deriving DecidableEq

/-- A text column or field that JavaScript takes as true. -/
def truthy (t : Option String) : Bool := t.any (· ≠ "")

/-- `s.slice(0, n)`. -/
def slice (n : Nat) (s : String) : String := String.ofList (s.toList.take n)

/-- `toFixed(k)`, in units of `10 ^ -k`. -/
def fixed (k : Nat) (q : ℚ) : Int :=
  if q < 0 then -⌊-q * 10 ^ k + 1 / 2⌋ else ⌊q * 10 ^ k + 1 / 2⌋

/-- `Number` of a text that matches `DECIMAL_RE`. -/
def readDecimal (t : List Char) : Option ℚ :=
  let n := match js.trim t with
    | '+' :: t => js.signed false t
    | '-' :: t => js.signed true t
    | t => js.signed false t
  match n with
  | .finite q => some q
  | _ => none

def readNumber : Value → Option ℚ
  | .num (.finite q) _ => some q
  | .str text => readDecimal text.toList
  | _ => none

/-- `Number`. -/
def Value.number : Value → js.Num
  | .null => .finite 0
  | .num n _ => n
  | .str text => js.number text.toList
  | .other n _ => n

def paidRatio (d : Callback) : Option ℚ := do
  let paid ← readNumber d.actually_paid
  let due ← readNumber d.pay_amount
  guard (0 < due ∧ 0 ≤ paid)
  return paid / due

def FINISHED_TOLERANCE : ℚ := 5 / 1000

inductive Kind
  | pay
  | underpaid
  | unreadable
  | wait
  | fail
deriving DecidableEq

def classify (d : Callback) : Kind :=
  match d.payment_status with
  | "failed" | "expired" | "refunded" => .fail
  | "partially_paid" => if paidRatio d = none then .unreadable else .underpaid
  | "finished" =>
    match paidRatio d with
    | none => .unreadable
    | some ratio => if 1 - FINISHED_TOLERANCE ≤ ratio then .pay else .underpaid
  | "confirmed" => if (paidRatio d).any (1 ≤ ·) then .pay else .wait
  | _ => .wait

def parentPaymentId (d : Callback) : Option String :=
  match d.parent_payment_id with
  | .null => none
  | .str text => if text = "" ∨ text = "0" then none else some text
  | .num n text => if n = .finite 0 then none else some text
  | .other _ text => some text

/-- `cents` of a number of dollars. -/
def toCents (n : ℚ) : Option Int :=
  if 10 ^ 13 ≤ |n| then none else some ⌊(fixed 6 (n * 100) : ℚ) / 10 ^ 6 + 1 / 2⌋

def cents (v : Value) : Option Int := (readNumber v).bind toCents

/-- In cents. -/
def invoicePrice (order : OrderRow) : Int := order.invoice_usd.getD order.usd

/-- Why a callback does not belong to an order's invoice. -/
inductive Mismatch
  | noPrice
  | noInvoicePrice
  | price
  | currency
  | noInvoiceId
  | invoiceId
deriving DecidableEq

def invoiceMismatch (d : Callback) (order : OrderRow) : Option Mismatch :=
  match cents d.price_amount, toCents (invoicePrice order / 100) with
  | none, _ => some .noPrice
  | some _, none => some .noInvoicePrice
  | some price, some ours =>
    if price ≠ ours then some .price
    else
      match d.price_currency with
      | .str cur =>
        if cur.toList.map Char.toLower ≠ "usd".toList then some .currency
        else
          let iid := js.trim (order.invoice_id.getD "").toList
          if iid = [] then some .noInvoiceId
          else if (d.invoice_id.getD "").toList ≠ iid then some .invoiceId
          else none
      | _ => some .currency

/-- `paidValue`, as the column keeps it. -/
def paidValue (d : Callback) : Option ℚ :=
  (readNumber d.actually_paid).bind fun n =>
    if 10 ^ 16 ≤ |n| then none else some ((fixed 8 n : ℚ) / 10 ^ 8)

/-- What an underpayment buys, in cents and in units of `1e-8` PCN. The dollars are `none`
when they are not finite, which the database refuses. -/
structure Release where
  usd : Option Int
  pcn : Int
deriving DecidableEq

def releaseFor (fills : List Fill) (order : OrderRow) (ratio : Option ℚ) (base : js.Num) :
    Option Release := do
  let pcn := ((fills.filter (·.order_id = order.order_id)).map Fill.qty).sum
  let quote := if 0 < pcn then pcn else order.quoted_pcn
  let ratio ← ratio
  guard (0 < order.quoted_price ∧ 0 < quote)
  match base with
  | .finite b =>
    guard (0 < b)
    let r := max 0 (min 1 ratio)
    let full := 1 - FINISHED_TOLERANCE ≤ r
    let usd := if full then b else b * r
    let quote : ℚ := quote / 10 ^ 8
    let pcn := if full then quote else min quote (usd / order.quoted_price)
    return ⟨some (fixed 2 usd), fixed 8 pcn⟩
  | .infinite false => return ⟨none, quote⟩
  | _ => none

/-- Order states that have never been paid. -/
def UNPAID : List OrderStatus := [.pending, .expired, .failed, .refunded]

/-- The order status that a failed, expired or refunded payment is written as. -/
def closedStatus (d : Callback) : OrderStatus :=
  match d.payment_status with
  | "failed" => .failed
  | "expired" => .expired
  | _ => .refunded

/-- A row of `ipn_events`. -/
structure EventRow where
  id : Nat
  payment_id : String
  order_id : Option String
  status : String
deriving DecidableEq

/-- The row a callback is logged as, and whether it was logged just now. -/
structure Ev where
  id : Nat := 0
  fresh : Bool := true
deriving DecidableEq

/-- The statuses that report money. -/
def moneyStatuses : List String := ["confirmed", "finished", "partially_paid"]

/-- The money events on an order that may vouch for its payment. -/
def Ev.vouches (ev : Ev) (orderId : String) (e : EventRow) : Bool :=
  e.order_id = some orderId && e.status ∈ moneyStatuses &&
    (if ev.fresh then e.id < ev.id else e.id ≤ ev.id)

/-- Which payment an order belongs to, or `none` while it is unpaid. -/
def tiedPayment (events : List EventRow) (order : OrderRow) (ev : Ev) : Option String :=
  if truthy order.paid_payment_id then order.paid_payment_id
  else if order.status ∈ UNPAID then none
  else
    match ((events.filter (ev.vouches order.order_id)).insertionSort (·.id ≤ ·.id)).head? with
    | some first => some first.payment_id
    | none => some "(none on record)"

end pcoin.market.ipn
