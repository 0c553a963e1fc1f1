import PCoin.Market.Delivery
import PCoin.Table.Basic
import Mathlib.Data.List.Sort
import Mathlib.Data.Rat.Defs

namespace pcoin.market.ladder

/-- A row of `ladder_rungs`, in units of `1e-8` PCN. -/
structure Rung where
  rung_no : Nat
  qty_total : Int
  qty_sold : Int := 0
  qty_reserved : Int := 0
  qty_retired : Int := 0
deriving DecidableEq

inductive FillState
  | reserved
  | sold
  | released
deriving DecidableEq

/-- A row of `ladder_fills`. -/
structure Fill where
  order_id : String
  rung_no : Nat
  qty : Int
  state : FillState := .reserved
deriving DecidableEq

inductive OrderStatus
  | pending
  | awaiting_delivery
  | sending
  | delivered
  | needs_review
  | expired
  | failed
  | refunded
  | test_completed
deriving DecidableEq

/-- A row of `orders`, with `usd` and `invoice_usd` in cents, `quoted_pcn` in units of
`1e-8` PCN and `created_at` in hours. -/
structure OrderRow where
  order_id : String
  email : String
  usd : Int
  invoice_usd : Option Int := none
  quoted_pcn : Int
  quoted_price : ℚ
  status : OrderStatus := .pending
  created_at : Nat
  invoice_id : Option String := none
  paid_amount : Option ℚ := none
  paid_payment_id : Option String := none
  delivered_txid : Option String := none
  delivery_mode : Option Mode := none
  delivery_error : Option String := none
deriving DecidableEq

/-- `availUnits`. -/
def Rung.avail (r : Rung) : Int := r.qty_total - r.qty_sold - r.qty_reserved - r.qty_retired

/-- Change the counters of a rung. -/
def Rung.shift (r : Rung) (sold reserved retired : Int) : Rung :=
  { r with qty_sold := r.qty_sold + sold
           qty_reserved := r.qty_reserved + reserved
           qty_retired := r.qty_retired + retired }

/-- `rungsWithStock`. -/
def rungsWithStock (rungs : List Rung) : List Rung :=
  (rungs.filter fun r => r.qty_sold + r.qty_reserved + r.qty_retired < r.qty_total).insertionSort
    (·.rung_no ≤ ·.rung_no)

/-- An amount taken from a rung. -/
structure Take where
  rung_no : Nat
  units : Int
deriving DecidableEq

/-- The loop of `walkUsd`, `ammWalk`, `flatWalk` and `retireFromLadder` over the rungs:
from each rung with something left it takes what is wanted and the rung has, until nothing
more is wanted. `want` is how much the prices still ask for after the takes so far. -/
def allocate (want : List Take → Rung → Int) : List Take → List Rung → List Take
  | taken, [] => taken
  | taken, r :: rungs =>
    if r.avail ≤ 0 then allocate want taken rungs
    else
      let take := min r.avail (want taken r)
      if take ≤ 0 then taken else allocate want (taken ++ [⟨r.rung_no, take⟩]) rungs

/-- A sweep is in one of its three passes, with the orders it has read and not handled. -/
inductive Sweep
  | expire (ids : List String)
  | release (ids : List String)
  | settle (ids : List String)
deriving DecidableEq

/-- The database and the sweeps of the process that are under way. -/
structure State where
  rungs : List Rung
  fills : List Fill := []
  orders : List OrderRow := []
  now : Nat := 0
  ttlHours : Nat := 2
  sweeps : List (Nat × Sweep) := []
  nextSweep : Nat := 0
deriving DecidableEq

/-- `reserveLadder`, with how much it reserves, unless the fills run into
`UNIQUE (order_id, rung_no)`. -/
def reserveLadder (s : State) (orderId : String) (want : List Take → Rung → Int) :
    Option (State × Int) :=
  let takes := allocate want [] (rungsWithStock s.rungs)
  if takes.any fun x => s.fills.any fun f => f.order_id = orderId && f.rung_no = x.rung_no then none
  else
    let fills := takes.map fun x => { order_id := orderId, rung_no := x.rung_no, qty := x.units }
    let rungs := takes.foldl
      (fun rungs x => table.update Rung.rung_no x.rung_no (·.shift 0 x.units 0) rungs) s.rungs
    some ({ s with fills := s.fills ++ fills, rungs := rungs }, (takes.map Take.units).sum)

/-- The fill is one that `moveFills` moves. -/
def Fill.isOpen (orderId : String) (f : Fill) : Bool := f.order_id = orderId && f.state = .reserved

/-- `moveFills`, with what it does to the rung of each fill. -/
def moveFills (s : State) (orderId : String) (toState : FillState)
    (applyRung : Fill → Rung → Rung) : State :=
  let fills := s.fills.filter (Fill.isOpen orderId)
  { s with
    rungs := fills.foldl
      (fun rungs f => table.update Rung.rung_no f.rung_no (applyRung f) rungs) s.rungs
    fills := s.fills.map fun f => if f.isOpen orderId then { f with state := toState } else f }

def settleLadder (s : State) (orderId : String) : State :=
  moveFills s orderId .sold fun f r => r.shift f.qty (-f.qty) 0

def releaseLadder (s : State) (orderId : String) : State :=
  moveFills s orderId .released fun f r => r.shift 0 (-f.qty) 0

/-- `UPDATE orders` for one order. -/
def State.updateOrder (s : State) (orderId : String) (f : OrderRow → OrderRow) : State :=
  { s with orders := table.update OrderRow.order_id orderId f s.orders }

def State.setStatus (s : State) (orderId : String) (status : OrderStatus) : State :=
  s.updateOrder orderId fun o => { o with status := status }

/-- `expireWithRelease`; an order that is not pending, or not the owner's, is left alone. -/
def expireWithRelease (s : State) (orderId : String) (owner : Option String) : State :=
  match table.find OrderRow.order_id orderId s.orders with
  | none => s
  | some o =>
    if o.status = .pending ∧ owner.all (· = o.email) then
      releaseLadder (s.setStatus orderId .expired) orderId
    else s

/-- `retireFromLadder`, with how much it takes. -/
def retireFromLadder (rungs : List Rung) (need : Int) : List Rung × Int :=
  let takes := allocate (fun taken _ => need - (taken.map Take.units).sum) [] (rungsWithStock rungs)
  (takes.foldl (fun rungs x => table.update Rung.rung_no x.rung_no (·.shift 0 0 x.units) rungs) rungs,
    (takes.map Take.units).sum)

/-- The unpaid orders that have waited too long. -/
def stale (s : State) : List String :=
  (s.orders.filter fun o => o.status = .pending && o.created_at + s.ttlHours < s.now).map
    OrderRow.order_id

/-- The orders with reserved fills and one of the statuses. -/
def withReserved (s : State) (statuses : List OrderStatus) : List String :=
  (s.orders.filter fun o => o.status ∈ statuses && s.fills.any (Fill.isOpen o.order_id)).map
    OrderRow.order_id

def orphaned (s : State) : List String := withReserved s [.expired, .failed, .refunded]

def unsettled (s : State) : List String := withReserved s [.awaiting_delivery, .delivered]

/-- What can happen, each a transaction or a read of its own: an order is bought; the
fills of an order are settled or released, alone or in a transaction that also updates the
order; an order is expired; inventory is retired; an order is updated by anyone; a sweep
begins, and goes on with its next order or its next pass, `false` when that fails; and the
process dies. Transactions that are rolled back change nothing. -/
inductive Event
  | buy (orderId email : String) (usd : Int) (price : ℚ) (want : List Take → Rung → Int)
  | settle (orderId : String) (f : OrderRow → OrderRow)
  | release (orderId : String) (f : OrderRow → OrderRow)
  | expire (orderId : String) (owner : Option String)
  | retire (need : Int)
  | update (orderId : String) (f : OrderRow → OrderRow)
  | sweep
  | sweepNext (id : Nat) (committed : Bool)
  | tick
  | crash

/-- Where a sweep goes on when a pass has no order left; it reads the next list then. -/
def nextPass (s : State) : Sweep → Option Sweep
  | .expire _ => some (.release (orphaned s))
  | .release _ => some (.settle (unsettled s))
  | .settle _ => none

/-- One order of a sweep. A pass that fails on an order ends the sweep, except the first,
which catches the failure. -/
def sweepOrder (s : State) (committed : Bool) : Sweep → State × Option Sweep
  | .expire (id :: ids) =>
    (if committed then expireWithRelease s id none else s, some (.expire ids))
  | .release (id :: ids) =>
    if committed then (releaseLadder s id, some (.release ids)) else (s, none)
  | .settle (id :: ids) =>
    if committed then (settleLadder s id, some (.settle ids)) else (s, none)
  | pass => (s, if committed then nextPass s pass else none)

/-- An update of an order by someone else, which leaves its primary key. -/
def keepingId (f : OrderRow → OrderRow) (o : OrderRow) : OrderRow :=
  { f o with order_id := o.order_id }

def step (s : State) : Event → Option State
  | .buy orderId email usd price want => do
    guard (orderId ∉ s.orders.map OrderRow.order_id)
    let (s, pcn) ← reserveLadder s orderId want
    let order := { order_id := orderId, email := email, usd := usd, quoted_pcn := pcn,
                   quoted_price := price, created_at := s.now }
    return { s with orders := s.orders ++ [order] }
  | .settle orderId f => some (settleLadder (s.updateOrder orderId (keepingId f)) orderId)
  | .release orderId f => some (releaseLadder (s.updateOrder orderId (keepingId f)) orderId)
  | .expire orderId owner => some (expireWithRelease s orderId owner)
  | .retire need => some { s with rungs := (retireFromLadder s.rungs need).1 }
  | .update orderId f => some (s.updateOrder orderId (keepingId f))
  | .sweep => some { s with sweeps := s.sweeps ++ [(s.nextSweep, .expire (stale s))]
                            nextSweep := s.nextSweep + 1 }
  | .sweepNext id committed => do
    let (_, sweep) ← table.find Prod.fst id s.sweeps
    let (s, sweep) := sweepOrder s committed sweep
    match sweep with
    | none => return { s with sweeps := s.sweeps.filter (·.1 ≠ id) }
    | some sweep => return { s with sweeps := table.update Prod.fst id (fun p => (p.1, sweep)) s.sweeps }
  | .tick => some { s with now := s.now + 1 }
  | .crash => some { s with sweeps := [] }

end pcoin.market.ladder
