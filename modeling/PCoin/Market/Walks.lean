import PCoin.Select.Basic
import Mathlib.Algebra.Order.Floor.Ring
import Mathlib.Data.Rat.Floor

/-! The walks of `ladder.mjs` over the rungs: what an order gets, from which rungs, and for what. -/

namespace pcoin.market.walk

def UNITS : ℚ := 10 ^ 8

/-- How coins are counted: `num` is a count as a number, and `round` the count that a number of
units stands for. -/
structure Scale (α : Type) [CommRing α] [LinearOrder α] where
  round : ℚ → α
  num : α →+* ℚ
  strictMono : StrictMono num

/-- `Math.round`, to whole satoshis. -/
def satoshis : Scale ℤ where
  round u := ⌊u + 1 / 2⌋
  num := Int.castRingHom ℚ
  strictMono := Int.cast_strictMono

/-- No rounding. -/
def exact : Scale ℚ where
  round u := u
  num := RingHom.id ℚ
  strictMono := strictMono_id

variable {α : Type} [CommRing α] [LinearOrder α]

def Scale.toUnits (S : Scale α) (pcn : ℚ) : α := S.round (pcn * UNITS)

def Scale.fromUnits (S : Scale α) (u : α) : ℚ := S.num u / UNITS

/-- A row of `ladder_rungs`, in units. -/
structure Rung (α : Type) where
  rung_no : Nat
  price : ℚ
  qty_total : α
  qty_sold : α
  qty_reserved : α
  qty_retired : α
deriving DecidableEq

def availUnits (r : Rung α) : α := r.qty_total - r.qty_sold - r.qty_reserved - r.qty_retired

structure Fill (α : Type) where
  rungNo : Nat
  units : α
  price : ℚ
deriving DecidableEq

/-- What a walk returns. -/
structure Walk (α : Type) where
  pcn : ℚ
  cost : ℚ
  fills : List (Fill α)
  avgPrice : ℚ
  marginalAfter : Option ℚ
  usdUnfilled : ℚ
  pcnUnfilled : ℚ
  exhausted : Bool
deriving DecidableEq

/-- What a buyer names, the money before the coins. -/
structure Request where
  usd : Option ℚ := none
  pcn : Option ℚ := none
deriving DecidableEq

/-- What a loop has taken, and what it still wants. -/
structure Taken (α : Type) where
  fills : List (Fill α) := []
  gotUnits : α
  left : α
deriving DecidableEq

/-- The loop of `ammWalk` and of `flatWalk`, at one price. -/
def takeUnits (price : ℚ) : List (Rung α) → Taken α → Taken α
  | [], s => s
  | r :: rungs, s =>
    if s.left ≤ 0 then s
    else
      let avail := availUnits r
      if avail ≤ 0 then takeUnits price rungs s
      else
        let take := min avail s.left
        takeUnits price rungs
          { fills := s.fills ++ [{ rungNo := r.rung_no, units := take, price := price }]
            gotUnits := s.gotUnits + take, left := s.left - take }

/-- `remUnits`. -/
def remUnits (rungs : List (Rung α)) : α :=
  rungs.foldl (fun rem r => if 0 < availUnits r then rem + availUnits r else rem) 0

/-! `ammWalk` -/

/-- What the curve gives for what is named, and for how much. -/
def curve (X Y k : ℚ) (req : Request) : Option (ℚ × ℚ) :=
  match req.usd, req.pcn with
  | some usd, _ => some (X - k / (Y + usd), usd)
  | none, some pcn => if 0 < pcn ∧ pcn < X then some (pcn, k / (X - pcn) - Y) else none
  | none, none => none

/-- The floor gives fewer coins for the money, or asks more money for the coins. -/
def floored (floor : ℚ) (req : Request) (wantPcn cost : ℚ) : ℚ × ℚ :=
  match req.usd with
  | some usd =>
    let maxPcn := usd / floor
    (if maxPcn < wantPcn then maxPcn else wantPcn, cost)
  | none =>
    let minCost := wantPcn * floor
    (wantPcn, if cost < minCost then minCost else cost)

/-- The first part of `ammWalk`: the coins wanted, and their cost. -/
def ammPrice (rem : ℚ) (req : Request) (k virt floor : ℚ) : Option (ℚ × ℚ) := do
  guard (0 < rem ∧ 0 < k)
  let X := rem + virt
  let (wantPcn, cost) ← curve X (k / X) k req
  guard (0 < wantPcn ∧ 0 < cost)
  if 0 < floor then
    let (wantPcn, cost) := floored floor req wantPcn cost
    guard (0 < wantPcn ∧ 0 < cost)
    return (wantPcn, cost)
  else return (wantPcn, cost)

/-- `wantUnits || 1`. -/
def orOne (u : α) : α := if u = 0 then 1 else u

def ammWalk (S : Scale α) (rungs : List (Rung α)) (req : Request) (k virt floor : ℚ) :
    Option (Walk α) := do
  let rem := S.fromUnits (remUnits rungs)
  let (wantPcn, cost) ← ammPrice rem req k virt floor
  let X := rem + virt
  let wantUnits := S.toUnits wantPcn
  let unitPrice := cost / S.fromUnits (orOne wantUnits)
  let t := takeUnits unitPrice rungs { gotUnits := 0, left := wantUnits }
  let filledPcn := S.fromUnits t.gotUnits
  let paid := if 0 < t.left then cost * (S.num t.gotUnits / S.num (orOne wantUnits)) else cost
  let X1 := X - filledPcn
  let rawAfter := if 0 < X1 then some (k / X1 / X1) else none
  let priceAfter := rawAfter.map fun raw => if 0 < floor then max raw floor else raw
  return {
    pcn := filledPcn
    cost := paid
    fills := t.fills
    avgPrice := if t.gotUnits = 0 then 0 else paid / filledPcn
    marginalAfter := priceAfter
    usdUnfilled := match req.usd with
      | some usd => if 0 < t.left then usd - paid else 0
      | none => 0
    pcnUnfilled := if req.pcn.isSome ∧ 0 < t.left then S.fromUnits t.left else 0
    exhausted := decide (X1 ≤ 0) }

/-! `flatWalk` -/

/-- The first part of `flatWalk`: the units wanted. -/
def flatWant (req : Request) (unitPrice : ℚ) : Option ℤ := do
  guard (0 < unitPrice)
  match req.usd, req.pcn with
  | some usd, _ => if 0 < usd then some ⌊usd / unitPrice * UNITS⌋ else none
  | none, some pcn => if 0 < pcn then some (satoshis.toUnits pcn) else none
  | none, none => none

def flatWalk (rungs : List (Rung ℤ)) (req : Request) (unitPrice : ℚ) : Option (Walk ℤ) := do
  let wantUnits ← flatWant req unitPrice
  let t := takeUnits unitPrice rungs { gotUnits := 0, left := wantUnits }
  let filledPcn := satoshis.fromUnits t.gotUnits
  let full := t.left ≤ 0 ∧ 0 < t.gotUnits
  let cost := match req.usd with
    | some usd => if full then usd else filledPcn * unitPrice
    | none => filledPcn * unitPrice
  let exhausted := decide (remUnits rungs - t.gotUnits ≤ 0)
  return {
    pcn := filledPcn
    cost := cost
    fills := t.fills
    avgPrice := if t.gotUnits = 0 then 0 else unitPrice
    marginalAfter := if exhausted then none else some unitPrice
    usdUnfilled := match req.usd with
      | some usd => if 0 < t.left ∨ t.gotUnits = 0 then usd - cost else 0
      | none => 0
    pcnUnfilled := if req.pcn.isSome ∧ 0 < t.left then satoshis.fromUnits t.left else 0
    exhausted := exhausted }

/-! The walks by rung prices -/

/-- A rung's price under the cap, `none` when there is no cap. -/
def capped (askCap : Option ℚ) (price : ℚ) : ℚ :=
  match askCap with
  | some cap => min price cap
  | none => price

/-- `taken.get(rung_no) || 0`; the last fill of a rung is the one in the map. -/
def takenOf (fills : List (Fill ℤ)) (rungNo : Nat) : ℤ :=
  match fills.reverse.find? (·.rungNo = rungNo) with
  | some f => f.units
  | none => 0

def finish (rungs : List (Rung ℤ)) (fills : List (Fill ℤ)) (gotUnits : ℤ) (cost usdLeft pcnShort : ℚ)
    (askCap : Option ℚ) : Walk ℤ :=
  let next := rungs.find? fun r => 0 < availUnits r - takenOf fills r.rung_no
  let marginalAfter := next.map fun r => capped askCap r.price
  let pcn := satoshis.fromUnits gotUnits
  { pcn := pcn
    cost := cost
    fills := fills
    avgPrice := if gotUnits = 0 then 0 else cost / pcn
    marginalAfter := marginalAfter
    usdUnfilled := usdLeft
    pcnUnfilled := pcnShort
    exhausted := marginalAfter.isNone }

/-- What `walkUsd` has bought, and the money that is left. -/
structure Spent where
  fills : List (Fill ℤ) := []
  gotUnits : ℤ := 0
  cost : ℚ := 0
  left : ℚ
deriving DecidableEq

/-- The loop of `walkUsd`. -/
def spendUsd (askCap : Option ℚ) : List (Rung ℤ) → Spent → Spent
  | [], s => s
  | r :: rungs, s =>
    let price := capped askCap r.price
    let avail := availUnits r
    if avail ≤ 0 then spendUsd askCap rungs s
    else
      let want := ⌊s.left / price * UNITS⌋
      let take := min avail want
      if take ≤ 0 then s
      else
        let c := satoshis.fromUnits take * price
        spendUsd askCap rungs
          { fills := s.fills ++ [{ rungNo := r.rung_no, units := take, price := price }]
            gotUnits := s.gotUnits + take, cost := s.cost + c, left := s.left - c }

def walkUsd (rungs : List (Rung ℤ)) (usd : ℚ) (askCap : Option ℚ) : Walk ℤ :=
  let s := spendUsd askCap rungs { left := usd }
  finish rungs s.fills s.gotUnits s.cost s.left 0 askCap

/-- What `walkPcn` has taken, and what it still needs. -/
structure Needed where
  fills : List (Fill ℤ) := []
  gotUnits : ℤ := 0
  cost : ℚ := 0
  needUnits : ℤ
deriving DecidableEq

/-- The loop of `walkPcn`. -/
def takePcn (askCap : Option ℚ) : List (Rung ℤ) → Needed → Needed
  | [], s => s
  | r :: rungs, s =>
    if s.needUnits ≤ 0 then s
    else
      let price := capped askCap r.price
      let avail := availUnits r
      if avail ≤ 0 then takePcn askCap rungs s
      else
        let take := min avail s.needUnits
        let c := satoshis.fromUnits take * price
        takePcn askCap rungs
          { fills := s.fills ++ [{ rungNo := r.rung_no, units := take, price := price }]
            gotUnits := s.gotUnits + take, cost := s.cost + c, needUnits := s.needUnits - take }

def walkPcn (rungs : List (Rung ℤ)) (pcn : ℚ) (askCap : Option ℚ) : Walk ℤ :=
  let s := takePcn askCap rungs { needUnits := satoshis.toUnits pcn }
  finish rungs s.fills s.gotUnits s.cost 0 (satoshis.fromUnits s.needUnits) askCap

end pcoin.market.walk
