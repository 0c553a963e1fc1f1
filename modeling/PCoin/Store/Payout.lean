import Mathlib.Data.List.Sort
import Mathlib.Algebra.BigOperators.Group.List.Basic
import Mathlib.Algebra.Order.BigOperators.Group.List
import Mathlib.Tactic.Linarith
import Mathlib.Tactic.Positivity
import Mathlib.Data.List.Dedup

namespace pcoin.store

/-- Bytes of a `Buffer`. -/
abbrev Bytes := List UInt8

/-- One miner of a PPLNS window. -/
structure Entry where
  miner : String
  weight : Int
  shares : Nat
deriving DecidableEq

structure Amount where
  miner : String
  weight : Int
  amount : Int
deriving DecidableEq

structure Dropped where
  miner : String
  wouldHave : Int
deriving DecidableEq

/-- A coinbase output; `miner` is `none` on the pool's own. -/
structure Output where
  miner : Option String
  script : Bytes
  value : Int
  weight : Option Int
deriving DecidableEq

/-- What `buildPayoutOutputs` returns. -/
structure Payout where
  outputs : List Output
  fee : Int
  dropped : List Dropped
  paid : Int
  windowWeight : Int
deriving DecidableEq

/-- `feeOf`: the pool fee, taken off the block reward. -/
def feeOf (value basisPoints : Int) : Except String Int :=
  if basisPoints < 0 ∨ basisPoints > 10000 then throw s!"fee {basisPoints}bp out of range"
  else return (value * basisPoints).tdiv 10000

def totalWeight (entries : List Entry) : Int := (entries.map Entry.weight).sum

/-- The amounts that `splitPot` pushes, over a total weight of `total`. -/
def splitLoop (pot total : Int) : List Entry → Except String (List Amount)
  | [] => return []
  | e :: entries => do
    if e.weight < 0 then throw "negative weight"
    let rest ← splitLoop pot total entries
    return ⟨e.miner, e.weight, (pot * e.weight).tdiv total⟩ :: rest

/-- `splitPot`: the amounts, the dust and the total weight. -/
def splitPot (pot : Int) (entries : List Entry) : Except String (List Amount × Int × Int) := do
  if pot < 0 then throw "negative pot"
  let total := totalWeight entries
  if total ≤ 0 then throw "window has zero total weight"
  let amounts ← splitLoop pot total entries
  let paid := (amounts.map Amount.amount).sum
  let dust := pot - paid
  if dust < 0 then throw s!"split overpaid by {-dust} -- arithmetic is wrong"
  if paid + dust ≠ pot then throw "split does not reconcile"
  return (amounts, dust, total)

/-- The dust passes of `buildPayoutOutputs`: at most `passes` more splits, each over
the miners that the ones before have left. -/
def dustPasses (pot dustLimit : Int) :
    Nat → List Entry → List Dropped → Except String (List Entry × List Dropped × List Amount)
  | 0, live, dropped => return (live, dropped, [])
  | passes + 1, live, dropped => do
    if live = [] then return (live, dropped, [])
    let (amounts, _, _) ← splitPot pot live
    let under := amounts.filter (·.amount < dustLimit)
    if under = [] then return (live, dropped, amounts)
    let drop := under.map Amount.miner
    dustPasses pot dustLimit passes (live.filter fun e => e.miner ∉ drop)
      (dropped ++ under.map fun u => ⟨u.miner, u.amount⟩)

/-- The outputs of the miners, in address order. -/
def minerOutputs (scriptOf : String → Except String Bytes) :
    List Amount → Except String (List Output)
  | [] => return []
  | a :: amounts => do
    let script ← scriptOf a.miner
    let rest ← minerOutputs scriptOf amounts
    return ⟨some a.miner, script, a.amount, some a.weight⟩ :: rest

/-- `buildPayoutOutputs`. -/
def buildPayoutOutputs (value feeBasisPoints : Int) (entries : List Entry)
    (scriptOf : String → Except String Bytes) (poolScript : Bytes) (dustLimit : Int) :
    Except String Payout := do
  if value ≤ 0 then throw s!"coinbase value {value} is not positive"
  let fee ← feeOf value feeBasisPoints
  let pot := value - fee
  let (live, dropped, amounts) ←
    dustPasses pot dustLimit 64 (entries.filter (·.weight > 0)) []
  let amounts := amounts.mergeSort fun a b => a.miner ≤ b.miner
  let outputs ← minerOutputs scriptOf amounts
  let paid := (amounts.map Amount.amount).sum
  let poolValue := value - paid
  if poolValue < 0 then throw "payout outputs exceed the coinbase value"
  let outputs := outputs ++ [⟨none, poolScript, poolValue, none⟩]
  let total := (outputs.map Output.value).sum
  if total ≠ value then throw s!"coinbase outputs sum to {total}, not {value}"
  return ⟨outputs, fee, dropped, paid, totalWeight live⟩

/-- Some miner of the window is owed at least the dust limit out of `value`. -/
def Owed (value feeBasisPoints dustLimit : Int) (entries : List Entry) : Prop :=
  ∃ fee amounts dust total, feeOf value feeBasisPoints = .ok fee ∧
    splitPot (value - fee) (entries.filter (·.weight > 0)) = .ok (amounts, dust, total) ∧
    ∃ a ∈ amounts, dustLimit ≤ a.amount

/-- A row of the `shares` table (`time` is its `at` column). The last three fields
are not stored: the process that wrote the row, the header of the job it is for,
and the header whose hash was validated. -/
structure Share where
  id : Nat
  time : Nat
  miner : String
  session : String
  job_id : String
  nonce : String
  height : Nat
  weight : Int
  target : Nat
  epoch : Nat
  header : Bytes
  solved : Bytes
deriving DecidableEq

/-- `targetWeight`: the expected number of hashes for a share of this target. -/
def targetWeight (target : Nat) : Except String Int :=
  if target = 0 then throw "share target is zero -- no hash can be below it"
  else
    let w : Nat := 2 ^ 256 / target
    if w ≥ 2 ^ 62 then throw s!"share weight {w} exceeds 2^62; a SQLite integer literal that large becomes a silent REAL. Refusing rather than storing a float."
    else return (w : Int)

/-- The `shares` table in the order of its ids, with the counter of the
`AUTOINCREMENT` column. -/
structure Shares where
  rows : List Share := []
  seq : Nat := 0
deriving DecidableEq

namespace Shares

/-- `SELECT ... WHERE job_id=... AND nonce=...`; the unique index allows one row. -/
def lookup (shares : Shares) (job_id nonce : String) : Option Share :=
  shares.rows.find? fun r => r.job_id = job_id ∧ r.nonce = nonce

/-- `INSERT OR IGNORE INTO shares`: a row under the same `(job_id, nonce)` stays. -/
def insertOrIgnore (shares : Shares) (row : Share) : Shares :=
  match shares.lookup row.job_id row.nonce with
  | some _ => shares
  | none =>
    { rows := shares.rows ++ [{ row with id := shares.seq + 1 }], seq := shares.seq + 1 }

/-- `SELECT ... WHERE id <= lastShareId ORDER BY id DESC`. -/
def newest (shares : Shares) (lastShareId : Nat) : List Share :=
  (shares.rows.filter (·.id ≤ lastShareId)).reverse

end Shares

def shareWeight (rows : List Share) : Int := (rows.map Share.weight).sum

/-- The widening loop of `pplnsWindow`: double the scan until its rows outweigh `N`
or it covers the table. -/
def widen (newest : List Share) (N : Int) (limit : Nat) (hlimit : 0 < limit) : Nat :=
  if shareWeight (newest.take limit) ≥ N then limit
  else if limit ≥ newest.length then (if newest.length = 0 then 1 else newest.length)
  else widen newest N (limit * 2) (by omega)
termination_by newest.length - limit

/-- `WHERE cum - weight < N`, with `cum` the running sum from the newest row. -/
def withinWindow (N : Int) : Int → List Share → List Share
  | _, [] => []
  | before, r :: rows =>
    if before < N then r :: withinWindow N (before + r.weight) rows
    else withinWindow N (before + r.weight) rows

/-- `SELECT miner, SUM(weight), COUNT(*) ... GROUP BY miner ORDER BY 2 DESC`. -/
def groupByMiner (rows : List Share) : List Entry :=
  ((rows.map Share.miner).dedup.map fun m =>
    let own := rows.filter (·.miner = m)
    { miner := m, weight := shareWeight own, shares := own.length : Entry }).mergeSort
      fun a b => b.weight ≤ a.weight

/-- `pplnsWindow`. -/
def pplnsWindow (shares : Shares) (windowMultiplier : Int) (lastShareId netTarget : Nat) :
    Except String (List Entry) := do
  let blockWork ← targetWeight netTarget
  let N := blockWork * windowMultiplier
  let newest := shares.newest lastShareId
  let limit := widen newest N 65536 (by decide)
  return groupByMiner (withinWindow N 0 (newest.take limit))

/-- `currentWindow`: the window as of right now. -/
def currentWindow (shares : Shares) (windowMultiplier : Int) (netTarget : Nat) :
    Except String (List Entry) :=
  let maxId := (shares.rows.map Share.id).foldl max 0
  if maxId = 0 then return []
  else pplnsWindow shares windowMultiplier maxId netTarget

end pcoin.store
