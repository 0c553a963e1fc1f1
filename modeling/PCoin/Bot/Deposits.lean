import PCoin.Bot.Db
import Mathlib.Algebra.BigOperators.Group.List.Basic

namespace pcoin.bot

/-- `satsToNanoUsd`, for an amount that is not negative. -/
def satsToNanoUsd (amountSat rateE12 : Int) : Int := amountSat * rateE12 / 100000000000

/-- `REBATE`. -/
structure Rebate where
  ppm : Int := 0
  capSat : Int := 5000000000
  start : Int := 0
deriving DecidableEq

/-- The first second of the month of `now` in UTC, by the day count of the Gregorian
calendar (eras of 400 years from 1 March of the year 0). -/
def monthStart (now : Int) : Int :=
  let days := now / 86400
  let z := days + 719468
  let doe := z % 146097
  let yoe := (doe - doe / 1460 + doe / 36524 - doe / 146096) / 365
  let doy := doe - (365 * yoe + yoe / 4 - yoe / 100)
  let mp := (5 * doy + 2) / 153
  let day := doy - (153 * mp + 2) / 5
  (days - day) * 86400

-- 2026-09-24 12:00:00 UTC and 2026-09-01 00:00:00 UTC
example : monthStart 1790251200 = 1788220800 := by decide

def Deposit.rebateKey (d : Deposit) : String := "rebate:" ++ d.txid ++ ":" ++ d.address

/-- The satoshis of the month's deposits of a chat that were rebated. -/
def rebatedSat (db : Db) (chatId since : Int) : Int :=
  (db.deposits.map fun d =>
    if d.chat_id = some chatId ∧
        (db.ledger.any fun l => l.idem_key = d.rebateKey && since ≤ l.created_at) then
      d.amount_sat
    else 0).sum

/-- The chat that `rebateFor` credits and the amount, if nothing stops it. -/
def rebateGrant (db : Db) (dep : Deposit) (micro now : Int) (rebate : Rebate) :
    Option (Int × Int) := do
  guard (0 < rebate.ppm)
  guard (0 < rebate.start ∧ rebate.start ≤ now)
  guard (0 < micro)
  let chatId ← dep.chat_id
  let wanted := micro * rebate.ppm / 1000000
  guard (0 < wanted)
  let usedSat := rebatedSat db chatId (monthStart now) * rebate.ppm / 1000000
  let thisSat := dep.amount_sat * rebate.ppm / 1000000
  guard (usedSat < rebate.capSat)
  let grant :=
    if rebate.capSat < usedSat + thisSat then
      if 0 < thisSat then wanted * (rebate.capSat - usedSat) / thisSat else 0
    else wanted
  guard (0 < grant)
  return (chatId, grant)

/-- `rebateFor`, with what it grants. When it throws, its caller goes on with what it has
written so far. -/
def rebateFor (db : Db) (dep : Deposit) (micro now : Int) (rebate : Rebate) : Db × Int :=
  match rebateGrant db dep micro now rebate with
  | none => (db, 0)
  | some (chatId, grant) =>
    let row := { chat_id := chatId, delta_micro_usd := grant, kind := .adjust,
                 idem_key := dep.rebateKey, created_at := now }
    match db.insertLedger row with
    | .error _ => (db, 0)
    | .ok db' =>
      match db'.user chatId with
      | none => (db', 0)
      | some _ => (db'.move chatId grant 0, grant)

inductive Credited
  | already (microUsd : Int) (rateE12 creditedAt : Option Int)
  | credited (microUsd rateE12 : Int) (dust : Bool) (remainder rebate : Int)
deriving DecidableEq

/-- What a deposit credits, and what stays on its address. -/
structure Split where
  micro : Int
  remainder : Int
  dust : Bool
deriving DecidableEq

/-- The amounts of `creditDeposit`; `satsToNanoUsd` and `splitNano` throw on a negative
one. -/
def splitDeposit (dep : Deposit) (addr : Address) (rateE12 minDepositSat : Int) :
    Except Fault Split :=
  if dep.amount_sat < 0 then .error .negative else
  let nano := addr.remainder_nano_usd + satsToNanoUsd dep.amount_sat rateE12
  if dep.amount_sat < minDepositSat then .ok ⟨0, nano, true⟩
  else if nano < 0 then .error .negative
  else .ok ⟨nano / 1000, nano % 1000, false⟩

/-- The writes of `creditDeposit`: the ledger row first, then the balance. -/
def applyCredit (db : Db) (dep : Deposit) (chatId : Int) (split : Split) (rateE12 now : Int)
    (rebate : Rebate) : Except Fault (Db × Credited) := do
  let db ← db.insertLedger
    { chat_id := chatId, delta_micro_usd := split.micro, kind := .deposit_pcn,
      idem_key := "pcn:" ++ dep.txid ++ ":" ++ dep.address, created_at := now }
  if 0 < split.micro ∧ db.user chatId = none then .error .noUser else
  let db := if 0 < split.micro then db.move chatId split.micro 0 else db
  let db := { db with
    addresses := table.update Address.address dep.address
      (fun a => { a with remainder_nano_usd := split.remainder }) db.addresses
    deposits := table.update Deposit.id dep.id
      (fun d => { d with credited := true, credited_micro_usd := split.micro
                         credited_rate_e12 := some rateE12, credited_at := some now }) db.deposits }
  let (db, granted) := rebateFor db dep split.micro now rebate
  return (db, .credited split.micro rateE12 split.dust split.remainder granted)

/-- `creditDeposit`, with a usable rate or none. -/
def creditDeposit (db : Db) (depositId : Nat) (rate : Option Int) (minDepositSat now : Int)
    (rebate : Rebate) : Except Fault (Db × Credited) :=
  match rate with
  | none => .error .rate
  | some rateE12 =>
    if rateE12 ≤ 0 then .error .rate else
    match table.find Deposit.id depositId db.deposits with
    | none => .error .noDeposit
    | some dep =>
      if dep.credited then
        .ok (db, .already dep.credited_micro_usd dep.credited_rate_e12 dep.credited_at) else
      match table.find Address.address dep.address db.addresses with
      | none => .error .noAddress
      | some addr => do
        let split ← splitDeposit dep addr rateE12 minDepositSat
        match dep.chat_id with
        -- the ledger's `chat_id` is NOT NULL
        | none => .error .notNull
        | some chatId => applyCredit db dep chatId split rateE12 now rebate

/-- `SUM(l.delta_micro_usd)` of a chat. -/
def ledgerSum (chatId : Int) (ledger : List LedgerRow) : Int :=
  (ledger.map fun l => if l.chat_id = chatId then l.delta_micro_usd else 0).sum

/-- What the open and held reservations of a chat hold. -/
def openSum (chatId : Int) (reservations : List Reservation) : Int :=
  (reservations.map fun r =>
    if r.chat_id = chatId ∧ (r.state = .opened ∨ r.state = .held) then r.micro_usd else 0).sum

inductive Drift
  | ledgerVsBalance (chatId ledgerSum balance reserved : Int)
  | reservedVsOpen (chatId reserved openResv : Int)
deriving DecidableEq

/-- `reconcile`: the drifts it reports. -/
def reconcile (db : Db) : List Drift :=
  db.users.flatMap fun u =>
    (if ledgerSum u.chat_id db.ledger ≠ u.balance_micro_usd + u.reserved_micro_usd then
      [.ledgerVsBalance u.chat_id (ledgerSum u.chat_id db.ledger) u.balance_micro_usd
        u.reserved_micro_usd]
    else []) ++
    (if u.reserved_micro_usd ≠ openSum u.chat_id db.reservations then
      [.reservedVsOpen u.chat_id u.reserved_micro_usd (openSum u.chat_id db.reservations)]
    else [])

end pcoin.bot
