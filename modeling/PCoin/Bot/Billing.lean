import PCoin.Bot.Db

namespace pcoin.bot

structure Reserved where
  reservationId : Nat
  microUsd : Int
  duplicate : Bool
deriving DecidableEq

/-- `reserve`: a reservation row, and the quote moved from the balance into what is
reserved. -/
def reserve (db : Db) (chatId : Int) (updateId : Option Int) (reqKey : Option String)
    (microUsd : Int) (allowOverdraft : Bool) (now : Int) : Except Fault (Db × Reserved) :=
  if updateId.isNone = reqKey.isNone then .error .keys else
  let existing : Option Reservation := match updateId with
    | some update => db.reservations.find? fun r => r.update_id = some update
    | none => db.reservations.find? fun r => r.req_key = reqKey
  match existing with
  | some r => .ok (db, ⟨r.id, r.micro_usd, true⟩)
  | none =>
    match db.user chatId with
    | none => .error .noUser
    | some u =>
      let floor := if allowOverdraft then 1 else microUsd
      if 0 < microUsd ∧ u.balance_micro_usd < floor then
        .error (.insufficientFunds microUsd u.balance_micro_usd)
      else
        let id := nextId (db.reservations.map Reservation.id)
        let db := if 0 < microUsd then db.move chatId (-microUsd) microUsd else db
        let row : Reservation :=
          { id := id, chat_id := chatId, update_id := updateId, req_key := reqKey,
            micro_usd := microUsd, state := .opened, created_at := now }
        .ok ({ db with reservations := db.reservations ++ [row] }, ⟨id, microUsd, false⟩)

/-- The key under which a turn is billed. -/
def Reservation.idem (r : Reservation) : String :=
  match r.update_id with
  | some update => "turn:" ++ toString update
  | none => "turn:api:" ++ r.req_key.getD "null"

/-- Take a positive charge off the balance, with its ledger row. -/
def bill (db : Db) (r : Reservation) (actual now : Int) : Except Fault Db :=
  if 0 < actual then
    (db.move r.chat_id (-actual) 0).insertLedger
      { chat_id := r.chat_id, delta_micro_usd := -actual, kind := .ai_turn, idem_key := r.idem,
        created_at := now, turn := some r.id }
  else .ok db

inductive Settled
  | alreadyClosed (state : ResvState)
  | settled (reserved actual balanceAfter : Int) (overran late : Bool)
deriving DecidableEq

def Db.balanceAfter (db : Db) (chatId : Int) : Int :=
  ((db.user chatId).map User.balance_micro_usd).getD 0

/-- `settleLate`: the hold was given back already. -/
def settleLate (db : Db) (r : Reservation) (actual now : Int) : Except Fault (Db × Settled) := do
  let db ← bill db r actual now
  let db := db.setReservation r.id fun r => { r with state := .settled, billed := some actual }
  return (db, .settled 0 actual (db.balanceAfter r.chat_id) false true)

/-- `settle`: give the whole reservation back, then take the real amount. -/
def settle (db : Db) (reservationId : Nat) (actual now : Int) : Except Fault (Db × Settled) :=
  match db.reservation reservationId with
  | none => .error .noReservation
  | some r =>
    match r.state with
    | .expired => settleLate db r actual now
    | .opened => do
      let db ← bill (db.move r.chat_id r.micro_usd (-r.micro_usd)) r actual now
      let db := db.setReservation r.id fun r => { r with state := .settled, billed := some actual }
      return (db, .settled r.micro_usd actual (db.balanceAfter r.chat_id) (r.micro_usd < actual)
        false)
    | state => .ok (db, .alreadyClosed state)

/-- Give a reservation back in full. -/
def giveBack (db : Db) (r : Reservation) (state : ResvState) : Db :=
  (db.move r.chat_id r.micro_usd (-r.micro_usd)).setReservation r.id
    fun r => { r with state := state }

inductive Released
  | alreadyClosed (state : ResvState)
  | released (microUsd : Int)
deriving DecidableEq

def release (db : Db) (reservationId : Nat) : Except Fault (Db × Released) :=
  match db.reservation reservationId with
  | none => .error .noReservation
  | some r =>
    if r.state ≠ .opened then .ok (db, .alreadyClosed r.state)
    else .ok (giveBack db r .released, .released r.micro_usd)

/-- `hold`; what is held, if the reservation was open. -/
def hold (db : Db) (reservationId : Nat) : Db × Option Int :=
  match db.reservation reservationId with
  | none => (db, none)
  | some r =>
    if r.state ≠ .opened then (db, none)
    else (db.setReservation r.id fun r => { r with state := .held }, some r.micro_usd)

/-- `OWNED_BY_RUNNING_JOB`. -/
def ownedByRunningJob (db : Db) (reservationId : Nat) : Bool :=
  db.jobs.any fun j => j.reservation_id = reservationId && j.running

/-- The money of the reservation still sits in `reserved_micro_usd`. -/
def Reservation.isOpen (r : Reservation) : Bool := r.state = .opened || r.state = .held

/-- The reservations that `ageOutReservations` selects. -/
def stale (db : Db) (cutoff : Int) : List Nat :=
  (db.reservations.filter fun r =>
    r.isOpen && r.created_at < cutoff && !ownedByRunningJob db r.id).map Reservation.id

/-- The transaction of `ageOutReservations` for one reservation, which looks again. -/
def ageOut (db : Db) (reservationId : Nat) : Db :=
  match db.reservation reservationId with
  | none => db
  | some r =>
    if !r.isOpen || ownedByRunningJob db r.id then db else giveBack db r .expired

/-- `ageOutReservations`, with nothing between its transactions. -/
def ageOutReservations (db : Db) (olderThanMinutes now : Int) : Db :=
  (stale db (now - olderThanMinutes * 60)).foldl ageOut db

end pcoin.bot
