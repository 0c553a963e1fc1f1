import PCoin.Run.Basic
import PCoin.Table.Basic

namespace pcoin.bot

/-- A row of `users`; amounts are in micro-USD. -/
structure User where
  chat_id : Int
  balance_micro_usd : Int := 0
  reserved_micro_usd : Int := 0
deriving DecidableEq

inductive ResvState
  | opened
  | settled
  | released
  | expired
  | held
deriving DecidableEq

/-- A row of `reservations`. `billed` is the amount passed to the `settle` that closed it;
the table has no such column. -/
structure Reservation where
  id : Nat
  chat_id : Int
  update_id : Option Int
  req_key : Option String
  micro_usd : Int
  state : ResvState
  created_at : Int
  billed : Option Int := none
deriving DecidableEq

inductive Kind
  | deposit_pcn
  | deposit_wpcn
  | deposit_stars
  | ai_turn
  | grant
  | adjust
  | gift
  | referral
deriving DecidableEq

/-- A row of `ledger`. `turn` is the reservation that an `ai_turn` row bills; the table has
no such column. -/
structure LedgerRow where
  chat_id : Int
  delta_micro_usd : Int
  kind : Kind
  idem_key : String
  created_at : Int
  turn : Option Nat := none
deriving DecidableEq

/-- A row of `pcn_deposits`; `credited` stands for `status = 'credited'`. -/
structure Deposit where
  id : Nat
  txid : String
  address : String
  chat_id : Option Int
  amount_sat : Int
  credited : Bool := false
  credited_micro_usd : Int := 0
  credited_rate_e12 : Option Int := none
  credited_at : Option Int := none
deriving DecidableEq

/-- A row of `pcn_addresses`. -/
structure Address where
  address : String
  remainder_nano_usd : Int := 0
deriving DecidableEq

/-- A row of `media_jobs`. -/
structure Job where
  id : Nat
  reservation_id : Nat
  running : Bool
deriving DecidableEq

/-- A row of `items`. -/
structure Item where
  id : Nat
  job_id : Option Nat
deriving DecidableEq

inductive ReferralStatus
  | pending
  | rewarded
  | void
deriving DecidableEq

/-- A row of `referrals`. -/
structure Referral where
  id : Nat
  referrer_chat_id : Int
  referred_chat_id : Int
  status : ReferralStatus
  reward_micro_usd : Option Int := none
  min_topup_micro_usd : Option Int := none
deriving DecidableEq

inductive InvoiceState
  | pending
  | paid
  | expired
deriving DecidableEq

/-- A row of `stars_invoices`. -/
structure Invoice where
  id : Nat
  chat_id : Int
  payload : String
  stars : Int
  micro_usd : Int
  state : InvoiceState
deriving DecidableEq

inductive RefundState
  | pending
  | done
deriving DecidableEq

/-- A row of `stars_payments`; `refunded` stands for `refunded_at IS NOT NULL`. -/
structure Payment where
  id : Nat
  chat_id : Int
  invoice_id : Nat
  charge_id : String
  stars : Int
  micro_usd : Int
  refund_state : Option RefundState := none
  refunded : Bool := false
  refund_clawback : Bool := false
deriving DecidableEq

structure Db where
  users : List User := []
  reservations : List Reservation := []
  ledger : List LedgerRow := []
  deposits : List Deposit := []
  addresses : List Address := []
  jobs : List Job := []
  items : List Item := []
  referrals : List Referral := []
  invoices : List Invoice := []
  payments : List Payment := []
deriving DecidableEq

/-- What makes an operation throw; its transaction is then rolled back. -/
inductive Fault
  | keys
  | noUser
  | insufficientFunds (needed available : Int)
  | noReservation
  | rate
  | noDeposit
  | noAddress
  | negative
  | notNull
  | unique
  | noPayment
  | alreadyRefunded
  | inviteReward
  | spent
deriving DecidableEq

namespace Db

def user (db : Db) (chatId : Int) : Option User := table.find User.chat_id chatId db.users

/-- `UPDATE users SET balance_micro_usd = balance_micro_usd + ?, reserved_micro_usd =
reserved_micro_usd + ? WHERE chat_id = ?`. -/
def move (db : Db) (chatId balance reserved : Int) : Db :=
  let add (u : User) : User :=
    { u with balance_micro_usd := u.balance_micro_usd + balance
             reserved_micro_usd := u.reserved_micro_usd + reserved }
  { db with users := table.update User.chat_id chatId add db.users }

/-- `INSERT INTO ledger`, under `UNIQUE (idem_key)`. -/
def insertLedger (db : Db) (row : LedgerRow) : Except Fault Db :=
  if row.idem_key ∈ db.ledger.map LedgerRow.idem_key then .error .unique
  else .ok { db with ledger := db.ledger ++ [row] }

def reservation (db : Db) (id : Nat) : Option Reservation :=
  table.find Reservation.id id db.reservations

/-- `UPDATE reservations .. WHERE id = ?`. -/
def setReservation (db : Db) (id : Nat) (f : Reservation → Reservation) : Db :=
  { db with reservations := table.update Reservation.id id f db.reservations }

end Db

/-- The id that `AUTOINCREMENT` gives next. -/
def nextId (ids : List Nat) : Nat := ids.foldr max 0 + 1

/-- SQLite's `LIKE`: `%` stands for any text, `_` for one character, and letters match in
either case. -/
def like : List Char → List Char → Bool
  | [], text => text.isEmpty
  | '%' :: pattern, text => text.tails.any (like pattern)
  | '_' :: pattern, text => match text with
    | [] => false
    | _ :: text => like pattern text
  | p :: pattern, text => match text with
    | [] => false
    | c :: text => p.toLower = c.toLower && like pattern text

end pcoin.bot
