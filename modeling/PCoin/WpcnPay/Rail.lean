import PCoin.Table.Basic
import PCoin.Js.Text
import Mathlib.Data.List.Sort

/-! The payment verifier: its claim files, and what it finds in a transaction. -/

namespace pcoin.wpcnpay

/-- A log of a receipt, with its numbers decoded. -/
structure Log where
  address : String
  topics : List String
  data : Nat
  logIndex : Nat
deriving DecidableEq

structure Receipt where
  status : String
  blockNumber : Nat
  blockHash : String
  logs : List Log
deriving DecidableEq

structure Config where
  token : String
  payTo : String
  minConfirmations : Nat
deriving DecidableEq

def lower (s : String) : String := String.ofList (s.toList.map Char.toLower)

def TRANSFER_TOPIC : String :=
  "0xddf252ad1be2c89b69c2b068fc378daa952ba7f163c4a11628f55a4df523b3ef"

/-- `addrFromTopic`; a missing topic gives no address. -/
def addrFromTopic (t : Option String) : String :=
  "0x" ++ lower (String.ofList ((t.getD "undefined").toList.drop 26))

/-- The transfers of a receipt that paid us. -/
def transfers (cfg : Config) (receipt : Receipt) : List Log :=
  receipt.logs.filter fun l =>
    lower l.address = cfg.token && (l.topics[0]?).map lower = some TRANSFER_TOPIC &&
      addrFromTopic l.topics[2]? = cfg.payTo

/-- The answers of `verify` that claim nothing. -/
inductive Unpaid
  | bad_request
  | pending
  | reverted
  | no_payment
  | confirming
  | reorged
  | unreadable
deriving DecidableEq

/-- `verify` up to its loop: the transfers to claim. `canonical` is the hash of the block at the
receipt's height. -/
def gate (cfg : Config) (receipt : Option Receipt) (head : Nat) (canonical : Option String) :
    Except Unpaid (List Log) :=
  match receipt with
  | none => .error .pending
  | some receipt =>
    if receipt.status ≠ "0x1" then .error .reverted
    else if transfers cfg receipt = [] then .error .no_payment
    else if (head : Int) - receipt.blockNumber + 1 < cfg.minConfirmations then .error .confirming
    else if canonical.map lower ≠ some (lower receipt.blockHash) then .error .reorged
    else .ok (transfers cfg receipt)

/-- The figures of a claim, as `String` writes them. -/
structure Figures where
  wpcn : List Char
  usd : List Char
  rate : List Char
  bonus : Int := 0
deriving DecidableEq

/-- The record of a claim file. -/
structure Claim where
  txhash : String
  log_index : Nat
  project : String
  user_ref : String
  figures : Figures
  time : Int
deriving DecidableEq

/-- A claim file, by its name; one that was created but not written has no record. `request` is
the request that created it, which the file does not say. -/
structure File where
  txhash : String
  log_index : Nat
  record : Option Claim
  request : Nat
deriving DecidableEq

def File.key (f : File) : String × Nat := (f.txhash, f.log_index)

def file (files : List File) (txhash : String) (logIndex : Nat) : Option File :=
  table.find File.key (txhash, logIndex) files

/-- `readClaim`. -/
def readClaim (files : List File) (txhash : String) (logIndex : Nat) : Option Claim :=
  (file files txhash logIndex).bind File.record

/-- The claim is the asking user's. -/
def Claim.mine (c : Claim) (project userRef : String) : Bool :=
  c.project = project && c.user_ref = userRef

/-- A transfer in the answer of `verify`. -/
inductive Result
  | credited (logIndex : Nat) (figures : Figures)
  | already_claimed (logIndex : Nat) (yours : Bool)
deriving DecidableEq

namespace Result

def logIndex : Result → Nat
  | credited logIndex _ => logIndex
  | already_claimed logIndex _ => logIndex

def isCredited : Result → Bool
  | credited _ _ => true
  | already_claimed _ _ => false

def yours : Result → Bool
  | credited _ _ => false
  | already_claimed _ yours => yours

end Result

/-- What a claim that is there already is to the asking user. -/
def already (claim : Option Claim) (logIndex : Nat) (project userRef : String) : Result :=
  .already_claimed logIndex (claim.any (·.mine project userRef))

/-- `insertClaim`, which creates the file and writes it; none if the file exists. -/
def insertClaim (files : List File) (c : Claim) (request : Nat) : Option (List File) :=
  if (file files c.txhash c.log_index).isSome then none
  else some (files ++ [⟨c.txhash, c.log_index, some c, request⟩])

/-- The newest first, `sort((a, b) => b.at - a.at)`. -/
def newestFirst (claims : List Claim) : List Claim :=
  claims.insertionSort fun a b => b.time ≤ a.time

/-- `claimsFor`, from the records in the order in which the directory gives them. -/
def claimsFor (records : List Claim) (project userRef : String) : List Claim :=
  (newestFirst (records.filter (·.mine project userRef))).take 50

end pcoin.wpcnpay

/-! A rail: its tables, and how it credits what the verifier says. -/

namespace pcoin.wpcnpay

/-- The number that a text of digits stands for. -/
def digitsValue (t : List Char) : Nat := t.foldl (fun n c => 10 * n + (c.toNat - '0'.toNat)) 0

/-- `parseScaled` of a text; none when it throws. -/
def parseScaled (value : List Char) (dp : Nat) : Option Int :=
  let text := js.trim value
  let negative := text.head? = some '-'
  let text := if negative then text.tail else text
  let whole := text.takeWhile Char.isDigit
  let frac : Option (List Char) := match text.dropWhile Char.isDigit with
    | [] => if whole = [] then none else some []
    | '.' :: frac => if frac.all Char.isDigit ∧ ¬(whole = [] ∧ frac = []) then some frac else none
    | _ => none
  frac.map fun frac =>
    let padded := (frac ++ List.replicate (dp - frac.length) '0').take dp
    let scaled : Int := digitsValue whole * 10 ^ dp + digitsValue padded
    if negative then -scaled else scaled

-- what `String` gives for a ten millionth is not a decimal
example : parseScaled "1.071".toList 2 = some 107 ∧ parseScaled "1e-7".toList 8 = none := by decide

/-- What `creditableRows` makes of a row. -/
structure Row where
  logIndex : Nat
  usdNano : Int
  rateE12 : Int
  wpcnSat : Int
  bonusPct : Int
deriving DecidableEq

/-- `creditableRows`, for one row; none if the row is unreadable. -/
def creditableRow (logIndex : Nat) (f : Figures) : Option Row := do
  let usdNano ← parseScaled f.usd 9
  let rateE12 ← parseScaled f.rate 12
  let wpcnSat ← parseScaled f.wpcn 8
  return ⟨logIndex, usdNano, rateE12, wpcnSat, f.bonus⟩

/-- A row of `wpcn_claims`, with the rail whose table it is in. -/
structure ClaimRow where
  project : String
  txhash : String
  log_index : Nat
  chat_id : String
  wpcn_sat : Int
  usd_micro : Int
  rate_e12 : Int
  bonus_pct : Int
deriving DecidableEq

def ClaimRow.key (r : ClaimRow) : String × String × Nat := (r.project, r.txhash, r.log_index)

/-- A row of `ledger`. -/
structure LedgerRow where
  project : String
  chat_id : String
  delta_micro_usd : Int
  txhash : String
  log_index : Nat
deriving DecidableEq

/-- The `idem_key` is the rail's text of the transfer. -/
def LedgerRow.key (r : LedgerRow) : String × String × Nat := (r.project, r.txhash, r.log_index)

/-- A transfer that a rail credits to a user. -/
structure Paid where
  project : String
  chat_id : String
  txhash : String
  log_index : Nat
deriving DecidableEq

def Paid.key (p : Paid) : String × String × Nat := (p.project, p.txhash, p.log_index)

def ClaimRow.paid (r : ClaimRow) : Paid := ⟨r.project, r.chat_id, r.txhash, r.log_index⟩

def LedgerRow.paid (r : LedgerRow) : Paid := ⟨r.project, r.chat_id, r.txhash, r.log_index⟩

/-- A row of `users`. -/
structure User where
  project : String
  chat_id : String
  balance_micro_usd : Int := 0
  wpcn_remainder_nano_usd : Int := 0
deriving DecidableEq

def User.key (u : User) : String × String := (u.project, u.chat_id)

/-- The tables of the rails. -/
structure Rails where
  users : List User := []
  claims : List ClaimRow := []
  ledger : List LedgerRow := []
deriving DecidableEq

namespace Rails

/-- `#haveRow`. -/
def haveRow (r : Rails) (project txhash : String) : Bool :=
  r.claims.any fun c => c.project = project && c.txhash = txhash

def user (r : Rails) (project chatId : String) : Option User :=
  table.find User.key (project, chatId) r.users

end Rails

/-- `satsToNanoUsd` and `splitNano` throw on a negative number. -/
def satsToNanoUsd (amountSat rateE12 : Int) : Option Int :=
  if amountSat < 0 then none else some ((amountSat * rateE12).tdiv 100000000000)

/-- What a row credits. -/
def Row.nano (row : Row) : Option Int :=
  if 0 < row.wpcnSat then satsToNanoUsd row.wpcnSat row.rateE12 else some row.usdNano

/-- The row of `wpcn_claims` that a row of the verifier becomes. -/
def claimRow (project txhash chatId : String) (row : Row) : ClaimRow :=
  { project := project, txhash := txhash, log_index := row.logIndex, chat_id := chatId,
    wpcn_sat := row.wpcnSat, usd_micro := row.usdNano.tdiv 1000, rate_e12 := row.rateE12,
    bonus_pct := row.bonusPct }

/-- The loop of `#credit` over the rows: `INSERT .. ON CONFLICT DO NOTHING`, with the rows taken
and what they come to. -/
def takeRows (project txhash chatId : String) :
    List ClaimRow → List Row → Option (List ClaimRow × List Row × Int)
  | claims, [] => some (claims, [], 0)
  | claims, row :: rows =>
    if (project, txhash, row.logIndex) ∈ claims.map ClaimRow.key then
      takeRows project txhash chatId claims rows
    else do
      let ours ← row.nano
      let (claims, taken, nano) ←
        takeRows project txhash chatId (claims ++ [claimRow project txhash chatId row]) rows
      return (claims, row :: taken, ours + nano)

/-- The ledger rows: the whole amount is the first log's. -/
def ledgerRows (project txhash chatId : String) (ledger : List LedgerRow) :
    Int → List Row → List LedgerRow
  | _, [] => ledger
  | micro, row :: rows =>
    let new : LedgerRow :=
      { project := project, chat_id := chatId, delta_micro_usd := micro, txhash := txhash,
        log_index := row.logIndex }
    -- `UNIQUE (idem_key)`: a row that is there already is passed over
    let ledger := if new.key ∈ ledger.map LedgerRow.key then ledger else ledger ++ [new]
    ledgerRows project txhash chatId ledger 0 rows

/-- `#credit`; none when it throws, and its transaction is rolled back. -/
def credit (r : Rails) (project chatId txhash : String) (rows : List Row) : Option Rails := do
  let (claims, taken, nanoNew) ← takeRows project txhash chatId r.claims rows
  if taken = [] then some r else
  let u ← r.user project chatId
  let total := nanoNew + u.wpcn_remainder_nano_usd
  guard (0 ≤ total)
  let pay (u : User) : User :=
    { u with balance_micro_usd := u.balance_micro_usd + total / 1000
             wpcn_remainder_nano_usd := total % 1000 }
  return { users := table.update User.key (project, chatId) pay r.users, claims := claims,
           ledger := ledgerRows project txhash chatId r.ledger (total / 1000) taken }

end pcoin.wpcnpay
