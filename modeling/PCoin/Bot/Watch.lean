import PCoin.Bot.Deposits
import PCoin.Table.Evolves

namespace pcoin.bot.watch

/-- `pcn_deposits.status`. -/
inductive Status
  | seen
  | confirming
  | credited
  | rejected
  | dropped
  | held
deriving DecidableEq

/-- A row of `pcn_deposits`. -/
structure Row where
  id : Nat
  txid : String
  address : String
  chat_id : Option Int
  status : Status
  amount_sat : Int
  block_height : Option Int := none
  credited_micro_usd : Int := 0
  credited_rate_e12 : Option Int := none
  credited_at : Option Int := none
  unconfirmed_known_ticks : Nat := 0
  first_seen_at : Int
deriving DecidableEq

/-- `UNIQUE (txid, address)`. -/
def Row.key (r : Row) : String × String := (r.txid, r.address)

/-- The columns that crediting reads. -/
def Row.deposit (r : Row) : Deposit :=
  ⟨r.id, r.txid, r.address, r.chat_id, r.amount_sat, decide (r.status = .credited),
    r.credited_micro_usd, r.credited_rate_e12, r.credited_at⟩

/-- The columns that crediting writes. -/
def Row.stamp (micro rateE12 now : Int) (r : Row) : Row :=
  { r with status := .credited, credited_micro_usd := micro, credited_rate_e12 := some rateE12
           credited_at := some now }

/-- An address of `issuedAddresses`, with the chat it was assigned to. -/
structure Issued where
  address : String
  chat_id : Option Int
deriving DecidableEq

/-- The database of the watcher. The table `pcn_deposits` is `rows`. -/
structure State where
  db : Db := {}
  issued : List Issued := []
  rows : List Row := []
deriving DecidableEq

/-- The database as crediting sees it. -/
def State.view (s : State) : Db := { s.db with deposits := s.rows.map Row.deposit }

/-- `UPDATE pcn_deposits .. WHERE id = ?`. -/
def State.set (s : State) (id : Nat) (f : Row → Row) : State :=
  { s with rows := table.update Row.id id f s.rows }

/-- The settings, with the defaults of the source. -/
structure Config where
  minConf : Int := 3
  minConfCoinbase : Int := 100
  minBlockHeight : Int := 2800
  minDepositSat : Int := 100000000
  corroborateAboveMicro : Int := 250000000
  rebate : Rebate := {}

def Config.needed (cfg : Config) (is_coinbase : Bool) : Int :=
  if is_coinbase then max cfg.minConf cfg.minConfCoinbase else cfg.minConf

/-- `DROP_AFTER_KNOWN_TICKS`. -/
def dropAfterKnownTicks : Nat := 60

/-- The `tx` object of `/api/tx`. A field that is absent, or not of the type the watcher asks
for, is `none`. -/
structure Tx where
  status : Option String
  height : Option Int
  confirmations : Option Int
  is_coinbase : Option Bool
  block_hash : Option String
deriving DecidableEq

/-- What a call of `explorer.tx` comes to: the request budget is used up, the answer cannot be
read, or it can. -/
inductive Answer
  | exhausted
  | unreadable
  | read (tx : Tx) (node_reachable : Bool)
deriving DecidableEq

/-- What a tick works with: the clock, the rate if it is usable, and for each row the answers of
the explorer and of the independent source, if there is one. -/
structure Tick where
  now : Int
  rate : Option Int
  tx : Nat → Answer
  corroborator : Option (Nat → Answer)

/-- What `redriveDeposit` returns. -/
inductive Outcome
  | unreadable
  | pending
  | rejected
  | held
  | confirming
  | heldRate
  | credited
  | already
  | duplicate
deriving DecidableEq

/-- What it throws: `BudgetExhausted`, or an error of crediting. -/
inductive Stop
  | budget
  | fault (f : Fault)
deriving DecidableEq

/-- `creditDepositSafe`. -/
def creditDepositSafe (cfg : Config) (s : State) (dep : Row) (rateE12 now : Int) :
    Except Stop (State × Outcome) :=
  match creditDeposit s.view dep.id (some rateE12) cfg.minDepositSat now cfg.rebate with
  | .error .unique => .ok (s, .duplicate)
  | .error f => .error (.fault f)
  | .ok (_, .already _ _ _) => .ok (s, .already)
  | .ok (db, .credited micro rateE12 _ _ _) =>
    .ok ({ s with db := db }.set dep.id (Row.stamp micro rateE12 now), .credited)

def hold (s : State) (dep : Row) : State × Outcome :=
  (s.set dep.id fun r => { r with status := .held }, .held)

/-- The mempool branch of `redriveDeposit`. -/
def unconfirmed (s : State) (dep : Row) (mempoolReadable : Bool) : State × Outcome :=
  if mempoolReadable then
    let ticks := dep.unconfirmed_known_ticks + 1
    let s := s.set dep.id fun r => { r with unconfirmed_known_ticks := ticks }
    if dropAfterKnownTicks < ticks ∧ dep.status ≠ .dropped then
      (s.set dep.id fun r => { r with status := .dropped }, .pending)
    else (s, .pending)
  else (s, .pending)

/-- `status && status !== 'confirmed'`. -/
def badStatus (status : Option String) : Bool :=
  match status with
  | none => false
  | some status => status ≠ "" && status ≠ "confirmed"

/-- `splitNano(satsToNanoUsd(amount_sat, rateE12)).micro`. -/
def valueMicro (dep : Row) (rateE12 : Int) : Int := satsToNanoUsd dep.amount_sat rateE12 / 1000

/-- `redriveDeposit`, for the row `dep` as it was selected. The flags and the notes it writes for
a human are not modelled. -/
def redriveDeposit (cfg : Config) (t : Tick) (s : State) (dep : Row) :
    Except Stop (State × Outcome) :=
  match t.tx dep.id with
  | .exhausted => .error .budget
  | .unreadable => .ok (s, .unreadable)
  | .read tx mempoolReadable =>
    match tx.height.filter (0 < ·) with
    | none => .ok (unconfirmed s dep mempoolReadable)
    | some height =>
      if height < cfg.minBlockHeight then
        .ok (s.set dep.id fun r => { r with status := .rejected, block_height := some height }, .rejected)
      else if dep.block_height.any (· ≠ height) then .ok (hold s dep)
      else
        match tx.is_coinbase, tx.confirmations with
        | none, _ => .ok (hold s dep)
        | _, none => .ok (hold s dep)
        | some is_coinbase, some confirmations =>
          if confirmations < cfg.needed is_coinbase then
            .ok (s.set dep.id fun r => { r with status := .confirming, block_height := some height },
              .confirming)
          else if badStatus tx.status then .ok (hold s dep)
          else if dep.chat_id = none then .ok (hold s dep)
          else
            match t.rate with
            | none =>
              .ok (s.set dep.id fun r => { r with status := .confirming, block_height := some height },
                .heldRate)
            | some rateE12 =>
              if cfg.corroborateAboveMicro ≤ valueMicro dep rateE12 then
                match t.corroborator with
                | none => .ok (hold s dep)
                | some second =>
                  match second dep.id with
                  | .exhausted => .error .budget
                  | .unreadable => .ok (hold s dep)
                  | .read tx₂ _ =>
                    if tx₂.height ≠ some height ∨ tx₂.block_hash ≠ tx.block_hash then .ok (hold s dep)
                    else creditDepositSafe cfg s dep rateE12 t.now
              else creditDepositSafe cfg s dep rateE12 t.now

/-- An item of an address history. -/
structure Item where
  txid : String
  received_sat : Option Int
  height : Option Int

/-- `/^[0-9a-f]{64}$/i`. -/
def isTxid (txid : String) : Bool :=
  txid.toList.length = 64 && txid.toList.all fun c =>
    c.isDigit || ('a' ≤ c && c ≤ 'f') || ('A' ≤ c && c ≤ 'F')

theorem key_lawful : LawfulBEq (String × String) := inferInstance

attribute [local instance] key_lawful in
/-- `INSERT INTO pcn_deposits .. ON CONFLICT(txid, address) DO NOTHING`. -/
def insert (s : State) (row : Row) : State :=
  if row.key ∈ s.rows.map Row.key then s
  else { s with rows := s.rows ++ [{ row with id := nextId (s.rows.map Row.id) }] }

/-- One item of the mempool pass. -/
def mempoolItem (s : State) (row : Issued) (item : Item) (now : Int) : State :=
  match item.received_sat.filter (0 < ·) with
  | none => s
  | some recv =>
    if isTxid item.txid then
      insert s { id := 0, txid := item.txid, address := row.address, chat_id := row.chat_id
                 status := .seen, amount_sat := recv, first_seen_at := now }
    else s

/-- `handleConfirmedItem`. -/
def handleConfirmedItem (cfg : Config) (t : Tick) (s : State) (row : Issued) (item : Item) :
    Except Stop State :=
  match item.received_sat.filter (0 < ·) with
  | none => .ok s
  | some recv =>
    if isTxid item.txid then
      match table.find Row.key (item.txid, row.address) s.rows with
      | none =>
        .ok (insert s { id := 0, txid := item.txid, address := row.address, chat_id := row.chat_id
                        status := .confirming, amount_sat := recv, block_height := item.height
                        first_seen_at := t.now })
      | some existing =>
        if existing.status = .credited ∨ existing.status = .rejected then .ok s
        else (redriveDeposit cfg t s existing).map Prod.fst
    else .ok s

/-- The open rows of step 9: `WHERE status NOT IN ('credited','rejected') ORDER BY first_seen_at
ASC LIMIT 50`. -/
def State.openRows (s : State) : List Row :=
  (s.rows.filter fun r => r.status ≠ .credited ∧ r.status ≠ .rejected).mergeSort
    fun a b => a.first_seen_at ≤ b.first_seen_at

def window : Nat := 50

/-- The loop of step 9: a deposit that throws is held, the budget ends the tick. -/
def redriveLoop (cfg : Config) (t : Tick) : List Row → State → State
  | [], s => s
  | dep :: deps, s =>
    match redriveDeposit cfg t s dep with
    | .ok (s, _) => redriveLoop cfg t deps s
    | .error .budget => s
    | .error (.fault _) => redriveLoop cfg t deps (s.set dep.id fun r => { r with status := .held })

/-- Step 9. -/
def redriveHeld (cfg : Config) (t : Tick) (s : State) : State :=
  redriveLoop cfg t (s.openRows.take window) s

/-- `allocateAddress`: the address is in the pool and now belongs to a chat. -/
def State.assign (s : State) (address : String) (chatId : Int) : State :=
  { s with
    db := { s.db with addresses :=
      if address ∈ s.db.addresses.map Address.address then s.db.addresses
      else s.db.addresses ++ [{ address := address }] }
    issued := s.issued ++ [⟨address, some chatId⟩] }

/-- What the rows come from: an account, an address that is assigned to it, and what the ticks do,
which a throw or the budget can end at any point. -/
inductive Step
  | user (chatId : Int)
  | assign (address : String) (chatId : Int)
  | mempool (address : String) (item : Item) (now : Int)
  | confirmed (t : Tick) (address : String) (item : Item)
  | redrive (t : Tick)

def step (cfg : Config) (s : State) : Step → State
  | .user chatId =>
    if (s.db.user chatId).isSome then s
    else { s with db := { s.db with users := s.db.users ++ [{ chat_id := chatId }] } }
  | .assign address chatId =>
    if (s.db.user chatId).isSome ∧ address ∉ s.issued.map Issued.address then s.assign address chatId
    else s
  | .mempool address item now =>
    match table.find Issued.address address s.issued with
    | none => s
    | some row => mempoolItem s row item now
  | .confirmed t address item =>
    match table.find Issued.address address s.issued with
    | none => s
    | some row =>
      match handleConfirmedItem cfg t s row item with
      | .ok s => s
      | .error _ => s
  | .redrive t => redriveHeld cfg t s

end pcoin.bot.watch
