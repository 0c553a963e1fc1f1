import PCoin.WpcnPay.Rail
import PCoin.Run.Basic

/-! The verifier and the rails together, with what gets lost between them. -/

namespace pcoin.wpcnpay

/-- A request in the loop of `verify`, with the logs that are left and the answer so far. -/
structure Request where
  id : Nat
  project : String
  user_ref : String
  txhash : String
  logs : List Log
  results : List Result := []
deriving DecidableEq

/-- Amounts and rates are not negative. -/
def Figures.Unsigned (f : Figures) : Prop :=
  (js.trim f.usd).head? ≠ some '-' ∧ (js.trim f.rate).head? ≠ some '-' ∧
    (js.trim f.wpcn).head? ≠ some '-'

instance (f : Figures) : Decidable f.Unsigned :=
  inferInstanceAs (Decidable (_ ∧ _))

/-- The next log is answered. -/
def Request.push (r : Request) (x : Result) : Request :=
  { r with logs := r.logs.tail, results := r.results ++ [x] }

/-- What a call of `verifyAndCredit` waits for. -/
inductive Waiting
  | verify
  | claims
  | answered (results : List Result)
  | listed (claims : List Claim)
deriving DecidableEq

/-- A call of `verifyAndCredit`. `known` are the logs of the transaction that were recorded for
the user when it began; `opened` says that the verifier has taken its request up. -/
structure Call where
  id : Nat
  project : String
  chat_id : String
  txhash : String
  known : List Nat
  opened : Bool := false
  waiting : Waiting := .verify
deriving DecidableEq

/-- The verifier's files and requests and the rails' tables and calls. `owed` are the transfers
that a user asked for again, after they were recorded for him, with every read succeeding. -/
structure State where
  files : List File := []
  requests : List Request := []
  rails : Rails := {}
  calls : List Call := []
  nextId : Nat := 0
  owed : List Paid := []
deriving DecidableEq

/-- The logs of a transaction that are recorded for a user. -/
def recorded (files : List File) (project userRef txhash : String) : List Nat :=
  (files.filter fun f => f.txhash = txhash && f.record.any (·.mine project userRef)).map File.log_index

/-- The user's other claims that are not older than one of his. -/
def newer (files : List File) (c : Claim) : List Claim :=
  (files.filterMap File.record).filter fun d =>
    d.mine c.project c.user_ref && c.time ≤ d.time && d ≠ c

/-- What a call that ends after its reads have succeeded is owed: its recorded logs that have
fewer than 50 newer claims. -/
def dues (files : List File) (c : Call) : List Paid :=
  (c.known.filter fun i => (readClaim files c.txhash i).any fun r => (newer files r).length < 50).map
    fun i => ⟨c.project, c.chat_id, c.txhash, i⟩

inductive Event
  /-- A user gets an account on a rail. -/
  | account (project chatId : String)
  | ask (project chatId txhash : String)
  /-- The verifier has read the chain, and has found transfers to claim. -/
  | opens (id : Nat) (head : Nat) (canonical : Option String)
  /-- It reads the claim of the next log. -/
  | look (id : Nat)
  /-- It has the rate and claims the next log, at a time. -/
  | claim (id : Nat) (figures : Figures) (time : Int)
  /-- It dies after it has created the file of the next log. -/
  | tears (id : Nat)
  /-- A read fails, or the answer is lost. -/
  | fails (id : Nat)
  | crash
  | answers (id : Nat)
  /-- The rail reads the answer; `payable` is its test of `usd_total`. -/
  | reads (id : Nat) (payable : Bool)
  /-- The verifier lists the user's claims, in the order of the directory. -/
  | lists (id : Nat) (order : List Claim)
  | heals (id : Nat)
  /-- The call ends with nothing: the reads said so, failed or were given up. -/
  | givesUp (id : Nat)
  | railCrash (project : String)

namespace State

variable (s : State)

def request (id : Nat) : Option Request := table.find Request.id id s.requests

def call (id : Nat) : Option Call := table.find Call.id id s.calls

def setRequest (id : Nat) (f : Request → Request) : State :=
  { s with requests := table.update Request.id id f s.requests }

def wait (id : Nat) (w : Waiting) : State :=
  { s with calls := table.update Call.id id (fun c => { c with waiting := w }) s.calls }

def dropRequest (id : Nat) : State := { s with requests := s.requests.filter (·.id ≠ id) }

/-- A call ends, with all its reads made. -/
def ends (c : Call) : State :=
  { s with calls := s.calls.filter (·.id ≠ c.id), owed := s.owed ++ dues s.files c }

/-- A call credits rows, unless `#credit` throws, and ends. -/
def credits (c : Call) (rows : List Row) : State :=
  match credit s.rails c.project c.chat_id c.txhash rows with
  | none => s.ends c
  | some rails => { s with rails := rails }.ends c

end State

/-- The rows of the transfers that this answer credits. -/
def creditedRows (results : List Result) : List Row :=
  results.filterMap fun r : Result => match r with
    | .credited logIndex figures => creditableRow logIndex figures
    | .already_claimed _ _ => none

/-- The rows of the user's own claims of a transaction. -/
def ownClaimRows (claims : List Claim) (txhash : String) : List Row :=
  (claims.filter (·.txhash = txhash)).filterMap fun c => creditableRow c.log_index c.figures

/-- `verifyAndCredit`, when it has read the answer. -/
def readAnswer (s : State) (c : Call) (results : List Result) (payable : Bool) : State :=
  if results.any Result.isCredited then
    let rows := if payable then creditedRows results else []
    if rows = [] then s.ends c else s.credits c rows
  else
    -- every transfer is the user's, and the rail has no row of the transaction
    let yours := results ≠ [] && results.all Result.yours
    if yours && !s.rails.haveRow c.project c.txhash then s.wait c.id .claims else s.ends c

variable (cfg : Config) (chain : String → Receipt)

/-- A step of the verifier or a rail. -/
def step (s : State) : Event → Option State
  | .account project chatId => do
    guard (s.rails.user project chatId = none)
    let users := s.rails.users ++ [{ project := project, chat_id := chatId }]
    return { s with rails := { s.rails with users := users } }
  | .ask project chatId txhash => do
    guard (s.rails.user project chatId).isSome
    let c : Call :=
      { id := s.nextId, project := project, chat_id := chatId, txhash := txhash,
        known := recorded s.files project chatId txhash }
    return { s with calls := s.calls ++ [c], nextId := s.nextId + 1 }
  | .opens id head canonical => do
    let c ← s.call id
    guard (c.opened = false ∧ c.waiting = .verify)
    let logs ← (gate cfg (some (chain c.txhash)) head canonical).toOption
    let r : Request :=
      { id := id, project := c.project, user_ref := c.chat_id, txhash := c.txhash, logs := logs }
    let calls := table.update Call.id id (fun c => { c with opened := true }) s.calls
    return { s with requests := s.requests ++ [r], calls := calls }
  | .look id => do
    let r ← s.request id
    let log ← r.logs.head?
    -- a file that cannot be read is as none
    let found ← readClaim s.files r.txhash log.logIndex
    return s.setRequest id (·.push (already (some found) log.logIndex r.project r.user_ref))
  | .claim id figures time => do
    let r ← s.request id
    let log ← r.logs.head?
    guard figures.Unsigned
    let c : Claim :=
      { txhash := r.txhash, log_index := log.logIndex, project := r.project,
        user_ref := r.user_ref, figures := figures, time := time }
    match insertClaim s.files c id with
    | some files =>
      return { s with files := files }.setRequest id (·.push (.credited log.logIndex figures))
    | none =>
      let won := readClaim s.files r.txhash log.logIndex
      return s.setRequest id (·.push (already won log.logIndex r.project r.user_ref))
  | .tears id => do
    let r ← s.request id
    let log ← r.logs.head?
    guard (file s.files r.txhash log.logIndex = none)
    return { s with files := s.files ++ [⟨r.txhash, log.logIndex, none, id⟩], requests := [] }
  | .fails id => do
    let r ← s.request id
    return s.dropRequest r.id
  | .crash => some { s with requests := [] }
  | .answers id => do
    let r ← s.request id
    let c ← s.call id
    guard (r.logs = [] ∧ c.waiting = .verify)
    return (s.dropRequest id).wait id (.answered r.results)
  | .reads id payable => do
    let c ← s.call id
    match c.waiting with
    | .answered results => some (readAnswer s c results payable)
    | _ => none
  | .lists id order => do
    let c ← s.call id
    guard (c.waiting = .claims ∧ order.Perm (s.files.filterMap File.record))
    return s.wait id (.listed (claimsFor order c.project c.chat_id))
  | .heals id => do
    let c ← s.call id
    match c.waiting with
    | .listed claims =>
      let rows := ownClaimRows claims c.txhash
      some (if rows = [] then s.ends c else s.credits c rows)
    | _ => none
  | .givesUp id => do
    let c ← s.call id
    return { s with calls := s.calls.filter (·.id ≠ c.id) }
  | .railCrash project => some { s with calls := s.calls.filter (·.project ≠ project) }

/-- A transfer is credited by one rail, to one user, once, and nothing stays owed. -/
structure Exact (s : State) : Prop where
  once : (s.rails.claims.map fun r => (r.txhash, r.log_index)).Nodup
  ledger : s.rails.ledger.map LedgerRow.paid = s.rails.claims.map ClaimRow.paid
  owed : ∀ d ∈ s.owed, d ∈ s.rails.claims.map ClaimRow.paid

/-- Something that a call is owed has not been credited. -/
def Short (s : State) (c : Call) : Prop :=
  ∃ d ∈ dues s.files c, d ∉ s.rails.claims.map ClaimRow.paid

instance (s : State) (c : Call) : Decidable (Short s c) :=
  inferInstanceAs (Decidable (∃ d ∈ dues s.files c, _))

/-- The records of a transaction are whole: all its transfers are recorded for the user of a
call, none of them by the call itself, and his rail has no row of the transaction. -/
def Whole (s : State) (c : Call) : Prop :=
  (∀ l ∈ transfers cfg (chain c.txhash), ∃ f ∈ file s.files c.txhash l.logIndex,
    f.request ≠ c.id ∧ f.record.any (·.mine c.project c.chat_id)) ∧
  s.rails.haveRow c.project c.txhash = false

instance (s : State) (c : Call) : Decidable (Whole cfg chain s c) :=
  inferInstanceAs (Decidable (_ ∧ _))

/-- A call that is owed something finds the transaction whole, and its figures plain decimals. -/
def Heeded (s : State) : Event → Prop
  | .reads id _ => ∀ c ∈ s.call id, Short s c → Whole cfg chain s c
  | .heals id => ∀ c ∈ s.call id, ∀ d ∈ dues s.files c, d ∉ s.rails.claims.map ClaimRow.paid →
    ∀ r ∈ readClaim s.files c.txhash d.log_index, (creditableRow d.log_index r.figures).isSome
  | _ => True

instance (s : State) : (e : Event) → Decidable (Heeded cfg chain s e)
  | .reads _ _ => inferInstanceAs (Decidable (∀ c ∈ s.call _, Short s c → Whole cfg chain s c))
  | .heals _ => inferInstanceAs (Decidable (∀ c ∈ s.call _, ∀ d ∈ dues s.files c, _ → ∀ r ∈ _, _))
  | .account _ _ | .ask _ _ _ | .opens _ _ _ | .look _ | .claim _ _ _ | .tears _ | .fails _ | .crash
  | .answers _ | .lists _ _ | .givesUp _ | .railCrash _ => .isTrue trivial

end pcoin.wpcnpay
