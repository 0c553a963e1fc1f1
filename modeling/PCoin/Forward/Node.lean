import PCoin.Forward.Policy
import PCoin.Run.Resume

namespace pcoin.forward

open run

/-- What is stored of the record: nothing, a text that does not parse as one, or the record. -/
inductive Blob
  | empty
  | garbled
  | record (r : SweepRecord)
deriving DecidableEq

/-- A transaction may be under way. -/
def Blob.inFlight : Blob → Bool
  | empty => false
  | garbled => true
  | record r => !r.terminal

/-- `pcoin-forward.json`, and the preferences of the phone. A text that is not set is empty. -/
structure Store where
  address : String := ""
  state : ForwardState := .holding
  pendingAddress : String := ""
  probeTxid : String := ""
  probeAcked : Bool := false
  probeConfirmed : Bool := false
  record : Blob := .empty
  lastTxid : String := ""
  lastAmountSat : Int := -1
  lastAtMs : Int := 0
  lastAddress : String := ""
  lastError : String := ""
  blockedReason : String := ""
  consecutiveFailures : Int := 0
deriving DecidableEq

/-- The setters. -/
inductive Field
  | address (a : String)
  | state (s : ForwardState)
  | pendingAddress (a : String)
  | probeTxid (t : String)
  | probeAcked (b : Bool)
  | probeConfirmed (b : Bool)
  | record (b : Blob)
  | lastTxid (t : String)
  | lastAmountSat (n : Int)
  | lastAtMs (n : Int)
  | lastAddress (a : String)
  | lastError (e : String)
  | blockedReason (e : String)
  | consecutiveFailures (n : Int)
deriving DecidableEq

def Store.set (s : Store) : Field → Store
  | .address a => { s with address := a }
  | .state st => { s with state := st }
  | .pendingAddress a => { s with pendingAddress := a }
  | .probeTxid t => { s with probeTxid := t }
  | .probeAcked b => { s with probeAcked := b }
  | .probeConfirmed b => { s with probeConfirmed := b }
  | .record b => { s with record := b }
  | .lastTxid t => { s with lastTxid := t }
  | .lastAmountSat n => { s with lastAmountSat := n }
  | .lastAtMs n => { s with lastAtMs := n }
  | .lastAddress a => { s with lastAddress := a }
  | .lastError e => { s with lastError := e }
  | .blockedReason e => { s with blockedReason := e }
  | .consecutiveFailures n => { s with consecutiveFailures := n }

/-- Several setters as one write. -/
def Store.batch (s : Store) (fs : List Field) : Store := fs.foldl Store.set s

/-- Why a call gave no result: the node's own error with its code, or no answer. -/
structure Failure where
  transport : Bool := true
  code : Option Int := none
  message : String
deriving DecidableEq

def Failure.says (e : Failure) (code : Int) : Bool := !e.transport && decide (e.code = some code)

def rpcInvalidAddressOrKey : Int := -5
def rpcAlreadyInUtxoSet : Int := -27

/-- An entry of `listtransactions`. In this and the structures below, a field of the reply that
is absent, or not of its type, is `none`. -/
structure TxEntry where
  category : Option String
  confirmations : Option Int
  abandoned : Option Bool
  txid : Option String

structure TxInfo where
  confirmations : Option Int
  hex : Option String

structure RawIn where
  txid : Option String
  vout : Option Int

structure RawOut where
  address : Option String
  hex : Option String
  value : Option ℚ

structure RawTx where
  txid : Option String
  vin : List RawIn
  vout : List RawOut

structure AddressInfo where
  ismine : Option Bool
  ischange : Option Bool

structure Validated where
  isvalid : Option Bool
  iswitness : Option Bool
  witness_version : Option Int
  scriptPubKey : Option String

structure Unspent where
  txid : Option String
  vout : Option Int
  amount : Option ℚ
  confirmations : Option Int
  spendable : Option Bool
  safe : Option Bool

structure Peer where
  relaytxes : Option Bool
  connection_type : Option String

structure BuiltTx where
  complete : Option Bool
  txid : Option String
  hex : Option String

structure Acceptance where
  allowed : Option Bool
  rejectReason : Option String

/-- The calls of the engine to the node and to the payout wallet. -/
inductive Call
  | listtransactions
  | gettransaction (txid : String) (verbose : Bool)
  | decoderawtransaction (hex : String)
  | getaddressinfo (address : String)
  | listlockunspent
  | lockunspent (unlock : Bool) (outs : List (Option String × Option Int))
  | getwalletinfo
  | validateaddress (address : String)
  | listunspent
  | generated (txids : List String)
  | getpeerinfo
  | sendall (inputs : List Outpoint) (destination : String)
  | send (inputs : List Outpoint) (destination : String) (amountSat : Int)
  | testmempoolaccept (hex : String)
  | sendrawtransaction (hex : String)
  | getmempoolentry (txid : String)

/-- The result of a call. `none` is a result that is not an object or a list, as it has to be. -/
def Call.Reply : Call → Type
  | listtransactions => Option (List TxEntry)
  | gettransaction _ _ => Option TxInfo
  | decoderawtransaction _ => Option RawTx
  | getaddressinfo _ => Option AddressInfo
  | listlockunspent => Option (List (Option String × Option Int))
  | lockunspent _ _ => Unit
  | getwalletinfo => Option Unit
  | validateaddress _ => Option Validated
  | listunspent => Option (List Unspent)
  | generated _ => List (Option (Option Bool))
  | getpeerinfo => Option (List Peer)
  | sendall _ _ => Option BuiltTx
  | send _ _ _ => Option BuiltTx
  | testmempoolaccept _ => Option Acceptance
  | sendrawtransaction _ => Option String
  | getmempoolentry _ => Option (Option Bool)

/-- What an evaluation decides. -/
inductive Decided
  | verdict (d : ForwardDecision) (sweepableSat : Int)
  | built (kind : SweepKind) (complaint : Option String)
  | adopted (r : SweepRecord)
  | resolved (obs : TxObservation) (r : SweepRecord) (now : Int) (res : Resolution)
deriving DecidableEq

/-- What is shown: the block, the record, its confirmations, what could be swept. -/
structure Shown where
  block : ForwardBlock
  record : Option SweepRecord := none
  confirmations : Int := -1
  sweepableSat : Int := -1

/-- Where the engine stops: a call, a reading of the clock, or one more of it in the same statement,
a reading of the store, a write, the re-reading of the file, the two ends of `INTENT_LOCK`, and what
it tells the user and the log. -/
inductive Act
  | call (c : Call)
  | now (again : Bool)
  | read
  | write (fs : List Field)
  | reload
  | lock
  | unlock
  | reconciled
  | publish (s : Shown)
  | log (d : Decided)

/-- The store as a process has it. On the phone it is the preferences themselves. -/
structure View where
  store : Store := {}
  unreadable : Bool := false
deriving DecidableEq

def Act.Reply : Act → Type
  | call c => Except Failure c.Reply
  | now _ => Int
  | read => View
  | _ => Unit

abbrev Engine (α : Type) := Routine Act Act.Reply Failure α

/-- A call whose failure is thrown. -/
def call (c : Call) : Engine c.Reply :=
  .act (.call c) fun
    | .ok r => .done r
    | .error e => .fail e

/-- A call whose failure is caught. -/
def ask (c : Call) : Engine (Except Failure c.Reply) := Routine.act (.call c) .done

def nowMs : Engine Int := Routine.act (.now false) .done

def read : Engine View := Routine.act .read .done

def write (fs : List Field) : Engine Unit := Routine.act (.write fs) .done

def log (d : Decided) : Engine Unit := Routine.act (.log d) .done

/-- `Batch` on the PC, one write for each setter on the phone. -/
def assign (port : Port) (fs : List Field) : Engine Unit :=
  match port with
  | .windows => write fs
  | .android => fs.foldr (fun f rest => do write [f]; rest) (pure ())

/-- A number of a reply as an `int`. -/
def Port.int (port : Port) (n : Int) : Int :=
  if -2 ^ 31 ≤ n ∧ n < 2 ^ 31 then n
  else match port with
    | .android => Int.bmod n (2 ^ 32)
    | .windows => -2 ^ 31

def Port.blank : Port → String → Bool
  | .android, s => isBlank s
  | .windows, s => s.isEmpty

/-- An amount of coins in satoshi. The phone rounds a half up, the PC away from zero. -/
def Port.toSat (port : Port) (coins : ℚ) : Int :=
  match port with
  | .android => ⌊coins * 10 ^ 8 + 1 / 2⌋
  | .windows =>
    if 0 ≤ coins then ⌊coins * 10 ^ 8 + 1 / 2⌋ else -⌊-coins * 10 ^ 8 + 1 / 2⌋

def text (s : Option String) : String := s.getD ""

/-- The mempool's half of an observation. -/
def observeMempool (txid : String) (obs : TxObservation) : Engine TxObservation :=
  if 0 < obs.confirmations then pure obs
  else do
    match ← ask (.getmempoolentry txid) with
    | .ok (some unbroadcast) =>
      return { obs with mempoolReadable := true, inMempool := true,
                        unbroadcast := unbroadcast.getD true }
    | .ok none => return obs
    | .error e => return { obs with mempoolReadable := e.says rpcInvalidAddressOrKey }

def observe (port : Port) (txid : String) : Engine TxObservation := do
  match ← ask (.gettransaction txid false) with
  | .ok (some tx) =>
    observeMempool txid { readable := true, knownToWallet := true,
                          confirmations := port.int (tx.confirmations.getD 0) }
  | .ok none => return {}
  | .error e =>
    if e.says rpcInvalidAddressOrKey then observeMempool txid { readable := true } else return {}

def walletAnswers : Engine Bool := do
  match ← ask .getwalletinfo with
  | .ok r => return Option.isSome r
  | .error _ => return false

def Peer.relays (p : Peer) : Bool :=
  p.relaytxes.getD false && decide (p.connection_type ≠ some "block-relay-only")

def relayPeers : Engine Int := do
  match ← ask .getpeerinfo with
  | .ok (some ps) => return (ps.filter Peer.relays).length
  | .ok none => return -1
  | .error _ => return -1

/-- Whether the payout wallet owns an address. On the PC an unknown owner is not this wallet. -/
def isMine (port : Port) (address : String) : Engine (Option Bool) := do
  match ← ask (.getaddressinfo address) with
  | .ok (some info) => return some (info.ismine.getD false)
  | _ => match port with
    | .android => return none
    | .windows => return some false

structure AddressFacts where
  isValid : Bool
  isWitness : Bool
  witnessVersion : Int
  scriptPubKey : String

/-- `isMine` is read for display only. -/
def addressFacts (port : Port) (address : String) : Engine (Option AddressFacts) := do
  match ← ask (.validateaddress address) with
  | .ok (some v) =>
    let _ ← isMine port address
    return some ⟨v.isvalid.getD false, v.iswitness.getD false,
      port.int (v.witness_version.getD 0), text v.scriptPubKey⟩
  | _ => return none

def AddressFacts.spendable (facts : AddressFacts) : Bool :=
  facts.isValid && !(facts.isWitness && decide (1 < facts.witnessVersion))

/-- Assumed coinbase until proved otherwise. -/
def Unspent.utxo (port : Port) (u : Unspent) : Utxo where
  txid := text u.txid
  vout := (u.vout.map port.int).getD (-1)
  amountSat := port.toSat (u.amount.getD 0)
  confirmations := u.confirmations.getD 0
  spendable := u.spendable.getD false
  safe := u.safe.getD false
  generated := true

def batchSize : Nat := 50

/-- The `generated` flags of the transactions that could be read. A batch that was not answered
ends the evaluation on the phone, and reads nothing on the PC. -/
def batchFlags (port : Port) (chunk : List String) : Engine (List (String × Bool)) := do
  match ← ask (.generated chunk) with
  | .ok results =>
    return (chunk.zip results).filterMap fun (txid, g) => g.map fun g => (txid, Option.getD g false)
  | .error e => match port with
    | .android => Routine.fail e
    | .windows => return []

def generatedFlags (port : Port) : List (List String) → Engine (List (String × Bool))
  | [] => return []
  | chunk :: chunks => do
    let flags ← batchFlags port chunk
    let rest ← generatedFlags port chunks
    return flags ++ rest

def vettedCandidates (port : Port) : Engine (List Utxo) := do
  match ← call .listunspent with
  | none => return []
  | some list =>
    let raw := list.map (Unspent.utxo port)
    let txids := ((raw.map Utxo.txid).filter fun t => !port.blank t).dedup
    let flags ← generatedFlags port (txids.toChunks batchSize)
    let usable := raw.filter fun u => decide (0 ≤ u.vout) && !port.blank u.txid
    return vetCandidates (usable.map fun u => { u with generated := (flags.lookup u.txid).getD true })

def RawTx.decoded (port : Port) (tx : RawTx) : DecodedTx where
  txid := text tx.txid
  inputs := (tx.vin.filter fun i => !port.blank (text i.txid)).map fun i =>
    ⟨text i.txid, (i.vout.map port.int).getD (-1)⟩
  outputs := tx.vout.map fun o =>
    { address := text o.address, scriptHex := text o.hex, valueSat := port.toSat (o.value.getD 0) }

def decode (port : Port) (hex : String) : Engine DecodedTx := do
  match ← call (.decoderawtransaction hex) with
  | none => Routine.fail { message := "the node could not decode the transaction it built" }
  | some tx => return tx.decoded port

def annotate (port : Port) (destination : String) (out : DecodedOut) : Engine DecodedOut :=
  if out.address = destination ∨ port.blank out.address then pure out
  else do
    match ← ask (.getaddressinfo out.address) with
    | .ok (some info) =>
      return { out with isMine := info.ismine.getD false, isChange := info.ischange.getD false }
    | _ => return out

/-- Fills in who owns the outputs that do not pay the destination. -/
def annotateChange (port : Port) (destination : String) :
    List DecodedOut → Engine (List DecodedOut)
  | [] => return []
  | out :: outs => do
    let out ← annotate port destination out
    let rest ← annotateChange port destination outs
    return out :: rest

/-- The reason the node would not take a transaction. A call that was not answered ends the
evaluation on the phone, and is a refusal on the PC. -/
def testAccept (port : Port) (hex : String) : Engine (Option String) := do
  match ← ask (.testmempoolaccept hex) with
  | .ok (some a) =>
    if a.allowed.getD false then return none
    else if port.blank (text a.rejectReason) then return some "rejected without a reason"
    else return some (text a.rejectReason)
  | .ok none => return some "the node did not answer testmempoolaccept"
  | .error e => match port with
    | .android => Routine.fail e
    | .windows => return some ("the node did not answer testmempoolaccept (" ++ e.message ++ ")")

def broadcast (hex : String) : Engine String := do
  let r ← call (.sendrawtransaction hex)
  return text r

def lockunspent (unlock : Bool) (outs : List (Option String × Option Int)) : Engine Unit := do
  let _ ← ask (.lockunspent unlock outs)
  return ()

def outpointFields (inputs : List Outpoint) : List (Option String × Option Int) :=
  inputs.map fun o => (some o.txid, some o.vout)

def lockInputs (inputs : List Outpoint) : Engine Unit :=
  lockunspent false (outpointFields inputs)

def unlockInputs (port : Port) (inputs : List Outpoint) : Engine Unit :=
  if port = .windows ∧ inputs.isEmpty then pure () else lockunspent true (outpointFields inputs)

end pcoin.forward
