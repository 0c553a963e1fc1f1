import PCoin.Forward.Node

namespace pcoin.forward

open run

def writeRecord (r : SweepRecord) : Engine Unit := write [.record (.record r)]

def clearRecord : Engine Unit := write [.record .empty]

def writeIf (c : Bool) (fs : List Field) : Engine Unit := if c then write fs else pure ()

def publish (port : Port) (s : Shown) : Engine Unit := do
  write [.blockedReason (s.block.reason port)]
  Routine.act (.publish s) .done

def publishPending (port : Port) (r : SweepRecord) (confirmations : Int) : Engine Unit :=
  publish port { block := .pendingSweep, record := some r, confirmations := confirmations }

/-- The text of a failure as it is stored. -/
def shorten (why : String) : String := (why.take 200).toString

def unreadableRecord : String :=
  "The record of the last forward could not be read, so nothing new will be sent. " ++
    "Your coins are safe in this wallet."

/-- A record that may exist and could not be read parks forwarding. -/
def parked : Engine (Option (Option SweepRecord)) := do
  write [.lastError unreadableRecord]
  return none

/-- A file that could not be read might have held a record. -/
def recordIn (v : View) : Engine (Option (Option SweepRecord)) :=
  match v.store.record with
  | .record r => pure (some (some r))
  | .garbled => parked
  | .empty => if v.unreadable then parked else pure (some none)

/-- The record, if there is one. `none` is a record that may exist and could not be read. -/
def readRecord : Engine (Option (Option SweepRecord)) := do
  let v ← read
  recordIn v

/-! ### Resolution -/

def maxResolveDepth : Nat := 2

def SweepRecord.advanced (r : SweepRecord) (state : SweepState) (now : Int) : SweepRecord :=
  { r with state := state
           broadcastAtMs := if state = .broadcast ∧ r.broadcastAtMs = 0 then now
             else r.broadcastAtMs }

def advance (port : Port) (r : SweepRecord) (state : SweepState) (confirmations now : Int) :
    Engine Unit := do
  writeIf (decide (r.advanced state now ≠ r)) [.record (.record (r.advanced state now))]
  publishPending port (r.advanced state now) confirmations

/-- A probe that landed also repairs the state machine. The phone writes each part on its own. -/
def settleProbe (port : Port) (r : SweepRecord) : Engine Unit :=
  match port with
  | .android => do
    let v ← read
    writeIf (decide (v.store.probeTxid = "")) [.probeTxid r.txid]
    let v ← read
    writeIf (decide (v.store.state = .probingPending)) [.state .probingSent]
    write [.probeConfirmed true]
  | .windows => do
    let v ← read
    write ((if v.store.probeTxid = "" then [.probeTxid r.txid] else []) ++
      (if v.store.state = .probingPending then [.state .probingSent] else []) ++
      [.probeConfirmed true])

def settleSweep (port : Port) (r : SweepRecord) : Engine Unit := do
  let now ← nowMs
  assign port [.lastTxid r.txid, .lastAmountSat r.amountSat, .lastAtMs now, .lastAddress r.address]

/-- What is written before the record is cleared. -/
def settled (port : Port) (r : SweepRecord) : Engine Unit :=
  match r.kind with
  | .sweep => settleSweep port r
  | .probe => settleProbe port r

def settle (port : Port) (r : SweepRecord) : Engine Unit := do
  unlockInputs port r.inputs
  settled port r
  clearRecord
  publish port { block := .none }

def SweepRecord.noted (r : SweepRecord) (now : Int) : SweepRecord :=
  { r with conflictSeenAtMs := if r.conflictSeenAtMs = 0 then now else r.conflictSeenAtMs }

def noteConflict (port : Port) (r : SweepRecord) (confirmations now : Int) : Engine Unit := do
  writeRecord (r.noted now)
  publishPending port r confirmations

def conflictedError : String :=
  "The last forward conflicted with another transaction and was dropped. " ++
    "The coins are still in this wallet and will be forwarded again."

/-- The record is the test payment that the state machine waits for. -/
def SweepRecord.awaited (r : SweepRecord) (s : Store) : Bool :=
  decide (r.kind = .probe ∧ s.state = .probingSent ∧ s.probeTxid = r.txid)

def dropProbe : List Field := [.probeTxid "", .probeConfirmed false, .state .probingPending]

def drop (port : Port) (r : SweepRecord) : Engine Unit :=
  match port with
  | .android => do
    clearRecord
    let v ← read
    assign .android (if r.awaited v.store then dropProbe else [])
    write [.lastError conflictedError]
  | .windows => do
    let v ← read
    write ([.record .empty] ++ (if r.awaited v.store then dropProbe else []) ++
      [.lastError conflictedError])

def dropConflicted (port : Port) (r : SweepRecord) : Engine Unit := do
  unlockInputs port r.inputs
  drop port r
  publish port { block := .none }

def SweepRecord.attempted (r : SweepRecord) (now : Int) : SweepRecord :=
  { r with attempts := r.attempts + 1, lastAttemptMs := now }

def SweepRecord.announced (r : SweepRecord) (now : Int) : SweepRecord :=
  { r with state := .broadcast, broadcastAtMs := now }

/-- Re-sends the stored hex. A call that was not answered ends the evaluation on the phone, and
is noted on the PC. -/
def rebroadcast (port : Port) (r : SweepRecord) (now : Int) (again : SweepRecord → Engine Unit) :
    Engine Unit := do
  writeRecord (r.attempted now)
  match ← ask (.sendrawtransaction r.hex) with
  | .ok _ => do
    writeRecord ((r.attempted now).announced now)
    publishPending port ((r.attempted now).announced now) 0
  | .error e =>
    if e.says rpcAlreadyInUtxoSet then again (r.attempted now)
    else if port = .android ∧ e.transport then Routine.fail e
    else do
      writeRecord { r.attempted now with lastError := shorten e.message }
      publishPending port (r.attempted now) 0

/-- The record without a sighting that a healthy observation has overtaken. -/
def SweepRecord.seen (port : Port) (obs : TxObservation) (r : SweepRecord) : SweepRecord :=
  if clearsConflict port obs r then { r with conflictSeenAtMs := 0 } else r

def follow (port : Port) (obs : TxObservation) (r : SweepRecord) (now : Int)
    (again : SweepRecord → Engine Unit) : Resolution → Engine Unit
  | .unresolved => publishPending port r (-1)
  | .rebroadcast => rebroadcast port r now again
  | .markBroadcast => advance port r .broadcast obs.confirmations now
  | .markAccepted => advance port r .accepted obs.confirmations now
  | .markConfirmed => advance port r .confirmed obs.confirmations now
  | .markSettled => settle port r
  | .noteConflict => noteConflict port r obs.confirmations now
  | .markConflicted => dropConflicted port r

/-- `ResolveRecord`, with what follows a broadcast that says the transaction is in the chain. -/
def resolveOnce (port : Port) (again : SweepRecord → Engine Unit) (r : SweepRecord) :
    Engine Unit := do
  let obs ← observe port r.txid
  let now ← nowMs
  log (.resolved obs r now (resolve port obs (r.seen port obs) now))
  writeIf (clearsConflict port obs r) [.record (.record (r.seen port obs))]
  follow port obs (r.seen port obs) now again (resolve port obs (r.seen port obs) now)

/-- The first argument is how often the resolution may still start again. -/
def resolveRecord (port : Port) : Nat → SweepRecord → Engine Unit
  | 0, r => resolveOnce port (fun next => publishPending port next (-1)) r
  | left + 1, r => resolveOnce port (resolveRecord port left) r

/-! ### Reconciliation -/

/-- A wallet send that may be under way. An entry without its confirmations counts as
unconfirmed on the phone, and as confirmed on the PC. -/
def TxEntry.pending (port : Port) (tx : TxEntry) : Bool :=
  decide (tx.category = some "send") &&
    decide ((tx.confirmations.map port.int).getD (match port with | .android => 0 | .windows => 1)
      ≤ 0) && !tx.abandoned.getD false && !port.blank (text tx.txid)

/-- What the outputs pay to others, and to whom first. -/
def paidTo (port : Port) (txid : String) : List DecodedOut → Int × String → Engine (Int × String)
  | [], paid => return paid
  | out :: outs, paid =>
    if port.blank out.address then paidTo port txid outs paid
    else do
      match ← isMine port out.address with
      | none =>
        Routine.fail { message := "could not tell whether " ++ txid ++ " pays this wallet or another" }
      | some true => paidTo port txid outs paid
      | some false =>
        paidTo port txid outs
          (paid.1 + out.valueSat, if port.blank paid.2 then out.address else paid.2)

/-- The phone reads its clock for `createdAtMs` and again for `broadcastAtMs`. -/
def nowAgain (port : Port) (now : Int) : Engine Int :=
  match port with
  | .android => Routine.act (.now true) .done
  | .windows => return now

/-- The name of the probe is read last: the clocks touch nothing of the store. -/
def adoptedRecord (port : Port) (txid hex : String) : Engine SweepRecord := do
  let decoded ← decode port hex
  let paid ← paidTo port txid decoded.outputs (0, "")
  let now ← nowMs
  let later ← nowAgain port now
  let v ← read
  return { txid := txid, hex := hex, inputs := decoded.inputs, amountSat := paid.1, feeSat := -1,
           address := paid.2, state := .broadcast,
           kind := if txid = v.store.probeTxid then .probe else .sweep,
           createdAtMs := now, broadcastAtMs := later }

def adoptFrom (port : Port) : List TxEntry → Engine (Option SweepRecord)
  | [] => return none
  | tx :: txs =>
    if tx.pending port then do
      match ← call (.gettransaction (text tx.txid) true) with
      | none => adoptFrom port txs
      | some full =>
        if port.blank (text full.hex) then adoptFrom port txs
        else do
          let r ← adoptedRecord port (text tx.txid) (text full.hex)
          return some r
    else adoptFrom port txs

def adoptInFlightSend (port : Port) : Engine (Option SweepRecord) := do
  match ← call .listtransactions with
  | none => Routine.fail { message := "listtransactions did not return a list" }
  | some list => adoptFrom port list

/-- The locks to release. The PC leaves out those it cannot name. -/
def Port.named (port : Port) (locked : List (Option String × Option Int)) :
    List (Option String × Option Int) :=
  match port with
  | .android => locked
  | .windows => (locked.filter fun o => o.1.isSome && o.2.isSome).map fun o =>
      (o.1, o.2.map port.int)

def releaseStaleLocks (port : Port) : Engine Unit := do
  match ← ask .listlockunspent with
  | .ok none => return ()
  | .ok (some locked) =>
    if List.isEmpty locked then return () else lockunspent true (port.named locked)
  | .error e => match port with
    | .android => Routine.fail e
    | .windows => return ()

/-- The last two steps of a reconciliation: what the wallet has under way, or the locks. -/
def adopt (port : Port) : Engine Unit := do
  match ← adoptInFlightSend port with
  | some r => do
    log (.adopted r)
    writeRecord r
    match port with
    | .android => return ()
    | .windows => publishPending port r (-1)
  | none => releaseStaleLocks port

def Store.untouched (s : Store) : Bool := decide (s.state = .holding ∧ s.record = .empty)

def reconcileRecord (port : Port) : Engine Unit := do
  match ← readRecord with
  | none => publish port { block := .pendingSweep }
  | some none => adopt port
  | some (some r) =>
    if r.terminal then do
      clearRecord
      adopt port
    else resolveRecord port maxResolveDepth r

def reconcile (port : Port) (loaded : Bool) : Engine Unit := do
  let v ← read
  if !v.unreadable && v.store.untouched then publish port { block := .holding }
  else if !loaded then do
    publish port { block := .walletNotLoaded }
    Routine.fail { message := "the payout wallet is not loaded" }
  else reconcileRecord port

/-! ### The send path -/

structure Built where
  complete : Bool
  txid : String
  hex : String

def asBuilt (r : Option BuiltTx) : Built :=
  match r with
  | none => ⟨false, "", ""⟩
  | some b => ⟨b.complete.getD false, text b.txid, text b.hex⟩

def build (kind : SweepKind) (inputs : List Utxo) (destination : String) : Engine Built := do
  match kind with
  | .sweep => do
    let r ← call (.sendall (inputs.map Utxo.outpoint) destination)
    return asBuilt r
  | .probe => do
    let r ← call (.send (inputs.map Utxo.outpoint) destination probeSat)
    return asBuilt r

def abort (port : Port) (why : String) : Engine Unit := do
  write [.lastError (shorten why)]
  publish port { block := .none }

def refuse (port : Port) (kind : SweepKind) (complaint why : String) : Engine Unit := do
  log (.built kind (some complaint))
  abort port why

def decodeBuilt (port : Port) (kind : SweepKind) (destination hex : String) :
    Engine DecodedTx := do
  let decoded ← decode port hex
  match kind with
  | .sweep => return decoded
  | .probe => do
    let outputs ← annotateChange port destination decoded.outputs
    return { decoded with outputs := outputs }

def verify : SweepKind → DecodedTx → List Utxo → (destination expectedScriptHex expectedTxid : String) →
    Option String
  | .sweep => verifySweep
  | .probe => verifyProbe

/-- The output that is the payment. -/
def DecodedTx.paid (tx : DecodedTx) (kind : SweepKind) (destination : String) : Int :=
  match kind with
  | .sweep => (tx.outputs.head?.map DecodedOut.valueSat).getD 0
  | .probe => ((tx.outputs.find? fun o => o.address = destination).map DecodedOut.valueSat).getD 0

def newRecord (kind : SweepKind) (inputs : List Utxo) (destination : String) (built : Built)
    (decoded : DecodedTx) (now : Int) : SweepRecord where
  txid := built.txid
  hex := built.hex
  inputs := inputs.map Utxo.outpoint
  amountSat := decoded.paid kind destination
  feeSat := totalSat inputs - (decoded.outputs.map DecodedOut.valueSat).sum
  address := destination
  state := .broadcasting
  kind := kind
  createdAtMs := now
  attempts := 1
  lastAttemptMs := now

def commitFields (r : SweepRecord) : List Field :=
  match r.kind with
  | .sweep => [.record (.record r)]
  | .probe => [.record (.record r), .probeTxid r.txid, .state .probingSent]

/-- The commit point, under `INTENT_LOCK`: the user's intent is read again. -/
def commit (port : Port) (r : SweepRecord) (expected : ForwardState) : Engine Bool := do
  Routine.act .lock .done
  let v ← read
  if v.store.address = r.address ∧ v.store.state = expected then do
    assign port (commitFields r)
    Routine.act .unlock .done
    return true
  else do
    abort port "the forwarding address changed while the transaction was being built"
    Routine.act .unlock .done
    return false

def send (port : Port) (r : SweepRecord) : Engine Unit := do
  lockInputs r.inputs
  match ← ask (.sendrawtransaction r.hex) with
  | .error e => do
    writeRecord { r with lastError := shorten e.message }
    publishPending port r (-1)
    Routine.fail e
  | .ok returned =>
    if text returned ≠ r.txid then do
      writeRecord { r with lastError := "the node returned a different transaction id" }
      publishPending port r (-1)
    else do
      let now ← nowMs
      assign port [.record (.record (r.announced now)), .lastError ""]
      publishPending port (r.announced now) (-1)

def commitAndSend (port : Port) (r : SweepRecord) (expected : ForwardState) : Engine Unit := do
  log (.built r.kind none)
  let committed ← commit port r expected
  if committed then send port r else pure ()

/-- What is done with a transaction that the node has built. -/
def vet (port : Port) (kind : SweepKind) (inputs : List Utxo) (destination script : String)
    (expected : ForwardState) (now : Int) (built : Built) : Engine Unit := do
  let decoded ← decodeBuilt port kind destination built.hex
  match verify kind decoded inputs destination script built.txid with
  | some complaint => refuse port kind complaint ("Forward aborted: " ++ complaint)
  | none => do
    match ← testAccept port built.hex with
    | some rejection =>
      refuse port kind rejection ("the node would not accept the transaction: " ++ rejection)
    | none => commitAndSend port (newRecord kind inputs destination built decoded now) expected

def buildAndSend (port : Port) (kind : SweepKind) (inputs : List Utxo) (destination script : String)
    (expected : ForwardState) : Engine Unit :=
  if inputs.isEmpty then pure ()
  else do
    let now ← nowMs
    let built ← build kind inputs destination
    if !built.complete || port.blank built.hex || port.blank built.txid then
      refuse port kind "incomplete" "the node did not return a complete signed transaction"
    else vet port kind inputs destination script expected now built

/-! ### Evaluation -/

/-- The fields that every change of the address sets again. -/
def Port.reprobe : Port → List Field
  | .android => [.probeTxid "", .probeConfirmed false, .state .probingPending]
  | .windows => [.probeTxid "", .probeAcked false, .probeConfirmed false, .state .probingPending]

def applyPendingAddress (port : Port) : Engine Unit := do
  let v ← read
  if v.store.pendingAddress = "" then pure ()
  else assign port (.address v.store.pendingAddress :: .pendingAddress "" :: port.reprobe)

/-- Arming is automatic once the node has confirmed the test payment. -/
def arm (state : ForwardState) : Engine ForwardState :=
  if state = .probingSent then do
    let v ← read
    if v.store.probeConfirmed then do
      write [.state .armed]
      return .armed
    else return state
  else pure state

/-- The chain readings of one evaluation. -/
structure NodeStats where
  height : Int
  headers : Int
  initialBlockDownload : Bool
  tipTimeSec : Int

def gatherFacts (port : Port) (walletLoaded : Bool) (destination : String) :
    Engine (Option AddressFacts) :=
  if walletLoaded then addressFacts port destination else pure none

def gatherCandidates (port : Port) (facts : Option AddressFacts) : Engine (List Utxo) :=
  if facts.any AddressFacts.spendable then vettedCandidates port else pure []

def gatherLoaded (loaded : Bool) : Engine Bool := if loaded then walletAnswers else pure false

def conditions (stats : NodeStats) (alive : Bool) (state : ForwardState) (walletLoaded : Bool)
    (facts : Option AddressFacts) (candidates : List Utxo) (now relayPeers : Int) :
    ForwardConditions where
  alive := alive
  forwardState := state
  recordNonTerminal := false
  nodeAnswered := decide (0 ≤ stats.height) && decide (0 ≤ stats.headers)
  initialBlockDownload := stats.initialBlockDownload
  height := stats.height
  headers := stats.headers
  tipTimeSec := stats.tipTimeSec
  nowMs := now
  relayPeers := relayPeers
  payoutWalletLoaded := walletLoaded
  destinationValid := facts.any AddressFacts.spendable
  sweepableSat := totalSat candidates
  candidateCount := candidates.length
  probeCandidateSat := (candidates.head?.map Utxo.amountSat).getD 0

def carryOut (port : Port) (d : ForwardDecision) (candidates : List Utxo)
    (destination script : String) (state : ForwardState) : Engine Unit := do
  log (.verdict d (totalSat candidates))
  match d.action with
  | .none => publish port { block := d.block, sweepableSat := totalSat candidates }
  | .sweep => buildAndSend port .sweep candidates destination script state
  | .probe => buildAndSend port .probe (candidates.take 1) destination script state

def consider (port : Port) (stats : NodeStats) (loaded alive : Bool) (state : ForwardState)
    (destination : String) : Engine Unit := do
  let walletLoaded ← gatherLoaded loaded
  let facts ← gatherFacts port walletLoaded destination
  let candidates ← gatherCandidates port facts
  let now ← nowMs
  let peers ← relayPeers
  carryOut port (decision (conditions stats alive state walletLoaded facts candidates now peers))
    candidates destination ((facts.map AddressFacts.scriptPubKey).getD "") state

def considerArmed (port : Port) (stats : NodeStats) (loaded alive : Bool) (state : ForwardState) :
    Engine Unit := do
  let state ← arm state
  let v ← read
  if v.store.address = "" then do
    write [.state .holding]
    publish port { block := .holding }
  else consider port stats loaded alive state v.store.address

/-- The part of an evaluation that follows once nothing is under way. -/
def proceed (port : Port) (stats : NodeStats) (loaded alive : Bool) : Engine Unit := do
  applyPendingAddress port
  let v ← read
  if v.store.state = .holding then publish port { block := .holding }
  else considerArmed port stats loaded alive v.store.state

def evaluate (port : Port) (stats : NodeStats) (loaded alive : Bool) : Engine Unit := do
  match ← readRecord with
  | none => publish port { block := .pendingSweep }
  | some none => proceed port stats loaded alive
  | some (some r) =>
    if r.terminal then do
      clearRecord
      proceed port stats loaded alive
    else resolveRecord port maxResolveDepth r

def reload (port : Port) : Engine Unit :=
  match port with
  | .android => pure ()
  | .windows => Routine.act .reload .done

def reconcileIf (port : Port) (needed loaded : Bool) : Engine Unit :=
  if needed then do
    reconcile port loaded
    Routine.act .reconciled .done
  else pure ()

def failed (port : Port) (e : Failure) : Engine Unit :=
  match port with
  | .android => do
    write [.lastError (shorten e.message)]
    let v ← read
    write [.consecutiveFailures (v.store.consecutiveFailures + 1)]
  | .windows => do
    let v ← read
    write [.lastError (shorten e.message),
      .consecutiveFailures (v.store.consecutiveFailures + 1)]

/-- `needed` is whether the engine has yet to reconcile with this node. -/
def runEvaluation (port : Port) (needed : Bool) (stats : NodeStats) (loaded alive : Bool) :
    Engine Unit :=
  Routine.attempt (do
    reload port
    reconcileIf port needed loaded
    evaluate port stats loaded alive
    write [.consecutiveFailures 0]) (failed port)

def onNodeReady (port : Port) (loaded : Bool) : Engine Unit :=
  Routine.attempt (do
    reload port
    reconcile port loaded
    Routine.act .reconciled .done) fun _ => publish port { block := .nodeNotReady }

end pcoin.forward
