import Mathlib.Algebra.Order.Floor.Ring
import Mathlib.Data.Rat.Floor

namespace pcoin.forward

/-- The two programs that forward mined coins. They are ports of one another, and every
function below is both, with `port` where they differ. -/
inductive Port
  | android
  | windows
deriving DecidableEq

inductive ForwardState
  | holding
  | probingPending
  | probingSent
  | armed
deriving DecidableEq

inductive SweepState
  | broadcasting
  | broadcast
  | accepted
  | confirmed
  | settled
  | failedConflicted
deriving DecidableEq

/-- The only states in which a record may be cleared. -/
def SweepState.terminal : SweepState → Bool
  | settled => true
  | failedConflicted => true
  | _ => false

inductive SweepKind
  | sweep
  | probe
deriving DecidableEq

structure Outpoint where
  txid : String
  vout : Int
deriving DecidableEq

structure Utxo where
  txid : String
  vout : Int
  amountSat : Int
  confirmations : Int
  spendable : Bool
  safe : Bool
  generated : Bool
deriving DecidableEq

def Utxo.outpoint (u : Utxo) : Outpoint := ⟨u.txid, u.vout⟩

structure DecodedOut where
  address : String
  scriptHex : String
  valueSat : Int
  isMine : Bool := false
  isChange : Bool := false
deriving DecidableEq

structure DecodedTx where
  txid : String
  inputs : List Outpoint
  outputs : List DecodedOut
deriving DecidableEq

/-- The persisted record of a transaction the engine has committed to. -/
structure SweepRecord where
  txid : String
  hex : String
  inputs : List Outpoint
  amountSat : Int
  feeSat : Int
  address : String
  state : SweepState
  kind : SweepKind
  createdAtMs : Int
  broadcastAtMs : Int := 0
  attempts : Int := 0
  lastAttemptMs : Int := 0
  lastError : String := ""
  conflictSeenAtMs : Int := 0
deriving DecidableEq

def SweepRecord.terminal (r : SweepRecord) : Bool := r.state.terminal

inductive ForwardAction
  | none
  | probe
  | sweep
deriving DecidableEq

inductive ForwardBlock
  | none
  | shuttingDown
  | holding
  | pendingSweep
  | nodeNotReady
  | syncing
  | tipStale
  | noRelayPeer
  | walletNotLoaded
  | addressParked
  | probeAwaitingAck
  | nothingMature
deriving DecidableEq

/-- What is shown for a block. The ports name the machine they run on. -/
def ForwardBlock.reason (port : Port) : ForwardBlock → String
  | none => ""
  | shuttingDown => "Stopping."
  | holding => "Holding coins in this wallet."
  | pendingSweep => "Waiting for the previous forward to settle."
  | nodeNotReady => "Node not ready."
  | syncing => "Node still syncing."
  | tipStale => match port with
    | .android => "Chain stalled, or this phone is isolated."
    | .windows => "Chain stalled, or this PC is isolated."
  | noRelayPeer => "No peer that will accept transactions."
  | walletNotLoaded => "Wallet not loaded."
  | addressParked => "The saved forwarding address no longer validates."
  | probeAwaitingAck => "Waiting for you to confirm the test payment arrived."
  | nothingMature => "Nothing mature to forward yet."

structure ForwardDecision where
  action : ForwardAction
  block : ForwardBlock
deriving DecidableEq

def ForwardDecision.clear (d : ForwardDecision) : Bool := decide (d.action ≠ .none)

structure ForwardConditions where
  alive : Bool
  forwardState : ForwardState
  recordNonTerminal : Bool
  nodeAnswered : Bool
  initialBlockDownload : Bool
  height : Int
  headers : Int
  tipTimeSec : Int
  nowMs : Int
  relayPeers : Int
  payoutWalletLoaded : Bool
  destinationValid : Bool
  sweepableSat : Int
  candidateCount : Nat
  probeCandidateSat : Int

def minSweepSatFloor : Int := 100000000
def probeSat : Int := 100000000
def maxInputsPerSweep : Nat := 200
def coinbaseSweepDepth : Int := 107
def minDepth : Int := 6
def settledConfirmations : Int := 6
def tipAgeLimitMs : Int := 3 * 60 * 60 * 1000
def evalDebounceMs : Int := 60000
def evalBackstopMs : Int := 30 * 60000
def reannounceAfterMs : Int := 30 * 60000
def conflictConfirmMs : Int := 10 * 60000
def syncToleranceBlocks : Int := 3
def feeCeilingHeadroom : ℚ := 10
def feeRateSatVb : ℚ := 1

def estimatedVsize (inputs : Nat) : ℚ := 83 / 2 + 68 * inputs

def estimatedFeeSat (inputs : Nat) : Int := ⌈estimatedVsize inputs * feeRateSatVb⌉

def maxFeeSat (inputs : Nat) : Int := ⌈feeCeilingHeadroom * estimatedVsize inputs⌉

def minSweepSat (inputs : Nat) : Int :=
  max minSweepSatFloor (1000 * estimatedFeeSat (max inputs 1))

/-- An interval of the clock. The tray takes a clock that went back for one that stood still. -/
def Port.since (port : Port) (now first : Int) : Int :=
  match port with
  | .android => now - first
  | .windows => max 0 (now - first)

def shouldEvaluate (port : Port) (height lastEvaluatedHeight now lastEvaluationMs : Int)
    (force : Bool) : Bool :=
  if force then true
  else if lastEvaluationMs ≠ 0 ∧ evalBackstopMs ≤ port.since now lastEvaluationMs then true
  else if lastEvaluationMs ≠ 0 ∧ port.since now lastEvaluationMs < evalDebounceMs then false
  else if height < 0 then false
  else decide (height ≠ lastEvaluatedHeight)

/-- The order of a sweep's inputs. -/
def Utxo.before (u v : Utxo) : Bool :=
  decide (u.txid < v.txid) || (decide (u.txid = v.txid) && decide (u.vout ≤ v.vout))

def vetCandidates (all : List Utxo) : List Utxo :=
  (((all.filter fun u => u.spendable && u.safe).filter fun u =>
    decide ((if u.generated then coinbaseSweepDepth else minDepth) ≤ u.confirmations)).mergeSort
      Utxo.before).take maxInputsPerSweep

def totalSat (utxos : List Utxo) : Int := (utxos.map Utxo.amountSat).sum

def blocked (b : ForwardBlock) : ForwardDecision := ⟨.none, b⟩

/-- `none` is the age of a tip without a time: `Long.MAX_VALUE`. -/
def tipAgeMs (tipTimeSec now : Int) : Option Int :=
  if tipTimeSec ≤ 0 then none else some (max 0 (now - tipTimeSec * 1000))

def tipStale (tipTimeSec now : Int) : Bool :=
  (tipAgeMs tipTimeSec now).all fun age => decide (tipAgeLimitMs < age)

def decideProbe (c : ForwardConditions) : ForwardDecision :=
  if 1 ≤ c.candidateCount ∧ probeSat + maxFeeSat 1 ≤ c.probeCandidateSat then ⟨.probe, .none⟩
  else blocked .nothingMature

def decideSweep (c : ForwardConditions) : ForwardDecision :=
  if 1 ≤ c.candidateCount ∧ minSweepSat c.candidateCount ≤ c.sweepableSat then ⟨.sweep, .none⟩
  else blocked .nothingMature

/-- `decide`. -/
def decision (c : ForwardConditions) : ForwardDecision :=
  if !c.alive then blocked .shuttingDown
  else if c.forwardState = .holding then blocked .holding
  else if c.recordNonTerminal then blocked .pendingSweep
  else if !c.nodeAnswered then blocked .nodeNotReady
  else if c.initialBlockDownload then blocked .syncing
  else if c.height < 0 ∨ c.headers < 0 then blocked .syncing
  else if syncToleranceBlocks < c.headers - c.height then blocked .syncing
  else if tipStale c.tipTimeSec c.nowMs then blocked .tipStale
  else if c.relayPeers < 1 then blocked .noRelayPeer
  else if !c.payoutWalletLoaded then blocked .walletNotLoaded
  else if !c.destinationValid then blocked .addressParked
  else match c.forwardState with
    | .probingSent => blocked .probeAwaitingAck
    | .probingPending => decideProbe c
    | .armed => decideSweep c
    | .holding => blocked .holding

def isBlank (s : String) : Bool := s.toList.all Char.isWhitespace

def scriptMatches (actual expected : String) : Bool :=
  !isBlank expected && !isBlank actual &&
    decide (actual.toList.map Char.toLower = expected.toList.map Char.toLower)

/-- Compared by count and as a set, so that a duplicate cannot hide in a matching set. -/
def inputsMatch (decoded : DecodedTx) (planned : List Utxo) : Option String :=
  let outpoints := planned.map Utxo.outpoint
  if decoded.inputs.length ≠ outpoints.dedup.length ∨ !decoded.inputs.all (outpoints.contains ·) ∨
      !outpoints.all (decoded.inputs.contains ·) then
    some "d: inputs are not the ones selected"
  else none

def feeComplaint (fee ceiling : Int) : Option String :=
  if fee ≤ 0 then some "e: fee is not positive"
  else if ceiling < fee then
    some ("e: fee " ++ toString fee ++ " sat exceeds the " ++ toString ceiling ++ " sat ceiling")
  else none

def txidComplaint (decoded : DecodedTx) (expectedTxid : String) : Option String :=
  if decoded.txid ≠ expectedTxid then some "g: txid does not match the decoded transaction"
  else none

def verifySweep (decoded : DecodedTx) (planned : List Utxo)
    (destination expectedScriptHex expectedTxid : String) : Option String :=
  match decoded.outputs with
  | [out] =>
    if out.address ≠ destination then some "b: output pays a different address"
    else if !scriptMatches out.scriptHex expectedScriptHex then
      some "c: output script does not match the destination's own script"
    else (inputsMatch decoded planned).or
      ((feeComplaint (totalSat planned - out.valueSat) (maxFeeSat planned.length)).or
        ((if out.valueSat < minSweepSatFloor then some "f: output is below the minimum sweep"
          else none).or (txidComplaint decoded expectedTxid)))
  | outs => some ("a: expected exactly 1 output, got " ++ toString outs.length)

def verifyPaid (decoded : DecodedTx) (planned : List Utxo) (paid change : DecodedOut)
    (expectedScriptHex expectedTxid : String) : Option String :=
  if paid.valueSat ≠ probeSat then
    some ("b: test payment is not exactly " ++ toString probeSat ++ " sat")
  else if !scriptMatches paid.scriptHex expectedScriptHex then
    some "c: output script does not match the destination's own script"
  else if !change.isMine then some "c: change does not belong to this wallet"
  else if !change.isChange then some "c: change is not on a change descriptor"
  else (inputsMatch decoded planned).or
    ((feeComplaint (totalSat planned - paid.valueSat - change.valueSat)
      (maxFeeSat planned.length)).or (txidComplaint decoded expectedTxid))

def verifyProbe (decoded : DecodedTx) (planned : List Utxo)
    (destination expectedScriptHex expectedTxid : String) : Option String :=
  match decoded.outputs with
  | [first, second] =>
    if first.address = destination then
      verifyPaid decoded planned first second expectedScriptHex expectedTxid
    else if second.address = destination then
      verifyPaid decoded planned second first expectedScriptHex expectedTxid
    else some "b: no output pays the destination"
  | outs => some ("a: expected exactly 2 outputs, got " ++ toString outs.length)

/-- What the node said about a recorded transaction. The `readable` flags keep a call that
failed apart from an answer. -/
structure TxObservation where
  readable : Bool := false
  knownToWallet : Bool := false
  confirmations : Int := 0
  mempoolReadable : Bool := false
  inMempool : Bool := false
  unbroadcast : Bool := true
deriving DecidableEq

inductive Resolution
  | unresolved
  | rebroadcast
  | markBroadcast
  | markAccepted
  | markConfirmed
  | markSettled
  | noteConflict
  | markConflicted
deriving DecidableEq

/-- The wallet knows the transaction, at zero or more confirmations. -/
def TxObservation.healthy (obs : TxObservation) : Bool :=
  obs.readable && obs.knownToWallet && decide (0 ≤ obs.confirmations)

/-- Whether an earlier sighting of a conflict is erased. The tray has no such function. -/
def clearsConflict (port : Port) (obs : TxObservation) (r : SweepRecord) : Bool :=
  match port with
  | .android => decide (r.conflictSeenAtMs ≠ 0) && obs.healthy
  | .windows => false

def resolveConflict (port : Port) (r : SweepRecord) (now : Int) : Resolution :=
  if r.conflictSeenAtMs ≠ 0 ∧ conflictConfirmMs ≤ port.since now r.conflictSeenAtMs then
    .markConflicted
  else .noteConflict

def resolveMempool (port : Port) (obs : TxObservation) (r : SweepRecord) (now : Int) : Resolution :=
  if !obs.mempoolReadable then .unresolved
  else if !obs.inMempool then .rebroadcast
  else if !obs.unbroadcast then .markAccepted
  else if reannounceAfterMs ≤
      (if r.broadcastAtMs ≠ 0 then port.since now r.broadcastAtMs else 0) then .rebroadcast
  else .markBroadcast

def resolve (port : Port) (obs : TxObservation) (r : SweepRecord) (now : Int) : Resolution :=
  if !obs.readable then .unresolved
  else if obs.knownToWallet then
    if settledConfirmations ≤ obs.confirmations then .markSettled
    else if 1 ≤ obs.confirmations then .markConfirmed
    else if obs.confirmations < 0 then resolveConflict port r now
    else resolveMempool port obs r now
  else resolveMempool port obs r now

/-- Both ways of taking an interval give the same answer against a bound above zero. -/
theorem le_since_iff {bound : Int} (hbound : 0 < bound) (port : Port) (now first : Int) :
    bound ≤ port.since now first ↔ bound ≤ now - first := by
  cases port with
  | android => rfl
  | windows =>
    simp only [Port.since]
    omega

theorem resolve_eq (port : Port) (obs : TxObservation) (r : SweepRecord) (now : Int) :
    resolve port obs r now = resolve .android obs r now := by
  have hconflict : resolveConflict port r now = resolveConflict .android r now := by
    simp only [resolveConflict, le_since_iff (show 0 < conflictConfirmMs by decide)]
  have hmempool : resolveMempool port obs r now = resolveMempool .android obs r now := by
    unfold resolveMempool
    by_cases h : r.broadcastAtMs ≠ 0
    · simp only [if_pos h, le_since_iff (show 0 < reannounceAfterMs by decide)]
    · simp only [if_neg h]
  simp only [resolve, hconflict, hmempool]

theorem shouldEvaluate_eq (port : Port) (height last now lastMs : Int) (force : Bool) :
    shouldEvaluate port height last now lastMs force =
      shouldEvaluate .android height last now lastMs force := by
  have hlt : port.since now lastMs < evalDebounceMs ↔ now - lastMs < evalDebounceMs := by
    have h := le_since_iff (show 0 < evalDebounceMs by decide) port now lastMs
    omega
  have hlt' : Port.since .android now lastMs < evalDebounceMs ↔ now - lastMs < evalDebounceMs :=
    Iff.rfl
  simp only [shouldEvaluate, le_since_iff (show 0 < evalBackstopMs by decide), hlt, hlt']

end pcoin.forward
