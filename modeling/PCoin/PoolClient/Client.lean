import PCoin.Univalue.Read
import PCoin.Pool.Block
import Mathlib.Data.List.DropRight
import Mathlib.Logic.Function.Basic

open pcoin.store pcoin.block pcoin.univalue

namespace pcoin.poolclient

/-- `IsSpace`. -/
def IsSpace (c : Char) : Bool :=
  c = ' ' || c = '\x0c' || c = '\n' || c = '\r' || c = '\t' || c = '\x0b'

/-- `HexDigit`: the table holds the digits `hatoui` knows. -/
def HexDigit (c : Char) : Option Nat := hexDigit c

/-- `TryParseHex`. -/
def TryParseHex : List Char → Option Bytes
  | [] => some []
  | [c] => if IsSpace c then some [] else none
  | c1 :: c2 :: rest =>
    if IsSpace c1 then TryParseHex (c2 :: rest)
    else
      match HexDigit c1, HexDigit c2 with
      | some high, some low => (TryParseHex rest).map (UInt8.ofNat (16 * high + low) :: ·)
      | _, _ => none

/-- `IsHex`. -/
def IsHex (str : List Char) : Bool :=
  str.all (fun c => (HexDigit c).isSome) && str.length > 0 && str.length % 2 = 0

/-- `uint256::FromHex` and `UintToArith256`: the bytes fill up from the last digit, so the number
is the one the digits write. -/
def FromHex (str : List Char) : Option Nat :=
  if 64 ≠ str.length ∨ !IsHex str then none
  else some (str.foldl (fun n c => 16 * n + (HexDigit c).getD 0) 0)

structure CBlockHeader where
  nVersion : Int32
  hashPrevBlock : Hash
  hashMerkleRoot : Hash
  nTime : UInt32
  nBits : UInt32
  nNonce : UInt32

theorem length_zeros : (List.replicate 32 (0 : UInt8)).length = 32 := List.length_replicate

/-- A null hash. -/
def nullHash : Hash := ⟨List.replicate 32 0, length_zeros⟩

/-- `SetNull`. -/
def CBlockHeader.null : CBlockHeader := ⟨0, nullHash, nullHash, 0, 0, 0⟩

/-- The next `n` bytes of a `DataStream`. -/
def DataStream.read (n : Nat) (ss : Bytes) : Except String ({ b : Bytes // b.length = n } × Bytes) :=
  if h : n ≤ ss.length then .ok (⟨ss.take n, by simpa using h⟩, ss.drop n)
  else .error "DataStream::read(): end of data"

/-- The number little-endian bytes write. -/
def readLE (b : Bytes) : Nat := b.foldr (fun x n => x.toNat + 256 * n) 0

/-- `ss >> header`. -/
def CBlockHeader.Unserialize (ss : Bytes) : Except String CBlockHeader := do
  let (nVersion, ss) ← DataStream.read 4 ss
  let (hashPrevBlock, ss) ← DataStream.read 32 ss
  let (hashMerkleRoot, ss) ← DataStream.read 32 ss
  let (nTime, ss) ← DataStream.read 4 ss
  let (nBits, ss) ← DataStream.read 4 ss
  let (nNonce, _) ← DataStream.read 4 ss
  return {
    nVersion := (UInt32.ofNat (readLE nVersion.val)).toInt32
    hashPrevBlock
    hashMerkleRoot
    nTime := UInt32.ofNat (readLE nTime.val)
    nBits := UInt32.ofNat (readLE nBits.val)
    nNonce := UInt32.ofNat (readLE nNonce.val) }

/-- `ss << header`. -/
def CBlockHeader.Serialize (h : CBlockHeader) : Bytes :=
  littleEndian 4 h.nVersion.toUInt32.toNat ++ h.hashPrevBlock.val ++ h.hashMerkleRoot.val ++
    littleEndian 4 h.nTime.toNat ++ littleEndian 4 h.nBits.toNat ++ littleEndian 4 h.nNonce.toNat

structure PoolJob where
  id : String := ""
  header : CBlockHeader := .null
  target : Nat := 0
  height : Int := 0
  generation : Nat := 0

inductive PoolState where
  | disconnected
  | connecting
  | loggingIn
  | mining
  | refused
  deriving DecidableEq, Repr

inductive RequestKind where
  | login
  | submit
  | keepalive
  deriving DecidableEq, Repr

structure Submission where
  job_id : String
  nonce : UInt32

def MAX_RX : Nat := 256 * 1024
def MAX_PENDING_SUBMITS : Nat := 256
def KEEPALIVE_INTERVAL : Nat := 30
def MAX_BACKOFF_SECONDS : Nat := 30
def REFUSED_BACKOFF_SECONDS : Nat := 120
def STALE_RECONNECT_THRESHOLD : Nat := 12

/-- What the constructor fixes. -/
structure Config where
  host : String
  port : Nat

/-- `Describe`. -/
def Config.Describe (cfg : Config) : String := cfg.host ++ ":" ++ toString cfg.port

/-- The members of `PoolClient` that change. Times are seconds of the steady clock. -/
structure PoolClient where
  sock : Bool := false
  rx : List Char := []
  session : String := ""
  job : PoolJob := {}
  have_job : Bool := false
  job_seq : Nat := 0
  pending_submits : List Submission := []
  inflight : Int → Option RequestKind := fun _ => none
  next_id : Int := 1
  state : PoolState := .disconnected
  accepted : Nat := 0
  rejected : Nat := 0
  submitted : Nat := 0
  consecutive_rejects : Nat := 0
  job_height : Int := 0
  status : String := "not connected yet"
  retry_at : Nat := 0
  last_keepalive : Nat := 0
  backoff_seconds : Nat := 1

namespace PoolClient

/-- `Close`. -/
def Close (p : PoolClient) : PoolClient :=
  { p with
    sock := false, rx := [], session := "", consecutive_rejects := 0
    inflight := fun _ => none, have_job := false }

/-- `Fail`. -/
def Fail (p : PoolClient) (now : Nat) (why : String) (refused : Bool) : PoolClient :=
  let wait := if refused then REFUSED_BACKOFF_SECONDS else p.backoff_seconds
  { p.Close with
    status := why
    state := if refused then .refused else .disconnected
    retry_at := now + wait
    backoff_seconds :=
      if refused then p.backoff_seconds else min MAX_BACKOFF_SECONDS (p.backoff_seconds * 2) }

/-- A request is noted under a fresh id. -/
def request (p : PoolClient) (kind : RequestKind) : PoolClient :=
  { p with next_id := p.next_id + 1, inflight := Function.update p.inflight p.next_id (some kind) }

/-- `QueueSubmit`. -/
def QueueSubmit (p : PoolClient) (s : Submission) : PoolClient :=
  let kept := if MAX_PENDING_SUBMITS ≤ p.pending_submits.length then p.pending_submits.tail
    else p.pending_submits
  { p with pending_submits := kept ++ [s] }

/-- The critical section of `SetJob` and the lines after it. -/
def install (p : PoolClient) (job : PoolJob) : PoolClient :=
  { p with
    job := { job with generation := p.job_seq + 1 }
    job_seq := p.job_seq + 1
    have_job := true
    job_height := job.height
    state := .mining
    status := "" }

/-- `SetJob`. -/
def SetJob (p : PoolClient) (job : UniValue) : Except String PoolClient := do
  if !job.isObject then return p
  let blob ← job.find_value "blob"
  let target ← job.find_value "target"
  let job_id ← job.find_value "job_id"
  if !blob.isStr || !target.isStr || !job_id.isStr then return p
  match TryParseHex (← blob.get_str).toList with
  | none => return p
  | some bytes =>
    if bytes.length ≠ 80 then return p
    match CBlockHeader.Unserialize bytes with
    | .error _ => return p
    | .ok header =>
      match FromHex (← target.get_str).toList with
      | none => return p
      | some target =>
        if target = 0 then return p
        let h ← job.find_value "height"
        let id ← job_id.get_str
        -- The `try` of the source covers the header alone: `getInt` throws out of `SetJob`.
        let height ← if h.isNum then h.getInt (-2 ^ 31) (2 ^ 31 - 1) else pure 0
        return p.install { id, header, target, height }

/-- `err.isObject() ? err.find_value("message") : err`. -/
def message (err : UniValue) : Except String UniValue :=
  if err.isObject then err.find_value "message" else .ok err

/-- The text of a message, or what stands in for it. -/
def text (m : UniValue) (other : String) : String :=
  match m with
  | .str val => val
  | _ => other

/-- A reply to `login`. -/
def loginReply (p : PoolClient) (now : Nat) (err result : UniValue) : Except String PoolClient := do
  if !err.isNull then
    let m ← message err
    let why := text m "the pool refused the login"
    return p.Fail now ("pool refused this address: " ++ why) true
  let p := { p with backoff_seconds := 1 }
  let sid ← if result.isObject then result.find_value "id" else pure .null
  let p := { p with session := text sid p.session }
  if result.isObject then p.SetJob (← result.find_value "job") else return p

/-- A reply to `submit`. -/
def submitReply (cfg : Config) (p : PoolClient) (now : Nat) (err : UniValue) :
    Except String PoolClient := do
  if !err.isNull then
    -- The message goes to the log.
    let _ ← message err
    let p :=
      { p with rejected := p.rejected + 1, consecutive_rejects := p.consecutive_rejects + 1 }
    if STALE_RECONNECT_THRESHOLD ≤ p.consecutive_rejects then
      return p.Fail now (toString p.consecutive_rejects ++ " shares in a row rejected by " ++
        cfg.Describe ++ " -- the job we are grinding is stale, reconnecting for a fresh one") false
    else return p
  else return { p with accepted := p.accepted + 1, consecutive_rejects := 0 }

/-- `HandleLine`. -/
def HandleLine (cfg : Config) (now : Nat) (p : PoolClient) (line : List Char) :
    Except String PoolClient := do
  match read line with
  | none => return p
  | some msg =>
    if !msg.isObject then return p
    match ← msg.find_value "method" with
    | .str "job" => p.SetJob (← msg.find_value "params")
    | _ =>
      let id ← msg.find_value "id"
      if !id.isNum then return p
      let id ← id.getInt (-2 ^ 63) (2 ^ 63 - 1)
      match p.inflight id with
      | none => return p
      | some kind =>
        let p := { p with inflight := Function.update p.inflight id none }
        let err ← msg.find_value "error"
        let result ← msg.find_value "result"
        match kind with
        | .login => p.loginReply now err result
        | .submit => submitReply cfg p now err
        | .keepalive => return p

end PoolClient

/-- What `Recv` gives. -/
inductive Received where
  | closed
  | error (transient : Bool)
  | bytes (chunk : List UInt8)

/-- What one turn of the supervisor meets: the clock, the socket calls and the nonces the workers
have queued. `delivered` says of the request with an id whether `Send` takes all of its line. -/
structure Round where
  stop : Bool := false
  now : Nat := 0
  later : Nat := 0
  resolves : Bool := true
  connects : Bool := true
  waits : Bool := true
  err : Bool := false
  recv : Bool := true
  received : Received := .bytes []
  solved : List Submission := []
  delivered : Int → Bool := fun _ => true
  expired : Bool := false

namespace PoolClient

/-- `SendLine` of the request with an id. -/
def SendLine (cfg : Config) (r : Round) (p : PoolClient) (id : Int) : PoolClient :=
  if !p.sock then p
  else if r.delivered id then p
  else p.Fail r.later ("lost connection to " ++ cfg.Describe ++ " while sending") false

/-- `Connect`; it returns true also when `SendLine` has dropped the connection. -/
def Connect (cfg : Config) (r : Round) (p : PoolClient) : PoolClient × Bool :=
  let p := { p with state := .connecting, status := "connecting to " ++ cfg.Describe }
  if !r.resolves then (p.Fail r.now ("cannot resolve " ++ cfg.host) false, false)
  else if !r.connects then (p.Fail r.now ("cannot connect to " ++ cfg.Describe) false, false)
  else
    let p :=
      { p with sock := true, state := .loggingIn, status := "logging in to " ++ cfg.Describe }
    let p := SendLine cfg r (p.request .login) p.next_id
    ({ p with last_keepalive := r.now }, true)

/-- `m_rx.find('\n')`: the line before the first newline and what follows it. -/
def nextLine (rx : List Char) : Option (List Char × List Char) :=
  if '\n' ∈ rx then some (rx.takeWhile (· ≠ '\n'), (rx.dropWhile (· ≠ '\n')).tail) else none

/-- The line without the carriage returns and spaces at its end. -/
def chomp (line : List Char) : List Char := line.rdropWhile (fun c => c = '\r' ∨ c = ' ')

/-- `m_rx.erase(0, pos + 1)`. -/
def erase (p : PoolClient) (rest : List Char) : PoolClient := { p with rx := rest }

/-- The loop over the lines received; each turn takes one newline out of `rx`. -/
def drain (cfg : Config) (now : Nat) : Nat → PoolClient → Except String PoolClient
  | 0, p => .ok p
  | fuel + 1, p =>
    match nextLine p.rx with
    | none => .ok p
    | some (line, rest) => do
      let p := p.erase rest
      let p ← if chomp line = [] then pure p else p.HandleLine cfg now (chomp line)
      if !p.sock then return p
      p.drain cfg now fuel

/-- The bytes of a chunk as characters. -/
def chars (chunk : List UInt8) : List Char := chunk.map fun b => Char.ofNat b.toNat

/-- The reading part of `Pump`; calling `Wait` without a socket takes the process down. -/
def receive (cfg : Config) (r : Round) (p : PoolClient) : Except String PoolClient := do
  if !p.sock then throw "m_sock is null"
  if !r.waits then
    return p.Fail r.later ("connection to " ++ cfg.Describe ++ " failed while waiting") false
  if r.err then return p.Fail r.later ("connection to " ++ cfg.Describe ++ " errored") false
  if !r.recv then return p
  match r.received with
  | .closed => return p.Fail r.later ("pool " ++ cfg.Describe ++ " closed the connection") false
  | .error transient =>
    if transient then return p
    else return p.Fail r.later ("read from " ++ cfg.Describe ++ " failed") false
  | .bytes chunk =>
    let p := { p with rx := p.rx ++ chars chunk }
    if MAX_RX < p.rx.length then
      return p.Fail r.later ("pool " ++ cfg.Describe ++ " sent an oversized line") false
    p.drain cfg r.later (p.rx.count '\n')

/-- `FlushSubmits`, over the batch it has swapped out. -/
def flush (cfg : Config) (r : Round) : List Submission → PoolClient → PoolClient
  | [], p => p
  | _ :: batch, p =>
    if !p.sock then p
    else
      let p := SendLine cfg r (p.request .submit) p.next_id
      flush cfg r batch { p with submitted := p.submitted + 1 }

/-- The writing part of `Pump`: `FlushSubmits` and the keepalive. -/
def transmit (cfg : Config) (r : Round) (p : PoolClient) : PoolClient :=
  if !p.sock then p
  else
    let p := flush cfg r p.pending_submits { p with pending_submits := [] }
    if p.sock ∧ KEEPALIVE_INTERVAL ≤ r.later - p.last_keepalive then
      let p := SendLine cfg r (p.request .keepalive) p.next_id
      { p with last_keepalive := r.later }
    else p

/-- `Pump`, after the workers have queued what they solved. -/
def Pump (cfg : Config) (r : Round) (p : PoolClient) : Except String PoolClient := do
  let p := r.solved.foldl QueueSubmit p
  if !p.sock then
    if r.now < p.retry_at then return p
    let (p, connected) := p.Connect cfg r
    if !connected then return p
    return (← p.receive cfg r).transmit cfg r
  return (← p.receive cfg r).transmit cfg r

end PoolClient

/-- What `PoolSupervisor` keeps, and the client it pumps. -/
structure PoolSupervisor where
  pool : PoolClient := {}
  pool_job : PoolJob := {}
  published : Nat := 0
  generation : Nat := 0

namespace PoolSupervisor

/-- The job of the client goes to the workers, or is taken from them. -/
def publish (s : PoolSupervisor) : PoolSupervisor :=
  if s.pool.have_job ∧ s.pool.job.generation ≠ s.published then
    { s with
      pool_job := s.pool.job, generation := s.generation + 1
      published := s.pool.job.generation }
  else if ¬ s.pool.have_job ∧ s.published ≠ 0 then
    { s with pool_job := {}, generation := s.generation + 1, published := 0 }
  else s

/-- One turn of the loop. -/
def turn (cfg : Config) (r : Round) (s : PoolSupervisor) : Except String PoolSupervisor := do
  let pool ← s.pool.Pump cfg r
  return publish { s with pool }

/-- `pool->Close()`. -/
def close (s : PoolSupervisor) : PoolSupervisor := { s with pool := s.pool.Close }

/-- The loop of `PoolSupervisor`. `TraceThread` rethrows, so an error ends the process. -/
def run (cfg : Config) : List Round → PoolSupervisor → Except String PoolSupervisor
  | [], s => .ok s
  | r :: rounds, s => do
    if r.stop then return s.close
    let s ← s.turn cfg r
    if r.expired then return s.close
    s.run cfg rounds

end PoolSupervisor

end pcoin.poolclient
