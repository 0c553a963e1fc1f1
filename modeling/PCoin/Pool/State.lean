import PCoin.Pool.Block
import PCoin.Hex.Basic
import PCoin.Run.Basic

open pcoin.store pcoin.block

namespace pcoin.pool

/-- What the pool reads of a `getblocktemplate` answer. The node's amounts and
heights fit their C++ types. -/
structure Template where
  height : Nat
  version : UInt32
  previousblockhash : Hash
  curtime : UInt32
  bits : UInt32
  coinbasevalue : Nat
  transactions : List Hash
  default_witness_commitment : Option Bytes
  height_lt : height < 2 ^ 31
  value_lt : coinbasevalue < 2 ^ 63

/-- The configuration, with the hash functions and the address decoder as
parameters: `powHash` is the RandomX hash of a header as a big-endian number, and
`scriptOf` is `addressToScript` for the pool's network. -/
structure Config where
  sha256d : Bytes → Hash
  powHash : Bytes → Nat
  scriptOf : String → Except String Bytes
  poolScript : Bytes
  feeBasisPoints : Int
  dustLimit : Int
  windowMultiplier : Int
  startFactor : Nat
  dustLimit_pos : 0 < dustLimit

/-- The two byte orders in which a nonce text is read. -/
inductive Order
  | standard
  | legacy
deriving DecidableEq

/-- A session. It stays in memory while a submission of it is in flight; `online`
says whether it is in `state.miners`. -/
structure Miner where
  id : String
  login : String
  extranonce : UInt16
  jobCounter : Nat := 0
  diffFactor : Nat
  nonceOrder : Option Order := none
  online : Bool := true

/-- A job. `offered` is not in the source: every nonce text that was submitted to
the job and got past its seen-set, whatever became of it. -/
structure Job where
  id : String
  header : Bytes
  coinbase : Coinbase
  height : Nat
  target : Nat
  netTarget : Nat
  value : Nat
  payout : Option Payout
  seen : List String := []
  miner : String
  offered : List String := []

/-- What a window read returns: the miners of a `GROUP BY miner` are distinct. -/
structure Window where
  entries : List Entry
  distinct : (entries.map Entry.miner).Nodup

/-- A call of `refreshTemplate` in flight: before its template has arrived, or with
the template and whether it moved the tip, waiting for the window. -/
structure Refresh where
  fid : Nat
  template : Option (Template × Bool)

/-- Where a call of `handleSubmit` is suspended: at the validator, with the byte
orders still to be tried; at the store, with the id its statement has returned once
it was executed; or behind the store, on its way to the answer. -/
inductive Stage
  | checking (order : Order) (rest : List Order)
  | recording (solved : Bytes) (stored : Option Nat)
  | recorded (solved : Bytes) (shareId : Nat)

structure Submit where
  fid : Nat
  session : String
  job : String
  nonce : String
  stage : Stage

/-- A `recordShare` statement that was written to the `sqlite3` child. -/
structure Request where
  fid : Nat
  row : Share

/-- A job that `makeJob` returned, with the window as it was then and the window
that the payout set in force was built from. -/
structure Served where
  job : Job
  window : Except String (List Entry)
  basis : Option (Nat × Window)

/-- An answer `status: 'OK'` to a submission. -/
structure Answer where
  epoch : Nat
  session : String
  login : String
  job : String
  header : Bytes
  nonce : String

/-- The process and its database. `jobs` holds every job of the process and `live`
the ids in `state.jobs`; `shares` and `requests` outlive a restart. `basis`,
`served` and `answers` are records of the run. -/
structure State where
  epoch : Nat := 0
  crashed : Option String := none
  tpl : Option Template := none
  netTarget : Nat := 0
  payout : Option Payout := none
  payoutHeld : Bool := false
  jobs : List Job := []
  live : List String := []
  jobSeq : Nat := 0
  miners : List Miner := []
  refreshes : List Refresh := []
  submits : List Submit := []
  nextFid : Nat := 0
  requests : List Request := []
  shares : Shares := {}
  basis : Option (Nat × Window) := none
  served : List Served := []
  answers : List Answer := []

namespace State

def miner (s : State) (sid : String) : Option Miner := s.miners.find? (·.id = sid)

def job (s : State) (id : String) : Option Job := s.jobs.find? (·.id = id)

/-- Change a session in place. -/
def setMiner (s : State) (sid : String) (f : Miner → Miner) : State :=
  { s with miners := s.miners.map fun m => if m.id = sid then f m else m }

/-- Change a job in place. -/
def setJob (s : State) (id : String) (f : Job → Job) : State :=
  { s with jobs := s.jobs.map fun j => if j.id = id then f j else j }

/-- The sessions of `state.miners`, in the order of their logins. -/
def online (s : State) : List String := (s.miners.filter (·.online)).map Miner.id

end State

/-- The two bytes of a `UInt16` as `toString('hex')` writes them. -/
def bigEndian16 (n : Nat) : Bytes := [UInt8.ofNat (n / 256), UInt8.ofNat n]

theorem length_reversed (x : block.Hash) : x.val.reverse.length = 32 := by
  rw [List.length_reverse, x.property]

/-- `makeJob`: build and keep a job for a session, or none while there is no
template or the payout set does not fit it. -/
def makeJob (cfg : Config) (s : State) (sid : String) : Except String (Option Job × State) :=
  match s.tpl, s.miner sid with
  | some t, some m =>
    if s.payoutHeld then return (none, s)
    else do
      let extranonce := bigEndian16 m.extranonce.toNat ++ bigEndian16 (m.jobCounter % 2 ^ 16)
      let s := s.setMiner sid fun m => { m with jobCounter := m.jobCounter + 1 }
      let cb ← buildCoinbase cfg.sha256d t.height t.coinbasevalue cfg.poolScript
        (s.payout.map Payout.outputs) extranonce t.default_witness_commitment
      let root ← merkleRoot cfg.sha256d
        (cb.txid :: t.transactions.map fun x => ⟨x.val.reverse, length_reversed x⟩)
      let header := buildHeader t.version t.previousblockhash root t.curtime t.bits 0
      let id := hex.ofNat (s.jobSeq + 1)
      let job : Job :=
        { id := id, header := header, coinbase := cb, height := t.height
          target := scaleTarget s.netTarget m.diffFactor, netTarget := bitsToTarget t.bits
          value := t.coinbasevalue, payout := s.payout, miner := m.id }
      let live := s.live ++ [id]
      return (some job,
        { s with jobSeq := s.jobSeq + 1, jobs := s.jobs ++ [job]
                 live := if live.length > 500 then live.tail else live
                 served := s.served ++ [⟨job, currentWindow s.shares cfg.windowMultiplier
                   (bitsToTarget t.bits), s.basis⟩] })
  | _, _ => return (none, s)

end pcoin.pool
