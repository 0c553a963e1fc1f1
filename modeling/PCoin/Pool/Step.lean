import PCoin.Pool.State

open pcoin.store pcoin.block

namespace pcoin.pool

/-- A loop over sessions that ends at the first throw, with what was done so far. -/
def forMiners (body : State → String → Except String State) :
    List String → State → State × Option String
  | [], s => (s, none)
  | sid :: rest, s =>
    match body s sid with
    | .ok s => forMiners body rest s
    | .error e => (s, some e)

/-- `retune` for a session: the vardiff controller leaves its factor alone or sets a
new one and pushes a job. The controller's floating-point reading of the clock is
not modelled: `factor` may be anything. -/
def retune (cfg : Config) (factor : Option Nat) (s : State) (sid : String) : Except String State :=
  match factor with
  | none => return s
  | some f => do
    let (_, s) ← makeJob cfg (s.setMiner sid fun m => { m with diffFactor := f }) sid
    return s

/-- `pushJobs`. -/
def pushJobs (cfg : Config) (s : State) : State × Option String :=
  forMiners (fun s sid => (makeJob cfg s sid).map Prod.snd) s.online s

/-- The part of `refreshTemplate` that publishes the template with the payout set,
or with the set before it, held back if it does not fit. -/
def publish (cfg : Config) (s : State) (t : Template) (window : Option Window) : State :=
  let payout : Except String Payout :=
    match window with
    | none => throw "store timed out"
    | some w => buildPayoutOutputs t.coinbasevalue cfg.feeBasisPoints w.entries cfg.scriptOf
        cfg.poolScript cfg.dustLimit
  let s := { s with tpl := some t, netTarget := bitsToTarget t.bits }
  match payout, window with
  | .ok p, some w =>
    { s with payout := some p, payoutHeld := false, basis := some (t.coinbasevalue, w) }
  | _, _ =>
    let owed : Int := (((s.payout.map Payout.outputs).getD []).map Output.value).sum
    if owed > t.coinbasevalue then { s with payoutHeld := true } else s

/-- `refreshTemplate` from the window read on: publish, retune every session, and
on a new tip drop the jobs and push new ones. A throw ends it and is logged. -/
def refreshTail (cfg : Config) (s : State) (t : Template) (changed : Bool)
    (window : Option Window) (factors : String → Option Nat) : State :=
  let s := publish cfg s t window
  match forMiners (fun s sid => retune cfg (factors sid) s sid) s.online s with
  | (s, some _) => s
  | (s, none) => if changed then (pushJobs cfg { s with live := [] }).1 else s

/-- The nonce of a submission: eight hex digits, in lower case. -/
def parseNonce (text : String) : Option String :=
  if text.length = 8 ∧ text.toList.all hex.isDigit then
    some (String.ofList (text.toList.map hex.lower))
  else none

/-- `Buffer.from(nonce, 'hex')`, in the given order. -/
def nonceBytes (nonce : String) : Order → Bytes
  | .standard => hex.decode nonce.toList
  | .legacy => (hex.decode nonce.toList).reverse

/-- The orders to try: the one that worked last time first, and one only when both
are the same bytes. -/
def nonceOrders (memo : Option Order) (nonce : String) : Order × List Order :=
  let (first, second) := if memo = some .legacy then (Order.legacy, Order.standard)
    else (Order.standard, Order.legacy)
  (first, if nonceBytes nonce .legacy = nonceBytes nonce .standard then [] else [second])

/-- The job's header with the nonce bytes at offset 76. -/
def candidate (job : Job) (nonce : String) (order : Order) : Bytes :=
  job.header.take 76 ++ nonceBytes nonce order

/-- `handleSubmit` up to its first `await`. -/
def handleSubmit (s : State) (sid : String) (jobId text : String) : Option State := do
  let m ← s.miner sid
  guard (jobId ∈ s.live)
  let job ← s.job jobId
  guard (job.miner = m.id)
  let nonce ← parseNonce text
  guard (nonce ∉ job.seen)
  let (first, rest) := nonceOrders m.nonceOrder nonce
  let s := s.setJob jobId fun j => { j with seen := nonce :: j.seen, offered := nonce :: j.offered }
  return { s with nextFid := s.nextFid + 1
                  submits := s.submits ++ [⟨s.nextFid, sid, jobId, nonce, .checking first rest⟩] }

/-- What `validator.check` resolves to: it is gone, it sheds the share, it cannot
read it, or it has compared the hash with the target. -/
inductive Verdict
  | dead
  | busy
  | err
  | done
deriving DecidableEq

/-- `job.seen.delete(nonce)`, and the submission ends. -/
def retract (s : State) (f : Submit) : State :=
  { s.setJob f.job (fun j => { j with seen := j.seen.filter (· ≠ f.nonce) }) with
    submits := s.submits.filter (·.fid ≠ f.fid) }

def State.setStage (s : State) (fid : Nat) (stage : Stage) : State :=
  { s with submits := s.submits.map fun f => if f.fid = fid then { f with stage := stage } else f }

/-- `handleSubmit` from an answer of the validator to the next `await`. -/
def checked (cfg : Config) (s : State) (f : Submit) (order : Order) (rest : List Order)
    (verdict : Verdict) (time : Nat) : Option State := do
  let job ← s.job f.job
  let m ← s.miner f.session
  match verdict with
  | .dead => return retract s f
  | .busy => return retract s f
  | .err => return { s with submits := s.submits.filter (·.fid ≠ f.fid) }
  | .done =>
    let solved := candidate job f.nonce order
    if cfg.powHash solved ≤ job.target then
      let s := s.setMiner f.session fun m => { m with nonceOrder := some order }
      match targetWeight job.target with
      | .error _ => return retract s f
      | .ok weight =>
        let row : Share :=
          { id := 0, time := time, miner := m.login, session := m.id, job_id := job.id
            nonce := f.nonce, height := job.height, weight := weight, target := job.target
            epoch := s.epoch, header := job.header, solved := solved }
        let s := s.setStage f.fid (.recording solved none)
        return { s with requests := s.requests ++ [⟨f.fid, row⟩] }
    else
      match rest with
      | next :: rest => return s.setStage f.fid (.checking next rest)
      | [] => return { s with submits := s.submits.filter (·.fid ≠ f.fid) }

/-- The child executes a `recordShare` statement; `fails` is a statement that
changes nothing (a full disk, a lock). Its submission may have given up on it. -/
def execute (s : State) (r : Request) (fails : Bool) : State :=
  let shares := if fails then s.shares else s.shares.insertOrIgnore r.row
  let stored := (shares.lookup r.row.job_id r.row.nonce).map Share.id
  { s with
    shares := shares
    requests := s.requests.filter (·.fid ≠ r.fid)
    submits := s.submits.map fun f =>
      match f.stage with
      | .recording solved _ =>
        if f.fid = r.fid then { f with stage := .recording solved stored } else f
      | _ => f }

/-- Everything that can happen to the pool. A `window` event carries whatever the store
answered to the window read, or none if it failed; a `store` event is the answer to a
`recordShare`: the id in its first row, or a rejection. -/
inductive Event
  | login (id login : String) (extranonce : UInt16)
  | bye (sid : String)
  | getjob (sid : String)
  | refresh
  | template (fid : Nat) (t : Option Template)
  | window (fid : Nat) (w : Option Window) (factors : String → Option Nat)
  | submit (sid job nonce : String)
  | validator (fid : Nat) (verdict : Verdict) (time : Nat)
  | execute (fid : Nat) (fails : Bool)
  | store (fid : Nat) (result : Option Nat)
  | finish (fid : Nat) (factor : Option Nat)
  | restart

/-- What a process that just started has in memory, over the same database. -/
def restart (s : State) : State :=
  { epoch := s.epoch + 1, nextFid := s.nextFid, requests := s.requests, shares := s.shares
    served := s.served, answers := s.answers }

/-- A call outside `refreshTemplate`'s try block: a throw takes the process down. -/
def orCrash (s : State) (r : Except String State) : State :=
  match r with
  | .ok s => s
  | .error e => { s with crashed := some e }

/-- What an event does in a process that is up. -/
def react (cfg : Config) (s : State) : Event → Option State
  | .restart => some (restart s)
  | .login id login extranonce => do
    -- `randomBytes(8)` never repeats a session id
    guard (s.miner id = none ∧ (cfg.scriptOf login).isOk)
    let m : Miner :=
      { id := id, login := login, extranonce := extranonce, diffFactor := cfg.startFactor }
    let s := { s with miners := s.miners ++ [m] }
    return orCrash s ((makeJob cfg s id).map Prod.snd)
  | .bye sid => some (s.setMiner sid fun m => { m with online := false })
  | .getjob sid => do
    let _ ← s.miner sid
    return orCrash s ((makeJob cfg s sid).map Prod.snd)
  | .refresh =>
    some { s with nextFid := s.nextFid + 1, refreshes := s.refreshes ++ [⟨s.nextFid, none⟩] }
  | .template fid t => do
    let r ← s.refreshes.find? (·.fid = fid)
    guard (r.template.isNone)
    let s := { s with refreshes := s.refreshes.filter (·.fid ≠ fid) }
    match t with
    | none => return s
    | some t =>
      let changed := match s.tpl with
        | none => true
        | some old => old.previousblockhash ≠ t.previousblockhash
      return { s with refreshes := s.refreshes ++ [⟨fid, some (t, changed)⟩] }
  | .window fid w factors => do
    let r ← s.refreshes.find? (·.fid = fid)
    let (t, changed) ← r.template
    let s := { s with refreshes := s.refreshes.filter (·.fid ≠ fid) }
    return refreshTail cfg s t changed w factors
  | .submit sid job nonce => handleSubmit s sid job nonce
  | .validator fid verdict time => do
    let f ← s.submits.find? (·.fid = fid)
    match f.stage with
    | .checking order rest => checked cfg s f order rest verdict time
    | _ => none
  | .execute fid fails => do
    let r ← s.requests.find? (·.fid = fid)
    return execute s r fails
  | .store fid result => do
    let f ← s.submits.find? (·.fid = fid)
    match f.stage, result with
    | .recording solved _, some id => return s.setStage fid (.recorded solved id)
    | .recording _ _, none => return retract s f
    | _, _ => none
  | .finish fid factor => do
    let f ← s.submits.find? (·.fid = fid)
    let job ← s.job f.job
    let m ← s.miner f.session
    match f.stage with
    | .recorded _ _ =>
      let s := { s with submits := s.submits.filter (·.fid ≠ fid) }
      match retune cfg factor s f.session with
      | .error e => return { s with crashed := some e }
      | .ok s =>
        return { s with answers := s.answers ++
          [⟨s.epoch, f.session, m.login, f.job, job.header, f.nonce⟩] }
    | _ => none

def Event.isRestart : Event → Bool
  | .restart => true
  | _ => false

/-- A process that has crashed does nothing until it is started again. -/
def step (cfg : Config) (s : State) (e : Event) : Option State :=
  if s.crashed.isSome && !e.isRestart then none else react cfg s e

/-- A configuration to run the model with: only the nonce bytes `01020304` are work. -/
def smallPool : Config where
  sha256d := fun _ => ⟨List.replicate 32 0, rfl⟩
  powHash := fun header => if header.drop 76 = [1, 2, 3, 4] then 0 else 2 ^ 256
  scriptOf := fun login => .ok (login.toList.map fun c => UInt8.ofNat c.toNat)
  poolScript := [0]
  feeBasisPoints := 100
  dustLimit := 1000
  windowMultiplier := 2
  startFactor := 1
  dustLimit_pos := by decide

def smallTemplate : Template where
  height := 100
  version := 4
  previousblockhash := ⟨List.replicate 32 7, rfl⟩
  curtime := 1000
  bits := 0x1f00ffff
  coinbasevalue := 5000000000
  transactions := []
  default_witness_commitment := none
  height_lt := by decide
  value_lt := by decide

/-- The first refresh of a process, with the window read as given, and a login. -/
def startUp (fid : Nat) (window : Option Window) (id login : String) : List Event :=
  [.refresh, .template fid (some smallTemplate), .window fid window fun _ => none,
    .login id login 7]

/-- A submission to job 1 that the validator accepts, up to the store's answer. -/
def acceptedShare (fid : Nat) (id nonce : String) (shareId : Nat) : List Event :=
  [.submit id "1" nonce, .validator fid .done 5, .execute fid false, .store fid (some shareId)]

end pcoin.pool
