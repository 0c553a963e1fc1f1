import PCoin.Explorer.Index
import PCoin.Run.Basic

namespace pcoin.explorer

inductive Status
  | init
  | syncing
  | ok
  | reorg
  | reindex
  | error
deriving DecidableEq

/-- The columns of `sync_state` that `health` reads, besides the mirror of the tip. -/
structure SyncState where
  status : Status := .init
  node_height : Option Nat := none
  node_hash : Option String := none
  node_ibd : Bool := false
  node_connections : Option Nat := none
  last_poll_ts : Option Nat := none
deriving DecidableEq

/-- What is read of `getblockchaininfo`. -/
structure Info where
  blocks : Nat
  bestblockhash : String
  initialblockdownload : Bool
deriving DecidableEq

/-- The variables of `sync_once`. -/
structure Vars where
  batch : Nat
  max_blocks : Option Nat
  node_height : Nat := 0
  node_hash : String := ""
  applied : Nat := 0
  repolls : Nat := 0
deriving DecidableEq

def MAX_REPOLLS : Nat := 16

/-- Where the search of `find_fork` stands. -/
inductive Probe
  | top (hi : Int)
  | down (hi step bad : Int)
  | mid (lo hi : Int)
deriving DecidableEq

def Probe.height : Probe → Int
  | .top hi => hi
  | .down hi step _ => max 0 (hi - step)
  | .mid lo hi => (lo + hi) / 2

/-- The binary search goes on, or has found the fork. -/
def search (lo hi : Int) : Probe ⊕ Int := if hi - lo > 1 then .inl (.mid lo hi) else .inr lo

/-- What follows when the index and the node agree at the height, or do not. -/
def Probe.next (agree : Bool) : Probe → Probe ⊕ Int
  | .top hi => if agree then .inr hi else .inl (.down hi 1 hi)
  | .down hi step bad =>
    let probe := max 0 (hi - step)
    if agree then search probe bad
    else if probe = 0 then .inr (-1)
    else .inl (.down hi (step * 2) probe)
  | .mid lo hi =>
    let m := (lo + hi) / 2
    if agree then search m hi else search lo m

/-- Where `unwind_to` returns to: its caller outside, or `handle_reorg`, which was called from
outside or by `sync_once` at one of two places. -/
inductive Return
  | unwind
  | reorg
  | level (v : Vars)
  | link (v : Vars)
deriving DecidableEq

/-- What ends the loop of `sync_once`. -/
inductive Ending
  | tip
  | max_blocks
  | repolls
  | nothing_unwound
deriving DecidableEq

/-- The next RPC call or transaction of the indexer. `polled` is the time at which the tip was
asked for. -/
inductive Pc
  | info (v : Vars)
  | pollFailed
  | peers (v : Vars) (info : Info) (polled : Nat)
  | pollCommit (v : Vars) (info : Info) (connections : Option Nat) (polled : Nat)
  | probe (p : Probe) (after : Return)
  | reorgStatus (fork : Int) (after : Return)
  | reorgLog (fork : Int) (after : Return)
  | unwind (fork : Int) (n : Nat) (after : Return)
  | reorgDone (n : Nat) (after : Return)
  | hashes (v : Vars) (lo hi : Int)
  | blocks (v : Vars) (hashes : List String)
  | apply (v : Vars) (blk : Block) (rest : List (Option Block))
  | finish (v : Vars) (ending : Ending)
deriving DecidableEq

/-- The database, the clock and the call under way. `raised` are the errors that ended calls. -/
structure State where
  tables : Tables := {}
  sync : SyncState := {}
  proc : Option Pc := none
  now : Nat := 0
  raised : List Error := []
deriving DecidableEq

/-- `handle_reorg`, up to its first call of the node. -/
def startReorg (t : Tables) (node_height : Int) (after : Return) : Pc :=
  let hi := min t.tip.1 node_height
  if hi < 0 then .reorgStatus (-1) after else .probe (.top hi) after

/-- The loop of `sync_once`, up to its next call or transaction. -/
def loop (t : Tables) (v : Vars) : Pc :=
  if t.tip = ((v.node_height : Int), some v.node_hash) then .finish v .tip
  else if v.max_blocks.any (· ≤ v.applied) then .finish v .max_blocks
  else if MAX_REPOLLS < v.repolls then .finish v .repolls
  else if (v.node_height : Int) ≤ t.tip.1 then startReorg t v.node_height (.level v)
  else
    let hi := min (v.node_height : Int) (t.tip.1 + v.batch)
    let hi := match v.max_blocks with
      | none => hi
      | some m => min hi (t.tip.1 + (m - v.applied : Nat))
    .hashes v (t.tip.1 + 1) hi

/-- The blocks still to be applied; `none` is one that the node no longer has on its chain. -/
def nextBlock (t : Tables) (v : Vars) : List (Option Block) → Pc
  | [] => loop t v
  | none :: _ => .info { v with repolls := v.repolls + 1 }
  | some blk :: rest => .apply v blk rest

/-- The loop of `unwind_to`. -/
def nextUnwind (t : Tables) (fork : Int) (n : Nat) (after : Return) : Option Pc :=
  if t.tip.1 ≤ fork then
    match after with
    | .unwind => none
    | after => some (.reorgDone n after)
  else some (.unwind fork n after)

/-- Where `handle_reorg` returns to. -/
def afterReorg (t : Tables) (n : Nat) : Return → Option Pc
  | .unwind | .reorg => none
  | .level v => some (if n = 0 then .finish v .nothing_unwound else loop t v)
  | .link v => some (loop t v)

/-- The calls of the indexer, the answers of the node (`none` when a call fails), the next
transaction, a failure of it, the passing of time, and the death of the process. -/
inductive Event
  | syncOnce (batch : Nat) (max_blocks : Option Nat)
  | handleReorg (node_height : Int)
  | unwindTo (fork : Int)
  | info (reply : Option Info)
  | peers (reply : Option (Option Nat))
  | hash (reply : Option (Option String))
  | hashes (reply : Option (List (Option String)))
  | blocks (reply : Option (List (Option Block)))
  | commit
  | fail
  | tick
  | crash
deriving DecidableEq

def State.goto (s : State) (pc : Pc) : State := { s with proc := some pc }

def State.done (s : State) : State := { s with proc := none }

/-- The call ends with an exception. -/
def State.raise (s : State) (e : Error) : State := { s with proc := none, raised := s.raised ++ [e] }

/-- The next transaction. -/
def commit (genesis : String) (s : State) : Pc → Option State
  | .pollFailed => some { s with proc := none, sync := { s.sync with status := .error } }
  | .pollCommit v info connections polled =>
    let v := { v with node_height := info.blocks, node_hash := info.bestblockhash }
    some { s with
      proc := some (loop s.tables v)
      sync := { s.sync with
        node_height := info.blocks
        node_hash := info.bestblockhash
        node_ibd := info.initialblockdownload
        node_connections := connections.orElse fun _ => s.sync.node_connections
        last_poll_ts := polled } }
  | .reorgStatus fork after => some { s with
      proc := some (.reorgLog fork after), sync := { s.sync with status := .reorg } }
  | .reorgLog fork after => some { s with proc := nextUnwind s.tables fork 0 after }
  | .unwind fork n after =>
    match unwindLocked s.tables s.tables.tip.1 with
    | .error e => some (s.raise e)
    | .ok t => some { s with tables := t, proc := nextUnwind t fork (n + 1) after }
  | .reorgDone n after => some { s with proc := afterReorg s.tables n after }
  | .apply v blk rest =>
    match applyLocked genesis s.tables blk with
    | .error .chainLink => some (s.goto (startReorg s.tables v.node_height (.link v)))
    | .error e => some (s.raise e)
    | .ok t =>
      let v := { v with applied := v.applied + 1 }
      some { s with tables := t, proc := some (nextBlock t v rest) }
  | .finish v _ =>
    let caught_up := s.tables.tip = ((v.node_height : Int), some v.node_hash)
    some { s with
      proc := none
      tables := { s.tables with indexed_height := s.tables.tip.1, indexed_hash := s.tables.tip.2 }
      sync := { s.sync with status := if caught_up then .ok else .syncing } }
  | _ => none

/-- The answers of the node. -/
def answer (s : State) : Pc → Event → Option State
  | .info _, .info none => some (s.goto .pollFailed)
  | .info v, .info (some info) => some (s.goto (.peers v info s.now))
  | .peers .., .peers none => some s.done
  | .peers v info polled, .peers (some connections) =>
    some (s.goto (.pollCommit v info connections polled))
  | .probe _ _, .hash none => some s.done
  | .probe p after, .hash (some reply) =>
    let ours := s.tables.hashAt p.height
    match p.next (ours ≠ none ∧ ours = reply) with
    | .inl p => some (s.goto (.probe p after))
    | .inr fork => some (s.goto (.reorgStatus fork after))
  | .hashes _ _ _, .hashes none => some s.done
  | .hashes v lo hi, .hashes (some reply) =>
    if (reply.length : Int) ≠ hi + 1 - lo then none
    else if none ∈ reply then some (s.goto (.info { v with repolls := v.repolls + 1 }))
    else some (s.goto (.blocks v (reply.filterMap id)))
  | .blocks _ _, .blocks none => some s.done
  | .blocks v hashes, .blocks (some reply) =>
    if reply.length ≠ hashes.length then none
    else some (s.goto (nextBlock s.tables v reply))
  | _, _ => none

def step (genesis : String) (s : State) : Event → Option State
  | .syncOnce batch max_blocks => do
    guard (s.proc = none)
    return s.goto (.info { batch := batch, max_blocks := max_blocks })
  | .handleReorg node_height => do
    guard (s.proc = none)
    return s.goto (startReorg s.tables node_height .reorg)
  | .unwindTo fork => do
    guard (s.proc = none)
    return { s with proc := nextUnwind s.tables fork 0 .unwind }
  | .commit => do commit genesis s (← s.proc)
  | .fail => some s.done
  | .tick => some { s with now := s.now + 1 }
  | .crash => some s.done
  | e => do answer s (← s.proc) e

/-! ### Queries -/

def DEFAULT_MAX_POLL_AGE : Nat := 300

/-- The reasons of `health` that do not look at the height of the index. -/
def untrusted (s : State) : Bool :=
  s.sync.last_poll_ts.all (fun ts : Nat => DEFAULT_MAX_POLL_AGE < (s.now : Int) - ts) ||
  s.sync.status ∈ [.error, .reorg, .reindex, .init] ||
  s.sync.node_ibd ||
  s.sync.node_connections = some 0

/-- `stale` of `health`. -/
def stale (s : State) : Bool :=
  match s.sync.node_height with
  | none => true
  | some node => (node : Int) - s.tables.tip.1 ≠ 0 || untrusted s

end pcoin.explorer
