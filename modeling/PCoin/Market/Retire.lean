import PCoin.Floating.Basic
import PCoin.Market.Inventory

open floating

namespace pcoin.market.retire

/-- The numbers of the language, but for the bounds of their exponent, which no amount comes
near. -/
abbrev Double := Number 53

instance double_bits : NeZero 53 := ⟨by decide⟩

/-- An output of a transaction, with its value in units of `1e-8` PCN. -/
structure Output where
  address : Option String
  value : Int
deriving DecidableEq

structure Tx where
  txid : String
  vout : List Output

/-- An output with its place on the chain. -/
structure Spend where
  txid : String
  vout : Nat
  address : Option String
  value : Int
deriving DecidableEq

/-- A row of `retirements`; `day` is the UTC day of `at`. -/
structure Row where
  txid : String
  vout : Nat
  height : Int
  system : String
  address : String
  pcn_spent : Int
  pcn_retired : Int
  day : Nat
deriving DecidableEq

/-- `UNIQUE (txid, vout)`. -/
def Row.key (r : Row) : String × Nat := (r.txid, r.vout)

def Spend.key (o : Spend) : String × Nat := (o.txid, o.vout)

/-- The settings as they are entered, the table `spend_addresses`, and the blocks of the chain at
the heights that are final. -/
structure Env where
  on : Bool := true
  retireRatioPct : ℚ
  minConf : Int
  retireDailyCapPcn : ℚ
  systems : List String
  spend_addresses : String → Option String
  block : Int → List Tx

/-- The outputs of a block in the order they are read in. -/
def Env.outputs (env : Env) (h : Int) : List Spend :=
  (env.block h).flatMap fun tx =>
    tx.vout.zipIdx.map fun (o, i) => ⟨tx.txid, i, o.address, o.value⟩

/-- The address of an output that is looked up. -/
def Spend.payee (o : Spend) : Option String := o.address.filter fun a => a ≠ "" ∧ 0 < o.value

/-- The configured system of an address. -/
def Env.systemOf (env : Env) (address : String) : Option String :=
  (env.spend_addresses address).filter (· ∈ env.systems)

/-- The output is one that retires inventory. -/
def Env.Qualifies (env : Env) (o : Spend) : Prop := ((o.payee).bind env.systemOf).isSome

def Env.ratio (env : Env) : Double := Number.of 53 env.retireRatioPct / Number.of 53 100

def Env.dailyCap (env : Env) : Double := Number.of 53 env.retireDailyCapPcn

/-- `Number` of an amount of so many units. Amounts are below `2 ^ 52` of them, so that `toFixed(8)`
has the units back. -/
def fromUnits (u : Int) : Double := Number.of 53 (u / 10 ^ 8)

/-- `Math.round` of the product. -/
def toUnits (pcn : Double) : Int := ⌊(pcn * Number.of 53 (10 ^ 8)).val + 1 / 2⌋

/-- What is to be retired for an output of so many units. -/
def Env.share (env : Env) (value : Int) : Double := fromUnits value * env.ratio

def Env.want (env : Env) (o : Spend) : Double := env.share o.value

/-- The variables of a pass over the blocks. -/
structure Pass where
  safeTip : Int
  capLeft : Double
  retired : Double := 0
deriving DecidableEq

/-- The `await` at which a scan is suspended. -/
inductive Pc
  | tip
  | cursor (safeTip : Int)
  | first (safeTip : Int)
  | today (safeTip start : Int)
  | block (pass : Pass) (h : Int)
  | select (pass : Pass) (h : Int) (o : Spend) (address : String) (rest : List Spend)
  | transact (pass : Pass) (h : Int) (o : Spend) (address system : String) (rest : List Spend)
  | setCursor (pass : Pass) (h : Int)
deriving DecidableEq

/-- The database, the UTC day and the scan under way. `origin` is the height the cursor was
first set to, which nothing reads. -/
structure State where
  shop : ladder.State
  rows : List Row := []
  cursor : Option Int := none
  day : Nat := 0
  scan : Option Pc := none
  origin : Option Int := cursor
deriving DecidableEq

def State.retiredToday (s : State) : Double :=
  fromUnits ((s.rows.filter fun r => s.day ≤ r.day).map Row.pcn_retired).sum

/-- The next output with an address to look up, or the end of the block. -/
def advance (pass : Pass) (h : Int) : List Spend → Pc
  | [] => .setCursor pass h
  | o :: rest =>
    match o.payee with
    | none => advance pass h rest
    | some address => .select pass h o address rest

/-- The next block, if there is one. -/
def Pass.next (pass : Pass) (h : Int) : Option Pc :=
  if h ≤ pass.safeTip then some (.block pass h) else none

def setCursor (s : State) (h : Int) : State :=
  { s with cursor := some h, origin := s.origin.orElse fun _ => some h }

/-- The transaction that claims an output and retires inventory for it, with how much that
was; `none` when the output is already counted. -/
def transact (env : Env) (s : State) (h : Int) (o : Spend) (address system : String) :
    Option (State × Int) :=
  if o.key ∈ s.rows.map Row.key then none
  else
    let (rungs, got) := ladder.retireFromLadder s.shop.rungs (toUnits (env.want o))
    let row := { txid := o.txid, vout := o.vout, height := h, system := system, address := address,
                 pcn_spent := o.value, pcn_retired := got, day := s.day }
    some ({ s with shop := { s.shop with rungs := rungs }, rows := s.rows ++ [row] }, got)

/-- What happens to a scan: its tick, the answer of the node to `getblockcount`, the answer
to a read (`false` when it fails), and the end of a write, with whether it was carried out
and whether the process was told so; besides, what the rest of the market does to the
ladder, the next day, and the death of the process. -/
inductive Event
  | scan
  | tip (reply : Option Int)
  | read (ok : Bool)
  | write (done told : Bool)
  | ladder (e : ladder.Event)
  | tick
  | crash

/-- A read that was answered. -/
def answered (env : Env) (s : State) : Pc → Option (Option Pc)
  | .cursor safeTip =>
    match s.cursor with
    | none => some (some (.first safeTip))
    | some start => some (if safeTip ≤ start then none else some (.today safeTip start))
  | .today safeTip start =>
    let pass : Pass := { safeTip := safeTip, capLeft := max 0 (env.dailyCap - s.retiredToday) }
    some (pass.next (start + 1))
  | .block pass h => some (if 0 ≤ h then some (advance pass h (env.outputs h)) else none)
  | .select pass h o address rest =>
    match env.systemOf address with
    | none => some (some (advance pass h rest))
    | some system =>
      if env.want o > pass.capLeft - pass.retired then some none
      else some (some (.transact pass h o address system rest))
  | _ => none

/-- A write that was carried out, with where the scan goes on when it is told so. -/
def written (env : Env) (s : State) : Pc → Option (State × Option Pc)
  | .first safeTip => some (setCursor s safeTip, none)
  | .transact pass h o address system rest =>
    match transact env s h o address system with
    | none => some (s, some (advance pass h rest))
    | some (t, got) =>
      some (t, some (advance { pass with retired := pass.retired + fromUnits got } h rest))
  | .setCursor pass h => some (setCursor s h, pass.next (h + 1))
  | _ => none

/-- The `await`s that are writes. -/
def Pc.writes : Pc → Bool
  | .first _ | .transact .. | .setCursor .. => true
  | _ => false

/-- The events of the ladder that the scan does not make itself. -/
def others : ladder.Event → Bool
  | .retire _ => false
  | _ => true

def step (env : Env) (s : State) : Event → Option State
  | .scan => some (
    if s.scan = none ∧ env.on ∧ 0 < env.ratio ∧ env.systems ≠ [] then { s with scan := some .tip }
    else s)
  | .tip reply => do
    guard (s.scan = some .tip)
    return { s with scan := reply.map fun tip => .cursor (tip - env.minConf) }
  | .read false => do
    let pc ← s.scan
    guard (pc ≠ .tip ∧ !pc.writes)
    return { s with scan := none }
  | .read true => do
    let pc ← s.scan
    let next ← answered env s pc
    return { s with scan := next }
  | .write false told => do
    let pc ← s.scan
    guard (pc.writes ∧ !told)
    return { s with scan := none }
  | .write true told => do
    let pc ← s.scan
    let (t, next) ← written env s pc
    return { t with scan := if told then next else none }
  | .ladder e => do
    guard (others e)
    let shop ← ladder.step s.shop e
    return { s with shop := shop }
  | .tick => some { s with day := s.day + 1 }
  | .crash => some { s with scan := none, shop := { s.shop with sweeps := [] } }

end pcoin.market.retire
