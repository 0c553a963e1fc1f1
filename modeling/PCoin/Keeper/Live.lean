import PCoin.Keeper.Peg
import PCoin.Run.Basic
import PCoin.Run.Resume
import Mathlib.Algebra.Order.Floor.Ring
import Mathlib.Data.Rat.Floor

/-! Live runs of the keeper, one after another, on the chain that executes their swaps. -/

namespace pcoin.peg

open run (Prog Routine)

/-- Where a run meets its file and the chain. -/
inductive Act
  | load
  | save (st : Ledger)
  | allowance (buying : Bool)
  | approve (buying : Bool) (amt_in : ℤ)
  | swap (buying : Bool) (amt_in : ℤ)

/-- The reply to a transaction is whether its receipt, of a success, was had. -/
def Act.Reply : Act → Type
  | load => Ledger
  | save _ => Unit
  | allowance _ => ℤ
  | approve _ _ => Bool
  | swap _ _ => Bool

abbrev Live := Routine Act Act.Reply Unit Unit

/-- The parts of one USDT, and of one wPCN. -/
def units (buying : Bool) : ℚ := if buying then 10 ^ 18 else 10 ^ 8

def amt_in (buying : Bool) (budget : ℚ) : ℤ := ⌊budget * units buying⌋

/-- `send`: a transaction whose receipt is not that of a success ends the run. -/
def receipt (ok : Bool) : Live := if ok then .done () else .fail ()

def approves (buying : Bool) (amt_in : ℤ) : Live :=
  .act (.allowance buying) fun (allowance : ℤ) =>
    if allowance < amt_in then .act (.approve buying amt_in) receipt else .done ()

def execute (o : Trade) : Live := do
  approves o.buying (amt_in o.buying o.amount)
  Routine.act (.swap o.buying (amt_in o.buying o.amount)) receipt

/-- A program over the ledger, with its trades as they are executed. -/
def live : Prog Ledger Trade → Live
  | .done => .done ()
  | .load next => .act .load fun st => live (next st)
  | .save st next => .act (.save st) fun _ => live next
  | .emit o next => execute o >>= fun _ => live next

/-- A run. Whether the swap has its receipt is for the chain to say. -/
def trades (w : World) : Live := live (main { w with swaps := true })

/-! ### Runs, and what the chain makes of their swaps -/

/-- A swap that was sent by a run, and the UTC day of the block it is executed in. -/
structure Swap where
  run : Nat
  world : World
  day : Nat
  buying : Bool
  amt_in : ℤ

/-- The file, and the swaps that were executed. -/
structure Site where
  file : Option Ledger := none
  chain : List Swap := []

/-- The chain's time does not go back. -/
def Site.reaches (s : Site) (day : Nat) : Prop := ∀ y ∈ s.chain.getLast?, y.day ≤ day

instance (s : Site) (day : Nat) : Decidable (s.reaches day) :=
  inferInstanceAs (Decidable (∀ y ∈ s.chain.getLast?, y.day ≤ day))

structure Running where
  world : World
  program : Live

structure Keeper where
  site : Site := {}
  /-- Swaps that were sent and are not executed. -/
  flying : List Swap := []
  runs : Nat := 0
  running : Option Running := none

/-- What becomes of a swap while the run waits for its receipt. -/
inductive Fate
  | answered (day : Nat)
  | unanswered (day : Nat)
  | flying
  | failed
deriving DecidableEq

inductive Event
  | start (w : World)
  | load
  | save
  | allowance (n : ℤ)
  | approve (ok : Bool)
  | swap (fate : Fate)
  /-- The run has ended, or crashes. -/
  | leave
  /-- A swap that no run waits for is executed. -/
  | land (k day : Nat)

def Keeper.on (s : Keeper) (w : World) (program : Live) : Keeper :=
  { s with running := some ⟨w, program⟩ }

def Keeper.lands (s : Keeper) (x : Swap) : Option Keeper :=
  if s.site.reaches x.day then some { s with site := { s.site with chain := s.site.chain ++ [x] } }
  else none

def Keeper.swapped (s : Keeper) (w : World) (x : Swap) (k : Bool → Live) : Fate → Option Keeper
  | .answered day => (s.on w (k true)).lands { x with day := day }
  | .unanswered day => (s.on w (k false)).lands { x with day := day }
  | .flying => some { s.on w (k false) with flying := s.flying ++ [x] }
  | .failed => some (s.on w (k false))

def Keeper.step (s : Keeper) : Event → Option Keeper
  | .start w =>
    if s.running.isNone then some ({ s with runs := s.runs + 1 }.on w (trades w)) else none
  | .load => match s.running with
    | some ⟨w, .act .load k⟩ => some (s.on w (k (s.site.file.getD {})))
    | _ => none
  | .save => match s.running with
    | some ⟨w, .act (.save st) k⟩ =>
      some ({ s with site := { s.site with file := some st } }.on w (k ()))
    | _ => none
  | .allowance n => match s.running with
    | some ⟨w, .act (.allowance _) k⟩ => some (s.on w (k n))
    | _ => none
  | .approve ok => match s.running with
    | some ⟨w, .act (.approve _ _) k⟩ => some (s.on w (k ok))
    | _ => none
  | .swap fate => match s.running with
    | some ⟨w, .act (.swap buying amt_in) k⟩ => s.swapped w ⟨s.runs, w, 0, buying, amt_in⟩ k fate
    | _ => none
  | .leave => if s.running.isSome then some { s with running := none } else none
  | .land k day => (s.flying[k]?).bind fun x =>
    { s with flying := s.flying.eraseIdx k }.lands { x with day := day }

/-! ### The limits -/

def Tuning.daily_cap (t : Tuning) (buying : Bool) : ℚ :=
  if buying then t.daily_usdt_cap else t.daily_wpcn_cap

def Tuning.max_per_run (t : Tuning) (buying : Bool) : ℚ :=
  if buying then t.max_usdt_per_run else t.max_wpcn_per_run

def Tuning.floor (t : Tuning) (buying : Bool) : ℚ := if buying then t.min_usdt else t.min_wpcn

/-- What was spent, in USDT or in wPCN. -/
def Swap.amount (x : Swap) : ℚ := x.amt_in / units x.buying

/-- What the swaps of one day have spent. -/
def spentOn (chain : List Swap) (buying : Bool) (day : Nat) : ℚ :=
  ((chain.filter fun x => x.buying = buying ∧ x.day = day).map Swap.amount).sum

/-- The limits of the run that sent a swap, after those of `past`. -/
def Swap.Within (past : List Swap) (x : Swap) : Prop :=
  ∃ t ∈ x.world.tuning, ∃ have_ ∈ x.world.float,
    spentOn past x.buying x.day + x.amount ≤ t.daily_cap x.buying ∧
      x.amount ≤ t.max_per_run x.buying ∧
      t.floor x.buying ≤ (if x.buying then have_.1 else have_.2) - x.amount

instance (past : List Swap) (x : Swap) : Decidable (x.Within past) :=
  inferInstanceAs (Decidable (∃ t ∈ x.world.tuning, ∃ have_ ∈ x.world.float,
    spentOn past x.buying x.day + x.amount ≤ t.daily_cap x.buying ∧
      x.amount ≤ t.max_per_run x.buying ∧
      t.floor x.buying ≤ (if x.buying then have_.1 else have_.2) - x.amount))

/-- Every swap was within the limits when it was executed, and no run has two. -/
structure Site.Within (s : Site) : Prop where
  within : ∀ past x rest, s.chain = past ++ x :: rest → x.Within past
  runs : (s.chain.map Swap.run).Nodup

/-- The run has swapped, and is about to save it. -/
def Keeper.Owes (s : Keeper) : Prop :=
  match s.running with
  | some ⟨_, .act (.save _) _⟩ => ∃ x ∈ s.site.chain.getLast?, x.run = s.runs
  | _ => False

/-- A swap that is executed is answered, on the day that its run has named, and the run then saves
it. -/
def Kept (s : Keeper) : Event → Prop
  | .swap (.answered day) => ∀ r ∈ s.running, day = r.world.today
  | .swap (.unanswered _) => False
  | .land _ _ => False
  | .leave => ¬s.Owes
  | _ => True

instance (s : Keeper) : Decidable s.Owes := by
  unfold Keeper.Owes
  split <;> infer_instance

instance (s : Keeper) (e : Event) : Decidable (Kept s e) := by
  unfold Kept
  split <;> infer_instance

end pcoin.peg
