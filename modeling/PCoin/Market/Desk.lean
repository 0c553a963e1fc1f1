import PCoin.Market.Delivery
import PCoin.Table.Basic
import Mathlib.Tactic.Linarith

namespace pcoin.market

/-- An order with the calls made for it, and the fee that the wallet pays on top when it
sends for the order (`subtractfeefromamount` is false). -/
structure Slot where
  st : State
  fee : Nat
deriving DecidableEq

def Slot.id (o : Slot) : String := o.st.orderId

/-- What `sendtoaddress` takes out of the wallet for the order. -/
def Slot.cost (o : Slot) : Int := o.st.order.quoted_pcn + o.fee

/-- All orders of the market over one hot wallet: its trusted balance, and the balance
right after each send; the source keeps no such list. -/
structure Desk where
  floatStop : Int
  balance : Int
  slots : List Slot
  left : List Int := []
deriving DecidableEq

/-- The events of one order that neither read nor change the wallet's balance. The
reading of a balance does not throw here, the settings stay, and no callback rewrites
the amount of an order that is held. -/
def routine (s : State) : Event → Bool
  | .balance _ _ => false
  | .commit _ _ => false
  | .settings _ _ => false
  | .crash => false
  | .throws fid => (s.call fid).all fun c => c.pc ≠ .balance && c.pc ≠ .recheck
  | _ => true

namespace Desk

/-- What can happen at the desk: something about one order, `floatBalance` answers a
call, the wallet commits a send, coins come in or leave the wallet otherwise, and the
process dies. -/
inductive Event
  | order (id : String) (e : market.Event)
  | balance (id : String) (fid : Nat)
  | commit (id : String) (fid : Nat) (txid : String)
  | coins (amount : Int)
  | crash

/-- Replace the state of an order. -/
def put (d : Desk) (id : String) (st : State) : Desk :=
  { d with slots := table.update Slot.id id (fun o => { o with st := st }) d.slots }

def step (d : Desk) : Event → Option Desk
  | .order id e => do
    let o ← table.find Slot.id id d.slots
    guard (routine o.st e)
    let st ← market.step o.st e
    return d.put id st
  | .balance id fid => do
    let o ← table.find Slot.id id d.slots
    let st ← market.step o.st (.balance fid d.balance)
    return d.put id st
  | .commit id fid txid => do
    let o ← table.find Slot.id id d.slots
    guard (o.cost ≤ d.balance)
    let st ← market.step o.st (.commit fid txid)
    let balance := d.balance - o.cost
    return { d.put id st with balance := balance, left := d.left ++ [balance] }
  | .coins amount => some { d with balance := d.balance + amount }
  | .crash => some { d with slots := d.slots.map fun o =>
      { o with st := { o.st with calls := [], sendingNow := 0 } } }

end Desk

/-- What a step of one order leaves as it was. -/
structure Framed (s t : State) : Prop where
  orderId : t.orderId = s.orderId
  quoted : t.order.quoted_pcn = s.order.quoted_pcn
  stop : t.floatStop = s.floatStop

@[simp] theorem recordSent_quoted (o : Order) (txid : String) :
    (o.recordSent txid).quoted_pcn = o.quoted_pcn := by
  unfold Order.recordSent
  split <;> rfl

theorem statement_quoted {s : State} {pc pc' : Pc} {order : Order}
    (h : statement s pc = some (order, pc')) : order.quoted_pcn = s.order.quoted_pcn := by
  unfold statement at h
  repeat' split at h
  all_goals cases h
  all_goals simp

/-- Routine steps issue no send and complete none. -/
theorem step_routine {s t : State} {e : Event} (hroutine : routine s e = true)
    (hstep : step s e = some t) : Framed s t ∧ t.sends = s.sends := by
  cases e with
  | deliver force | reconcileSending | orderSend reviewed | orderDeliver txid
  | mark txid abandoned confirmations | tick =>
    obtain rfl := Option.some.inj hstep
    exact ⟨⟨rfl, rfl, rfl⟩, rfl⟩
  | query fid answered =>
    simp only [step, Option.bind_eq_bind, Option.bind_eq_some_iff] at hstep
    obtain ⟨c, hc, ⟨order, pc⟩, hstatement, hstep⟩ := hstep
    obtain rfl := Option.some.inj hstep
    exact ⟨⟨rfl, statement_quoted hstatement, rfl⟩, rfl⟩
  | lookup fid =>
    simp only [step, Option.bind_eq_bind, Option.bind_eq_some_iff] at hstep
    obtain ⟨c, hc, pc, hpc, hstep⟩ := hstep
    obtain rfl := Option.some.inj hstep
    exact ⟨⟨rfl, rfl, rfl⟩, rfl⟩
  | sent fid =>
    simp only [step, Option.bind_eq_bind, Option.bind_eq_some_iff] at hstep
    obtain ⟨c, hc, hstep⟩ := hstep
    split at hstep
    · obtain rfl := Option.some.inj hstep
      exact ⟨⟨rfl, rfl, rfl⟩, rfl⟩
    · cases hstep
  | throws fid =>
    simp only [step, Option.bind_eq_bind, Option.bind_eq_some_iff] at hstep
    obtain ⟨c, hc, hstep⟩ := hstep
    have hpc : c.pc ≠ .recheck := by
      have := hroutine
      simp only [routine, hc, Option.all_some, Bool.and_eq_true, decide_eq_true_eq] at this
      exact this.2
    split at hstep
    · rename_i hrecheck
      exact absurd hrecheck hpc
    · obtain rfl := Option.some.inj hstep
      exact ⟨⟨rfl, rfl, rfl⟩, rfl⟩
    · cases hstep
    · cases hstep
    · obtain rfl := Option.some.inj hstep
      exact ⟨⟨rfl, rfl, rfl⟩, rfl⟩
  | next fid =>
    simp only [step, Option.bind_eq_bind, Option.bind_eq_some_iff] at hstep
    obtain ⟨c, hc, hstep⟩ := hstep
    split at hstep
    · obtain rfl := Option.some.inj hstep
      split
      · exact ⟨⟨rfl, rfl, rfl⟩, rfl⟩
      · exact ⟨⟨rfl, rfl, rfl⟩, rfl⟩
    · obtain rfl := Option.some.inj hstep
      exact ⟨⟨rfl, rfl, rfl⟩, rfl⟩
    · cases hstep
  | other tx =>
    simp only [step, Option.bind_eq_bind, Option.bind_eq_some_iff] at hstep
    obtain ⟨_, _, hstep⟩ := hstep
    obtain rfl := Option.some.inj hstep
    exact ⟨⟨rfl, rfl, rfl⟩, rfl⟩
  | balance fid bal => cases hroutine
  | commit fid txid => cases hroutine
  | settings autoMaxUsd floatStop => cases hroutine
  | crash => cases hroutine

/-- A balance lets a call send only at the re-check, and only with room above the stop
level. -/
theorem step_balance {s t : State} {fid : Nat} {bal : Int}
    (hstep : step s (.balance fid bal) = some t) :
    Framed s t ∧ (t.sends = s.sends ∨ ∃ c, s.call fid = some c ∧ c.pc = .recheck ∧
      s.floatStop ≤ bal - s.order.quoted_pcn ∧ ∃ x, t.sends = s.sends ++ [x]) := by
  simp only [step, Option.bind_eq_bind, Option.bind_eq_some_iff] at hstep
  obtain ⟨c, hc, hstep⟩ := hstep
  split at hstep
  · obtain rfl := Option.some.inj hstep
    split
    · exact ⟨⟨rfl, rfl, rfl⟩, .inl rfl⟩
    · exact ⟨⟨rfl, rfl, rfl⟩, .inl rfl⟩
  · rename_i hpc
    obtain rfl := Option.some.inj hstep
    split
    · exact ⟨⟨rfl, rfl, rfl⟩, .inl rfl⟩
    · rename_i hroom
      exact ⟨⟨rfl, rfl, rfl⟩, .inr ⟨c, hc, hpc, not_lt.mp hroom, _, rfl⟩⟩
  · cases hstep

/-- A commit completes a send. -/
theorem step_commit {s t : State} {fid : Nat} {txid : String}
    (hstep : step s (.commit fid txid) = some t) :
    Framed s t ∧ s.sends ≠ [] ∧ t.sends.length < s.sends.length := by
  simp only [step, Option.bind_eq_bind, Option.bind_eq_some_iff] at hstep
  obtain ⟨x, hfind, hstep⟩ := hstep
  obtain rfl := Option.some.inj hstep
  have hx := List.mem_of_find?_eq_some hfind
  have hfid : x.fid = fid := by simpa using List.find?_some hfind
  refine ⟨⟨rfl, rfl, rfl⟩, List.ne_nil_of_mem hx, ?_⟩
  exact List.length_filter_lt_length_iff_exists.mpr ⟨x, hx, by simp [hfid]⟩

end pcoin.market
