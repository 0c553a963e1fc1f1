import PCoin.Run.Basic
import PCoin.Store.Payout
import Mathlib.Algebra.BigOperators.Fin
import Mathlib.Data.ZMod.Defs

/-! The wPCN contract: its calls, and what they keep. -/

open pcoin.store

namespace pcoin.wpcn

abbrev Address := Fin (2 ^ 160)

abbrev Uint256 := Fin (2 ^ 256)

/-- Why a call reverts: a `require`, or the checks of the arithmetic. -/
inductive Failure
  | revert (reason : String)
  | panic
deriving DecidableEq

def require (b : Bool) (reason : String) : Except Failure Unit :=
  if b then .ok () else .error (.revert reason)

def add (a b : Uint256) : Except Failure Uint256 :=
  if h : a.val + b.val < 2 ^ 256 then .ok ⟨a.val + b.val, h⟩ else .error .panic

def sub (a b : Uint256) : Except Failure Uint256 :=
  if b ≤ a then .ok ⟨a.val - b.val, by omega⟩ else .error .panic

inductive Log
  | transfer (sender receiver : Address) (value : Uint256)
  | approval (owner spender : Address) (value : Uint256)
  | deployed (supply : Uint256) (reserveAddress : Bytes)
  | redeem (sender : Address) (value : Uint256) (pcoinAddress : Bytes)

/-- `WrappedPCoin`. -/
structure Token where
  totalSupply : Uint256
  issuedSupply : Uint256
  reserveAddress : Bytes
  balanceOf : Address → Uint256
  allowance : Address → Address → Uint256

theorem uint256_neZero : NeZero (2 ^ 256) := ⟨by decide⟩

attribute [local instance] uint256_neZero

def cap : Uint256 := 21000000 * 10 ^ 8

def constructor (sender : Address) (supply_ : Uint256) (reserveAddress_ : Bytes) :
    Except Failure (Token × List Log) := do
  require (0 < supply_) "supply must be non-zero"
  require (supply_ ≤ cap) "supply exceeds PCoin's 21M cap"
  require (0 < reserveAddress_.length) "reserve address required"
  return (
    { totalSupply := supply_
      issuedSupply := supply_
      reserveAddress := reserveAddress_
      balanceOf := Function.update (fun _ => 0) sender supply_
      allowance := fun _ _ => 0 },
    [.transfer 0 sender supply_, .deployed supply_ reserveAddress_])

namespace Token

variable (t : Token)

/-- `_transfer`. -/
def moves (src dst : Address) (value : Uint256) : Except Failure (Token × List Log) := do
  require (dst ≠ 0) "transfer to the zero address"
  let balance := t.balanceOf src
  require (balance ≥ value) "insufficient balance"
  let debited := Function.update t.balanceOf src (← sub balance value)
  let credited := Function.update debited dst (← add (debited dst) value)
  return ({ t with balanceOf := credited }, [.transfer src dst value])

def transfer (sender dst : Address) (value : Uint256) : Except Failure (Token × List Log) :=
  t.moves sender dst value

def approve (sender spender : Address) (value : Uint256) : Except Failure (Token × List Log) :=
  return ({ t with
    allowance := Function.update t.allowance sender (Function.update (t.allowance sender) spender value) },
    [.approval sender spender value])

def transferFrom (sender src dst : Address) (value : Uint256) : Except Failure (Token × List Log) := do
  let allowed := t.allowance src sender
  if allowed ≠ Fin.last (2 ^ 256 - 1) then
    require (allowed ≥ value) "insufficient allowance"
    let rest ← sub allowed value
    let t := { t with
      allowance := Function.update t.allowance src (Function.update (t.allowance src) sender rest) }
    t.moves src dst value
  else t.moves src dst value

def redeem (sender : Address) (value : Uint256) (pcoinAddress : Bytes) :
    Except Failure (Token × List Log) := do
  require (0 < pcoinAddress.length) "pcoin address required"
  require (pcoinAddress.length ≤ 90) "pcoin address too long"
  let balance := t.balanceOf sender
  require (balance ≥ value) "insufficient balance"
  require (0 < value) "nothing to redeem"
  let balanceOf := Function.update t.balanceOf sender (← sub balance value)
  let totalSupply ← sub t.totalSupply value
  return ({ t with balanceOf, totalSupply },
    [.transfer sender 0 value, .redeem sender value pcoinAddress])

end Token

inductive Call
  | transfer (dst : Address) (value : Uint256)
  | approve (spender : Address) (value : Uint256)
  | transferFrom (src dst : Address) (value : Uint256)
  | redeem (value : Uint256) (pcoinAddress : Bytes)

def Token.call (t : Token) (sender : Address) : Call → Except Failure (Token × List Log)
  | .transfer dst value => t.transfer sender dst value
  | .approve spender value => t.approve sender spender value
  | .transferFrom src dst value => t.transferFrom sender src dst value
  | .redeem value pcoinAddress => t.redeem sender value pcoinAddress

/-- The contract with all that it has emitted. -/
structure Deployed where
  token : Token
  logs : List Log

namespace Deployed

variable (d : Deployed)

/-- What a call emits. -/
def emits (sender : Address) (c : Call) : List Log :=
  match d.token.call sender c with
  | .ok (_, logs) => logs
  | .error _ => []

/-- A call that reverts leaves nothing behind. -/
def after (sender : Address) (c : Call) : Deployed :=
  match d.token.call sender c with
  | .ok (token, _) => ⟨token, d.logs ++ d.emits sender c⟩
  | .error _ => d

/-- A sequence of calls. -/
def run (calls : List (Address × Call)) : Deployed := calls.foldl (fun d c => d.after c.1 c.2) d

end Deployed

/-- What a log says was redeemed. -/
def Log.redeemed : Log → Nat
  | .redeem _ value _ => value
  | _ => 0

def redeemed (logs : List Log) : Nat := (logs.map Log.redeemed).sum

theorem redeemed_append (logs new : List Log) : redeemed (logs ++ new) = redeemed logs + redeemed new := by
  simp [redeemed]

/-! ### The sum of the balances -/

/-- What all balances are together. -/
def total (balanceOf : Address → Uint256) : Nat := ∑ a, (balanceOf a).val

/-- A write changes the sum by the new balance less the one it replaces. -/
theorem total_update (balanceOf : Address → Uint256) (a : Address) (value : Uint256) :
    total (Function.update balanceOf a value) + (balanceOf a).val = total balanceOf + value.val := by
  have hcongr : ∑ b ∈ Finset.univ.erase a, (Function.update balanceOf a value b).val =
      ∑ b ∈ Finset.univ.erase a, (balanceOf b).val := by
    refine Finset.sum_congr rfl fun b hb => ?_
    rw [Function.update_of_ne (Finset.ne_of_mem_erase hb)]
  have hold := Finset.sum_erase_add Finset.univ (fun b => (balanceOf b).val) (Finset.mem_univ a)
  have hnew := Finset.sum_erase_add Finset.univ (fun b => (Function.update balanceOf a value b).val)
    (Finset.mem_univ a)
  rw [hcongr, Function.update_self] at hnew
  simp only [total]
  omega

theorem le_total (balanceOf : Address → Uint256) (a : Address) :
    (balanceOf a).val ≤ total balanceOf :=
  Finset.single_le_sum (f := fun b => (balanceOf b).val) (fun _ _ => Nat.zero_le _) (Finset.mem_univ a)

/-! ### What a call does -/

/-- A call reverts by one of its own conditions, or burns what it says was redeemed and moves the
rest. -/
def Sound (t : Token) : Except Failure (Token × List Log) → Prop
  | .ok (t', logs) => t'.issuedSupply = t.issuedSupply ∧
      t'.totalSupply.val + redeemed logs = t.totalSupply.val ∧
      total t'.balanceOf + redeemed logs = total t.balanceOf
  | .error f => f ≠ .panic

variable {t : Token}

theorem sound_require {b : Bool} {reason : String} {f : Unit → Except Failure (Token × List Log)}
    (h : b = true → Sound t (f ())) : Sound t (require b reason >>= f) := by
  cases b with
  | true => exact h rfl
  | false => exact fun hpanic => by cases hpanic

theorem ok_of_require {α : Type} {b : Bool} {reason : String} {f : Unit → Except Failure α} {a : α}
    (h : (require b reason >>= f) = .ok a) : b = true ∧ f () = .ok a := by
  cases b with
  | true => exact ⟨rfl, h⟩
  | false => cases h

theorem sub_eq {a b : Uint256} (h : b ≤ a) : ∃ r, sub a b = .ok r ∧ r.val + b.val = a.val := by
  refine ⟨_, dif_pos h, ?_⟩
  have : b.val ≤ a.val := h
  dsimp only
  omega

theorem add_eq {a b : Uint256} (h : a.val + b.val < 2 ^ 256) :
    ∃ r, add a b = .ok r ∧ r.val = a.val + b.val :=
  ⟨_, dif_pos h, rfl⟩

theorem moves_sound (hsum : total t.balanceOf = t.totalSupply.val) (src dst : Address)
    (value : Uint256) : Sound t (t.moves src dst value) := by
  refine sound_require fun _ => sound_require fun hbalance => ?_
  obtain ⟨debit, hdebit, hdebited⟩ := sub_eq (of_decide_eq_true hbalance)
  have htotal := total_update t.balanceOf src debit
  have hle := le_total (Function.update t.balanceOf src debit) dst
  have hlt := t.totalSupply.isLt
  obtain ⟨credit, hcredit, hcredited⟩ := @add_eq (Function.update t.balanceOf src debit dst) value
    (by omega)
  have htotal' := total_update (Function.update t.balanceOf src debit) dst credit
  rw [hdebit]
  simp only [bind, Except.bind, hcredit]
  refine ⟨rfl, rfl, ?_⟩
  simp only [redeemed, List.map_cons, List.map_nil, List.sum_cons, List.sum_nil, Log.redeemed]
  omega

theorem call_sound (hsum : total t.balanceOf = t.totalSupply.val) (sender : Address) (c : Call) :
    Sound t (t.call sender c) := by
  cases c with
  | transfer dst value => exact moves_sound hsum sender dst value
  | approve spender value =>
    have hnone : redeemed [.approval sender spender value] = 0 := by simp [redeemed, Log.redeemed]
    exact ⟨rfl, by rw [hnone, Nat.add_zero], by rw [hnone, Nat.add_zero]⟩
  | transferFrom src dst value =>
    rw [Token.call, Token.transferFrom]
    dsimp only
    split
    case isTrue =>
      refine sound_require fun hallowed => ?_
      obtain ⟨rest, hrest, -⟩ := sub_eq (of_decide_eq_true hallowed)
      rw [hrest]
      -- the allowance is no part of the sums
      exact @moves_sound { t with
        allowance := Function.update t.allowance src (Function.update (t.allowance src) sender rest) }
        hsum src dst value
    case isFalse => exact moves_sound hsum src dst value
  | redeem value pcoinAddress =>
    refine sound_require fun _ => sound_require fun _ => sound_require fun hbalance =>
      sound_require fun _ => ?_
    obtain ⟨debit, hdebit, hdebited⟩ := sub_eq (of_decide_eq_true hbalance)
    have htotal := total_update t.balanceOf sender debit
    have hle := le_total t.balanceOf sender
    have hsupply : value ≤ t.totalSupply := by
      have : value.val ≤ (t.balanceOf sender).val := of_decide_eq_true hbalance
      exact Fin.le_def.mpr (by omega)
    obtain ⟨rest, hrest, hrested⟩ := sub_eq hsupply
    rw [hdebit]
    simp only [bind, Except.bind, hrest]
    refine ⟨rfl, ?_, ?_⟩ <;>
      simp only [redeemed, List.map_cons, List.map_nil, List.sum_cons, List.sum_nil, Log.redeemed] <;>
      omega

/-- The supply is what the balances are together, and what was issued less what was redeemed. -/
structure Conserved (d : Deployed) : Prop where
  sum : total d.token.balanceOf = d.token.totalSupply.val
  burned : d.token.totalSupply.val + redeemed d.logs = d.token.issuedSupply.val
  capped : d.token.issuedSupply ≤ cap

theorem conserved_after {d : Deployed} (h : Conserved d) (sender : Address) (c : Call) :
    Conserved (d.after sender c) := by
  have hsound := call_sound h.sum sender c
  rw [Deployed.after, Deployed.emits]
  cases hcall : d.token.call sender c with
  | error f => exact h
  | ok r =>
    obtain ⟨token, logs⟩ := r
    rw [hcall] at hsound
    obtain ⟨hissued, hsupply, htotal⟩ := hsound
    obtain ⟨hsum, hburned, hcapped⟩ := h
    refine ⟨?_, ?_, hissued ▸ hcapped⟩
    · dsimp only
      omega
    · dsimp only
      rw [redeemed_append, hissued]
      omega

theorem conserved_constructor {sender : Address} {supply_ : Uint256} {reserveAddress_ : Bytes}
    {token : Token} {logs : List Log}
    (h : constructor sender supply_ reserveAddress_ = .ok (token, logs)) :
    Conserved ⟨token, logs⟩ := by
  obtain ⟨-, h⟩ := ok_of_require h
  obtain ⟨hcapped, h⟩ := ok_of_require h
  obtain ⟨-, h⟩ := ok_of_require h
  cases h
  have htotal := total_update (fun _ => 0) sender supply_
  have hzero : total (fun _ => 0) = 0 := by simp [total]
  refine ⟨?_, ?_, of_decide_eq_true hcapped⟩
  · dsimp only
    rw [hzero] at htotal
    simpa using htotal
  · simp [redeemed, Log.redeemed]

theorem conserved_calls {d : Deployed} (h : Conserved d) (calls : List (Address × Call)) :
    Conserved (d.run calls) := by
  induction calls generalizing d with
  | nil => exact h
  | cons c calls ih => exact ih (conserved_after h c.1 c.2)

theorem call_ne_panic {d : Deployed} (h : Conserved d) (sender : Address) (c : Call) :
    d.token.call sender c ≠ .error .panic := by
  intro hpanic
  have hsound := call_sound h.sum sender c
  rw [hpanic] at hsound
  exact hsound rfl

end pcoin.wpcn
