import Mathlib.Data.List.Basic
import Mathlib.Data.List.Nodup
import Mathlib.Data.List.Range

/-! The chain, as the account of the keeper sees it. -/

namespace pcoin.keeper

def lower (s : String) : List Char := s.toList.map Char.toLower

/-- What a transaction does: it transfers a token, or it is one that another program sends. -/
inductive Body
  | transfer (token dest : String) (units : Nat)
  | other (id : Nat)
deriving DecidableEq

/-- A signed transaction. Its hash and its raw bytes stand for all of it. -/
structure Tx where
  nonce : Nat
  body : Body
  gas : Nat
  gasPrice : Nat
deriving DecidableEq

/-- A log of a receipt, with its topics in hex. -/
structure Log where
  address : String
  topics : List String
  data : Nat
deriving DecidableEq

structure Receipt where
  tx : Tx
  status : Nat
  logs : List Log
deriving DecidableEq

/-- The transactions of the account that the node has and those that are mined, one for each
nonce. -/
structure Chain where
  pool : List Tx := []
  mined : List Receipt := []
  slots : mined.map (fun r => r.tx.nonce) = List.range mined.length := by rfl
deriving DecidableEq

namespace Chain

variable (c : Chain)

/-- `get_transaction_count(.., "latest")`. -/
def latest : Nat := c.mined.length

/-- The first nonce from `n` on that the pool does not have. -/
def nextFree (c : Chain) : Nat → Nat → Nat
  | 0, n => n
  | fuel + 1, n => if n ∈ c.pool.map Tx.nonce then nextFree c fuel (n + 1) else n

/-- `get_transaction_count(.., "pending")`. -/
def pending : Nat := c.nextFree c.pool.length c.latest

/-- `receipt_of`. -/
def receipt_of (tx : Tx) : Option Receipt := c.mined.find? (·.tx = tx)

/-- `known_to_node`. -/
def known_to_node (tx : Tx) : Bool := tx ∈ c.pool || (c.receipt_of tx).isSome

def accept (tx : Tx) : Chain := { c with pool := c.pool ++ [tx] }

def drop (tx : Tx) : Chain := { c with pool := c.pool.filter (· ≠ tx) }

/-- The next transaction of the account is mined. -/
def mine (r : Receipt) (h : r.tx.nonce = c.mined.length) : Chain where
  pool := c.pool.filter (· ≠ r.tx)
  mined := c.mined ++ [r]
  slots := by
    rw [List.map_append, List.length_append, c.slots, List.map_singleton, h, List.length_singleton,
      List.range_succ]

variable {c} {tx : Tx} {r r' : Receipt}

theorem nonce_lt (hr : r ∈ c.mined) : r.tx.nonce < c.latest := by
  have hmem : r.tx.nonce ∈ c.mined.map (fun r => r.tx.nonce) := List.mem_map_of_mem hr
  rwa [c.slots, List.mem_range] at hmem

/-- A nonce is mined once. -/
theorem nonce_unique (hr : r ∈ c.mined) (hr' : r' ∈ c.mined) (h : r.tx.nonce = r'.tx.nonce) :
    r = r' := by
  have hnodup : (c.mined.map (fun r => r.tx.nonce)).Nodup := c.slots ▸ List.nodup_range
  exact List.inj_on_of_nodup_map hnodup hr hr' h

/-- Receipts of one transaction are at most one. -/
theorem length_filter_le {p : Receipt → Bool}
    (hp : ∀ r ∈ c.mined, ∀ r' ∈ c.mined, p r = true → p r' = true → r.tx = r'.tx) :
    (c.mined.filter p).length ≤ 1 := by
  have hnodup : (c.mined.filter p).Nodup :=
    (List.Nodup.of_map (fun r => r.tx.nonce) (c.slots ▸ List.nodup_range)).filter _
  match hrows : c.mined.filter p with
  | [] => exact Nat.zero_le 1
  | [_] => exact Nat.le_refl 1
  | a :: b :: rows =>
    have hmem : ∀ r ∈ a :: b :: rows, r ∈ c.mined ∧ p r = true := fun r hr =>
      List.mem_filter.mp (hrows ▸ hr)
    obtain ⟨ha, hpa⟩ := hmem a List.mem_cons_self
    obtain ⟨hb, hpb⟩ := hmem b (List.mem_cons_of_mem _ List.mem_cons_self)
    have heq : a = b := nonce_unique ha hb (congrArg Tx.nonce (hp a ha b hb hpa hpb))
    rw [hrows, heq] at hnodup
    exact absurd List.mem_cons_self (List.nodup_cons.mp hnodup).1

theorem receipt_of_spec (h : c.receipt_of tx = some r) : r ∈ c.mined ∧ r.tx = tx :=
  ⟨List.mem_of_find?_eq_some h, by simpa using List.find?_some h⟩

theorem receipt_of_eq (hr : r ∈ c.mined) : c.receipt_of r.tx = some r := by
  cases hfind : c.receipt_of r.tx with
  | none =>
    rw [receipt_of, List.find?_eq_none] at hfind
    exact absurd (decide_eq_true rfl) (hfind r hr)
  | some x =>
    obtain ⟨hx, htx⟩ := receipt_of_spec hfind
    rw [nonce_unique hx hr (congrArg Tx.nonce htx)]

theorem receipt_of_none (h : c.receipt_of tx = none) : ∀ r ∈ c.mined, r.tx ≠ tx := by
  simpa [receipt_of] using h

/-- What the node has done between two states. -/
structure Grows (c c' : Chain) : Prop where
  old : ∀ r ∈ c.mined, r ∈ c'.mined
  latest : c.latest ≤ c'.latest
  new : ∀ r ∈ c'.mined, r ∈ c.mined ∨ (r.tx ∈ c.pool ∧ c.latest ≤ r.tx.nonce)

namespace Grows

theorem refl (c : Chain) : Grows c c := ⟨fun _ h => h, Nat.le_refl _, fun _ h => .inl h⟩

theorem accept (c : Chain) (tx : Tx) : Grows c (c.accept tx) :=
  ⟨fun _ h => h, Nat.le_refl _, fun _ h => .inl h⟩

theorem drop (c : Chain) (tx : Tx) : Grows c (c.drop tx) :=
  ⟨fun _ h => h, Nat.le_refl _, fun _ h => .inl h⟩

theorem mine (hpool : r.tx ∈ c.pool) (hnonce : r.tx.nonce = c.mined.length) :
    Grows c (c.mine r hnonce) where
  old _ h := List.mem_append_left _ h
  latest := by
    rw [Chain.latest, Chain.latest, Chain.mine, List.length_append]
    exact Nat.le_add_right _ _
  new r' h := by
    obtain h | h := List.mem_append.mp h
    · exact .inl h
    · obtain rfl := List.mem_singleton.mp h
      exact .inr ⟨hpool, Nat.le_of_eq hnonce.symm⟩

/-- A receipt stays. -/
theorem receipt_of {c' : Chain} (h : Grows c c') (hr : c.receipt_of tx = some r) :
    c'.receipt_of tx = some r := by
  obtain ⟨hmem, rfl⟩ := receipt_of_spec hr
  exact receipt_of_eq (h.old r hmem)

end Grows

end Chain

end pcoin.keeper
