import PCoin.Table.Basic
import Mathlib.Data.List.Sort

namespace pcoin.explorer

/-- An input of a normalized transaction; that of a coinbase has no `prev`. -/
structure Input where
  n : Nat
  prev : Option (String × Nat) := none
  value : Option Int := none
  address : Option String := none
deriving DecidableEq

structure Output where
  n : Nat
  value : Int
  address : Option String
  unspendable : Bool := false
deriving DecidableEq

structure Tx where
  txid : String
  block_index : Nat
  is_coinbase : Bool
  inputs : List Input
  outputs : List Output
deriving DecidableEq

/-- What `normalize_block` makes of a block. Amounts are in satoshis. -/
structure Block where
  height : Nat
  hash : String
  prev_hash : Option String
  txs : List Tx
deriving DecidableEq

structure BlockRow where
  height : Nat
  hash : String
  prev_hash : Option String
deriving DecidableEq

structure TxRow where
  txid : String
  height : Nat
  block_index : Nat
  is_coinbase : Bool
deriving DecidableEq

/-- The columns `spent_by_txid`, `spent_by_n` and `spent_height`, which are `NULL` together. -/
structure Spent where
  by_txid : String
  by_n : Nat
  height : Nat
deriving DecidableEq

structure OutputRow where
  txid : String
  n : Nat
  height : Nat
  value : Int
  address : Option String
  is_coinbase : Bool
  maturity_height : Option Nat
  unspendable : Bool
  spent : Option Spent := none
deriving DecidableEq

structure InputRow where
  txid : String
  n : Nat
  height : Nat
  prev : Option (String × Nat) := none
  value : Option Int := none
  address : Option String := none
deriving DecidableEq

structure AddressTx where
  address : String
  txid : String
  height : Nat
  block_index : Nat
  received : Int
  sent : Int
  n_out : Int
  n_in : Int
deriving DecidableEq

structure AddressRow where
  address : String
  balance : Int
  received : Int
  sent : Int
  utxo_count : Int
  tx_count : Int
  first_height : Nat
  last_height : Nat
deriving DecidableEq

def OutputRow.key (o : OutputRow) : String × Nat := (o.txid, o.n)

def InputRow.key (i : InputRow) : String × Nat := (i.txid, i.n)

def AddressTx.key (r : AddressTx) : String × String := (r.address, r.txid)

/-- The tables of the index, with the mirror of the tip in `sync_state`. -/
structure Tables where
  blocks : List BlockRow := []
  txs : List TxRow := []
  outputs : List OutputRow := []
  inputs : List InputRow := []
  address_txs : List AddressTx := []
  addresses : List AddressRow := []
  indexed_height : Int := -1
  indexed_hash : Option String := none
deriving DecidableEq

/-- `ChainLinkError`, `WrongChain`, `IndexCorruption`, and what SQLite raises when a key is
already in use. -/
inductive Error
  | chainLink
  | wrongChain
  | corruption
  | integrity
deriving DecidableEq

def COINBASE_MATURITY : Nat := 100

/-- The row of `blocks` with the greatest height. -/
def tipRow (rows : List BlockRow) : Option BlockRow :=
  rows.foldl (fun best r =>
    match best with
    | none => some r
    | some b => if b.height < r.height then some r else some b) none

/-- `tip`. -/
def Tables.tip (t : Tables) : Int × Option String :=
  match tipRow t.blocks with
  | none => (-1, none)
  | some r => (r.height, some r.hash)

def Tables.hashAt (t : Tables) (height : Int) : Option String :=
  (table.find (fun r : BlockRow => (r.height : Int)) height t.blocks).map BlockRow.hash

/-- `INSERT` under a key that must not be in use. -/
def insertRow {α κ : Type*} [DecidableEq κ] (key : α → κ) (row : α) (rows : List α) :
    Except Error (List α) :=
  if key row ∈ rows.map key then .error .integrity else .ok (rows ++ [row])

/-- An entry of `deltas` in `_apply_tx`. -/
structure Delta where
  address : String
  received : Int
  sent : Int
  n_out : Int
  n_in : Int
deriving DecidableEq

/-- `deltas.setdefault(address, [0, 0, 0, 0])`, and what is added to it. -/
def bump (d : Delta) (deltas : List Delta) : List Delta :=
  table.upsert Delta.address d.address
    (fun x => { x with received := x.received + d.received, sent := x.sent + d.sent,
                       n_out := x.n_out + d.n_out, n_in := x.n_in + d.n_in }) d deltas

/-- The entry for an amount at an address, if it has one. -/
def bumpAt (address : Option String) (received sent n_out n_in : Int) (deltas : List Delta) :
    List Delta :=
  match address with
  | none => deltas
  | some a => bump ⟨a, received, sent, n_out, n_in⟩ deltas

/-- The loop of `_apply_tx` over the inputs. -/
def applyInput (height : Nat) (txid : String) (acc : Tables × List Delta) (i : Input) :
    Except Error (Tables × List Delta) :=
  let (t, deltas) := acc
  match i.prev with
  | none => do
    let inputs ← insertRow InputRow.key { txid := txid, n := i.n, height := height } t.inputs
    return ({ t with inputs := inputs }, deltas)
  | some prev =>
    match table.find OutputRow.key prev t.outputs with
    | none => .error .corruption
    | some src =>
      if src.spent ≠ none ∨ some src.value ≠ i.value ∨ src.address ≠ i.address ∨
          (t.outputs.filter fun o => o.key = prev ∧ o.spent = none).length ≠ 1 then
        .error .corruption
      else do
        let outputs := t.outputs.map fun o =>
          if o.key = prev ∧ o.spent = none then { o with spent := some ⟨txid, i.n, height⟩ } else o
        let inputs ← insertRow InputRow.key
          { txid := txid, n := i.n, height := height, prev := prev, value := src.value,
            address := src.address } t.inputs
        return ({ t with outputs := outputs, inputs := inputs },
          bumpAt src.address 0 src.value 0 1 deltas)

/-- The row of an output. -/
def outputRow (height : Nat) (tx : Tx) (o : Output) : OutputRow :=
  { txid := tx.txid, n := o.n, height := height, value := o.value, address := o.address,
    is_coinbase := tx.is_coinbase,
    maturity_height := if tx.is_coinbase then some (height + COINBASE_MATURITY) else none,
    unspendable := o.unspendable }

/-- The loop of `_apply_tx` over the outputs. -/
def applyOutput (height : Nat) (tx : Tx) (acc : Tables × List Delta) (o : Output) :
    Except Error (Tables × List Delta) := do
  let (t, deltas) := acc
  let outputs ← insertRow OutputRow.key (outputRow height tx o) t.outputs
  return ({ t with outputs := outputs },
    if o.unspendable then deltas else bumpAt o.address o.value 0 1 0 deltas)

/-- What a row of `address_txs` adds to `addresses`. -/
def credit (r : AddressTx) (rows : List AddressRow) : List AddressRow :=
  table.upsert AddressRow.address r.address
    (fun a => { a with
      balance := a.balance + (r.received - r.sent)
      received := a.received + r.received
      sent := a.sent + r.sent
      utxo_count := a.utxo_count + (r.n_out - r.n_in)
      tx_count := a.tx_count + 1
      first_height := min a.first_height r.height
      last_height := max a.last_height r.height })
    { address := r.address, balance := r.received - r.sent, received := r.received, sent := r.sent,
      utxo_count := r.n_out - r.n_in, tx_count := 1, first_height := r.height,
      last_height := r.height } rows

/-- The row of `address_txs` for an entry of `deltas`. -/
def addressTx (height : Nat) (tx : Tx) (d : Delta) : AddressTx :=
  { address := d.address, txid := tx.txid, height := height, block_index := tx.block_index,
    received := d.received, sent := d.sent, n_out := d.n_out, n_in := d.n_in }

/-- The loop of `_apply_tx` over the addresses. -/
def applyDelta (height : Nat) (tx : Tx) (t : Tables) (d : Delta) : Except Error Tables := do
  let r := addressTx height tx d
  let address_txs ← insertRow AddressTx.key r t.address_txs
  return { t with address_txs := address_txs, addresses := credit r t.addresses }

/-- `_apply_tx`. -/
def applyTx (height : Nat) (t : Tables) (tx : Tx) : Except Error Tables := do
  let txs ← insertRow TxRow.txid
    { txid := tx.txid, height := height, block_index := tx.block_index,
      is_coinbase := tx.is_coinbase } t.txs
  let acc ← tx.inputs.foldlM (applyInput height tx.txid) ({ t with txs := txs }, [])
  let (t, deltas) ← tx.outputs.foldlM (applyOutput height tx) acc
  deltas.foldlM (applyDelta height tx) t

/-- What `_apply_locked` refuses a block with: it must extend the tip of the index. -/
def linkError (genesis : String) (t : Tables) (blk : Block) : Option Error :=
  if (blk.height : Int) ≠ t.tip.1 + 1 then some .chainLink
  else if blk.height = 0 then
    if blk.hash ≠ genesis then some .wrongChain else none
  else if blk.prev_hash ≠ t.tip.2 then some .chainLink
  else none

/-- The rows of a block. `blocks.hash` is `UNIQUE` too. -/
def insertBlock (t : Tables) (blk : Block) : Except Error Tables :=
  if blk.hash ∈ t.blocks.map BlockRow.hash then .error .integrity
  else do
    let blocks ← insertRow BlockRow.height
      { height := blk.height, hash := blk.hash, prev_hash := blk.prev_hash } t.blocks
    let t ← blk.txs.foldlM (applyTx blk.height) { t with blocks := blocks }
    return { t with indexed_height := blk.height, indexed_hash := some blk.hash }

/-- `_apply_locked`. -/
def applyLocked (genesis : String) (t : Tables) (blk : Block) : Except Error Tables :=
  match linkError genesis t blk with
  | some e => .error e
  | none => insertBlock t blk

/-- An entry of `deltas` in `_unwind_locked`. -/
structure Undo where
  address : String
  received : Int
  sent : Int
  utxo : Int
  txs : Int
deriving DecidableEq

def undoBump (d : Undo) (deltas : List Undo) : List Undo :=
  table.upsert Undo.address d.address
    (fun x => { x with received := x.received + d.received, sent := x.sent + d.sent,
                       utxo := x.utxo + d.utxo, txs := x.txs + d.txs }) d deltas

/-- What a row of `address_txs` adds to `deltas`. -/
def undoOf (r : AddressTx) : Undo := ⟨r.address, r.received, r.sent, r.n_out - r.n_in, 1⟩

/-- The output is marked spent by the transaction. -/
def OutputRow.spentBy (o : OutputRow) (txid : String) : Bool := o.spent.any (·.by_txid = txid)

/-- Restore the output that an input of the transaction spent. -/
def restore (txid : String) (outputs : List OutputRow) (prev : String × Nat) :
    Except Error (List OutputRow) :=
  if (outputs.filter fun o => o.key = prev ∧ o.spentBy txid).length ≠ 1 then .error .corruption
  else .ok (outputs.map fun o => if o.key = prev ∧ o.spentBy txid then { o with spent := none } else o)

/-- The outputs that a transaction spent, the last input first. -/
def spends (t : Tables) (txid : String) : List (String × Nat) :=
  ((t.inputs.filter fun i => i.txid = txid && i.prev.isSome).insertionSort
    (fun a b => b.n ≤ a.n)).filterMap InputRow.prev

/-- One transaction of `_unwind_locked`. -/
def unwindTx (acc : Tables × List Undo) (row : TxRow) : Except Error (Tables × List Undo) :=
  let (t, deltas) := acc
  let txid := row.txid
  if t.outputs.any fun o => o.txid = txid && o.spent.isSome then .error .corruption
  else do
    let outputs ← (spends t txid).foldlM (restore txid) t.outputs
    let deltas := ((t.address_txs.filter (·.txid = txid)).map undoOf).foldl
      (fun deltas d => undoBump d deltas) deltas
    return ({ t with
      address_txs := t.address_txs.filter (·.txid ≠ txid)
      outputs := outputs.filter (·.txid ≠ txid)
      inputs := t.inputs.filter (·.txid ≠ txid)
      txs := t.txs.filter (·.txid ≠ txid) }, deltas)

/-- Take an entry of `deltas` from its row. -/
def debit (rows : List AddressRow) (d : Undo) : List AddressRow :=
  table.update AddressRow.address d.address
    (fun a => { a with
      balance := a.balance - (d.received - d.sent)
      received := a.received - d.received
      sent := a.sent - d.sent
      utxo_count := a.utxo_count - d.utxo
      tx_count := a.tx_count - d.txs }) rows

/-- Recompute the heights of a row from `address_txs`, or delete it. -/
def reheight (address_txs : List AddressTx) (rows : List AddressRow) (d : Undo) :
    List AddressRow :=
  let heights := (address_txs.filter (·.address = d.address)).map AddressTx.height
  match heights.min?, heights.max? with
  | some lo, some hi =>
    table.update AddressRow.address d.address
      (fun a => { a with first_height := lo, last_height := hi }) rows
  | _, _ => rows.filter (·.address ≠ d.address)

/-- The transactions of a block, the last first. -/
def txsAt (t : Tables) (height : Int) : List TxRow :=
  (t.txs.filter fun r => (r.height : Int) = height).insertionSort
    (fun a b => b.block_index ≤ a.block_index)

/-- `_unwind_locked`. -/
def unwindLocked (t : Tables) (height : Int) : Except Error Tables :=
  if height ≠ t.tip.1 then .error .chainLink
  else if t.hashAt height = none then .error .corruption
  else do
    let (t, deltas) ← (txsAt t height).foldlM unwindTx (t, [])
    let addresses := deltas.foldl (reheight t.address_txs) (deltas.foldl debit t.addresses)
    let blocks := t.blocks.filter fun r => (r.height : Int) ≠ height
    let t := { t with addresses := addresses, blocks := blocks }
    return { t with indexed_height := t.tip.1, indexed_hash := t.tip.2 }

/-! ### The tip -/

theorem tipRow_append (rows : List BlockRow) (r : BlockRow) :
    tipRow (rows ++ [r]) =
      match tipRow rows with
      | none => some r
      | some b => if b.height < r.height then some r else some b := by
  rw [tipRow, List.foldl_append]
  rfl

/-- A row above all others is the tip. -/
theorem tip_append (t : Tables) {r : BlockRow} (h : (r.height : Int) = t.tip.1 + 1)
    {t' : Tables} (hblocks : t'.blocks = t.blocks ++ [r]) : t'.tip = ((r.height : Int), some r.hash) := by
  rw [Tables.tip, hblocks, tipRow_append]
  unfold Tables.tip at h
  cases hrow : tipRow t.blocks with
  | none => rfl
  | some b =>
    rw [hrow] at h
    dsimp only at h ⊢
    rw [if_pos (by omega)]

/-! ### The next block -/

/-- The block is one that `_apply_locked` takes as the next. -/
def Tables.Extends (t : Tables) (blk : Block) : Prop :=
  (blk.height : Int) = t.tip.1 + 1 ∧ (blk.height ≠ 0 → blk.prev_hash = t.tip.2)

instance (t : Tables) (blk : Block) : Decidable (t.Extends blk) :=
  inferInstanceAs (Decidable (_ ∧ _))

theorem extends_of_linkError {genesis : String} {t : Tables} {blk : Block}
    (h : linkError genesis t blk = none) :
    t.Extends blk := by
  unfold linkError at h
  split at h
  · cases h
  · rename_i hheight
    refine ⟨not_not.mp hheight, fun hne => ?_⟩
    rw [if_neg hne] at h
    split at h
    · cases h
    · rename_i hprev
      exact not_not.mp hprev

/-- Any other block is refused as one that does not link. -/
theorem applyLocked_of_not_extends {genesis : String} {t : Tables} {blk : Block}
    (h : ¬t.Extends blk) : applyLocked genesis t blk = .error .chainLink := by
  have hlink : linkError genesis t blk = some .chainLink := by
    unfold linkError
    unfold Tables.Extends at h
    split
    · rfl
    · rename_i hheight
      rw [not_not] at hheight
      split
      · rename_i hzero
        exact absurd ⟨hheight, fun hne => absurd hzero hne⟩ h
      · rename_i hne
        rw [if_pos fun hprev => h ⟨hheight, fun _ => hprev⟩]
  rw [applyLocked, hlink]

end pcoin.explorer
