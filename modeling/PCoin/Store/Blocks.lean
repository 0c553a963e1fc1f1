import PCoin.Store.Payout
import PCoin.Table.Evolves
import Mathlib.Logic.Function.Basic

namespace pcoin.store

/-- `blocks.state`. -/
inductive BlockState
  | pending
  | mature
  | orphaned
deriving DecidableEq

/-- A row of `blocks`. -/
structure BlockRow where
  hash : String
  height : Int
  found_at : Int
  value : Int
  finder : String
  share_id : Int
  state : BlockState
  state_at : Int
  confirmations : Option Int := none
  orphan_strikes : Nat := 0
  alarm : Option String := none
deriving DecidableEq

/-- A row of `payouts`. -/
structure PayoutRow where
  block_height : Int
  miner : String
  block_hash : String
  amount : Int
  weight : Int
  window_weight : Int
  pot : Int
  computed_at : Int
  sent_txid : Option String
deriving DecidableEq

/-- `PRIMARY KEY (block_height, miner)`. -/
def PayoutRow.key (r : PayoutRow) : Int × String := (r.block_height, r.miner)

/-- A row of `pool_fees`. -/
structure FeeRow where
  block_height : Int
  block_hash : String
  value : Int
  fee : Int
  dust : Int
deriving DecidableEq

/-- The tables of the ledger. -/
structure Tables where
  blocks : List BlockRow := []
  payouts : List PayoutRow := []
  pool_fees : List FeeRow := []
deriving DecidableEq

def Tables.setBlock (t : Tables) (hash : String) (f : BlockRow → BlockRow) : Tables :=
  { t with blocks := table.update BlockRow.hash hash f t.blocks }

/-- What the job of a block says of it. The numbers are heights, amounts and weights, all
far below the `2^62` that `num` refuses; the window has one entry for each miner. -/
structure Found where
  height : Int
  value : Int
  coinbaseTxid : String
  outputs : List Output
  fee : Int
  windowWeight : Int
  distinct : (outputs.filterMap Output.miner).Nodup

namespace Found

/-- `outputs.filter((o) => o.miner)`. -/
def paid (b : Found) : List (String × Output) :=
  b.outputs.filterMap fun o => (o.miner.filter (· ≠ "")).map (·, o)

/-- The (miner, amount) outputs of the block. -/
def amounts (b : Found) : List (String × Int) := b.paid.map fun o => (o.1, o.2.value)

end Found

/-- The rest of what `recordBlock` passes. -/
structure Call where
  hash : String
  finder : String
  shareId : Int
  time : Int

/-- The rows that a call asks to be inserted into `payouts`. -/
def payoutRows (c : Call) (b : Found) : List PayoutRow :=
  b.paid.map fun o =>
    { block_height := b.height, miner := o.1, block_hash := c.hash, amount := o.2.value
      weight := o.2.weight.getD 0, window_weight := b.windowWeight, pot := b.value - b.fee
      computed_at := c.time, sent_txid := some b.coinbaseTxid }

def feeRow (c : Call) (b : Found) : FeeRow := ⟨b.height, c.hash, b.value, b.fee, 0⟩

/-- What `recordBlockPaidByCoinbase` returns. -/
structure Recorded where
  height : Int
  hash : String
  value : Int
  fee : Int
  miners : Nat
  paid : Int
deriving DecidableEq

/-- `recordBlockPaidByCoinbase`. -/
def recordBlockPaidByCoinbase (t : Tables) (c : Call) (b : Found) : Tables × Recorded :=
  let row : BlockRow :=
    { hash := c.hash, height := b.height, found_at := c.time, value := b.value, finder := c.finder
      share_id := c.shareId, state := .pending, state_at := c.time }
  let t := { t with blocks := table.insertOrIgnore BlockRow.hash t.blocks row }
  let rows := payoutRows c b
  let t :=
    if rows ≠ [] then
      { t with
        payouts := rows.foldl (table.insertOrIgnore PayoutRow.key) t.payouts
        pool_fees := table.insertOrIgnore FeeRow.block_height t.pool_fees (feeRow c b) }
    else
      { t with pool_fees := table.insertOrIgnore FeeRow.block_height t.pool_fees (feeRow c b) }
  let check := t.payouts.filter (·.block_height = b.height)
  (t, ⟨b.height, c.hash, b.value, b.fee, check.length, (check.map PayoutRow.amount).sum⟩)

/-- What a pass of `evaluateBlocks` returns. -/
structure Evaluated where
  matured : List (String × Int) := []
  dematured : List (String × Int × Int) := []
  orphaned : List (String × Int × Bool) := []
  alarms : List (String × Int × String) := []
  pending : Nat := 0
  unreadable : Nat := 0
deriving DecidableEq

def alarmMessage (h : Int) (sent : Nat) : String :=
  s!"height {h} was replaced at its height by a rival block" ++
    s!" after {sent} payout(s) were recorded against its coinbase" ++
    " -- that coinbase is not on the chain, ledger left alone, decide by hand"

/-- `SELECT COUNT(*) FROM payouts WHERE block_hash = hash AND sent_txid IS NOT NULL`. -/
def Tables.sent (t : Tables) (hash : String) : Nat :=
  (t.payouts.filter fun p => p.block_hash = hash ∧ p.sent_txid.isSome).length

/-- The body of the loop of `evaluateBlocks` for the row `b`, as it was selected. -/
def evaluateBlock (maturity tip now : Int) (t : Tables) (out : Evaluated) (b : BlockRow)
    (actual : Option String) : Tables × Evaluated :=
  let confs := tip - b.height + 1
  match actual with
  | none => (t, { out with unreadable := out.unreadable + 1 })
  | some actual =>
    if actual ≠ b.hash then
      if b.orphan_strikes + 1 < 2 then
        (t.setBlock b.hash fun r => { r with orphan_strikes := b.orphan_strikes + 1 },
          { out with pending := out.pending + 1 })
      else if t.sent b.hash > 0 then
        let msg := alarmMessage b.height (t.sent b.hash)
        (t.setBlock b.hash fun r => { r with alarm := some msg },
          { out with alarms := out.alarms ++ [(b.hash, b.height, msg)] })
      else
        (t.setBlock b.hash fun r =>
            { r with state := .orphaned, state_at := now, confirmations := some confs },
          { out with orphaned := out.orphaned ++ [(b.hash, b.height, decide (b.state = .mature))] })
    else if confs ≥ maturity then
      (t.setBlock b.hash fun r =>
          { r with state := .mature, state_at := now, confirmations := some confs
                   orphan_strikes := 0, alarm := none },
        if b.state ≠ .mature then { out with matured := out.matured ++ [(b.hash, b.height)] }
        else out)
    else
      let out :=
        if b.state = .mature then { out with dematured := out.dematured ++ [(b.hash, b.height, confs)] }
        else out
      (t.setBlock b.hash fun r =>
          { r with state := .pending, confirmations := some confs, orphan_strikes := 0, alarm := none },
        { out with pending := out.pending + 1 })

/-- What the node answers a pass: its tip, and for each block the call of `hashAt` made for
its row, with `none` where it could not be read. -/
structure Pass where
  tipHeight : Option Int
  hashAt : String → Option String
  now : Int

/-- `WHERE state IN ('pending','mature') ORDER BY height`. -/
def Tables.live (t : Tables) : List BlockRow :=
  (t.blocks.filter fun b => b.state = .pending ∨ b.state = .mature).mergeSort
    fun a b => a.height ≤ b.height

/-- `evaluateBlocks`; `none` stands for `skipped: 'tip unreadable'`. -/
def evaluateBlocks (maturity : Int) (t : Tables) (p : Pass) : Tables × Option Evaluated :=
  match p.tipHeight with
  | none => (t, none)
  | some tip =>
    let (t, out) := t.live.foldl
      (fun acc b => evaluateBlock maturity tip p.now acc.1 acc.2 b (p.hashAt b.hash)) (t, {})
    (t, some out)

/-- A `Map` from addresses to amounts. -/
abbrev Amounts := String → Option Int

/-- `reconcileAgainstChain`. The rows of one height have different miners, so the map `want`
is the list of them. -/
def reconcileAgainstChain (t : Tables) (height : Int) (hash : String) (actual : Amounts) :
    List String :=
  let rows := t.payouts.filter fun p => p.block_height = height ∧ p.block_hash = hash
  let want := rows.map fun p => (p.miner, p.amount)
  want.filterMap fun (addr, amt) =>
    match actual addr with
    | none => some s!"{addr}: ledger says {amt}, the block pays it nothing"
    | some got =>
      if got ≠ amt then some s!"{addr}: ledger says {amt}, the block pays {got}" else none

end pcoin.store

namespace pcoin.store

/-- What a readable answer makes of the row of a block. -/
def BlockRow.judge (b : BlockRow) (maturity tip now : Int) (sent : Nat) (actual : String) : BlockRow :=
  let confs := tip - b.height + 1
  if actual ≠ b.hash then
    if b.orphan_strikes + 1 < 2 then { b with orphan_strikes := b.orphan_strikes + 1 }
    else if sent > 0 then { b with alarm := some (alarmMessage b.height sent) }
    else { b with state := .orphaned, state_at := now, confirmations := some confs }
  else if confs ≥ maturity then
    { b with state := .mature, state_at := now, confirmations := some confs
             orphan_strikes := 0, alarm := none }
  else { b with state := .pending, confirmations := some confs, orphan_strikes := 0, alarm := none }

/-- The row after a visit: an unreadable answer leaves it as it is. -/
def BlockRow.visit (b : BlockRow) (maturity tip now : Int) (sent : Nat) (actual : Option String) :
    BlockRow :=
  actual.elim b (b.judge maturity tip now sent)

theorem BlockRow.hash_visit (b : BlockRow) (maturity tip now : Int) (sent : Nat)
    (actual : Option String) : (b.visit maturity tip now sent actual).hash = b.hash := by
  cases actual with
  | none => rfl
  | some actual =>
    simp only [visit, judge, Option.elim_some]
    split_ifs <;> rfl

namespace Tables

theorem find_setBlock {t : Tables} {hash : String} {f : BlockRow → BlockRow} {b : BlockRow}
    (hf : ∀ r, (f r).hash = r.hash) (hb : table.find BlockRow.hash hash t.blocks = some b) :
    table.find BlockRow.hash hash (t.setBlock hash f).blocks = some (f b) := by
  have hfind := table.find_update (fun r hr => (hf r).trans hr) t.blocks (k := hash)
  rw [hb, Option.map_some] at hfind
  exact hfind

theorem find_setBlock_of_ne {t : Tables} {hash other : String} {f : BlockRow → BlockRow}
    (hf : ∀ r, (f r).hash = r.hash) (hne : other ≠ hash) :
    table.find BlockRow.hash other (t.setBlock hash f).blocks =
      table.find BlockRow.hash other t.blocks :=
  table.find_update_of_ne hne (fun r hr => (hf r).trans hr) t.blocks

end Tables

/-- One round of the loop: the row it is for is judged, and nothing else changes. -/
theorem evaluateBlock_spec (maturity tip now : Int) {t : Tables} (out : Evaluated) {b : BlockRow}
    (actual : Option String) (hb : table.find BlockRow.hash b.hash t.blocks = some b) :
    let t' := (evaluateBlock maturity tip now t out b actual).1
    t'.payouts = t.payouts ∧
      (∀ hash ≠ b.hash, table.find BlockRow.hash hash t'.blocks =
        table.find BlockRow.hash hash t.blocks) ∧
      table.find BlockRow.hash b.hash t'.blocks =
        some (b.visit maturity tip now (t.sent b.hash) actual) := by
  cases actual with
  | none => exact ⟨rfl, fun _ _ => rfl, hb⟩
  | some actual =>
    simp only [evaluateBlock, BlockRow.visit, BlockRow.judge, Option.elim_some]
    split_ifs <;>
      exact ⟨rfl, fun hash hne => Tables.find_setBlock_of_ne (fun _ => rfl) hne,
        Tables.find_setBlock (fun _ => rfl) hb⟩

section Pass

variable (maturity tip : Int) (p : Pass)

/-- The loop judges each of its rows once. -/
theorem foldl_evaluateBlock {rows : List BlockRow} (hnodup : (rows.map BlockRow.hash).Nodup)
    {t : Tables} (out : Evaluated)
    (hrows : ∀ b ∈ rows, table.find BlockRow.hash b.hash t.blocks = some b) :
    let t' := (rows.foldl (fun acc b =>
      evaluateBlock maturity tip p.now acc.1 acc.2 b (p.hashAt b.hash)) (t, out)).1
    t'.payouts = t.payouts ∧
      (∀ hash ∉ rows.map BlockRow.hash, table.find BlockRow.hash hash t'.blocks =
        table.find BlockRow.hash hash t.blocks) ∧
      ∀ b ∈ rows, table.find BlockRow.hash b.hash t'.blocks =
        some (b.visit maturity tip p.now (t.sent b.hash) (p.hashAt b.hash)) := by
  induction rows generalizing t out with
  | nil => exact ⟨rfl, fun _ _ => rfl, fun b hb => absurd hb List.not_mem_nil⟩
  | cons b rows ih =>
    rw [List.map_cons, List.nodup_cons] at hnodup
    obtain ⟨hpayouts, hother, hself⟩ :=
      evaluateBlock_spec maturity tip p.now out (p.hashAt b.hash) (hrows b (by simp))
    have hne : ∀ c ∈ rows, c.hash ≠ b.hash :=
      fun c hc heq => hnodup.1 (heq ▸ List.mem_map_of_mem hc)
    rw [List.foldl_cons]
    generalize evaluateBlock maturity tip p.now t out b (p.hashAt b.hash) = acc at hpayouts hother hself
    obtain ⟨hpayouts', hother', hself'⟩ := @ih hnodup.2 acc.1 acc.2 fun c hc => by
      rw [hother _ (hne c hc)]
      exact hrows c (List.mem_cons_of_mem _ hc)
    have hsent : ∀ hash, acc.1.sent hash = t.sent hash := fun hash => by
      rw [Tables.sent, hpayouts, Tables.sent]
    refine ⟨hpayouts'.trans hpayouts, fun hash hhash => ?_, fun c hc => ?_⟩
    · rw [List.map_cons, List.mem_cons, not_or] at hhash
      rw [hother' hash hhash.2, hother hash hhash.1]
    · obtain rfl | hc := List.mem_cons.mp hc
      · rw [hother' _ hnodup.1, hself]
      · rw [hself' c hc, hsent]

end Pass

/-- `blocks.hash` is the primary key. -/
def Tables.Keyed (t : Tables) : Prop := (t.blocks.map BlockRow.hash).Nodup

theorem Tables.mem_live {t : Tables} {b : BlockRow} :
    b ∈ t.live ↔ b ∈ t.blocks ∧ b.state ≠ .orphaned := by
  rw [live, List.mem_mergeSort, List.mem_filter, decide_eq_true_eq]
  cases b.state <;> simp

theorem Tables.Keyed.live {t : Tables} (h : t.Keyed) : (t.live.map BlockRow.hash).Nodup := by
  have hperm := (List.mergeSort_perm (t.blocks.filter fun b => b.state = .pending ∨ b.state = .mature)
    fun a b => decide (a.height ≤ b.height)).map BlockRow.hash
  exact hperm.nodup_iff.mpr (h.sublist (List.filter_sublist.map _))

/-- What a pass makes of the row of a block. -/
theorem find_evaluateBlocks (maturity : Int) {t : Tables} (hkeyed : t.Keyed) (p : Pass) {tip : Int}
    (htip : p.tipHeight = some tip) (hash : String) :
    table.find BlockRow.hash hash (evaluateBlocks maturity t p).1.blocks =
      (table.find BlockRow.hash hash t.blocks).map fun b =>
        if b.state = .orphaned then b
        else b.visit maturity tip p.now (t.sent hash) (p.hashAt hash) := by
  have hfind : ∀ b ∈ t.live, table.find BlockRow.hash b.hash t.blocks = some b :=
    fun b hb => table.find_eq_some hkeyed (Tables.mem_live.mp hb).1
  obtain ⟨-, hother, hself⟩ := foldl_evaluateBlock maturity tip p hkeyed.live {} hfind
  simp only [evaluateBlocks, htip]
  cases hrow : table.find BlockRow.hash hash t.blocks with
  | none =>
    rw [hother hash, hrow, Option.map_none]
    intro hmem
    obtain ⟨b, hb, rfl⟩ := List.mem_map.mp hmem
    rw [hfind b hb] at hrow
    cases hrow
  | some b =>
    obtain ⟨hb, rfl⟩ := table.find_spec hrow
    rw [Option.map_some]
    split
    · rename_i hstate
      rw [hother, hrow]
      intro hmem
      obtain ⟨c, hc, heq⟩ := List.mem_map.mp hmem
      obtain rfl : c = b := List.inj_on_of_nodup_map hkeyed (Tables.mem_live.mp hc).1 hb heq
      exact (Tables.mem_live.mp hc).2 hstate
    · rename_i hstate
      exact hself b (Tables.mem_live.mpr ⟨hb, hstate⟩)

theorem payouts_evaluateBlocks (maturity : Int) {t : Tables} (hkeyed : t.Keyed) (p : Pass) :
    (evaluateBlocks maturity t p).1.payouts = t.payouts := by
  unfold evaluateBlocks
  cases p.tipHeight with
  | none => rfl
  | some tip =>
    exact (foldl_evaluateBlock maturity tip p hkeyed.live {} fun b hb =>
      table.find_eq_some hkeyed (Tables.mem_live.mp hb).1).1

theorem keys_setBlock (t : Tables) (hash : String) {f : BlockRow → BlockRow}
    (hf : ∀ r, (f r).hash = r.hash) :
    (t.setBlock hash f).blocks.map BlockRow.hash = t.blocks.map BlockRow.hash :=
  table.keys_update (fun r _ => hf r) t.blocks

theorem keys_evaluateBlock (maturity tip now : Int) (t : Tables) (out : Evaluated) (b : BlockRow)
    (actual : Option String) : (evaluateBlock maturity tip now t out b actual).1.blocks.map BlockRow.hash =
      t.blocks.map BlockRow.hash := by
  cases actual with
  | none => rfl
  | some actual =>
    simp only [evaluateBlock]
    split_ifs <;> exact keys_setBlock t b.hash fun _ => rfl

theorem keys_evaluateBlocks (maturity : Int) (t : Tables) (p : Pass) :
    (evaluateBlocks maturity t p).1.blocks.map BlockRow.hash = t.blocks.map BlockRow.hash := by
  unfold evaluateBlocks
  cases p.tipHeight with
  | none => rfl
  | some tip =>
    simp only
    generalize ({} : Evaluated) = out
    generalize t.live = rows
    induction rows generalizing t out with
    | nil => rfl
    | cons b rows ih =>
      rw [List.foldl_cons, ih _ _, keys_evaluateBlock]

theorem blocks_record (t : Tables) (c : Call) (b : Found) :
    ∃ row : BlockRow, row.hash = c.hash ∧ row.state = .pending ∧ row.orphan_strikes = 0 ∧
      (recordBlockPaidByCoinbase t c b).1.blocks = table.insertOrIgnore BlockRow.hash t.blocks row := by
  refine ⟨{ hash := c.hash, height := b.height, found_at := c.time, value := b.value
            finder := c.finder, share_id := c.shareId, state := .pending, state_at := c.time },
    rfl, rfl, rfl, ?_⟩
  unfold recordBlockPaidByCoinbase
  dsimp only
  split_ifs <;> rfl

theorem payouts_record (t : Tables) (c : Call) (b : Found) :
    (recordBlockPaidByCoinbase t c b).1.payouts =
      (payoutRows c b).foldl (table.insertOrIgnore PayoutRow.key) t.payouts := by
  unfold recordBlockPaidByCoinbase
  dsimp only
  split
  · rfl
  · rename_i hrows
    rw [not_not.mp hrows]
    rfl

end pcoin.store
