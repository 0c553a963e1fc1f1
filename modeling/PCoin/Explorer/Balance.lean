import PCoin.Explorer.Unwind
import Mathlib.Algebra.BigOperators.Group.List.Basic
import Mathlib.Algebra.Group.Prod
import Mathlib.Algebra.Order.Group.Int

namespace pcoin.explorer

/-! ### Queries -/

/-- The output can be spent and is not. -/
def OutputRow.unspent (o : OutputRow) : Bool := o.spent = none && !o.unspendable

/-- What `address_summary` answers. -/
structure Summary where
  address : String
  balance : Int := 0
  received : Int := 0
  sent : Int := 0
  utxo_count : Int := 0
  tx_count : Int := 0
  first_height : Option Nat := none
  last_height : Option Nat := none
  immature : Int
  immature_utxo_count : Nat
  spendable : Int
  as_of_height : Int
deriving DecidableEq

/-- The outputs that `address_summary` counts as immature. -/
def Tables.immature (t : Tables) (address : String) : List OutputRow :=
  t.outputs.filter fun o => o.address = some address && o.spent = none && o.is_coinbase &&
    !o.unspendable && o.maturity_height.any fun h : Nat => t.tip.1 + 1 < (h : Int)

/-- `address_summary`, without the answer of `health`. -/
def addressSummary (t : Tables) (address : String) : Summary :=
  let immature := ((t.immature address).map OutputRow.value).sum
  match table.find AddressRow.address address t.addresses with
  | none =>
    { address := address, immature := immature
      immature_utxo_count := (t.immature address).length
      spendable := 0 - immature, as_of_height := t.tip.1 }
  | some a =>
    { address := address, balance := a.balance, received := a.received, sent := a.sent
      utxo_count := a.utxo_count, tx_count := a.tx_count, first_height := a.first_height
      last_height := a.last_height, immature := immature
      immature_utxo_count := (t.immature address).length
      spendable := a.balance - immature, as_of_height := t.tip.1 }

/-- The outputs that `address_utxos` lists with `mature_only`. -/
def Tables.mature (t : Tables) (address : String) : List OutputRow :=
  t.outputs.filter fun o => o.address = some address && o.spent = none && !o.unspendable &&
    (!o.is_coinbase || o.maturity_height.any fun h : Nat => (h : Int) ≤ t.tip.1 + 1)

/-! ### What addresses hold -/

/-- The value and the number of the output, if it is unspent and at the address. -/
def OutputRow.worth (address : String) (o : OutputRow) : Int × Int :=
  if o.address = some address ∧ o.unspent then (o.value, 1) else 0

/-- What a movement adds to the value and the number of the outputs at the address. -/
def Delta.share (address : String) (d : Delta) : Int × Int :=
  if d.address = address then (d.received - d.sent, d.n_out - d.n_in) else 0

/-- What a row of `address_txs` adds to them. -/
def AddressTx.net (r : AddressTx) : Int × Int := (r.received - r.sent, r.n_out - r.n_in)

/-- To spend one more output is an update of its row. -/
theorem update_mark {sp : List ((String × Nat) × Spent)} {k : String × Nat} {x : Spent}
    (hk : k ∉ sp.map Prod.fst) (rows : List OutputRow) :
    table.update OutputRow.key k (fun o => { o with spent := some x }) (mark sp rows) =
      mark (sp ++ [(k, x)]) rows := by
  rw [← mark_spend hk, table.update]
  refine List.map_congr_left fun o ho => ?_
  have hspent : o.spent = sp.lookup o.key := by
    obtain ⟨y, -, rfl⟩ := List.mem_map.mp ho
    rfl
  by_cases hy : o.key = k
  · rw [hy, lookup_eq_none hk] at hspent
    rw [if_pos hy, if_pos ⟨hy, hspent⟩]
  · rw [if_neg hy, if_neg fun h => hy h.1]

section

variable {height : Nat} {txid : String} {rows : List OutputRow}

/-- What the inputs of a transaction take. -/
theorem worth_inputs (address : String) (hkeys : (rows.map OutputRow.key).Nodup) (inputs : List Input)
    {sp : List ((String × Nat) × Spent)} (hfunded : Funded height txid rows sp inputs) :
    ((mark (sp ++ inputs.filterMap (Input.spend height txid)) rows).map
        (OutputRow.worth address)).sum =
      ((mark sp rows).map (OutputRow.worth address)).sum +
        ((inputs.filterMap inputDelta).map (Delta.share address)).sum := by
  induction inputs generalizing sp with
  | nil => simp
  | cons i inputs ih =>
    obtain ⟨hprev, hspend, hrest⟩ | ⟨o, ho, hprev, hdraws, hspend, hsp, hrest⟩ := hfunded.cons
    · have hdelta : inputDelta i = none := by rw [inputDelta, hprev]
      rw [List.filterMap_cons_none hspend, List.filterMap_cons_none hdelta]
      exact ih hrest
    · rw [List.filterMap_cons_some hspend, ← List.singleton_append, ← List.append_assoc, ih hrest,
        ← update_mark hsp]
      have hmem : { o with spent := none } ∈ mark sp rows :=
        List.mem_map.mpr ⟨o, ho, by rw [lookup_eq_none hsp]⟩
      have hsum := table.sum_update (by rwa [keys_mark]) hmem
        (fun o => { o with spent := some ⟨txid, i.n, height⟩ }) (OutputRow.worth address)
      have hspent : OutputRow.worth address { o with spent := some ⟨txid, i.n, height⟩ } = 0 :=
        if_neg fun h => by simp [OutputRow.unspent] at h
      rw [hspent, add_zero] at hsum
      rw [List.filterMap_cons]
      cases haddress : o.address with
      | none =>
        have hdelta : inputDelta i = none := by rw [inputDelta, hprev, ← hdraws.2.2, haddress]; rfl
        have hworth : OutputRow.worth address { o with spent := none } = 0 :=
          if_neg fun h => by simp [haddress] at h
        rw [hworth, add_zero] at hsum
        rw [hdelta]
        exact congrArg (· + _) hsum
      | some a =>
        have hdelta : inputDelta i = some ⟨a, 0, o.value, 0, 1⟩ := by
          rw [inputDelta, hprev, ← hdraws.2.2, haddress, ← hdraws.2.1]
          rfl
        have hworth : OutputRow.worth address { o with spent := none } =
            -Delta.share address ⟨a, 0, o.value, 0, 1⟩ := by
          unfold OutputRow.worth Delta.share OutputRow.unspent
          by_cases ha : a = address
          · simp [haddress, ha, hdraws.1]
          · simp [haddress, ha]
        rw [hworth, ← sub_eq_add_neg, sub_eq_iff_eq_add] at hsum
        rw [hdelta, List.map_cons, List.sum_cons, ← add_assoc]
        exact congrArg (· + _) hsum

/-- What the outputs of a transaction give. -/
theorem worth_created (e : Entry) :
    (e.created.map (OutputRow.worth address)).sum =
      ((e.tx.outputs.filterMap outputDelta).map (Delta.share address)).sum := by
  rw [Entry.created, List.map_map]
  induction e.tx.outputs with
  | nil => rfl
  | cons o outputs ih =>
    have hworth : OutputRow.worth address (outputRow e.height e.tx o) =
        (outputDelta o).elim 0 (Delta.share address) := by
      unfold OutputRow.worth outputDelta OutputRow.unspent outputRow
      cases o.unspendable with
      | true => simp
      | false =>
        cases o.address with
        | none => simp
        | some a => simp [Delta.share]
    rw [List.map_cons, List.sum_cons, ih, Function.comp_apply, hworth, List.filterMap_cons]
    cases outputDelta o with
    | none => simp
    | some d => simp

end

theorem sum_share (address : String) (ds : List Delta) :
    (ds.map (Delta.share address)).sum =
      Delta.share address (total address (ds.filter (·.address = address))) := by
  induction ds with
  | nil => simp [total, Delta.share, Prod.zero_eq_mk]
  | cons d ds ih =>
    rw [List.map_cons, List.sum_cons, ih]
    by_cases hd : d.address = address
    · rw [List.filter_cons_of_pos (by simpa using hd)]
      simp only [Delta.share, total, hd, if_true, List.map_cons, List.sum_cons, Prod.mk_add_mk,
        Prod.mk.injEq]
      exact ⟨by omega, by omega⟩
    · rw [List.filter_cons_of_neg (by simpa using hd)]
      simp [Delta.share, hd]

/-- What the rows of a transaction in `address_txs` add up to. -/
theorem net_addressTxs (e : Entry) (address : String) :
    ((e.addressTxs.filter (·.address = address)).map AddressTx.net).sum =
      (e.moves.map (Delta.share address)).sum := by
  have hfilter : e.addressTxs.filter (·.address = address) =
      (e.deltas.filter (·.address = address)).map (addressTx e.height e.tx) := by
    rw [Entry.addressTxs, List.filter_map]
    rfl
  rw [hfilter, deltas_eq, table.filter_group fun _ _ => rfl, sum_share]
  split
  · simp [AddressTx.net, addressTx, Delta.share, total]
  · rename_i haddress
    rw [table.filter_eq_nil haddress]
    simp [Delta.share, total, Prod.zero_eq_mk]

/-- The unspent outputs at an address, by value and by number. -/
theorem worth_index {es : List Entry} (hvalid : ValidFrom [] es) (address : String) :
    ((mark (spendings es) (creations es)).map (OutputRow.worth address)).sum =
      (((addressTxs es).filter (·.address = address)).map AddressTx.net).sum := by
  induction es using List.reverseRecOn with
  | nil => rfl
  | append_singleton es e ih =>
    have hes := (validFrom_append.mp hvalid).1
    have he : e.Valid es := hvalid.last
    have hcoins := coins_of_validFrom hes
    have hfunded : Funded e.height e.tx.txid (creations es) (spendings es) e.tx.inputs :=
      ⟨he.once, he.unspent, he.funded⟩
    have hinputs := worth_inputs address hcoins.keys e.tx.inputs hfunded
    rw [mark_entry hcoins he, List.map_append, List.sum_append, addressTxs_append,
      addressTxs_singleton, List.filter_append, List.map_append, List.sum_append,
      net_addressTxs, ← ih hes, worth_created, Entry.moves, List.map_append, List.sum_append,
      ← add_assoc]
    exact congrArg (· + _) hinputs

theorem sum_net (rows : List AddressTx) (address : String) :
    (rows.map AddressTx.net).sum =
      ((recomputed address rows).balance, (recomputed address rows).utxo_count) := by
  induction rows with
  | nil => rfl
  | cons r rows ih =>
    rw [List.map_cons, List.sum_cons, ih]
    simp only [AddressTx.net, recomputed, List.map_cons, List.sum_cons, Prod.mk_add_mk,
      Prod.mk.injEq, and_true]
    omega

/-- The unspent outputs at an address. -/
def Tables.unspentAt (t : Tables) (address : String) : List OutputRow :=
  t.outputs.filter fun o => o.address = some address ∧ o.unspent

theorem sum_worth (rows : List OutputRow) (address : String) :
    (rows.map (OutputRow.worth address)).sum =
      (((rows.filter fun o => o.address = some address ∧ o.unspent).map OutputRow.value).sum,
        ((rows.filter fun o => o.address = some address ∧ o.unspent).length : Int)) := by
  induction rows with
  | nil => rfl
  | cons o rows ih =>
    rw [List.map_cons, List.sum_cons, ih, OutputRow.worth]
    by_cases ho : o.address = some address ∧ o.unspent
    · rw [if_pos ho, List.filter_cons_of_pos (by simpa using ho)]
      simp only [List.map_cons, List.sum_cons, List.length_cons, Prod.mk_add_mk, Prod.mk.injEq,
        true_and]
      omega
    · rw [if_neg ho, List.filter_cons_of_neg (by simpa using ho), zero_add]

section

variable {genesis : String} {chain : List Block} (h : Valid genesis chain) (address : String)

/-- The row of an address, as `verify` recomputes it. -/
theorem find_replay (chain : List Block) (address : String) :
    table.find AddressRow.address address (replay chain).addresses =
      (replay chain).recompute address := by
  have haddresses : (replay chain).addresses = rollup (replay chain).address_txs := rfl
  rw [haddresses, rollup_eq, table.find_group fun _ _ => rfl, Tables.recompute]

include h

/-- The rows of `address_txs` add up to the unspent outputs. -/
theorem recomputed_replay :
    (recomputed address ((replay chain).address_txs.filter (·.address = address))).balance =
        (((replay chain).unspentAt address).map OutputRow.value).sum ∧
      (recomputed address ((replay chain).address_txs.filter (·.address = address))).utxo_count =
        ((replay chain).unspentAt address).length := by
  have hworth := worth_index h.valid address
  rw [sum_worth, sum_net _ address] at hworth
  exact ⟨(congrArg Prod.fst hworth).symm, (congrArg Prod.snd hworth).symm⟩

omit h in
theorem maturity_replay {o : OutputRow} (ho : o ∈ (replay chain).outputs) (hcoinbase : o.is_coinbase) :
    o.maturity_height = some (o.height + COINBASE_MATURITY) := by
  obtain ⟨x, hx, rfl⟩ := List.mem_map.mp ho
  obtain ⟨e, -, hx⟩ := List.mem_flatMap.mp hx
  obtain ⟨y, -, rfl⟩ := List.mem_map.mp hx
  exact if_pos hcoinbase

omit h in
/-- Unspent outputs are mature or immature. -/
theorem unspentAt_replay (chain : List Block) (address : String) :
    (((replay chain).unspentAt address).map OutputRow.value).sum =
      (((replay chain).immature address).map OutputRow.value).sum +
        (((replay chain).mature address).map OutputRow.value).sum := by
  let late (o : OutputRow) : Bool :=
    o.is_coinbase && o.maturity_height.any fun h : Nat => (replay chain).tip.1 + 1 < (h : Int)
  have himmature : (replay chain).immature address =
      ((replay chain).unspentAt address).filter late := by
    rw [Tables.unspentAt, List.filter_filter]
    refine List.filter_congr fun o _ => ?_
    rw [OutputRow.unspent, Bool.decide_and, Bool.decide_eq_true]
    simp only [late]
    ac_rfl
  have hmature : (replay chain).mature address =
      ((replay chain).unspentAt address).filter (fun o => !late o) := by
    rw [Tables.unspentAt, List.filter_filter]
    refine List.filter_congr fun o ho => ?_
    have hlate : (!o.is_coinbase || o.maturity_height.any
        fun h : Nat => (h : Int) ≤ (replay chain).tip.1 + 1) = !late o := by
      cases hcoinbase : o.is_coinbase with
      | false => simp [late, hcoinbase]
      | true =>
        simp only [late, hcoinbase, maturity_replay ho hcoinbase, Option.any_some, Bool.not_true,
          Bool.false_or, Bool.true_and, ← decide_not, not_lt]
    rw [hlate, OutputRow.unspent, Bool.decide_and, Bool.decide_eq_true]
    ac_rfl
  rw [himmature, hmature, ← List.sum_append, ← List.map_append]
  exact ((List.filter_append_perm _ _).map _).sum_eq.symm

omit address in
/-- Each row holds the value and the number of the unspent outputs. -/
theorem row_replay {a : AddressRow} (ha : a ∈ (replay chain).addresses) :
    a.balance = (((replay chain).unspentAt a.address).map OutputRow.value).sum ∧
      a.utxo_count = ((replay chain).unspentAt a.address).length := by
  have haddresses : (replay chain).addresses =
      table.group AddressTx.address recomputed (replay chain).address_txs := rollup_eq _
  rw [haddresses] at ha
  obtain ⟨address, -, rfl⟩ := table.mem_group.mp ha
  exact recomputed_replay h address

theorem balance_replay :
    (addressSummary (replay chain) address).balance =
      (((replay chain).unspentAt address).map OutputRow.value).sum := by
  rw [← (recomputed_replay h address).1, addressSummary, find_replay, Tables.recompute]
  by_cases haddress : address ∈ (replay chain).address_txs.map AddressTx.address
  · rw [if_pos haddress]
  · rw [if_neg haddress, table.filter_eq_nil haddress]
    rfl

theorem spendable_replay :
    (addressSummary (replay chain) address).spendable =
      (((replay chain).mature address).map OutputRow.value).sum := by
  have hspendable : (addressSummary (replay chain) address).spendable =
      (addressSummary (replay chain) address).balance -
        (((replay chain).immature address).map OutputRow.value).sum := by
    unfold addressSummary
    split <;> rfl
  rw [hspendable, balance_replay h, unspentAt_replay]
  omega

end

end pcoin.explorer
