import PCoin.Explorer.Consensus
import PCoin.Run.Basic

namespace pcoin.explorer

/-! ### The tables of a chain -/

/-- The rows of outputs of which some are spent. -/
def mark (sp : List ((String × Nat) × Spent)) (rows : List OutputRow) : List OutputRow :=
  rows.map fun o => { o with spent := sp.lookup o.key }

def Entry.txRow (e : Entry) : TxRow :=
  { txid := e.tx.txid, height := e.height, block_index := e.tx.block_index,
    is_coinbase := e.tx.is_coinbase }

def inputRow (height : Nat) (txid : String) (i : Input) : InputRow :=
  match i.prev with
  | none => { txid := txid, n := i.n, height := height }
  | some prev => { txid := txid, n := i.n, height := height, prev := prev, value := i.value,
                   address := i.address }

def Entry.inputRows (e : Entry) : List InputRow := e.tx.inputs.map (inputRow e.height e.tx.txid)

/-- What an input takes from an address. -/
def inputDelta (i : Input) : Option Delta :=
  match i.prev with
  | none => none
  | some _ => i.address.map (⟨·, 0, i.value.getD 0, 0, 1⟩)

/-- What an output gives to an address. -/
def outputDelta (o : Output) : Option Delta :=
  if o.unspendable then none else o.address.map (⟨·, o.value, 0, 1, 0⟩)

def Entry.moves (e : Entry) : List Delta :=
  e.tx.inputs.filterMap inputDelta ++ e.tx.outputs.filterMap outputDelta

def Entry.deltas (e : Entry) : List Delta := e.moves.foldl (fun deltas d => bump d deltas) []

def Entry.addressTxs (e : Entry) : List AddressTx := e.deltas.map (addressTx e.height e.tx)

def addressTxs (es : List Entry) : List AddressTx := es.flatMap Entry.addressTxs

def rollup (rows : List AddressTx) : List AddressRow :=
  rows.foldl (fun rows r => credit r rows) []

/-- The tables for a list of transactions. -/
def Tables.index (t : Tables) (es : List Entry) : Tables :=
  { t with
    txs := es.map Entry.txRow
    outputs := mark (spendings es) (creations es)
    inputs := es.flatMap Entry.inputRows
    address_txs := addressTxs es
    addresses := rollup (addressTxs es) }

def Block.row (b : Block) : BlockRow := ⟨b.height, b.hash, b.prev_hash⟩

/-- The tip of the index is mirrored in `sync_state`. -/
def Tables.mirrored (t : Tables) : Tables :=
  { t with indexed_height := t.tip.1, indexed_hash := t.tip.2 }

/-- The tables for a chain. -/
def replay (chain : List Block) : Tables :=
  (Tables.index { blocks := chain.map Block.row } (entries chain)).mirrored

/-! ### Outputs -/

@[simp]
theorem key_spent (o : OutputRow) (x : Option Spent) :
    OutputRow.key { o with spent := x } = o.key := rfl

theorem mark_append (sp : List ((String × Nat) × Spent)) (rows rows' : List OutputRow) :
    mark sp (rows ++ rows') = mark sp rows ++ mark sp rows' := List.map_append

theorem mark_congr {sp sp' : List ((String × Nat) × Spent)} {rows : List OutputRow}
    (h : ∀ o ∈ rows, sp.lookup o.key = sp'.lookup o.key) : mark sp rows = mark sp' rows :=
  List.map_congr_left fun o ho => by rw [h o ho]

theorem keys_mark (sp : List ((String × Nat) × Spent)) (rows : List OutputRow) :
    (mark sp rows).map OutputRow.key = rows.map OutputRow.key := by
  rw [mark, List.map_map]
  rfl

theorem lookup_eq_none {sp : List ((String × Nat) × Spent)} {k : String × Nat}
    (h : k ∉ sp.map Prod.fst) : sp.lookup k = none := by
  rw [List.lookup_eq_none_iff]
  intro p hp
  rw [bne_iff_ne]
  rintro rfl
  exact h (List.mem_map.mpr ⟨p, hp, rfl⟩)

/-- To spend one more output is to set its columns. -/
theorem mark_spend {sp : List ((String × Nat) × Spent)} {k : String × Nat} {x : Spent}
    (hk : k ∉ sp.map Prod.fst) (rows : List OutputRow) :
    (mark sp rows).map (fun o => if o.key = k ∧ o.spent = none then { o with spent := some x } else o) =
      mark (sp ++ [(k, x)]) rows := by
  rw [mark, List.map_map]
  refine List.map_congr_left fun o _ => ?_
  rw [Function.comp_apply]
  by_cases ho : o.key = k
  · have hold : sp.lookup o.key = none := by
      rw [ho]
      exact lookup_eq_none hk
    have hnew : (sp ++ [(k, x)]).lookup o.key = some x := by
      rw [List.lookup_append, hold, ho]
      simp
    rw [if_pos ⟨ho, hold⟩, hnew]
  · have hsame : (sp ++ [(k, x)]).lookup o.key = sp.lookup o.key := by
      have hne : (o.key == k) = false := by simpa using ho
      rw [List.lookup_append, List.lookup_cons, hne]
      simp
    rw [if_neg fun h => ho h.1, hsame]

section

variable {sp : List ((String × Nat) × Spent)} {rows : List OutputRow} {o : OutputRow}
  (hkeys : (rows.map OutputRow.key).Nodup) (ho : o ∈ rows) (hsp : o.key ∉ sp.map Prod.fst)

include hkeys ho hsp

theorem find_mark :
    table.find OutputRow.key o.key (mark sp rows) = some { o with spent := none } := by
  have hmem : { o with spent := none } ∈ mark sp rows :=
    List.mem_map.mpr ⟨o, ho, by rw [lookup_eq_none hsp]⟩
  exact table.find_eq_some (by rwa [keys_mark]) hmem

theorem filter_mark :
    ((mark sp rows).filter fun x => x.key = o.key ∧ x.spent = none) = [{ o with spent := none }] := by
  have hmem : { o with spent := none } ∈ mark sp rows :=
    List.mem_map.mpr ⟨o, ho, by rw [lookup_eq_none hsp]⟩
  exact table.filter_key_and (by rwa [keys_mark]) hmem rfl

end

/-! ### A transaction -/

theorem insertRow_eq_ok {α κ : Type*} [DecidableEq κ] {key : α → κ} {row : α} {rows : List α}
    (h : key row ∉ rows.map key) : insertRow key row rows = .ok (rows ++ [row]) := if_neg h

theorem key_inputRow (height : Nat) (txid : String) (i : Input) :
    (inputRow height txid i).key = (txid, i.n) := by
  unfold inputRow
  split <;> rfl

section

variable {height : Nat} {txid : String} {t : Tables} {rows : List OutputRow}

/-- A coinbase input. -/
theorem applyInput_coinbase {acc : Tables × List Delta} {i : Input} (hprev : i.prev = none)
    (hnew : (txid, i.n) ∉ acc.1.inputs.map InputRow.key) :
    applyInput height txid acc i =
      .ok ({ acc.1 with inputs := acc.1.inputs ++ [inputRow height txid i] }, acc.2) := by
  obtain ⟨u, deltas⟩ := acc
  have hrow : inputRow height txid i = { txid := txid, n := i.n, height := height } := by
    rw [inputRow, hprev]
  simp only [applyInput, hprev]
  rw [insertRow_eq_ok hnew, hrow]
  rfl

/-- An input that spends an output which is there and not spent. -/
theorem applyInput_spend {sp : List ((String × Nat) × Spent)} {ins : List InputRow}
    {deltas : List Delta} {i : Input} {o : OutputRow} (hkeys : (rows.map OutputRow.key).Nodup)
    (ho : o ∈ rows) (hprev : i.prev = some o.key) (hdraws : i.Draws o)
    (hsp : o.key ∉ sp.map Prod.fst) (hnew : (txid, i.n) ∉ ins.map InputRow.key) :
    applyInput height txid ({ t with outputs := mark sp rows, inputs := ins }, deltas) i =
      .ok ({ t with outputs := mark (sp ++ [(o.key, ⟨txid, i.n, height⟩)]) rows
                    inputs := ins ++ [inputRow height txid i] },
        (inputDelta i).elim deltas (bump · deltas)) := by
  obtain ⟨-, hvalue, haddress⟩ := hdraws
  have hrow : inputRow height txid i =
      { txid := txid, n := i.n, height := height, prev := some o.key, value := some o.value,
        address := o.address } := by
    rw [inputRow, hprev, hvalue, haddress]
  have hdelta : (inputDelta i).elim deltas (bump · deltas) =
      bumpAt o.address 0 o.value 0 1 deltas := by
    rw [inputDelta, hprev, ← hvalue, ← haddress]
    cases o.address <;> rfl
  simp only [applyInput, hprev, find_mark hkeys ho hsp, filter_mark hkeys ho hsp, hvalue,
    haddress, mark_spend hsp]
  rw [insertRow_eq_ok hnew, hrow, hdelta, hvalue, haddress]
  simp [bind, Except.bind, pure, Except.pure]

/-- Inputs that can be spent one after the other. -/
structure Funded (height : Nat) (txid : String) (rows : List OutputRow)
    (sp : List ((String × Nat) × Spent)) (inputs : List Input) : Prop where
  once : ((inputs.filterMap (Input.spend height txid)).map Prod.fst).Nodup
  unspent : ∀ k ∈ (inputs.filterMap (Input.spend height txid)).map Prod.fst, k ∉ sp.map Prod.fst
  funded : ∀ i ∈ inputs, ∀ prev ∈ i.prev, ∃ o ∈ rows, o.key = prev ∧ i.Draws o

/-- The first input is that of a coinbase, or spends an output that is not spent yet. -/
theorem Funded.cons {sp : List ((String × Nat) × Spent)} {i : Input} {inputs : List Input}
    (h : Funded height txid rows sp (i :: inputs)) :
    (i.prev = none ∧ i.spend height txid = none ∧ Funded height txid rows sp inputs) ∨
    ∃ o ∈ rows, i.prev = some o.key ∧ i.Draws o ∧
      i.spend height txid = some (o.key, ⟨txid, i.n, height⟩) ∧ o.key ∉ sp.map Prod.fst ∧
      Funded height txid rows (sp ++ [(o.key, ⟨txid, i.n, height⟩)]) inputs := by
  obtain ⟨honce, hunspent, hfunded⟩ := h
  have hfunded' : ∀ j ∈ inputs, ∀ prev ∈ j.prev, ∃ o ∈ rows, o.key = prev ∧ j.Draws o :=
    fun j hj => hfunded j (List.mem_cons_of_mem _ hj)
  cases hprev : i.prev with
  | none =>
    have hspend : i.spend height txid = none := by rw [Input.spend, hprev]; rfl
    rw [List.filterMap_cons_none hspend] at honce hunspent
    exact .inl ⟨rfl, hspend, honce, hunspent, hfunded'⟩
  | some prev =>
    obtain ⟨o, ho, rfl, hdraws⟩ := hfunded i List.mem_cons_self prev hprev
    have hspend : i.spend height txid = some (o.key, ⟨txid, i.n, height⟩) := by
      rw [Input.spend, hprev]
      rfl
    rw [List.filterMap_cons_some hspend, List.map_cons] at honce hunspent
    rw [List.nodup_cons] at honce
    have hunspent' : ∀ k ∈ (inputs.filterMap (Input.spend height txid)).map Prod.fst,
        k ∉ (sp ++ [(o.key, (⟨txid, i.n, height⟩ : Spent))]).map Prod.fst := by
      intro k hk hmem
      rw [List.map_append, List.mem_append, List.map_singleton, List.mem_singleton] at hmem
      obtain hmem | rfl := hmem
      · exact hunspent k (List.mem_cons_of_mem _ hk) hmem
      · exact honce.1 hk
    exact .inr ⟨o, ho, rfl, hdraws, hspend, hunspent _ List.mem_cons_self, honce.2, hunspent',
      hfunded'⟩

/-- The loop over the inputs. -/
theorem applyInputs (hkeys : (rows.map OutputRow.key).Nodup) (inputs : List Input)
    {sp : List ((String × Nat) × Spent)} {ins : List InputRow} {deltas : List Delta}
    (hn : (inputs.map Input.n).Nodup) (hnew : ∀ i ∈ inputs, (txid, i.n) ∉ ins.map InputRow.key)
    (hfunded : Funded height txid rows sp inputs) :
    inputs.foldlM (applyInput height txid)
        ({ t with outputs := mark sp rows, inputs := ins }, deltas) =
      .ok ({ t with outputs := mark (sp ++ inputs.filterMap (Input.spend height txid)) rows
                    inputs := ins ++ inputs.map (inputRow height txid) },
        (inputs.filterMap inputDelta).foldl (fun deltas d => bump d deltas) deltas) := by
  induction inputs generalizing sp ins deltas with
  | nil => simp [pure, Except.pure]
  | cons i inputs ih =>
    rw [List.map_cons, List.nodup_cons] at hn
    have hnew' : ∀ j ∈ inputs, (txid, j.n) ∉ (ins ++ [inputRow height txid i]).map InputRow.key := by
      intro j hj hmem
      rw [List.map_append, List.mem_append, List.map_singleton, List.mem_singleton,
        key_inputRow] at hmem
      obtain hmem | heq := hmem
      · exact hnew j (List.mem_cons_of_mem _ hj) hmem
      · exact hn.1 (List.mem_map.mpr ⟨j, hj, congrArg Prod.snd heq⟩)
    rw [List.foldlM_cons]
    obtain ⟨hprev, hspend, hrest⟩ | ⟨o, ho, hprev, hdraws, hspend, hsp, hrest⟩ := hfunded.cons
    · have hdelta : inputDelta i = none := by rw [inputDelta, hprev]
      rw [List.filterMap_cons_none hspend, List.filterMap_cons_none hdelta,
        applyInput_coinbase hprev (hnew i List.mem_cons_self)]
      refine (ih hn.2 hnew' hrest).trans ?_
      rw [List.append_assoc, List.singleton_append, List.map_cons]
    · rw [List.filterMap_cons_some hspend,
        applyInput_spend hkeys ho hprev hdraws hsp (hnew i List.mem_cons_self)]
      refine (ih hn.2 hnew' hrest).trans ?_
      rw [List.append_assoc, List.singleton_append, List.append_assoc, List.singleton_append,
        List.map_cons, List.filterMap_cons]
      cases inputDelta i <;> rfl

/-- The loop over the outputs. -/
theorem applyOutputs {tx : Tx} (outputs : List Output) {deltas : List Delta}
    (hn : (outputs.map Output.n).Nodup)
    (hnew : ∀ o ∈ outputs, (tx.txid, o.n) ∉ rows.map OutputRow.key) :
    outputs.foldlM (applyOutput height tx) ({ t with outputs := rows }, deltas) =
      .ok ({ t with outputs := rows ++ outputs.map (outputRow height tx) },
        (outputs.filterMap outputDelta).foldl (fun deltas d => bump d deltas) deltas) := by
  induction outputs generalizing rows deltas with
  | nil => simp [pure, Except.pure]
  | cons o outputs ih =>
    rw [List.map_cons, List.nodup_cons] at hn
    have hnew' : ∀ x ∈ outputs, (tx.txid, x.n) ∉ (rows ++ [outputRow height tx o]).map OutputRow.key := by
      intro x hx hmem
      rw [List.map_append, List.mem_append, List.map_singleton, List.mem_singleton] at hmem
      obtain hmem | heq := hmem
      · exact hnew x (List.mem_cons_of_mem _ hx) hmem
      · exact hn.1 (List.mem_map.mpr ⟨x, hx, congrArg Prod.snd heq⟩)
    have hstep : applyOutput height tx ({ t with outputs := rows }, deltas) o =
        .ok ({ t with outputs := rows ++ [outputRow height tx o] },
          (outputDelta o).elim deltas (bump · deltas)) := by
      rw [applyOutput, insertRow_eq_ok (hnew o List.mem_cons_self)]
      unfold outputDelta
      cases o.unspendable with
      | true => rfl
      | false => cases o.address <;> rfl
    rw [List.foldlM_cons, hstep]
    refine (ih hn.2 hnew').trans ?_
    rw [List.append_assoc, List.singleton_append, List.map_cons, List.filterMap_cons]
    cases outputDelta o <;> rfl

/-- The loop over the addresses. -/
theorem applyDeltas {tx : Tx} (deltas : List Delta) {address_txs : List AddressTx}
    {addresses : List AddressRow} (hn : (deltas.map Delta.address).Nodup)
    (hnew : ∀ d ∈ deltas, (d.address, tx.txid) ∉ address_txs.map AddressTx.key) :
    deltas.foldlM (applyDelta height tx) { t with address_txs := address_txs, addresses := addresses } =
      .ok { t with
        address_txs := address_txs ++ deltas.map (addressTx height tx)
        addresses := (deltas.map (addressTx height tx)).foldl (fun rows r => credit r rows)
          addresses } := by
  induction deltas generalizing address_txs addresses with
  | nil => simp [pure, Except.pure]
  | cons d deltas ih =>
    rw [List.map_cons, List.nodup_cons] at hn
    have hnew' : ∀ x ∈ deltas,
        (x.address, tx.txid) ∉ (address_txs ++ [addressTx height tx d]).map AddressTx.key := by
      intro x hx hmem
      rw [List.map_append, List.mem_append, List.map_singleton, List.mem_singleton] at hmem
      obtain hmem | heq := hmem
      · exact hnew x (List.mem_cons_of_mem _ hx) hmem
      · exact hn.1 (List.mem_map.mpr ⟨x, hx, congrArg Prod.fst heq⟩)
    have hstep : applyDelta height tx { t with address_txs := address_txs, addresses := addresses } d =
        .ok { t with address_txs := address_txs ++ [addressTx height tx d]
                     addresses := credit (addressTx height tx d) addresses } := by
      rw [applyDelta, insertRow_eq_ok (hnew d List.mem_cons_self)]
      rfl
    rw [List.foldlM_cons, hstep]
    refine (ih hn.2 hnew').trans ?_
    rw [List.append_assoc, List.singleton_append, List.map_cons]
    rfl

end

/-! ### The rows of a transaction -/

theorem addressTxs_append (es es' : List Entry) :
    addressTxs (es ++ es') = addressTxs es ++ addressTxs es' := List.flatMap_append

theorem addressTxs_singleton (e : Entry) : addressTxs [e] = e.addressTxs := by simp [addressTxs]

theorem inputRows_txid (e : Entry) : ∀ r ∈ e.inputRows, r.txid = e.tx.txid := by
  intro r hr
  obtain ⟨i, -, rfl⟩ := List.mem_map.mp hr
  exact congrArg Prod.fst (key_inputRow e.height e.tx.txid i)

theorem addressTxs_txid (e : Entry) : ∀ r ∈ e.addressTxs, r.txid = e.tx.txid := by
  intro r hr
  obtain ⟨d, -, rfl⟩ := List.mem_map.mp hr
  rfl

/-- The sum of the movements at an address. -/
def total (address : String) (ds : List Delta) : Delta :=
  ⟨address, (ds.map Delta.received).sum, (ds.map Delta.sent).sum, (ds.map Delta.n_out).sum,
    (ds.map Delta.n_in).sum⟩

theorem deltas_eq (e : Entry) : e.deltas = table.group Delta.address total e.moves := by
  refine table.foldl_upsert (fun _ _ => rfl) (fun d => ?_) (fun ds d _ => ?_) e.moves
  · simp [total]
  · simp [total]

theorem addresses_deltas_nodup (e : Entry) : (e.deltas.map Delta.address).Nodup := by
  rw [deltas_eq, table.keys_group fun _ _ => rfl]
  exact table.nodup_eraseDups _

/-- New outputs are not spent. -/
theorem mark_created {es : List Entry} {e : Entry} (hcoins : Coins es) (he : e.Valid es) :
    mark (spendings es ++ e.spends) e.created = e.created := by
  have hknown := (hcoins.append he).known
  conv_rhs => rw [← List.map_id e.created]
  refine List.map_congr_left fun o ho => ?_
  obtain ⟨x, -, rfl⟩ := List.mem_map.mp ho
  have hnone : (spendings es ++ e.spends).lookup (outputRow e.height e.tx x).key = none := by
    refine lookup_eq_none fun hmem => ?_
    rw [List.map_append, List.mem_append] at hmem
    obtain hmem | hmem := hmem
    · exact he.not_known x.n (hcoins.known _ hmem)
    · obtain ⟨i, hi, hprev⟩ := Entry.mem_spends hmem
      obtain ⟨o, ho, hkey, -⟩ := he.funded i hi _ hprev
      exact he.not_known x.n (List.mem_map.mpr ⟨o, ho, hkey⟩)
  rw [hnone]
  rfl

theorem mark_entry {es : List Entry} {e : Entry} (hcoins : Coins es) (he : e.Valid es) :
    mark (spendings (es ++ [e])) (creations (es ++ [e])) =
      mark (spendings es ++ e.spends) (creations es) ++ e.created := by
  rw [spendings_append, spendings_singleton, creations_append, creations_singleton, mark_append,
    mark_created hcoins he]

/-- A valid transaction is applied, and leaves the tables of one more transaction. -/
theorem applyTx_index (t : Tables) {es : List Entry} {e : Entry} (hcoins : Coins es)
    (he : e.Valid es) : applyTx e.height (t.index es) e.tx = .ok (t.index (es ++ [e])) := by
  have htx : TxRow.txid e.txRow ∉ (t.index es).txs.map TxRow.txid := by
    rw [Tables.index, List.map_map]
    exact he.fresh
  have hinput : ∀ i ∈ e.tx.inputs,
      (e.tx.txid, i.n) ∉ (es.flatMap Entry.inputRows).map InputRow.key := by
    intro i _ hmem
    obtain ⟨r, hr, hkey⟩ := List.mem_map.mp hmem
    have htxid : r.txid = e.tx.txid := congrArg Prod.fst hkey
    exact he.fresh (htxid ▸ txid_mem_of_mem inputRows_txid hr)
  have houtput : ∀ o ∈ e.tx.outputs, (e.tx.txid, o.n) ∉
      (mark (spendings es ++ e.spends) (creations es)).map OutputRow.key := by
    intro o _
    rw [keys_mark]
    exact he.not_known o.n
  have hdelta : ∀ d ∈ e.deltas, (d.address, e.tx.txid) ∉ (addressTxs es).map AddressTx.key := by
    intro d _ hmem
    obtain ⟨r, hr, hkey⟩ := List.mem_map.mp hmem
    have htxid : r.txid = e.tx.txid := congrArg Prod.snd hkey
    exact he.fresh (htxid ▸ txid_mem_of_mem addressTxs_txid hr)
  have haddresses : e.addressTxs.foldl (fun rows r => credit r rows) (rollup (addressTxs es)) =
      rollup (addressTxs (es ++ [e])) := by
    rw [addressTxs_append, addressTxs_singleton, rollup, rollup, List.foldl_append]
  refine run.bind_eq_ok.mpr ⟨_, insertRow_eq_ok htx, ?_⟩
  let u := { t.index es with txs := (t.index es).txs ++ [e.txRow] }
  let v := { u with inputs := u.inputs ++ e.inputRows }
  refine run.bind_eq_ok.mpr ⟨_, applyInputs (t := u) hcoins.keys e.tx.inputs he.inputs hinput
    ⟨he.once, he.unspent, he.funded⟩, ?_⟩
  refine run.bind_eq_ok.mpr ⟨_, applyOutputs (t := v) e.tx.outputs he.outputs houtput, ?_⟩
  rw [← List.foldl_append]
  let w := { v with
    outputs := mark (spendings es ++ e.spends) (creations es) ++ e.created }
  refine (applyDeltas (t := w) e.deltas (addresses_deltas_nodup e) hdelta).trans ?_
  rw [Tables.index, mark_entry hcoins he, ← haddresses, List.map_append, List.flatMap_append,
    addressTxs_append, addressTxs_singleton, List.flatMap_singleton]
  rfl

/-- The loop over the transactions of a block. -/
theorem applyTxs_index (t : Tables) (height : Nat) (txs : List Tx) {es : List Entry}
    (hcoins : Coins es) (hvalid : ValidFrom es (txs.map (⟨height, ·⟩))) :
    txs.foldlM (applyTx height) (t.index es) =
      .ok (t.index (es ++ txs.map (⟨height, ·⟩))) := by
  induction txs generalizing es with
  | nil => simp [pure, Except.pure]
  | cons tx txs ih =>
    obtain ⟨he, hrest⟩ := hvalid
    rw [List.foldlM_cons]
    refine run.bind_eq_ok.mpr ⟨_, applyTx_index t (e := ⟨height, tx⟩) hcoins he, ?_⟩
    rw [ih (hcoins.append he) hrest, List.append_assoc, List.singleton_append, List.map_cons]

/-! ### A block -/

section

variable {genesis : String} {chain : List Block} {b : Block}

@[simp]
theorem replay_blocks (chain : List Block) : (replay chain).blocks = chain.map Block.row := rfl

theorem tip_replay (h : Valid genesis chain) :
    (replay chain).tip = ((chain.length : Int) - 1, chain.getLast?.map Block.hash) := by
  induction chain using List.reverseRecOn with
  | nil => rfl
  | append_singleton chain b ih =>
    have hheight := h.height_last
    have hnext : (b.row.height : Int) = (replay chain).tip.1 + 1 := by
      rw [ih h.init, Block.row]
      dsimp only
      omega
    have hblocks : (replay (chain ++ [b])).blocks = (replay chain).blocks ++ [b.row] := by
      rw [replay_blocks, replay_blocks, List.map_append, List.map_singleton]
    rw [tip_append _ hnext hblocks, Block.row, hheight]
    simp

theorem tip_replay_append (h : Valid genesis (chain ++ [b])) :
    (replay (chain ++ [b])).tip = ((b.height : Int), some b.hash) := by
  rw [tip_replay h, h.height_last]
  simp

/-- A valid block is applied, and leaves the tables of one more block. -/
theorem applyLocked_replay (h : Valid genesis (chain ++ [b]))
    (hhash : b.hash ∉ chain.map Block.hash) :
    applyLocked genesis (replay chain) b = .ok (replay (chain ++ [b])) := by
  have hinit := h.init
  have htip := tip_replay hinit
  have hheight := h.height_last
  have hlink : linkError genesis (replay chain) b = none := by
    unfold linkError
    rw [htip, if_neg (by rw [hheight]; simp)]
    split
    · rename_i hzero
      have hnil : chain = [] := List.eq_nil_of_length_eq_zero (hheight ▸ hzero)
      subst hnil
      rw [if_neg (not_not.mpr (h.root b rfl))]
    · rename_i hne
      exact if_neg (not_not.mpr (h.prev_hash_last hne))
  have hrows : b.hash ∉ (replay chain).blocks.map BlockRow.hash := by
    rw [replay_blocks, List.map_map]
    exact hhash
  have hnew : BlockRow.height b.row ∉ (replay chain).blocks.map BlockRow.height := by
    rw [replay_blocks, List.map_map]
    have hheights : chain.map (BlockRow.height ∘ Block.row) = List.range chain.length :=
      hinit.heights
    rw [hheights, List.mem_range, Block.row, hheight]
    exact lt_irrefl _
  have hcoins : Coins (entries chain) := coins_of_validFrom hinit.valid
  rw [applyLocked, hlink]
  simp only [insertBlock, if_neg hrows]
  refine run.bind_eq_ok.mpr ⟨_, insertRow_eq_ok hnew, ?_⟩
  refine run.bind_eq_ok.mpr
    ⟨_, applyTxs_index { replay chain with blocks := (replay chain).blocks ++ [b.row] } b.height
      b.txs hcoins h.validFrom_last, ?_⟩
  refine congrArg Except.ok ?_
  rw [replay, Tables.mirrored]
  change _ = { Tables.index _ _ with
    indexed_height := (replay (chain ++ [b])).tip.1
    indexed_hash := (replay (chain ++ [b])).tip.2 }
  rw [tip_replay_append h, List.map_append, entries_append, entries_singleton]
  rfl

end

end pcoin.explorer
