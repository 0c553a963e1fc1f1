import PCoin.Explorer.Rollup

namespace pcoin.explorer

/-! ### Restoring outputs -/

/-- The rows after the outputs of a list are restored. -/
def restored (txid : String) (ps : List (String × Nat)) (outputs : List OutputRow) :
    List OutputRow :=
  outputs.map fun o => if o.key ∈ ps ∧ o.spentBy txid then { o with spent := none } else o

theorem keys_restored (txid : String) (ps : List (String × Nat)) (outputs : List OutputRow) :
    (restored txid ps outputs).map OutputRow.key = outputs.map OutputRow.key := by
  rw [restored, List.map_map]
  refine List.map_congr_left fun o _ => ?_
  rw [Function.comp_apply]
  split <;> rfl

theorem restored_cons (txid : String) (p : String × Nat) (ps : List (String × Nat))
    (outputs : List OutputRow) :
    restored txid ps (restored txid [p] outputs) = restored txid (p :: ps) outputs := by
  rw [restored, restored, restored, List.map_map]
  refine List.map_congr_left fun o _ => ?_
  rw [Function.comp_apply]
  cases hspent : o.spentBy txid with
  | false => simp [hspent]
  | true =>
    by_cases hp : o.key = p
    · simp [hp, OutputRow.spentBy]
    · simp [hspent, hp]

theorem restore_eq_ok {txid : String} {p : String × Nat} {outputs : List OutputRow}
    (hkeys : (outputs.map OutputRow.key).Nodup)
    (hspent : ∃ o ∈ outputs, o.key = p ∧ o.spentBy txid) :
    restore txid outputs p = .ok (restored txid [p] outputs) := by
  obtain ⟨o, ho, rfl, hby⟩ := hspent
  have hfilter : (outputs.filter fun x => x.key = o.key ∧ x.spentBy txid) = [o] :=
    table.filter_key_and hkeys ho hby
  rw [restore, hfilter, if_neg (by simp), restored]
  simp only [List.mem_singleton]

/-- The loop that restores outputs, in whatever order they come. -/
theorem foldlM_restore {txid : String} (ps : List (String × Nat)) {outputs : List OutputRow}
    (hkeys : (outputs.map OutputRow.key).Nodup) (hps : ps.Nodup)
    (hspent : ∀ p ∈ ps, ∃ o ∈ outputs, o.key = p ∧ o.spentBy txid) :
    ps.foldlM (restore txid) outputs = .ok (restored txid ps outputs) := by
  induction ps generalizing outputs with
  | nil => simp [restored, pure, Except.pure]
  | cons p ps ih =>
    rw [List.nodup_cons] at hps
    rw [List.foldlM_cons]
    refine run.bind_eq_ok.mpr ⟨_, restore_eq_ok hkeys (hspent p List.mem_cons_self), ?_⟩
    rw [ih (by rwa [keys_restored]) hps.2 fun q hq => ?_, restored_cons]
    obtain ⟨o, ho, hkey, hby⟩ := hspent q (List.mem_cons_of_mem _ hq)
    have hne : ¬(o.key ∈ [p] ∧ o.spentBy txid) := by
      rintro ⟨hmem, -⟩
      rw [List.mem_singleton] at hmem
      exact hps.1 (hmem ▸ hkey ▸ hq)
    exact ⟨o, List.mem_map.mpr ⟨o, ho, if_neg hne⟩, hkey, hby⟩

/-! ### The rows of a transaction -/

section

variable {es : List Entry} {e : Entry} {α : Type*} {f : Entry → List α} {txid : α → String}

theorem filter_others (he : e.Valid es) (hf : ∀ e, ∀ r ∈ f e, txid r = e.tx.txid) :
    (((es ++ [e]).flatMap f).filter fun r => txid r ≠ e.tx.txid) = es.flatMap f := by
  have hown : ((f e).filter fun r => txid r ≠ e.tx.txid) = [] := by
    rw [List.filter_eq_nil_iff]
    intro r hr
    simp [hf e r hr]
  have hothers : ((es.flatMap f).filter fun r => txid r ≠ e.tx.txid) = es.flatMap f := by
    rw [List.filter_eq_self]
    intro r hr
    exact decide_eq_true fun heq => he.fresh (heq ▸ txid_mem_of_mem hf hr)
  rw [List.flatMap_append, List.filter_append, hothers, List.flatMap_singleton, hown,
    List.append_nil]

theorem filter_own (he : e.Valid es) (hf : ∀ e, ∀ r ∈ f e, txid r = e.tx.txid) :
    (((es ++ [e]).flatMap f).filter fun r => txid r = e.tx.txid) = f e := by
  have hown : ((f e).filter fun r => txid r = e.tx.txid) = f e := by
    rw [List.filter_eq_self]
    intro r hr
    exact decide_eq_true (hf e r hr)
  have hothers : ((es.flatMap f).filter fun r => txid r = e.tx.txid) = [] := by
    rw [List.filter_eq_nil_iff]
    intro r hr heq
    exact he.fresh (of_decide_eq_true heq ▸ txid_mem_of_mem hf hr)
  rw [List.flatMap_append, List.filter_append, hothers, List.flatMap_singleton, hown,
    List.nil_append]

end

section

variable {es : List Entry} {e : Entry} (t : Tables)

theorem prev_inputRows (e : Entry) :
    e.inputRows.filterMap InputRow.prev = e.spends.map Prod.fst := by
  rw [Entry.inputRows, List.filterMap_map, Entry.spends, List.map_filterMap]
  refine List.filterMap_congr fun i _ => ?_
  rw [Function.comp_apply, inputRow, Input.spend]
  cases i.prev <;> rfl

/-- The outputs that are restored are those that the transaction spent. -/
theorem spends_index (he : e.Valid es) (a : List AddressRow) :
    (spends { t.index (es ++ [e]) with addresses := a } e.tx.txid).Perm (e.spends.map Prod.fst) := by
  have hrows : ({ t.index (es ++ [e]) with addresses := a } : Tables).inputs =
      (es ++ [e]).flatMap Entry.inputRows := rfl
  have hfilter : (((es ++ [e]).flatMap Entry.inputRows).filter
      fun i => i.txid = e.tx.txid && i.prev.isSome) = e.inputRows.filter (·.prev.isSome) := by
    conv_rhs => rw [← filter_own he inputRows_txid, List.filter_filter]
    refine List.filter_congr fun i _ => ?_
    rw [Bool.and_comm]
  rw [spends, hrows, hfilter, ← prev_inputRows]
  refine ((List.perm_insertionSort _ _).filterMap _).trans ?_
  rw [List.filterMap_filter]
  refine List.Perm.of_eq (List.filterMap_congr fun i _ => ?_)
  cases i.prev <;> rfl

theorem lookup_spends {k : String × Nat} (hk : k ∈ e.spends.map Prod.fst) :
    ∃ x, e.spends.lookup k = some x ∧ x.by_txid = e.tx.txid := by
  cases hlookup : e.spends.lookup k with
  | none =>
    obtain ⟨p, hp, rfl⟩ := List.mem_map.mp hk
    have hne := List.lookup_eq_none_iff.mp hlookup p hp
    simp at hne
  | some x =>
    obtain ⟨l, l', heq, -⟩ := List.lookup_eq_some_iff.mp hlookup
    have hmem : (k, x) ∈ e.spends := by rw [heq]; simp
    obtain ⟨i, -, hspend⟩ := List.mem_filterMap.mp hmem
    obtain ⟨prev, -, hpair⟩ := Option.map_eq_some_iff.mp hspend
    obtain rfl := congrArg Prod.snd hpair
    exact ⟨_, rfl, rfl⟩

/-- What is restored is as it was before the transaction. -/
theorem restored_mark (hcoins : Coins es) (he : e.Valid es) {ps : List (String × Nat)}
    (hps : ps.Perm (e.spends.map Prod.fst)) :
    restored e.tx.txid ps (mark (spendings (es ++ [e])) (creations (es ++ [e]))) =
      mark (spendings es) (creations es) ++ e.created := by
  rw [mark_entry hcoins he, restored, List.map_append]
  congr 1
  · rw [mark, mark, List.map_map]
    refine List.map_congr_left fun o _ => ?_
    rw [Function.comp_apply]
    by_cases hk : o.key ∈ ps
    · have hmem := hps.mem_iff.mp hk
      obtain ⟨x, hlookup, hby⟩ := lookup_spends hmem
      have hold : (spendings es).lookup o.key = none := lookup_eq_none (he.unspent _ hmem)
      have hnew : (spendings es ++ e.spends).lookup o.key = some x := by
        rw [List.lookup_append, hold, hlookup]
        rfl
      rw [hnew, hold, if_pos ⟨hk, by simp [OutputRow.spentBy, hby]⟩]
    · have hnone : e.spends.lookup o.key = none :=
        lookup_eq_none fun hmem => hk (hps.mem_iff.mpr hmem)
      rw [if_neg fun h => hk h.1, List.lookup_append, hnone, Option.or_none]
  · conv_rhs => rw [← List.map_id e.created]
    refine List.map_congr_left fun o ho => ?_
    obtain ⟨x, -, rfl⟩ := List.mem_map.mp ho
    exact if_neg fun h => Bool.false_ne_true h.2

/-- The last transaction is unwound, up to the rollup. -/
theorem unwindTx_index (hcoins : Coins es) (he : e.Valid es) (a : List AddressRow)
    (deltas : List Undo) :
    unwindTx ({ t.index (es ++ [e]) with addresses := a }, deltas) e.txRow =
      .ok ({ t.index es with addresses := a },
        (e.addressTxs.map undoOf).foldl (fun deltas d => undoBump d deltas) deltas) := by
  let u : Tables := { t.index (es ++ [e]) with addresses := a }
  have houtputs : u.outputs = mark (spendings (es ++ [e])) (creations (es ++ [e])) := rfl
  have hps : (spends u e.tx.txid).Perm (e.spends.map Prod.fst) := spends_index t he a
  have hstuck : (u.outputs.any fun o => o.txid = e.tx.txid && o.spent.isSome) = false := by
    rw [houtputs, mark_entry hcoins he, List.any_eq_false]
    intro o ho
    obtain ho | ho := List.mem_append.mp ho
    · obtain ⟨x, hx, rfl⟩ := List.mem_map.mp ho
      have hne : x.txid ≠ e.tx.txid :=
        fun heq => he.fresh (heq ▸ txid_mem_of_mem created_txid hx)
      simp [hne]
    · obtain ⟨x, -, rfl⟩ := List.mem_map.mp ho
      simp [outputRow]
  have hspent : ∀ p ∈ spends u e.tx.txid, ∃ o ∈ u.outputs, o.key = p ∧ o.spentBy e.tx.txid := by
    intro p hp
    have hmem := hps.mem_iff.mp hp
    obtain ⟨i, hi, hprev⟩ := Entry.mem_spends hmem
    obtain ⟨o, ho, rfl, -⟩ := he.funded i hi p hprev
    obtain ⟨x, hlookup, hby⟩ := lookup_spends hmem
    have hnew : (spendings es ++ e.spends).lookup o.key = some x := by
      rw [List.lookup_append, lookup_eq_none (he.unspent _ hmem), hlookup]
      rfl
    rw [houtputs, mark_entry hcoins he]
    refine ⟨_, List.mem_append_left _ (List.mem_map.mpr ⟨o, ho, rfl⟩), rfl, ?_⟩
    simp [OutputRow.spentBy, hnew, hby]
  have hkeys : (u.outputs.map OutputRow.key).Nodup := by
    rw [houtputs, keys_mark]
    exact (hcoins.append he).keys
  have hkept : (restored e.tx.txid (spends u e.tx.txid) u.outputs).filter (·.txid ≠ e.tx.txid) =
      mark (spendings es) (creations es) := by
    have hothers : (mark (spendings es) (creations es)).filter (·.txid ≠ e.tx.txid) =
        mark (spendings es) (creations es) := by
      rw [List.filter_eq_self]
      intro o ho
      obtain ⟨x, hx, rfl⟩ := List.mem_map.mp ho
      have hne : x.txid ≠ e.tx.txid := fun heq =>
        he.fresh (heq ▸ txid_mem_of_mem created_txid hx)
      exact decide_eq_true hne
    have hown : e.created.filter (·.txid ≠ e.tx.txid) = [] := by
      rw [List.filter_eq_nil_iff]
      intro o ho
      simp [created_txid e o ho]
    rw [houtputs, restored_mark hcoins he hps, List.filter_append, hothers, hown, List.append_nil]
  have htxs : u.txs.filter (·.txid ≠ e.tx.txid) = (t.index es).txs := by
    have hmap : ∀ es, (t.index es).txs = es.flatMap fun e => [e.txRow] :=
      fun _ => List.map_eq_flatMap
    rw [hmap, hmap]
    refine filter_others he fun e r hr => ?_
    rw [List.mem_singleton.mp hr]
    rfl
  have hinputs : u.inputs.filter (·.txid ≠ e.tx.txid) = (t.index es).inputs :=
    filter_others he inputRows_txid
  have haddress : u.address_txs.filter (·.txid ≠ e.tx.txid) = (t.index es).address_txs :=
    filter_others he addressTxs_txid
  have hundo : u.address_txs.filter (·.txid = e.tx.txid) = e.addressTxs :=
    filter_own he addressTxs_txid
  have hid : e.txRow.txid = e.tx.txid := rfl
  simp only [unwindTx, hid]
  rw [if_neg (by rw [hstuck]; exact Bool.false_ne_true)]
  refine run.bind_eq_ok.mpr ⟨_, foldlM_restore _ hkeys (hps.nodup_iff.mpr he.once) hspent, ?_⟩
  rw [hkept, htxs, hinputs, haddress, hundo]
  rfl

end

/-! ### A block -/

theorem Coins.extend {es : List Entry} (rest : List Entry) (h : Coins es)
    (hvalid : ValidFrom es rest) : Coins (es ++ rest) := by
  induction rest generalizing es with
  | nil => rwa [List.append_nil]
  | cons e rest ih =>
    rw [← List.singleton_append, ← List.append_assoc]
    exact ih (h.append hvalid.1) hvalid.2

/-- The loop over the transactions of a block, the last first. -/
theorem unwindTxs_index (t : Tables) {es : List Entry} (rest : List Entry) (hcoins : Coins es)
    (hvalid : ValidFrom es rest) (a : List AddressRow) (deltas : List Undo) :
    (rest.reverse.map Entry.txRow).foldlM unwindTx
        ({ t.index (es ++ rest) with addresses := a }, deltas) =
      .ok ({ t.index es with addresses := a },
        ((addressTxs rest.reverse).map undoOf).foldl (fun deltas d => undoBump d deltas) deltas) := by
  induction rest using List.reverseRecOn generalizing deltas with
  | nil => simp [addressTxs, pure, Except.pure]
  | append_singleton rest e ih =>
    have hrest := (validFrom_append.mp hvalid).1
    rw [List.reverse_append, List.reverse_singleton, List.singleton_append, List.map_cons,
      List.foldlM_cons, ← List.append_assoc]
    refine run.bind_eq_ok.mpr
      ⟨_, unwindTx_index t (hcoins.extend rest hrest) hvalid.last a deltas, ?_⟩
    rw [ih hrest, ← List.singleton_append, addressTxs_append, addressTxs_singleton, List.map_append,
      List.foldl_append]

section

variable {genesis : String} {chain : List Block} {b : Block}

theorem Valid.block_height_lt (h : Valid genesis (chain ++ [b])) {a : Block} (ha : a ∈ chain) :
    a.height < b.height := by
  have hmem : a.height ∈ chain.map Block.height := List.mem_map_of_mem ha
  rw [h.init.heights, List.mem_range] at hmem
  rwa [h.height_last]

theorem Valid.height_lt (h : Valid genesis (chain ++ [b])) {e : Entry} (he : e ∈ entries chain) :
    e.height < b.height := by
  obtain ⟨a, ha, he⟩ := List.mem_flatMap.mp he
  obtain ⟨tx, -, rfl⟩ := List.mem_map.mp he
  exact h.block_height_lt ha

/-- The transactions of the last block, the last first. -/
theorem txsAt_replay (h : Valid genesis (chain ++ [b])) :
    txsAt (replay (chain ++ [b])) b.height = b.entries.reverse.map Entry.txRow := by
  have hold : ((entries chain).map Entry.txRow).filter (fun r => (r.height : Int) = b.height) = [] := by
    rw [List.filter_eq_nil_iff]
    intro r hr hheight
    obtain ⟨e, he, rfl⟩ := List.mem_map.mp hr
    have hlt := h.height_lt he
    have heq : (e.height : Int) = b.height := of_decide_eq_true hheight
    omega
  have hnew : (b.entries.map Entry.txRow).filter (fun r => (r.height : Int) = b.height) =
      b.entries.map Entry.txRow := by
    rw [List.filter_eq_self]
    intro r hr
    obtain ⟨e, he, rfl⟩ := List.mem_map.mp hr
    obtain ⟨tx, -, rfl⟩ := List.mem_map.mp he
    exact decide_eq_true rfl
  have hordered : (b.entries.map Entry.txRow).Pairwise (·.block_index < ·.block_index) := by
    rw [Block.entries, List.map_map, List.pairwise_map]
    exact h.ordered b (by simp)
  have hrows : (replay (chain ++ [b])).txs =
      (entries chain).map Entry.txRow ++ b.entries.map Entry.txRow := by
    rw [← entries_singleton b, ← List.map_append, ← entries_append]
    rfl
  rw [txsAt, hrows, List.filter_append, hold, hnew, List.nil_append,
    table.insertionSort_desc hordered, List.map_reverse]

/-- The last block is unwound, and leaves the tables of the blocks before it. -/
theorem unwindLocked_replay (h : Valid genesis (chain ++ [b])) :
    unwindLocked (replay (chain ++ [b])) b.height = .ok (replay chain) := by
  have htip := tip_replay_append h
  have hhash : (replay (chain ++ [b])).hashAt b.height ≠ none := by
    intro hnone
    rw [Tables.hashAt, Option.map_eq_none_iff] at hnone
    exact table.find_eq_none hnone b.row (by simp) rfl
  have hcoins : Coins (entries chain) := coins_of_validFrom h.init.valid
  let u := replay (chain ++ [b])
  have hindex : u = { u.index (entries chain ++ b.entries) with addresses := u.addresses } := by
    rw [← entries_singleton, ← entries_append]
    rfl
  have hblocks : (u.index (entries chain)).blocks.filter (fun r => (r.height : Int) ≠ b.height) =
      chain.map Block.row := by
    have hrows : (u.index (entries chain)).blocks = chain.map Block.row ++ [b.row] := by
      simp [u, Tables.index]
    have hold : (chain.map Block.row).filter (fun r => (r.height : Int) ≠ b.height) =
        chain.map Block.row := by
      rw [List.filter_eq_self]
      intro r hr
      obtain ⟨b', hb', rfl⟩ := List.mem_map.mp hr
      have hlt := h.block_height_lt hb'
      have hne : (b'.height : Int) ≠ b.height := by omega
      exact decide_eq_true hne
    have hnew : [b.row].filter (fun r => (r.height : Int) ≠ b.height) = [] := by simp [Block.row]
    rw [hrows, List.filter_append, hold, hnew, List.append_nil]
  let deltas := ((addressTxs b.entries.reverse).map undoOf).foldl
    (fun deltas d => undoBump d deltas) []
  have hrollup : deltas.foldl (reheight (u.index (entries chain)).address_txs)
      (deltas.foldl debit u.addresses) = rollup (addressTxs (entries chain)) := by
    have haddresses : u.addresses = rollup (addressTxs (entries chain) ++ addressTxs b.entries) := by
      rw [← addressTxs_append, ← entries_singleton, ← entries_append]
      rfl
    rw [haddresses]
    exact rollup_unwind ((List.reverse_perm b.entries).flatMap_right Entry.addressTxs)
  have htxs := unwindTxs_index u b.entries hcoins h.validFrom_last u.addresses []
  rw [← hindex] at htxs
  rw [unwindLocked, if_neg (by rw [htip]; simp), if_neg hhash, txsAt_replay h]
  refine run.bind_eq_ok.mpr ⟨_, htxs, congrArg Except.ok ?_⟩
  dsimp only
  rw [hrollup, hblocks]
  rfl

end

end pcoin.explorer
