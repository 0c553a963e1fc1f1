import PCoin.Explorer.Replay

namespace pcoin.explorer

/-- The row of an address, recomputed from its rows of `address_txs` as `verify` does. -/
def recomputed (address : String) (rows : List AddressTx) : AddressRow :=
  { address := address
    balance := (rows.map AddressTx.received).sum - (rows.map AddressTx.sent).sum
    received := (rows.map AddressTx.received).sum
    sent := (rows.map AddressTx.sent).sum
    utxo_count := (rows.map fun r => r.n_out - r.n_in).sum
    tx_count := rows.length
    first_height := (rows.map AddressTx.height).min?.getD 0
    last_height := (rows.map AddressTx.height).max?.getD 0 }

/-- What `verify` compares the row of an address with. -/
def Tables.recompute (t : Tables) (address : String) : Option AddressRow :=
  if address ∈ t.address_txs.map AddressTx.address then
    some (recomputed address (t.address_txs.filter (·.address = address)))
  else none

theorem min_append_singleton {xs : List Nat} (hxs : xs ≠ []) (x : Nat) :
    (xs ++ [x]).min?.getD 0 = min (xs.min?.getD 0) x := by
  cases xs with
  | nil => exact absurd rfl hxs
  | cons y ys => rw [List.cons_append, List.min?_cons', List.min?_cons', List.foldl_append]; rfl

theorem max_append_singleton {xs : List Nat} (hxs : xs ≠ []) (x : Nat) :
    (xs ++ [x]).max?.getD 0 = max (xs.max?.getD 0) x := by
  cases xs with
  | nil => exact absurd rfl hxs
  | cons y ys => rw [List.cons_append, List.max?_cons', List.max?_cons', List.foldl_append]; rfl

/-- The rows that are kept up to date are those that `verify` recomputes. -/
theorem rollup_eq (rows : List AddressTx) :
    rollup rows = table.group AddressTx.address recomputed rows := by
  refine table.foldl_upsert (fun _ _ => rfl) (fun r => ?_) (fun rs r hne => ?_) rows
  · simp [recomputed]
  · have hheights : rs.map AddressTx.height ≠ [] := by simpa using hne
    simp only [recomputed, List.map_append, List.map_singleton, List.sum_append, List.sum_singleton,
      List.length_append, List.length_singleton, min_append_singleton hheights,
      max_append_singleton hheights, AddressRow.mk.injEq, true_and, and_true]
    exact ⟨by omega, by omega⟩

/-! ### Taking a block back -/

/-- The sum of the entries of `deltas` in `_unwind_locked` for an address. -/
def undoTotal (address : String) (rows : List AddressTx) : Undo :=
  ⟨address, (rows.map AddressTx.received).sum, (rows.map AddressTx.sent).sum,
    (rows.map fun r => r.n_out - r.n_in).sum, rows.length⟩

theorem undo_eq (rows : List AddressTx) :
    (rows.map undoOf).foldl (fun deltas d => undoBump d deltas) [] =
      table.group AddressTx.address undoTotal rows := by
  rw [List.foldl_map]
  refine table.foldl_upsert (fun _ _ => rfl) (fun r => ?_) (fun rs r _ => ?_) rows
  · simp [undoTotal, undoOf]
  · simp [undoTotal, undoOf]

/-- The row after the entry of its address is taken from it. -/
def AddressRow.less (a : AddressRow) (d : Undo) : AddressRow :=
  { a with
    balance := a.balance - (d.received - d.sent)
    received := a.received - d.received
    sent := a.sent - d.sent
    utxo_count := a.utxo_count - d.utxo
    tx_count := a.tx_count - d.txs }

/-- The row with the heights that are left, if there are any. -/
def AddressRow.left (heights : List Nat) (a : AddressRow) : Option AddressRow :=
  match heights.min?, heights.max? with
  | some lo, some hi => some { a with first_height := lo, last_height := hi }
  | _, _ => none

/-- The heights of the transactions of an address. -/
def heightsOf (rows : List AddressTx) (address : String) : List Nat :=
  (rows.filter (·.address = address)).map AddressTx.height

/-- To recompute the heights once more changes nothing. -/
theorem left_left {heights : List Nat} {a a' : AddressRow} (h : a.left heights = some a') :
    a'.address = a.address ∧ a'.left heights = some a' := by
  unfold AddressRow.left at h ⊢
  split at h
  · obtain rfl := Option.some.inj h
    exact ⟨rfl, rfl⟩
  · cases h

theorem reheight_eq (rows : List AddressTx) (addresses : List AddressRow) (d : Undo) :
    reheight rows addresses d =
      addresses.filterMap fun a =>
        if a.address = d.address then a.left (heightsOf rows a.address) else some a := by
  have hheights : ∀ a : AddressRow, (if a.address = d.address then
      a.left (heightsOf rows a.address) else some a) =
        if a.address = d.address then a.left (heightsOf rows d.address) else some a := by
    intro a
    split
    · rename_i heq
      rw [heq]
    · rfl
  rw [List.filterMap_congr fun a _ => hheights a]
  unfold reheight AddressRow.left heightsOf
  dsimp only
  split
  · rw [table.update, ← List.filterMap_eq_map]
    rename_i lo hi hlo hhi
    refine List.filterMap_congr fun a _ => ?_
    simp only [Function.comp_apply, apply_ite some, hlo, hhi]
  · rw [← List.filterMap_eq_filter]
    refine List.filterMap_congr fun a _ => ?_
    by_cases heq : a.address = d.address
    · simp [Option.guard, heq]
    · simp [Option.guard, heq]

theorem foldl_reheight (rows : List AddressTx) (deltas : List Undo) (addresses : List AddressRow) :
    deltas.foldl (reheight rows) addresses =
      addresses.filterMap fun a =>
        if a.address ∈ deltas.map Undo.address then a.left (heightsOf rows a.address) else some a := by
  induction deltas generalizing addresses with
  | nil => simp
  | cons d deltas ih =>
    rw [List.foldl_cons, ih, reheight_eq, List.filterMap_filterMap]
    refine List.filterMap_congr fun a _ => ?_
    by_cases hd : a.address = d.address
    · have hmem : a.address ∈ (d :: deltas).map Undo.address := by
        rw [hd]
        exact List.mem_cons_self
      rw [if_pos hd, if_pos hmem]
      cases hleft : a.left (heightsOf rows a.address) with
      | none => rfl
      | some a' =>
        obtain ⟨haddress, hagain⟩ := left_left hleft
        rw [Option.bind_some, haddress, hagain, ite_self]
    · have hmem : a.address ∈ (d :: deltas).map Undo.address ↔
          a.address ∈ deltas.map Undo.address := by
        rw [List.map_cons, List.mem_cons, or_iff_right hd]
      rw [if_neg hd, Option.bind_some]
      simp only [hmem]

theorem undoTotal_congr {rows rows' : List AddressTx} (hperm : rows.Perm rows') (address : String) :
    undoTotal address rows = undoTotal address rows' := by
  simp only [undoTotal, (hperm.map _).sum_eq, hperm.length_eq]

/-- What is left of a row when the entry of the later transactions is taken from it. -/
theorem recomputed_less (address : String) (rows added : List AddressTx) :
    ((recomputed address (rows ++ added)).less (undoTotal address added)).left
        (rows.map AddressTx.height) =
      if rows = [] then none else some (recomputed address rows) := by
  cases rows with
  | nil => rfl
  | cons r rows =>
    rw [if_neg (List.cons_ne_nil r rows), List.map_cons, AddressRow.left, List.min?_cons',
      List.max?_cons']
    simp only [AddressRow.less, undoTotal, recomputed, List.map_append, List.sum_append,
      List.length_append, List.map_cons, List.min?_cons', List.max?_cons', Option.getD_some,
      Option.some.injEq, AddressRow.mk.injEq, true_and, and_true]
    refine ⟨?_, ?_, ?_, ?_, ?_⟩
    all_goals omega

theorem foldl_less_address (deltas : List Undo) (a : AddressRow) :
    (deltas.foldl AddressRow.less a).address = a.address := by
  induction deltas generalizing a with
  | nil => rfl
  | cons d deltas ih => exact ih (a.less d)

theorem foldl_debit (deltas : List Undo) (addresses : List AddressRow) :
    deltas.foldl debit addresses =
      addresses.map fun a => (deltas.filter (·.address = a.address)).foldl AddressRow.less a := by
  refine table.foldl_update Undo.address (fun d (a : AddressRow) => a.less d) (fun d a => ?_) deltas
    addresses
  rfl

/-- What becomes of a row when `deltas` are taken back. -/
def AddressRow.unwound (rows : List AddressTx) (deltas : List Undo) (a : AddressRow) :
    Option AddressRow :=
  if a.address ∈ deltas.map Undo.address then
    ((deltas.filter (·.address = a.address)).foldl AddressRow.less a).left (heightsOf rows a.address)
  else some a

theorem foldl_reheight_debit (rows : List AddressTx) (deltas : List Undo)
    (addresses : List AddressRow) :
    deltas.foldl (reheight rows) (deltas.foldl debit addresses) =
      addresses.filterMap (AddressRow.unwound rows deltas) := by
  rw [foldl_reheight, foldl_debit, List.filterMap_map]
  refine List.filterMap_congr fun a _ => ?_
  rw [Function.comp_apply, foldl_less_address, AddressRow.unwound]
  by_cases ha : a.address ∈ deltas.map Undo.address
  · rw [if_pos ha, if_pos ha]
  · rw [if_neg ha, if_neg ha, table.filter_eq_nil ha, List.foldl_nil]

theorem unwound_recomputed {rows added removed : List AddressTx} (hperm : removed.Perm added)
    (a : String) :
    (recomputed a ((rows ++ added).filter (·.address = a))).unwound rows
        (table.group AddressTx.address undoTotal removed) =
      if a ∈ rows.map AddressTx.address ∨ a ∉ added.map AddressTx.address then
        some (recomputed a (rows.filter (·.address = a)))
      else none := by
  have hkeys : a ∈ (table.group AddressTx.address undoTotal removed).map Undo.address ↔
      a ∈ added.map AddressTx.address := by
    rw [table.keys_group fun _ _ => rfl, List.mem_eraseDups]
    exact (hperm.map _).mem_iff
  have haddress : (recomputed a ((rows ++ added).filter (·.address = a))).address = a := rfl
  unfold AddressRow.unwound
  rw [haddress, List.filter_append]
  by_cases ha : a ∈ added.map AddressTx.address
  · have htotal : undoTotal a (removed.filter (·.address = a)) =
        undoTotal a (added.filter (·.address = a)) := undoTotal_congr (hperm.filter _) a
    rw [if_pos (hkeys.mpr ha), table.filter_group fun _ _ => rfl,
      if_pos ((hperm.map _).mem_iff.mpr ha), List.foldl_cons, List.foldl_nil, htotal, heightsOf,
      recomputed_less]
    by_cases hrows : a ∈ rows.map AddressTx.address
    · obtain ⟨r, hr, rfl⟩ := List.mem_map.mp hrows
      have hne : rows.filter (·.address = r.address) ≠ [] :=
        List.ne_nil_of_mem (List.mem_filter.mpr ⟨hr, by simp⟩)
      rw [if_neg hne, if_pos (.inl hrows)]
    · rw [if_pos (table.filter_eq_nil hrows), if_neg (by simp only [hrows, ha, not_true, or_self, not_false_eq_true])]
  · rw [if_neg fun h => ha (hkeys.mp h), if_pos (.inr ha), table.filter_eq_nil ha, List.append_nil]

/-- The rows that a block added to `address_txs` are taken from the rollup. -/
theorem rollup_unwind {rows added removed : List AddressTx} (hperm : removed.Perm added) :
    let deltas := (removed.map undoOf).foldl (fun deltas d => undoBump d deltas) []
    deltas.foldl (reheight rows) (deltas.foldl debit (rollup (rows ++ added))) = rollup rows := by
  intro deltas
  have hdeltas : deltas = table.group AddressTx.address undoTotal removed := undo_eq removed
  rw [foldl_reheight_debit, rollup_eq, rollup_eq, table.group, List.filterMap_map,
    List.map_append, List.eraseDups_append, List.filterMap_append, table.group]
  have hkept : ∀ a ∈ (rows.map AddressTx.address).eraseDups,
      (recomputed a ((rows ++ added).filter (·.address = a))).unwound rows deltas =
      (some ∘ fun a => recomputed a (rows.filter (·.address = a))) a := by
    intro a ha
    rw [hdeltas, unwound_recomputed hperm, if_pos (.inl (List.mem_eraseDups.mp ha))]
    rfl
  have hgone : ∀ a ∈ ((added.map AddressTx.address).removeAll (rows.map AddressTx.address)).eraseDups,
      (recomputed a ((rows ++ added).filter (·.address = a))).unwound rows deltas = none := by
    intro a ha
    rw [List.mem_eraseDups, List.removeAll, List.mem_filter] at ha
    rw [hdeltas, unwound_recomputed hperm, if_neg]
    rintro (hrows | hadded)
    · simp [hrows] at ha
    · exact hadded ha.1
  rw [Function.comp_def, List.filterMap_congr hkept, List.filterMap_eq_map, List.filterMap_eq_nil_iff.mpr hgone,
    List.append_nil]

end pcoin.explorer
