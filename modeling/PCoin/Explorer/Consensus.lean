import PCoin.Explorer.Index
import PCoin.Table.Group
import Mathlib.Data.List.Chain

namespace pcoin.explorer

/-- A transaction of a chain, with the height of its block. -/
structure Entry where
  height : Nat
  tx : Tx
deriving DecidableEq

def Block.entries (b : Block) : List Entry := b.txs.map (⟨b.height, ·⟩)

def entries (chain : List Block) : List Entry := chain.flatMap Block.entries

/-- The outputs that a transaction creates. -/
def Entry.created (e : Entry) : List OutputRow := e.tx.outputs.map (outputRow e.height e.tx)

def creations (es : List Entry) : List OutputRow := es.flatMap Entry.created

/-- The output that an input spends, with the columns that say so. -/
def Input.spend (height : Nat) (txid : String) (i : Input) : Option ((String × Nat) × Spent) :=
  i.prev.map fun prev => (prev, ⟨txid, i.n, height⟩)

/-- The outputs that a transaction spends. -/
def Entry.spends (e : Entry) : List ((String × Nat) × Spent) :=
  e.tx.inputs.filterMap (Input.spend e.height e.tx.txid)

def spendings (es : List Entry) : List ((String × Nat) × Spent) := es.flatMap Entry.spends

/-- An input spends the output, as the undo data of the node have it. -/
def Input.Draws (i : Input) (o : OutputRow) : Prop :=
  o.unspendable = false ∧ some o.value = i.value ∧ o.address = i.address

instance (i : Input) (o : OutputRow) : Decidable (i.Draws o) := inferInstanceAs (Decidable (_ ∧ _))

/-- The rules that a transaction meets after those before it: its id is new, what it numbers it
numbers apart, and each input spends another output that exists and was not spent. -/
structure Entry.Valid (es : List Entry) (e : Entry) : Prop where
  fresh : e.tx.txid ∉ es.map (·.tx.txid)
  inputs : (e.tx.inputs.map Input.n).Nodup
  outputs : (e.tx.outputs.map Output.n).Nodup
  once : (e.spends.map Prod.fst).Nodup
  unspent : ∀ prev ∈ e.spends.map Prod.fst, prev ∉ (spendings es).map Prod.fst
  funded : ∀ i ∈ e.tx.inputs, ∀ prev ∈ i.prev, ∃ o ∈ creations es, o.key = prev ∧ i.Draws o

instance (es : List Entry) (e : Entry) : Decidable (e.Valid es) :=
  decidable_of_iff
    (e.tx.txid ∉ es.map (·.tx.txid) ∧ (e.tx.inputs.map Input.n).Nodup ∧
      (e.tx.outputs.map Output.n).Nodup ∧ (e.spends.map Prod.fst).Nodup ∧
      (∀ prev ∈ e.spends.map Prod.fst, prev ∉ (spendings es).map Prod.fst) ∧
      ∀ i ∈ e.tx.inputs, ∀ prev ∈ i.prev, ∃ o ∈ creations es, o.key = prev ∧ i.Draws o)
    ⟨fun ⟨a, b, c, d, e, f⟩ => ⟨a, b, c, d, e, f⟩, fun ⟨a, b, c, d, e, f⟩ => ⟨a, b, c, d, e, f⟩⟩

/-- Every transaction is valid after those before it. -/
def ValidFrom (es : List Entry) : List Entry → Prop
  | [] => True
  | e :: rest => e.Valid es ∧ ValidFrom (es ++ [e]) rest

instance decidableValidFrom : (es rest : List Entry) → Decidable (ValidFrom es rest)
  | _, [] => .isTrue trivial
  | es, e :: rest =>
    have := decidableValidFrom (es ++ [e]) rest
    inferInstanceAs (Decidable (_ ∧ _))

/-- What consensus makes sure of for a chain that starts at the genesis block. -/
structure Valid (genesis : String) (chain : List Block) : Prop where
  heights : chain.map Block.height = List.range chain.length
  root : ∀ b ∈ chain.head?, b.hash = genesis
  linked : chain.IsChain fun a b => b.prev_hash = some a.hash
  ordered : ∀ b ∈ chain, b.txs.Pairwise (·.block_index < ·.block_index)
  valid : ValidFrom [] (entries chain)

instance (genesis : String) (chain : List Block) : Decidable (Valid genesis chain) :=
  decidable_of_iff
    (chain.map Block.height = List.range chain.length ∧ (∀ b ∈ chain.head?, b.hash = genesis) ∧
      (chain.IsChain fun a b => b.prev_hash = some a.hash) ∧
      (∀ b ∈ chain, b.txs.Pairwise (·.block_index < ·.block_index)) ∧
      ValidFrom [] (entries chain))
    ⟨fun ⟨a, b, c, d, e⟩ => ⟨a, b, c, d, e⟩, fun ⟨a, b, c, d, e⟩ => ⟨a, b, c, d, e⟩⟩

/-! ### Parts of a chain -/

theorem entries_append (chain chain' : List Block) :
    entries (chain ++ chain') = entries chain ++ entries chain' := List.flatMap_append

theorem entries_singleton (b : Block) : entries [b] = b.entries := by simp [entries]

theorem creations_append (es es' : List Entry) :
    creations (es ++ es') = creations es ++ creations es' := List.flatMap_append

theorem spendings_append (es es' : List Entry) :
    spendings (es ++ es') = spendings es ++ spendings es' := List.flatMap_append

theorem creations_singleton (e : Entry) : creations [e] = e.created := by simp [creations]

theorem spendings_singleton (e : Entry) : spendings [e] = e.spends := by simp [spendings]

theorem validFrom_append {es rest rest' : List Entry} :
    ValidFrom es (rest ++ rest') ↔ ValidFrom es rest ∧ ValidFrom (es ++ rest) rest' := by
  induction rest generalizing es with
  | nil => simp [ValidFrom]
  | cons e rest ih =>
    rw [List.cons_append, ValidFrom, ValidFrom, ih, List.append_assoc, List.singleton_append,
      and_assoc]

theorem ValidFrom.last {es rest : List Entry} {e : Entry} (h : ValidFrom es (rest ++ [e])) :
    e.Valid (es ++ rest) := (validFrom_append.mp h).2.1

/-! ### Coins -/

/-- Rows of a table that name the transaction they come from. -/
theorem txid_mem_of_mem {α : Type*} {f : Entry → List α} {txid : α → String}
    (hf : ∀ e, ∀ r ∈ f e, txid r = e.tx.txid) {es : List Entry} {r : α} (hr : r ∈ es.flatMap f) :
    txid r ∈ es.map (·.tx.txid) := by
  obtain ⟨e, he, hr⟩ := List.mem_flatMap.mp hr
  rw [hf e r hr]
  exact List.mem_map_of_mem he

theorem created_txid (e : Entry) : ∀ o ∈ e.created, o.txid = e.tx.txid := by
  intro o ho
  obtain ⟨x, -, rfl⟩ := List.mem_map.mp ho
  rfl

theorem keys_created (e : Entry) :
    e.created.map OutputRow.key = (e.tx.outputs.map Output.n).map (e.tx.txid, ·) := by
  rw [Entry.created, List.map_map, List.map_map]
  rfl

/-- No output of a transaction is known before it. -/
theorem Entry.Valid.not_known {es : List Entry} {e : Entry} (he : e.Valid es) (n : Nat) :
    (e.tx.txid, n) ∉ (creations es).map OutputRow.key := by
  intro hmem
  obtain ⟨o, ho, hkey⟩ := List.mem_map.mp hmem
  have htxid : o.txid = e.tx.txid := congrArg Prod.fst hkey
  exact he.fresh (htxid ▸ txid_mem_of_mem created_txid ho)

theorem Entry.mem_spends {e : Entry} {k : String × Nat} (hk : k ∈ e.spends.map Prod.fst) :
    ∃ i ∈ e.tx.inputs, i.prev = some k := by
  obtain ⟨p, hp, rfl⟩ := List.mem_map.mp hk
  obtain ⟨i, hi, hspend⟩ := List.mem_filterMap.mp hp
  obtain ⟨prev, hprev, rfl⟩ := Option.map_eq_some_iff.mp hspend
  exact ⟨i, hi, hprev⟩

/-- The ids are distinct, and outputs are spent once and after they are created. -/
structure Coins (es : List Entry) : Prop where
  txids : (es.map (·.tx.txid)).Nodup
  keys : ((creations es).map OutputRow.key).Nodup
  once : ((spendings es).map Prod.fst).Nodup
  known : ∀ k ∈ (spendings es).map Prod.fst, k ∈ (creations es).map OutputRow.key

theorem Coins.append {es : List Entry} {e : Entry} (h : Coins es) (he : e.Valid es) :
    Coins (es ++ [e]) where
  txids := table.nodup_append h.txids he.fresh
  keys := by
    rw [creations_append, creations_singleton, List.map_append, List.nodup_append]
    refine ⟨h.keys, ?_, fun a ha b hb heq => ?_⟩
    · rw [keys_created]
      exact he.outputs.map (Prod.mk_right_injective _)
    · rw [keys_created] at hb
      obtain ⟨n, -, rfl⟩ := List.mem_map.mp hb
      exact he.not_known n (heq ▸ ha)
  once := by
    rw [spendings_append, spendings_singleton, List.map_append, List.nodup_append]
    exact ⟨h.once, he.once, fun a ha b hb heq => he.unspent b hb (heq ▸ ha)⟩
  known k hk := by
    rw [spendings_append, spendings_singleton, List.map_append, List.mem_append] at hk
    rw [creations_append, List.map_append]
    refine List.mem_append_left _ ?_
    obtain hk | hk := hk
    · exact h.known k hk
    · obtain ⟨i, hi, hprev⟩ := Entry.mem_spends hk
      obtain ⟨o, ho, rfl, -⟩ := he.funded i hi k hprev
      exact List.mem_map_of_mem ho

theorem coins_of_validFrom {es : List Entry} (h : ValidFrom [] es) : Coins es := by
  induction es using List.reverseRecOn with
  | nil => exact ⟨List.nodup_nil, List.nodup_nil, List.nodup_nil, fun _ hk => hk⟩
  | append_singleton es e ih => exact (ih (validFrom_append.mp h).1).append h.last

section

variable {genesis : String} {chain : List Block} {b : Block}

theorem Valid.height_last (h : Valid genesis (chain ++ [b])) : b.height = chain.length := by
  have hheights := h.heights
  rw [List.map_append, List.length_append, List.length_singleton, List.range_succ] at hheights
  exact List.singleton_inj.mp (List.append_inj_right hheights (by simp))

theorem Valid.prev_hash_last (h : Valid genesis (chain ++ [b])) (hne : b.height ≠ 0) :
    b.prev_hash = chain.getLast?.map Block.hash := by
  cases hlast : chain.getLast? with
  | none =>
    rw [List.getLast?_eq_none_iff] at hlast
    subst hlast
    exact absurd h.height_last hne
  | some a => exact (List.isChain_append.mp h.linked).2.2 a hlast b rfl

/-- A chain without its last block. -/
theorem Valid.init (h : Valid genesis (chain ++ [b])) : Valid genesis chain where
  heights := by
    have hheights := h.heights
    rw [List.map_append, List.length_append, List.length_singleton, List.range_succ] at hheights
    exact List.append_inj_left hheights (by simp)
  root b' hb' := h.root b' (by
    rw [Option.mem_def] at hb' ⊢
    rw [List.head?_append, hb']
    rfl)
  linked := h.linked.left_of_append
  ordered b' hb' := h.ordered b' (List.mem_append_left _ hb')
  valid := by
    have hvalid := h.valid
    rw [entries_append, validFrom_append] at hvalid
    exact hvalid.1

/-- The transactions of the last block are valid after those of the blocks before it. -/
theorem Valid.validFrom_last (h : Valid genesis (chain ++ [b])) :
    ValidFrom (entries chain) b.entries := by
  have hvalid := h.valid
  rw [entries_append, validFrom_append, entries_singleton, List.nil_append] at hvalid
  exact hvalid.2

end

end pcoin.explorer
