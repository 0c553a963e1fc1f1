import PCoin.Store.Blocks
import PCoin.Store.PayoutSpec
import PCoin.Pool.Block

open pcoin.block

namespace pcoin.store

/-- The block of a job that was paid by a payout set. -/
def Found.ofPayout (height value : Int) (coinbaseTxid : String) {template feeBasisPoints dustLimit : Int}
    {entries : List Entry} {scriptOf : String → Except String Bytes} {poolScript : Bytes} {p : Payout}
    (hdistinct : (entries.map Entry.miner).Nodup)
    (h : buildPayoutOutputs template feeBasisPoints entries scriptOf poolScript dustLimit = .ok p) :
    Found :=
  ⟨height, value, coinbaseTxid, p.outputs, p.fee, p.windowWeight,
    buildPayoutOutputs_distinct hdistinct h⟩

/-- What `payouts.mjs` asks the node and the configuration: the address the node prints for
a script, and the pool's own. -/
structure Node where
  address : Bytes → Option String
  poolAddress : String
  poolScript : Bytes

namespace Node

variable (node : Node)

/-- The outputs of the coinbase of a block. -/
def coinbase (b : Found) : List Output := spend b.value.toNat node.poolScript (some b.outputs)

/-- `actual.set(a, (actual.get(a) ?? 0n) + value)`. -/
def accumulate (actual : Amounts) (o : Output) : Amounts :=
  match node.address o.script with
  | none => actual
  | some a => Function.update actual a (some ((actual a).getD 0 + o.value))

end Node

/-- `IFNULL((SELECT fee FROM pool_fees WHERE block_height=b.height),0)`. -/
def Tables.fee (t : Tables) (height : Int) : Int :=
  (table.find FeeRow.block_height height t.pool_fees).elim 0 FeeRow.fee

/-- The sums that `payouts.mjs` compares the ledger with: the outputs of the coinbase by
address, less the fee and the remainder on the pool's own. -/
def actualOutputs (node : Node) (t : Tables) (hash : String) (b : Found) : Amounts :=
  let parsed := (t.payouts.filter fun p => p.block_height = b.height ∧ p.block_hash = hash).mergeSort
    fun p q => p.miner ≤ q.miner
  let paid := (parsed.map PayoutRow.amount).sum
  let pot := parsed.head?.elim 0 PayoutRow.pot
  let actual := (node.coinbase b).foldl node.accumulate fun _ => none
  let dustRemainder := pot - paid
  let extra := t.fee b.height + dustRemainder
  match actual node.poolAddress with
  | none => actual
  | some got =>
    if extra > 0 then
      let net := got - extra
      Function.update actual node.poolAddress (if net > 0 then some net else none)
    else actual

/-- The ledger after a sequence of calls, where `found` tells what the block with a hash is. -/
def record (found : String → Found) (calls : List Call) : Tables :=
  calls.foldl (fun t c => (recordBlockPaidByCoinbase t c (found c.hash)).1) {}

/-- The reconciliation of a block is sound: when it finds no problem, the rows stored under
its hash are the block's outputs. -/
def SoundAt (node : Node) (found : String → Found) (calls : List Call) (hash : String) : Prop :=
  let t := record found calls
  let b := found hash
  reconcileAgainstChain t b.height hash (actualOutputs node t hash b) = [] →
    ((t.payouts.filter (·.block_hash = hash)).map fun p => (p.miner, p.amount)).Perm b.amounts

/-- The block whose call is the first at a height to pay a miner. -/
def owner (found : String → Found) (calls : List Call) (height : Int) (miner : String) :
    Option String :=
  (calls.find? fun c => (found c.hash).height = height ∧
    miner ∈ (found c.hash).amounts.map Prod.fst).map Call.hash

/-- The outputs of a block whose miners no other block took before it. -/
def kept (found : String → Found) (calls : List Call) (hash : String) : List (String × Int) :=
  (found hash).amounts.filter fun o => owner found calls (found hash).height o.1 = some hash

/-- The fee of the first call at a height. -/
def firstFee (found : String → Found) (calls : List Call) (height : Int) : Int :=
  (calls.find? fun c => (found c.hash).height = height).elim 0 fun c => (found c.hash).fee

/-- What the coinbase of a block pays an address, if it does. -/
def Node.pays (node : Node) (b : Found) (miner : String) : Option Int :=
  let outputs := (node.coinbase b).filter fun o => node.address o.script = some miner
  if outputs = [] then none else some (outputs.map Output.value).sum

/-- The coinbase pays a miner this amount, and the pool's own address `extra` besides. -/
def Node.Agrees (node : Node) (b : Found) (extra : Int) (o : String × Int) : Prop :=
  if o.1 = node.poolAddress ∧ 0 < extra then 0 < o.2 ∧ node.pays b o.1 = some (o.2 + extra)
  else node.pays b o.1 = some o.2

end pcoin.store

namespace pcoin.store

theorem foldl_accumulate (node : Node) (os : List Output) (acc : Amounts) (m : String) :
    (os.foldl node.accumulate acc) m =
      let paid := os.filter fun o => node.address o.script = some m
      if paid = [] then acc m else some ((acc m).getD 0 + (paid.map Output.value).sum) := by
  induction os generalizing acc with
  | nil => rfl
  | cons o os ih =>
    rw [List.foldl_cons, ih]
    by_cases hm : node.address o.script = some m
    · have hacc : node.accumulate acc o m = some ((acc m).getD 0 + o.value) := by
        simp [Node.accumulate, hm]
      rw [hacc, List.filter_cons_of_pos (by simpa using hm)]
      simp only [Option.getD_some, List.map_cons, List.sum_cons, reduceCtorEq, if_false]
      split
      · rename_i hnone
        simp [hnone]
      · rw [add_assoc]
    · have hacc : node.accumulate acc o m = acc m := by
        unfold Node.accumulate
        cases ha : node.address o.script with
        | none => rfl
        | some a =>
          have hne : m ≠ a := fun heq => hm (by rw [ha, heq])
          exact Function.update_of_ne hne _ _
      rw [hacc, List.filter_cons_of_neg (by simpa using hm)]

theorem coinbase_pays (node : Node) (b : Found) (m : String) :
    ((node.coinbase b).foldl node.accumulate fun _ => none) m = node.pays b m := by
  rw [foldl_accumulate, Node.pays]
  simp

theorem fees_record (t : Tables) (c : Call) (b : Found) :
    (recordBlockPaidByCoinbase t c b).1.pool_fees =
      table.insertOrIgnore FeeRow.block_height t.pool_fees (feeRow c b) := by
  unfold recordBlockPaidByCoinbase
  dsimp only
  split_ifs <;> rfl

section Record

variable (found : String → Found) (calls : List Call)

theorem payouts_foldl_record (t : Tables) :
    (calls.foldl (fun t c => (recordBlockPaidByCoinbase t c (found c.hash)).1) t).payouts =
      (calls.flatMap fun c => payoutRows c (found c.hash)).foldl
        (table.insertOrIgnore PayoutRow.key) t.payouts := by
  induction calls generalizing t with
  | nil => rfl
  | cons c calls ih => rw [List.foldl_cons, ih, payouts_record, List.flatMap_cons, List.foldl_append]

theorem fees_foldl_record (t : Tables) :
    (calls.foldl (fun t c => (recordBlockPaidByCoinbase t c (found c.hash)).1) t).pool_fees =
      (calls.map fun c => feeRow c (found c.hash)).foldl
        (table.insertOrIgnore FeeRow.block_height) t.pool_fees := by
  induction calls generalizing t with
  | nil => rfl
  | cons c calls ih => rw [List.foldl_cons, ih, fees_record, List.map_cons, List.foldl_cons]

theorem nodup_payouts : ((record found calls).payouts.map PayoutRow.key).Nodup := by
  rw [record, payouts_foldl_record]
  exact table.nodup_foldl_insertOrIgnore _ List.nodup_nil

/-- The row under a key is the first that was asked for. -/
theorem find_payouts (k : Int × String) :
    table.find PayoutRow.key k (record found calls).payouts =
      table.find PayoutRow.key k (calls.flatMap fun c => payoutRows c (found c.hash)) := by
  rw [record, payouts_foldl_record, table.find_foldl_insertOrIgnore]
  rfl

theorem fee_record (height : Int) :
    (record found calls).fee height = firstFee found calls height := by
  rw [Tables.fee, record, fees_foldl_record, table.find_foldl_insertOrIgnore, firstFee, table.find,
    table.find, List.find?_map]
  simp only [List.find?_nil, Option.none_or]
  cases hfind : calls.find? fun c => (found c.hash).height = height with
  | none => simp [Function.comp_def, feeRow, hfind]
  | some c => simp [Function.comp_def, feeRow, hfind]

end Record

theorem Found.nodup_amounts (b : Found) : (b.amounts.map Prod.fst).Nodup := by
  have hfst : b.amounts.map Prod.fst = (b.outputs.filterMap Output.miner).filter (· ≠ "") := by
    rw [amounts, paid, List.map_map, List.map_filterMap, List.filter_filterMap]
    refine List.filterMap_congr fun o _ => ?_
    cases o.miner.filter (· ≠ "") <;> rfl
  rw [hfst]
  exact b.distinct.sublist List.filter_sublist

theorem keys_payoutRows (c : Call) (b : Found) :
    (payoutRows c b).map PayoutRow.key = b.amounts.map fun o => (b.height, o.1) := by
  simp [payoutRows, Found.amounts, PayoutRow.key, Function.comp_def]

theorem mem_payoutRows {c : Call} {b : Found} {r : PayoutRow} (hr : r ∈ payoutRows c b) :
    r.block_height = b.height ∧ r.block_hash = c.hash ∧ r.pot = b.value - b.fee ∧
      (r.miner, r.amount) ∈ b.amounts := by
  obtain ⟨o, ho, rfl⟩ := List.mem_map.mp hr
  exact ⟨rfl, rfl, rfl, List.mem_map.mpr ⟨o, ho, rfl⟩⟩

section Rows

variable {found : String → Found} {calls : List Call} {hash : String}

/-- The first call that pays a key decides its row. -/
theorem find_rows (height : Int) (miner : String) :
    table.find PayoutRow.key (height, miner) (calls.flatMap fun c => payoutRows c (found c.hash)) =
      (calls.find? fun c => (found c.hash).height = height ∧
        miner ∈ (found c.hash).amounts.map Prod.fst).bind fun c =>
          table.find PayoutRow.key (height, miner) (payoutRows c (found c.hash)) := by
  induction calls with
  | nil => rfl
  | cons c calls ih =>
    have hkey : (height, miner) ∈ (payoutRows c (found c.hash)).map PayoutRow.key ↔
        (found c.hash).height = height ∧ miner ∈ (found c.hash).amounts.map Prod.fst := by
      rw [keys_payoutRows, List.mem_map, List.mem_map]
      constructor
      · rintro ⟨o, ho, heq⟩
        obtain ⟨hheight, hminer⟩ := Prod.mk.inj heq
        exact ⟨hheight, o, ho, hminer⟩
      · rintro ⟨rfl, o, ho, rfl⟩
        exact ⟨o, ho, rfl⟩
    have happend (xs ys : List PayoutRow) : table.find PayoutRow.key (height, miner) (xs ++ ys) =
        (table.find PayoutRow.key (height, miner) xs).or (table.find PayoutRow.key (height, miner) ys) :=
      List.find?_append
    rw [List.flatMap_cons, happend, ih]
    by_cases hpays : (found c.hash).height = height ∧ miner ∈ (found c.hash).amounts.map Prod.fst
    · obtain ⟨r, hr⟩ := Option.isSome_iff_exists.mp (table.isSome_find.mpr (hkey.mpr hpays))
      rw [hr, Option.some_or, List.find?_cons_of_pos (by simpa using hpays), Option.bind_some, hr]
    · have hnone : table.find PayoutRow.key (height, miner) (payoutRows c (found c.hash)) = none := by
        rw [← Option.not_isSome_iff_eq_none, table.isSome_find, hkey]
        exact hpays
      rw [hnone, Option.none_or, List.find?_cons_of_neg (by simpa using hpays)]

/-- What the ledger has under the hash of a block. -/
theorem row_spec {r : PayoutRow} (hr : r ∈ (record found calls).payouts) (hhash : r.block_hash = hash) :
    r.block_height = (found hash).height ∧ r.pot = (found hash).value - (found hash).fee ∧
      (r.miner, r.amount) ∈ kept found calls hash := by
  have hfind := table.find_eq_some (nodup_payouts found calls) hr
  rw [find_payouts, PayoutRow.key, find_rows, Option.bind_eq_some_iff] at hfind
  obtain ⟨c, hc, hrow⟩ := hfind
  obtain ⟨hheight, hcall, hpot, hamount⟩ := mem_payoutRows (table.find_spec hrow).1
  obtain rfl : c.hash = hash := hcall.symm.trans hhash
  refine ⟨hheight, hpot, List.mem_filter.mpr ⟨hamount, decide_eq_true ?_⟩⟩
  rw [owner, ← hheight, hc, Option.map_some]

theorem exists_row {o : String × Int} (ho : o ∈ kept found calls hash) :
    ∃ r ∈ (record found calls).payouts, r.block_hash = hash ∧ (r.miner, r.amount) = o := by
  obtain ⟨hmem, howner⟩ := List.mem_filter.mp ho
  rw [decide_eq_true_eq, owner, Option.map_eq_some_iff] at howner
  obtain ⟨c, hc, rfl⟩ := howner
  have hfind := @find_rows found calls (found c.hash).height o.1
  have hkey : ((found c.hash).height, o.1) ∈
      (payoutRows c (found c.hash)).map PayoutRow.key := by
    rw [keys_payoutRows]
    exact List.mem_map.mpr ⟨o, hmem, rfl⟩
  obtain ⟨r, hr⟩ := Option.isSome_iff_exists.mp (table.isSome_find.mpr hkey)
  rw [hc, Option.bind_some, hr, ← find_payouts] at hfind
  obtain ⟨hrow, hk⟩ := table.find_spec hr
  obtain ⟨-, hhash, -, hamount⟩ := mem_payoutRows hrow
  refine ⟨r, (table.find_spec hfind).1, hhash, ?_⟩
  exact List.inj_on_of_nodup_map (found c.hash).nodup_amounts hamount hmem (Prod.mk.inj hk).2

/-- The rows under the hash of a block are those of its outputs that it kept. -/
theorem rows_perm : (((record found calls).payouts.filter (·.block_hash = hash)).map fun p =>
    (p.miner, p.amount)).Perm (kept found calls hash) := by
  have hkept : (kept found calls hash).Nodup :=
    (List.Nodup.of_map Prod.fst (found hash).nodup_amounts).sublist List.filter_sublist
  refine (List.perm_ext_iff_of_nodup ?_ hkept).mpr fun o => ?_
  · refine List.Nodup.map_on ?_ ((List.Nodup.of_map _ (nodup_payouts found calls)).sublist
      List.filter_sublist)
    intro p hp q hq heq
    obtain ⟨hp, hphash⟩ := List.mem_filter.mp hp
    obtain ⟨hq, hqhash⟩ := List.mem_filter.mp hq
    refine List.inj_on_of_nodup_map (nodup_payouts found calls) hp hq ?_
    rw [PayoutRow.key, PayoutRow.key, (row_spec hp (of_decide_eq_true hphash)).1,
      (row_spec hq (of_decide_eq_true hqhash)).1, (Prod.mk.inj heq).1]
  · constructor
    · intro ho
      obtain ⟨p, hp, rfl⟩ := List.mem_map.mp ho
      obtain ⟨hp, hhash⟩ := List.mem_filter.mp hp
      exact (row_spec hp (of_decide_eq_true hhash)).2.2
    · intro ho
      obtain ⟨r, hr, hhash, rfl⟩ := exists_row ho
      exact List.mem_map.mpr ⟨r, List.mem_filter.mpr ⟨hr, decide_eq_true hhash⟩, rfl⟩

/-- A height and a hash select the same rows as the hash alone. -/
theorem filter_rows : ((record found calls).payouts.filter fun p =>
    p.block_height = (found hash).height ∧ p.block_hash = hash) =
      (record found calls).payouts.filter (·.block_hash = hash) := by
  refine List.filter_congr fun r hr => ?_
  rw [decide_eq_decide]
  exact ⟨And.right, fun hhash => ⟨(row_spec hr hhash).1, hhash⟩⟩

/-- What `payouts.mjs` takes off the pool's own address for a block that kept something. -/
def extra (found : String → Found) (calls : List Call) (hash : String) : Int :=
  firstFee found calls (found hash).height +
    ((found hash).value - (found hash).fee - ((kept found calls hash).map Prod.snd).sum)

theorem actualOutputs_eq (node : Node) (hne : kept found calls hash ≠ []) :
    actualOutputs node (record found calls) hash (found hash) =
      match node.pays (found hash) node.poolAddress with
      | none => node.pays (found hash)
      | some got =>
        if extra found calls hash > 0 then
          Function.update (node.pays (found hash)) node.poolAddress
            (if got - extra found calls hash > 0 then some (got - extra found calls hash) else none)
        else node.pays (found hash) := by
  have hperm := List.mergeSort_perm
    ((record found calls).payouts.filter (·.block_hash = hash)) fun p q => decide (p.miner ≤ q.miner)
  have hpaid : ((((record found calls).payouts.filter (·.block_hash = hash)).mergeSort
      fun p q => decide (p.miner ≤ q.miner)).map PayoutRow.amount).sum =
        ((kept found calls hash).map Prod.snd).sum := by
    rw [(hperm.map PayoutRow.amount).sum_eq, ← ((@rows_perm found _ _).map Prod.snd).sum_eq,
      List.map_map]
    rfl
  have hpot : (((record found calls).payouts.filter (·.block_hash = hash)).mergeSort
      fun p q => decide (p.miner ≤ q.miner)).head?.elim 0 PayoutRow.pot =
        (found hash).value - (found hash).fee := by
    obtain ⟨o, ho⟩ := List.exists_mem_of_ne_nil _ hne
    obtain ⟨r, hr, hhash, -⟩ := exists_row ho
    have hmem : r ∈ (record found calls).payouts.filter (·.block_hash = hash) :=
      List.mem_filter.mpr ⟨hr, decide_eq_true hhash⟩
    cases hsorted : ((record found calls).payouts.filter (·.block_hash = hash)).mergeSort
        fun p q => decide (p.miner ≤ q.miner) with
    | nil =>
      have hnil := hperm.mem_iff.mpr hmem
      rw [hsorted] at hnil
      cases hnil
    | cons q rows =>
      have hq := hperm.mem_iff.mp (hsorted ▸ List.mem_cons_self)
      obtain ⟨hq, hqhash⟩ := List.mem_filter.mp hq
      exact (row_spec hq (of_decide_eq_true hqhash)).2.1
  have hpays : (node.coinbase (found hash)).foldl node.accumulate (fun _ => none) =
      node.pays (found hash) := funext fun m => coinbase_pays node (found hash) m
  simp only [actualOutputs, filter_rows, hpaid, hpot, hpays, fee_record]
  rfl

theorem actualOutputs_agrees (node : Node) {o : String × Int} (ho : o ∈ kept found calls hash) :
    actualOutputs node (record found calls) hash (found hash) o.1 = some o.2 ↔
      node.Agrees (found hash) (extra found calls hash) o := by
  rw [actualOutputs_eq node (List.ne_nil_of_mem ho), Node.Agrees]
  by_cases hpool : o.1 = node.poolAddress
  · rw [hpool]
    cases hpays : node.pays (found hash) node.poolAddress with
    | none => simp [hpays]
    | some got =>
      by_cases hextra : 0 < extra found calls hash
      · simp only [gt_iff_lt, hextra, if_true, Function.update_self, and_self, Option.some.injEq]
        split
        · rw [Option.some.injEq]
          omega
        · simp only [reduceCtorEq, false_iff]
          omega
      · simp only [gt_iff_lt, hextra, if_false, and_false, hpays]
  · cases hpays : node.pays (found hash) node.poolAddress with
    | none => simp [hpool]
    | some got =>
      by_cases hextra : 0 < extra found calls hash
      · simp [hextra, hpool]
      · simp [hextra]

theorem reconcile_eq_nil (t : Tables) (height : Int) (actual : Amounts) :
    reconcileAgainstChain t height hash actual = [] ↔
      ∀ o ∈ (t.payouts.filter fun p => p.block_height = height ∧ p.block_hash = hash).map
        (fun p => (p.miner, p.amount)), actual o.1 = some o.2 := by
  rw [reconcileAgainstChain, List.filterMap_eq_nil_iff]
  refine forall₂_congr fun o _ => ?_
  obtain ⟨addr, amt⟩ := o
  cases hactual : actual addr with
  | none => simp [hactual]
  | some got => simp [hactual]

end Rows

/-- The reconciliation of a block is sound exactly when no other block that was recorded
before it at its height pays one of its miners, or the coinbase gives away one of the rows
that it did keep. -/
theorem sound_iff (node : Node) (found : String → Found) (calls : List Call) (hash : String) :
    SoundAt node found calls hash ↔
      (∀ o ∈ (found hash).amounts, owner found calls (found hash).height o.1 = some hash) ∨
        ∃ o ∈ kept found calls hash, ¬ node.Agrees (found hash) (extra found calls hash) o := by
  have hclean : reconcileAgainstChain (record found calls) (found hash).height hash
      (actualOutputs node (record found calls) hash (found hash)) = [] ↔
        ∀ o ∈ kept found calls hash, node.Agrees (found hash) (extra found calls hash) o := by
    rw [reconcile_eq_nil, filter_rows]
    constructor
    · intro h o ho
      exact (actualOutputs_agrees node ho).mp (h o (rows_perm.mem_iff.mpr ho))
    · intro h o ho
      have hkept := rows_perm.mem_iff.mp ho
      exact (actualOutputs_agrees node hkept).mpr (h o hkept)
  have hwhole : (((record found calls).payouts.filter (·.block_hash = hash)).map fun p =>
      (p.miner, p.amount)).Perm (found hash).amounts ↔
        ∀ o ∈ (found hash).amounts, owner found calls (found hash).height o.1 = some hash := by
    constructor
    · intro h o ho
      exact of_decide_eq_true (List.mem_filter.mp ((rows_perm.symm.trans h).mem_iff.mpr ho)).2
    · intro h
      have hkept : kept found calls hash = (found hash).amounts :=
        List.filter_eq_self.mpr fun o ho => decide_eq_true (h o ho)
      exact hkept ▸ rows_perm
  rw [SoundAt, hclean, hwhole]
  constructor
  · intro h
    by_cases hall : ∀ o ∈ kept found calls hash, node.Agrees (found hash) (extra found calls hash) o
    · exact .inl (h hall)
    · push Not at hall
      exact .inr hall
  · rintro (h | ⟨o, ho, hbad⟩) hall
    · exact h
    · exact absurd (hall o ho) hbad

/-- A pool whose scripts are the first letters of the addresses they pay. -/
def letters : Node :=
  { address := fun script =>
      if script = [97] then some "alice" else if script = [98] then some "bob"
      else if script = [112] then some "pool" else none
    poolAddress := "pool"
    poolScript := [112] }

/-- A block that pays alice. -/
def alone : Found :=
  { height := 100, value := 5000000000, coinbaseTxid := "aa"
    outputs := [⟨some "alice", [97], 4900000000, some 1⟩, ⟨none, [112], 100000000, none⟩]
    fee := 100000000, windowWeight := 1
    distinct := by decide }

/-- One of the same height that pays alice and bob. -/
def shared : Found :=
  { height := 100, value := 5000000000, coinbaseTxid := "bb"
    outputs := [⟨some "alice", [97], 2450000000, some 1⟩, ⟨some "bob", [98], 2450000000, some 1⟩,
      ⟨none, [112], 100000000, none⟩]
    fee := 100000000, windowWeight := 2
    distinct := by decide }

def rivals (hash : String) : Found := if hash = "bb" then shared else alone

/-- The row of bob is there and right, the one of alice is not. -/
theorem rival_rows_lost : ¬ SoundAt letters rivals [⟨"aa", "alice", 1, 0⟩, ⟨"bb", "alice", 2, 1⟩] "bb" := by
  have hclean : reconcileAgainstChain (record rivals [⟨"aa", "alice", 1, 0⟩, ⟨"bb", "alice", 2, 1⟩])
      (rivals "bb").height "bb" (actualOutputs letters
        (record rivals [⟨"aa", "alice", 1, 0⟩, ⟨"bb", "alice", 2, 1⟩]) "bb" (rivals "bb")) = [] := by
    decide +kernel
  intro hsound
  have hlength := (hsound hclean).length_eq
  revert hlength
  decide +kernel

end pcoin.store
