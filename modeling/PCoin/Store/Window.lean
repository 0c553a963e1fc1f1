import PCoin.Store.Payout

/-! The queries of `pplnsWindow`, over the 64-bit integers of the database. -/

namespace pcoin.store

def num (n : Int) : Except String Int :=
  if n ≥ 2 ^ 62 ∨ n ≤ -2 ^ 62 then throw s!"integer {n} too large for a SQLite integer literal"
  else return n

/-- One more addend of a `SUM`. -/
def addInt64 (a b : Int) : Except String Int :=
  if -2 ^ 63 ≤ a + b ∧ a + b < 2 ^ 63 then return a + b else throw "integer overflow"

/-- `SUM(weight)`. -/
def sumFrom : Int → List Share → Except String Int
  | total, [] => return total
  | total, r :: rows => addInt64 total r.weight >>= fun total => sumFrom total rows

/-- `SUM(weight) OVER (ORDER BY id DESC ROWS UNBOUNDED PRECEDING)`, beside each row. -/
def running : Int → List Share → Except String (List (Share × Int))
  | _, [] => return []
  | before, r :: rows => do
    let cum ← addInt64 before r.weight
    return (r, cum) :: (← running cum rows)

theorem running_cons (before : Int) (r : Share) (rows : List Share) : running before (r :: rows) =
    (addInt64 before r.weight).bind fun cum =>
      (running cum rows).bind fun rest => .ok ((r, cum) :: rest) := rfl

namespace Shares

/-- `SELECT ... FROM shares WHERE id <= lastShareId ORDER BY id DESC LIMIT limit`. -/
def newestUpTo (shares : Shares) (lastShareId limit : Nat) : Except String (List Share) := do
  let _ ← num lastShareId
  let _ ← num limit
  return (shares.newest lastShareId).take limit

/-- The `for (;;)` of `pplnsWindow`: the limit that it ends with. -/
def scanLimit (shares : Shares) (lastShareId : Nat) (N : Int) (limit : Nat) (hlimit : 0 < limit) :
    Except String Nat :=
  match shares.newestUpTo lastShareId limit >>= sumFrom 0 with
  | .error e => .error e
  | .ok covered =>
    if covered ≥ N then .ok limit
    else
      let have_ := (shares.newest lastShareId).length
      if limit ≥ have_ then .ok (if have_ = 0 then 1 else have_)
      else scanLimit shares lastShareId N (limit * 2) (by omega)
termination_by (shares.newest lastShareId).length - limit

/-- The group of one miner. -/
def groupEntry (rows : List Share) (miner : String) : Except String Entry := do
  let own := rows.filter (·.miner = miner)
  let weight ← sumFrom 0 own
  return { miner, weight, shares := own.length }

/-- The query for the entries, over the newest `limit` rows. -/
def readEntries (shares : Shares) (lastShareId : Nat) (N : Int) (limit : Nat) :
    Except String (List Entry) := do
  let rows ← shares.newestUpTo lastShareId limit
  let N ← num N
  let cums ← running 0 rows
  let rows := (cums.filter fun (r, cum) => cum - r.weight < N).map Prod.fst
  let entries ← (rows.map Share.miner).dedup.mapM (groupEntry rows)
  return entries.mergeSort fun a b => b.weight ≤ a.weight

/-- `pplnsWindow` once `N` is known. -/
def windowEntries (shares : Shares) (lastShareId : Nat) (N : Int) : Except String (List Entry) :=
  shares.scanLimit lastShareId N 65536 (Nat.succ_pos _) >>= shares.readEntries lastShareId N

end Shares

theorem num_eq_ok {n : Int} (hlow : 0 ≤ n) (hhigh : n < 2 ^ 62) : num n = .ok n := by
  rw [num, if_neg (by omega)]
  rfl

theorem addInt64_eq_ok {a b : Int} (ha : 0 ≤ a) (hb : 0 ≤ b) (h : a + b < 2 ^ 63) :
    addInt64 a b = .ok (a + b) := by
  rw [addInt64, if_pos ⟨by omega, h⟩]
  rfl

theorem of_addInt64 {a b c : Int} (h : addInt64 a b = .ok c) : c = a + b ∧ c < 2 ^ 63 := by
  rw [addInt64] at h
  split at h
  case isTrue hfits => cases h; exact ⟨rfl, hfits.2⟩
  case isFalse => cases h

@[simp] theorem shareWeight_nil : shareWeight [] = 0 := rfl

@[simp] theorem shareWeight_cons (r : Share) (rows : List Share) :
    shareWeight (r :: rows) = r.weight + shareWeight rows := by
  simp [shareWeight]

@[simp] theorem shareWeight_append (l r : List Share) :
    shareWeight (l ++ r) = shareWeight l + shareWeight r := by
  simp [shareWeight]

theorem shareWeight_nonneg {rows : List Share} (h : ∀ r ∈ rows, 0 ≤ r.weight) : 0 ≤ shareWeight rows :=
  List.sum_nonneg (List.forall_mem_map.mpr h)

theorem shareWeight_perm {l r : List Share} (h : l.Perm r) : shareWeight l = shareWeight r :=
  (h.map _).sum_eq

theorem shareWeight_sublist {l r : List Share} (h : l.Sublist r) (hr : ∀ q ∈ r, 0 ≤ q.weight) :
    shareWeight l ≤ shareWeight r :=
  (h.map _).sum_le_sum (List.forall_mem_map.mpr hr)

theorem sumFrom_eq_ok {rows : List Share} (hrows : ∀ r ∈ rows, 0 ≤ r.weight) {total : Int}
    (htotal : 0 ≤ total) (h : total + shareWeight rows < 2 ^ 63) :
    sumFrom total rows = .ok (total + shareWeight rows) := by
  induction rows generalizing total with
  | nil => simp [sumFrom, pure, Except.pure]
  | cons r rows ih =>
    obtain ⟨hr, hrest⟩ := List.forall_mem_cons.mp hrows
    have hnonneg := shareWeight_nonneg hrest
    rw [shareWeight_cons] at h
    have htail := @ih hrest (total + r.weight) (by omega) (by omega)
    rw [sumFrom, addInt64_eq_ok htotal hr (by omega), shareWeight_cons, ← Int.add_assoc]
    exact htail

theorem of_sumFrom {rows : List Share} {total sum : Int} (h : sumFrom total rows = .ok sum) :
    sum = total + shareWeight rows := by
  induction rows generalizing total with
  | nil => simpa [sumFrom, pure, Except.pure] using h.symm
  | cons r rows ih =>
    rw [sumFrom] at h
    cases hadd : addInt64 total r.weight with
    | error e => simp [hadd, bind, Except.bind] at h
    | ok total' =>
      simp only [hadd, bind, Except.bind] at h
      obtain ⟨rfl, -⟩ := of_addInt64 hadd
      rw [ih h, shareWeight_cons, Int.add_assoc]

@[simp] theorem withinWindow_nil (N before : Int) : withinWindow N before [] = [] := rfl

theorem withinWindow_cons (N before : Int) (r : Share) (rows : List Share) :
    withinWindow N before (r :: rows) =
      if before < N then r :: withinWindow N (before + r.weight) rows
      else withinWindow N (before + r.weight) rows := rfl

/-- The running sums pick the rows that `cum - weight` is below `N` for. -/
theorem of_running {rows : List Share} {before : Int} {cums : List (Share × Int)} (N : Int)
    (h : running before rows = .ok cums) :
    (cums.filter fun (r, cum) => cum - r.weight < N).map Prod.fst = withinWindow N before rows ∧
      (before < 2 ^ 63 → before + shareWeight rows < 2 ^ 63) := by
  induction rows generalizing before cums with
  | nil =>
    obtain rfl : [] = cums := Except.ok.inj h
    exact ⟨rfl, fun h => by simpa using h⟩
  | cons r rows ih =>
    rw [running_cons] at h
    cases hadd : addInt64 before r.weight with
    | error e => simp [hadd, Except.bind] at h
    | ok cum =>
      cases hrest : running cum rows with
      | error e => simp [hadd, hrest, Except.bind] at h
      | ok rest =>
        simp only [hadd, hrest, Except.bind, Except.ok.injEq] at h
        subst h
        obtain ⟨rfl, hcum⟩ := of_addInt64 hadd
        obtain ⟨hfilter, hsum⟩ := ih hrest
        constructor
        · rw [withinWindow_cons, ← hfilter]
          have hsub : before + r.weight - r.weight = before := by omega
          by_cases hN : before < N
          · simp [hN, hsub]
          · simp [hN, hsub]
        · intro _
          rw [shareWeight_cons, ← Int.add_assoc]
          exact hsum hcum

theorem running_eq_ok {rows : List Share} (hrows : ∀ r ∈ rows, 0 ≤ r.weight) {before : Int}
    (hbefore : 0 ≤ before) (h : before + shareWeight rows < 2 ^ 63) :
    ∃ cums, running before rows = .ok cums := by
  induction rows generalizing before with
  | nil => exact ⟨[], rfl⟩
  | cons r rows ih =>
    obtain ⟨hr, hrest⟩ := List.forall_mem_cons.mp hrows
    have hnonneg := shareWeight_nonneg hrest
    rw [shareWeight_cons] at h
    obtain ⟨cums, hcums⟩ := @ih hrest (before + r.weight) (by omega) (by omega)
    exact ⟨(r, before + r.weight) :: cums, by
      rw [running_cons, addInt64_eq_ok hbefore hr (by omega)]
      simp only [Except.bind, hcums]⟩

theorem withinWindow_sublist (N before : Int) (rows : List Share) :
    (withinWindow N before rows).Sublist rows := by
  induction rows generalizing before with
  | nil => exact List.Sublist.slnil
  | cons r rows ih =>
    rw [withinWindow_cons]
    split
    · exact (ih _).cons_cons r
    · exact (ih _).cons r

/-- Past rows that outweigh `N` nothing is taken. -/
theorem withinWindow_eq_nil {rows : List Share} (hrows : ∀ r ∈ rows, 0 ≤ r.weight) {N before : Int}
    (h : N ≤ before) : withinWindow N before rows = [] := by
  induction rows generalizing before with
  | nil => rfl
  | cons r rows ih =>
    obtain ⟨hr, hrest⟩ := List.forall_mem_cons.mp hrows
    rw [withinWindow_cons, if_neg (by omega)]
    exact ih hrest (by omega)

theorem withinWindow_append (N before : Int) (l r : List Share) :
    withinWindow N before (l ++ r) =
      withinWindow N before l ++ withinWindow N (before + shareWeight l) r := by
  induction l generalizing before with
  | nil => simp
  | cons q l ih =>
    rw [List.cons_append, withinWindow_cons, withinWindow_cons, ih, shareWeight_cons, ← Int.add_assoc]
    split <;> rfl

/-- Rows that outweigh `N` hold the window. -/
theorem withinWindow_take {rows : List Share} (hrows : ∀ r ∈ rows, 0 ≤ r.weight) {N : Int} {limit : Nat}
    (h : N ≤ shareWeight (rows.take limit)) :
    withinWindow N 0 (rows.take limit) = withinWindow N 0 rows := by
  calc withinWindow N 0 (rows.take limit)
      = withinWindow N 0 (rows.take limit) ++
          withinWindow N (0 + shareWeight (rows.take limit)) (rows.drop limit) := by
        rw [withinWindow_eq_nil (fun r hr => hrows r (List.mem_of_mem_drop hr)) (by omega),
          List.append_nil]
    _ = withinWindow N 0 rows := by rw [← withinWindow_append, List.take_append_drop]

/-- A row is in the window when the rows above it weigh less than `N`. -/
theorem withinWindow_eq_filter (N before : Int) {rows : List Share}
    (horder : rows.Pairwise (·.id > ·.id)) : withinWindow N before rows =
      rows.filter fun r => before + shareWeight (rows.filter (r.id < ·.id)) < N := by
  induction rows generalizing before with
  | nil => rfl
  | cons r rows ih =>
    obtain ⟨hhead, htail⟩ := List.pairwise_cons.mp horder
    have hself : (r :: rows).filter (r.id < ·.id) = [] :=
      List.filter_eq_nil_iff.mpr fun q hq => by
        rcases List.mem_cons.mp hq with rfl | hq
        · simp
        · simpa using (hhead q hq).le
    have hrest : ∀ q ∈ rows, before + r.weight + shareWeight (rows.filter (q.id < ·.id)) =
        before + shareWeight ((r :: rows).filter (q.id < ·.id)) := by
      intro q hq
      rw [List.filter_cons_of_pos (by simpa using hhead q hq), shareWeight_cons, Int.add_assoc]
    have hfilter : (withinWindow N (before + r.weight) rows) =
        rows.filter fun q => before + shareWeight ((r :: rows).filter (q.id < ·.id)) < N := by
      rw [ih _ htail]
      exact List.filter_congr fun q hq => by rw [hrest q hq]
    rw [withinWindow_cons, hfilter, List.filter_cons, hself]
    simp

/-- The window outweighs what is left of `N`, or it takes every row. -/
theorem withinWindow_covers {rows : List Share} (hrows : ∀ r ∈ rows, 0 ≤ r.weight) (N before : Int) :
    N ≤ before + shareWeight (withinWindow N before rows) ∨ withinWindow N before rows = rows := by
  induction rows generalizing before with
  | nil => exact .inr rfl
  | cons r rows ih =>
    obtain ⟨hr, hrest⟩ := List.forall_mem_cons.mp hrows
    rw [withinWindow_cons]
    split
    case isTrue =>
      rw [shareWeight_cons, ← Int.add_assoc]
      exact (ih hrest _).imp_right (congrArg _)
    case isFalse hN =>
      rw [withinWindow_eq_nil hrest (by omega)]
      exact .inl (by simp; omega)

/-- Without its last row the window would not outweigh `N`. -/
theorem withinWindow_tight {rows : List Share} (hrows : ∀ r ∈ rows, 0 ≤ r.weight) {N before : Int}
    {init : List Share} {last : Share} (h : withinWindow N before rows = init ++ [last]) :
    before + shareWeight init < N := by
  induction rows generalizing before init with
  | nil => simp at h
  | cons r rows ih =>
    obtain ⟨hr, hrest⟩ := List.forall_mem_cons.mp hrows
    rw [withinWindow_cons] at h
    split at h
    case isTrue hN =>
      cases init with
      | nil => simpa using hN
      | cons q init =>
        obtain ⟨rfl, htail⟩ := List.cons.inj h
        have := ih hrest htail
        rw [shareWeight_cons]
        omega
    case isFalse hN =>
      rw [withinWindow_eq_nil hrest (by omega)] at h
      simp at h

theorem sum_groups {rows : List Share} {miners : List String} (hnodup : miners.Nodup)
    (hmem : ∀ r ∈ rows, r.miner ∈ miners) :
    (miners.map fun m => shareWeight (rows.filter (·.miner = m))).sum = shareWeight rows := by
  induction miners generalizing rows with
  | nil =>
    obtain rfl : rows = [] := List.eq_nil_iff_forall_not_mem.mpr fun r hr => by simpa using hmem r hr
    rfl
  | cons m miners ih =>
    obtain ⟨hm, hnodup⟩ := List.nodup_cons.mp hnodup
    have hothers := @ih (rows.filter fun r => ¬r.miner = m) hnodup fun r hr => by
      obtain ⟨hr, hne⟩ := List.mem_filter.mp hr
      exact (List.mem_cons.mp (hmem r hr)).resolve_left (by simpa using hne)
    have hsame : (miners.map fun m' =>
        shareWeight ((rows.filter fun r => ¬r.miner = m).filter (·.miner = m'))) =
          miners.map fun m' => shareWeight (rows.filter (·.miner = m')) := by
      refine List.map_congr_left fun m' hm' => ?_
      rw [List.filter_filter]
      congr 1
      refine List.filter_congr fun r _ => ?_
      have hne : m' ≠ m := fun h => hm (h ▸ hm')
      by_cases hr : r.miner = m' <;> simp [hr, hne]
    have hsplit := shareWeight_perm (List.filter_append_perm (fun r => r.miner = m) rows)
    rw [shareWeight_append] at hsplit
    rw [List.map_cons, List.sum_cons, ← hsame, hothers, ← hsplit]
    simp

theorem mem_groupByMiner {rows : List Share} {e : Entry} : e ∈ groupByMiner rows ↔
    (∃ r ∈ rows, r.miner = e.miner) ∧ e.weight = shareWeight (rows.filter (·.miner = e.miner)) ∧
      e.shares = (rows.filter (·.miner = e.miner)).length := by
  rw [groupByMiner, List.mem_mergeSort, List.mem_map]
  constructor
  · rintro ⟨m, hm, rfl⟩
    exact ⟨by simpa using hm, rfl, rfl⟩
  · rintro ⟨hr, hweight, hshares⟩
    refine ⟨e.miner, by simpa using hr, ?_⟩
    simp only [← hweight, ← hshares]

theorem groupByMiner_perm (rows : List Share) : (groupByMiner rows).Perm
    ((rows.map Share.miner).dedup.map fun m =>
      let own := rows.filter (·.miner = m)
      { miner := m, weight := shareWeight own, shares := own.length : Entry }) :=
  List.mergeSort_perm _ _

theorem groupByMiner_miners (rows : List Share) : ((groupByMiner rows).map Entry.miner).Nodup := by
  rw [((groupByMiner_perm rows).map Entry.miner).nodup_iff, List.map_map]
  exact (List.map_id (rows.map Share.miner).dedup).symm ▸ List.nodup_dedup _

theorem groupByMiner_heaviest (rows : List Share) :
    (groupByMiner rows).Pairwise (·.weight ≥ ·.weight) := by
  refine (List.pairwise_mergeSort ?_ ?_ _).imp (by simp)
  · intro a b c
    simp only [decide_eq_true_eq]
    omega
  · intro a b
    simp only [Bool.or_eq_true, decide_eq_true_eq]
    omega

theorem totalWeight_groupByMiner (rows : List Share) :
    totalWeight (groupByMiner rows) = shareWeight rows := by
  rw [totalWeight, ((groupByMiner_perm rows).map Entry.weight).sum_eq, List.map_map]
  exact sum_groups (List.nodup_dedup _) fun r hr => List.mem_dedup.mpr (List.mem_map_of_mem hr)

namespace Shares

variable {shares : Shares} {lastShareId : Nat} {N : Int}

theorem of_newestUpTo {limit : Nat} {rows : List Share}
    (h : shares.newestUpTo lastShareId limit = .ok rows) :
    rows = (shares.newest lastShareId).take limit := by
  rw [newestUpTo] at h
  cases hlast : num lastShareId with
  | error e => simp [hlast, bind, Except.bind] at h
  | ok last =>
    cases hlimit : num limit with
    | error e => simp [hlast, hlimit, bind, Except.bind] at h
    | ok limit' => simpa [hlast, hlimit, bind, Except.bind, pure, Except.pure] using h.symm

theorem newestUpTo_eq_ok {limit : Nat} (hlast : lastShareId < 2 ^ 62) (hlimit : limit < 2 ^ 62) :
    shares.newestUpTo lastShareId limit = .ok ((shares.newest lastShareId).take limit) := by
  rw [newestUpTo, num_eq_ok (by omega) (by exact_mod_cast hlast),
    num_eq_ok (by omega) (by exact_mod_cast hlimit)]
  rfl

/-- The loop stops at rows that outweigh `N`, or at all of them. -/
theorem of_scanLimit {limit k : Nat} (hlimit : 0 < limit)
    (h : shares.scanLimit lastShareId N limit hlimit = .ok k) :
    N ≤ shareWeight ((shares.newest lastShareId).take k) ∨
      (shares.newest lastShareId).take k = shares.newest lastShareId := by
  fun_induction scanLimit shares lastShareId N limit hlimit with
  | case1 limit hlimit e he => cases h
  | case2 limit hlimit covered hcovered hge =>
    obtain rfl : limit = k := Except.ok.inj h
    left
    cases hrows : shares.newestUpTo lastShareId limit with
    | error e => simp [hrows, bind, Except.bind] at hcovered
    | ok rows =>
      simp only [hrows, bind, Except.bind] at hcovered
      rw [← of_newestUpTo hrows]
      have := of_sumFrom hcovered
      omega
  | case3 limit hlimit covered hcovered hlt have_ hwide =>
    cases h
    right
    apply List.take_of_length_le
    split <;> omega
  | case4 limit hlimit covered hcovered hlt have_ hwide ih => exact ih h

/-- Sums and literals stay within what the database and `num` take. -/
structure Fits (shares : Shares) (lastShareId : Nat) (N : Int) : Prop where
  weights : shareWeight (shares.newest lastShareId) < 2 ^ 63
  rows : (shares.newest lastShareId).length ≤ 2 ^ 61
  lastShareId : lastShareId < 2 ^ 62
  bound : N < 2 ^ 62

theorem scanLimit_eq_ok (hfits : Fits shares lastShareId N)
    (hrows : ∀ r ∈ shares.newest lastShareId, 0 ≤ r.weight) {limit : Nat} (hlimit : 0 < limit)
    (hsmall : limit < 2 ^ 62) :
    ∃ k < 2 ^ 62, shares.scanLimit lastShareId N limit hlimit = .ok k := by
  fun_induction scanLimit shares lastShareId N limit hlimit with
  | case1 limit hlimit e he =>
    have htake : ∀ r ∈ (shares.newest lastShareId).take limit, 0 ≤ r.weight :=
      fun r hr => hrows r (List.mem_of_mem_take hr)
    have hle := shareWeight_sublist (List.take_sublist limit (shares.newest lastShareId)) hrows
    have hweights := hfits.weights
    rw [newestUpTo_eq_ok hfits.lastShareId hsmall] at he
    simp only [bind, Except.bind] at he
    rw [sumFrom_eq_ok htake (Int.le_refl 0) (by omega)] at he
    cases he
  | case2 limit hlimit covered hcovered hge => exact ⟨limit, hsmall, rfl⟩
  | case3 limit hlimit covered hcovered hlt have_ hwide =>
    refine ⟨_, ?_, rfl⟩
    split <;> omega
  | case4 limit hlimit covered hcovered hlt have_ hwide ih =>
    have hlen := hfits.rows
    exact ih (by omega)

theorem of_num {n m : Int} (h : num n = .ok m) : m = n := by
  rw [num] at h
  split at h
  case isTrue => cases h
  case isFalse => exact (Except.ok.inj h).symm

theorem mapM_ok {α β : Type} {f : α → Except String β} {g : α → β} {l : List α}
    (h : ∀ a ∈ l, f a = .ok (g a)) : l.mapM f = .ok (l.map g) := by
  induction l with
  | nil => rfl
  | cons a l ih =>
    obtain ⟨ha, hl⟩ := List.forall_mem_cons.mp h
    simp only [List.mapM_cons, ha, ih hl, bind, Except.bind]
    rfl

/-- When the running sums are read, the sums of the groups are. -/
theorem readEntries_of_running (hrows : ∀ r ∈ shares.newest lastShareId, 0 ≤ r.weight) {limit : Nat}
    (hread : shares.newestUpTo lastShareId limit = .ok ((shares.newest lastShareId).take limit))
    (hN : num N = .ok N) {cums : List (Share × Int)}
    (hcums : running 0 ((shares.newest lastShareId).take limit) = .ok cums) :
    shares.readEntries lastShareId N limit =
      .ok (groupByMiner (withinWindow N 0 ((shares.newest lastShareId).take limit))) := by
  have htake : ∀ r ∈ (shares.newest lastShareId).take limit, 0 ≤ r.weight :=
    fun r hr => hrows r (List.mem_of_mem_take hr)
  obtain ⟨hfilter, hsum⟩ := of_running N hcums
  rw [readEntries, hread]
  simp only [bind, Except.bind, hN, hcums, hfilter]
  generalize (shares.newest lastShareId).take limit = rows at htake hsum
  have hsub := withinWindow_sublist N 0 rows
  have hgroup : ∀ m ∈ ((withinWindow N 0 rows).map Share.miner).dedup,
      groupEntry (withinWindow N 0 rows) m = Except.ok
        { miner := m, weight := shareWeight ((withinWindow N 0 rows).filter (·.miner = m)),
          shares := ((withinWindow N 0 rows).filter (·.miner = m)).length } := by
    intro m _
    have hown : ((withinWindow N 0 rows).filter (·.miner = m)).Sublist rows :=
      List.filter_sublist.trans hsub
    have hle := shareWeight_sublist hown htake
    have hfits := hsum (by decide)
    rw [groupEntry, sumFrom_eq_ok (fun r hr => htake r (hown.subset hr)) (Int.le_refl 0) (by omega),
      Int.zero_add]
    rfl
  rw [mapM_ok hgroup]
  rfl

/-- The rows that `windowEntries` ends up with are the window, whatever the limit was. -/
theorem of_windowEntries (hrows : ∀ r ∈ shares.newest lastShareId, 0 ≤ r.weight) {entries : List Entry}
    (h : shares.windowEntries lastShareId N = .ok entries) :
    entries = groupByMiner (withinWindow N 0 (shares.newest lastShareId)) := by
  rw [windowEntries] at h
  cases hlimit : shares.scanLimit lastShareId N 65536 (Nat.succ_pos _) with
  | error e => rw [hlimit] at h; cases h
  | ok limit =>
    rw [hlimit] at h
    replace h : shares.readEntries lastShareId N limit = .ok entries := h
    cases hread : shares.newestUpTo lastShareId limit with
    | error e => rw [readEntries, hread] at h; cases h
    | ok rows =>
      obtain rfl := of_newestUpTo hread
      cases hN : num N with
      | error e =>
        rw [readEntries, hread] at h
        simp [hN, bind, Except.bind] at h
      | ok M =>
        obtain rfl := of_num hN
        cases hcums : running 0 ((shares.newest lastShareId).take limit) with
        | error e =>
          rw [readEntries, hread] at h
          simp [hN, hcums, bind, Except.bind] at h
        | ok cums =>
          rw [readEntries_of_running hrows hread hN hcums] at h
          rw [← Except.ok.inj h]
          rcases of_scanLimit _ hlimit with hweighs | hall
          · rw [withinWindow_take hrows hweighs]
          · rw [hall]

theorem windowEntries_eq_ok (hrows : ∀ r ∈ shares.newest lastShareId, 0 ≤ r.weight)
    (hN : 0 < N) (hfits : Fits shares lastShareId N) :
    ∃ entries, shares.windowEntries lastShareId N = .ok entries := by
  obtain ⟨limit, hsmall, hlimit⟩ := scanLimit_eq_ok hfits hrows (Nat.succ_pos 65535) (by decide)
  have htake : ∀ r ∈ (shares.newest lastShareId).take limit, 0 ≤ r.weight :=
    fun r hr => hrows r (List.mem_of_mem_take hr)
  have hle := shareWeight_sublist (List.take_sublist limit (shares.newest lastShareId)) hrows
  have hweights := hfits.weights
  obtain ⟨cums, hcums⟩ := running_eq_ok htake (Int.le_refl 0) (by omega)
  rw [windowEntries, hlimit]
  exact ⟨_, readEntries_of_running hrows (newestUpTo_eq_ok hfits.lastShareId hsmall)
    (num_eq_ok hN.le hfits.bound) hcums⟩

/-- The weight of the shares newer than `r`, up to `lastShareId`. -/
def newerWeight (shares : Shares) (lastShareId : Nat) (r : Share) : Int :=
  shareWeight (shares.rows.filter fun q => r.id < q.id ∧ q.id ≤ lastShareId)

/-- The shares that are paid, by the definition that bounds no scan: those up to `lastShareId` that
strictly newer ones leave room for. -/
def window (shares : Shares) (lastShareId : Nat) (N : Int) : List Share :=
  shares.rows.filter fun r => r.id ≤ lastShareId ∧ shares.newerWeight lastShareId r < N

/-- The entries are the window by miner, the heaviest first. -/
structure Exact (shares : Shares) (lastShareId : Nat) (N : Int) (entries : List Entry) : Prop where
  miners : (entries.map Entry.miner).Nodup
  mem : ∀ e, e ∈ entries ↔ (∃ r ∈ shares.window lastShareId N, r.miner = e.miner) ∧
    e.weight = shareWeight ((shares.window lastShareId N).filter (·.miner = e.miner)) ∧
    e.shares = ((shares.window lastShareId N).filter (·.miner = e.miner)).length
  heaviest : entries.Pairwise (·.weight ≥ ·.weight)
  total : totalWeight entries = shareWeight (shares.window lastShareId N)
  covers : N ≤ totalWeight entries ∨
    shares.window lastShareId N = shares.rows.filter (·.id ≤ lastShareId)
  tight : ∀ oldest ∈ shares.window lastShareId N,
    (∀ r ∈ shares.window lastShareId N, oldest.id ≤ r.id) → totalWeight entries - oldest.weight < N

/-- The table is read in the order of its ids. -/
theorem newest_pairwise (horder : shares.rows.Pairwise (·.id < ·.id)) :
    (shares.newest lastShareId).Pairwise (·.id > ·.id) :=
  List.pairwise_reverse.mpr (horder.filter _)

theorem withinWindow_newest (horder : shares.rows.Pairwise (·.id < ·.id)) :
    withinWindow N 0 (shares.newest lastShareId) = (shares.window lastShareId N).reverse := by
  have hnewer : ∀ r, 0 + shareWeight ((shares.newest lastShareId).filter (r.id < ·.id)) =
      shares.newerWeight lastShareId r := by
    intro r
    rw [newest, List.filter_reverse, shareWeight_perm (List.reverse_perm _), List.filter_filter,
      Int.zero_add, newerWeight]
    simp
  rw [withinWindow_eq_filter N 0 (newest_pairwise horder), newest, List.filter_reverse,
    List.filter_filter, window]
  congr 1
  refine List.filter_congr fun r _ => ?_
  rw [← newest, hnewer, Bool.and_comm]
  simp

theorem exact_groupByMiner (horder : shares.rows.Pairwise (·.id < ·.id))
    (hpos : ∀ r ∈ shares.rows, 0 < r.weight) :
    Exact shares lastShareId N (groupByMiner (withinWindow N 0 (shares.newest lastShareId))) := by
  have hrows : ∀ r ∈ shares.newest lastShareId, 0 ≤ r.weight := fun r hr =>
    (hpos r (List.mem_of_mem_filter (List.mem_reverse.mp hr))).le
  have hcovers := withinWindow_covers hrows N 0
  have htight := fun init last => @withinWindow_tight _ hrows N 0 init last
  have hread : (shares.newest lastShareId).Pairwise (·.id > ·.id) := newest_pairwise horder
  have hdown := hread.sublist (withinWindow_sublist N 0 _)
  have hwindow := @withinWindow_newest shares lastShareId N horder
  have htotal := totalWeight_groupByMiner (withinWindow N 0 (shares.newest lastShareId))
  have hperm : (withinWindow N 0 (shares.newest lastShareId)).Perm (shares.window lastShareId N) :=
    hwindow ▸ List.reverse_perm _
  refine ⟨groupByMiner_miners _, ?_, groupByMiner_heaviest _, ?_, ?_, ?_⟩
  · intro e
    rw [mem_groupByMiner, shareWeight_perm (hperm.filter _), (hperm.filter _).length_eq]
    simp only [hperm.mem_iff]
  · rw [htotal, shareWeight_perm hperm]
  · rw [htotal]
    refine hcovers.imp (fun h => by omega) fun hall => ?_
    rw [hwindow, newest] at hall
    exact List.reverse_injective hall
  · intro oldest holdest hmin
    -- The last row that is read is the oldest of the window.
    rcases List.eq_nil_or_concat (withinWindow N 0 (shares.newest lastShareId)) with
      hnil | ⟨init, last, hlast⟩
    · rw [← hperm.mem_iff, hnil] at holdest
      cases holdest
    · rw [List.concat_eq_append] at hlast
      have hinit := htight init last hlast
      have hsum := congrArg shareWeight hlast
      rw [shareWeight_append, shareWeight_cons, shareWeight_nil] at hsum
      rw [← hperm.mem_iff, hlast, List.mem_append, List.mem_singleton] at holdest
      rcases holdest with hin | rfl
      · have hlater := (List.pairwise_append.mp (hlast ▸ hdown)).2.2 oldest hin last (by simp)
        have hle := hmin last (hperm.mem_iff.mp (by simp [hlast]))
        omega
      · omega

/-- The bounded scan pays the window: the loop ends, and what is read by then is the window by miner.
Only sums and literals past 64-bit integers stop it. -/
theorem windowEntries_exact (horder : shares.rows.Pairwise (·.id < ·.id))
    (hpos : ∀ r ∈ shares.rows, 0 < r.weight) (lastShareId : Nat) {N : Int} (hN : 0 < N) :
    (∀ entries, shares.windowEntries lastShareId N = .ok entries →
        Exact shares lastShareId N entries) ∧
      (Fits shares lastShareId N → ∃ entries, shares.windowEntries lastShareId N = .ok entries) := by
  have hrows : ∀ r ∈ shares.newest lastShareId, 0 ≤ r.weight := fun r hr =>
    (hpos r (List.mem_of_mem_filter (List.mem_reverse.mp hr))).le
  constructor
  · intro entries h
    rw [of_windowEntries hrows h]
    exact exact_groupByMiner horder hpos
  · exact windowEntries_eq_ok hrows hN

/-- Three shares of two miners. -/
def three : Shares where
  rows := [row 3 "slow" 4, row 5 "fast" 3, row 9 "slow" 2]
  seq := 9
where
  row (id : Nat) (miner : String) (weight : Int) : Share :=
    { id, time := 0, miner, session := "", job_id := "", nonce := "", height := 0, weight, target := 0,
      epoch := 0, header := [], solved := [] }

theorem windowEntries_exact_three :
    (∀ entries, three.windowEntries 9 5 = .ok entries → Exact three 9 5 entries) ∧
      ∃ entries, three.windowEntries 9 5 = .ok entries := by
  have h := @windowEntries_exact three (by decide) (by decide) 9 5 (by decide)
  exact ⟨h.1, h.2 ⟨by decide, by decide, by decide, by decide⟩⟩

end Shares

/-- The limit of `widen` hides no row of the window. -/
theorem withinWindow_widen {newest : List Share} (hrows : ∀ r ∈ newest, 0 ≤ r.weight) {N : Int}
    {limit : Nat} (hlimit : 0 < limit) :
    withinWindow N 0 (newest.take (widen newest N limit hlimit)) = withinWindow N 0 newest := by
  fun_induction widen newest N limit hlimit with
  | case1 limit hlimit hge => exact withinWindow_take hrows hge
  | case2 limit hlimit hlt hwide hnone => simp [List.eq_nil_of_length_eq_zero hnone]
  | case3 limit hlimit hlt hwide hsome => rw [List.take_length]
  | case4 limit hlimit hlt hwide ih => exact ih

theorem pplnsWindow_eq {shares : Shares} {lastShareId : Nat}
    (hrows : ∀ r ∈ shares.newest lastShareId, 0 ≤ r.weight) (windowMultiplier : Int) (netTarget : Nat) :
    pplnsWindow shares windowMultiplier lastShareId netTarget =
      (targetWeight netTarget).map fun blockWork =>
        groupByMiner (withinWindow (blockWork * windowMultiplier) 0 (shares.newest lastShareId)) := by
  rw [pplnsWindow]
  cases targetWeight netTarget with
  | error e => rfl
  | ok blockWork =>
    simp only [bind, Except.bind, Except.map, withinWindow_widen hrows]
    rfl

/-- What the database answers is what `pplnsWindow` computes over unbounded integers. -/
theorem pplnsWindow_of_windowEntries {shares : Shares} {lastShareId : Nat}
    (hrows : ∀ r ∈ shares.newest lastShareId, 0 ≤ r.weight) {windowMultiplier blockWork : Int}
    {netTarget : Nat} (hwork : targetWeight netTarget = .ok blockWork) {entries : List Entry}
    (h : shares.windowEntries lastShareId (blockWork * windowMultiplier) = .ok entries) :
    pplnsWindow shares windowMultiplier lastShareId netTarget = .ok entries := by
  rw [pplnsWindow_eq hrows, hwork, Shares.of_windowEntries hrows h]
  rfl

end pcoin.store
