import PCoin.Run.Basic
import PCoin.Store.Blocks
import PCoin.Store.Window
import Mathlib.Data.Finset.Max

/-! A run of `pcoin-pool-prune-shares` beside the pool that records shares. -/

open pcoin.store

namespace pcoin.prune

def RETAIN_HOURS : Int := 24

def GUARD_SLACK_HOURS : Int := 24

def BATCH : Nat := 50000

def MAX_BATCHES : Nat := 400

/-- What the queries before the deletion answer, `none` where one fails. -/
structure Readings where
  BEFORE_ROWS : Option Nat
  clock : Option Int
  blocks : Option (List BlockRow)
  now : Option Int

/-- `IFNULL(MIN(found_at),0)` over the blocks that are not settled. -/
def guard (blocks : List BlockRow) : Int :=
  ((blocks.filter fun b => b.state ≠ .mature ∧ b.state ≠ .orphaned).map BlockRow.found_at).min?.getD 0

/-- The cutoff in force; `none` when the script exits before it deletes. -/
def cutoff (r : Readings) : Option Int := do
  let _ ← r.BEFORE_ROWS
  -- Without a cutoff the count of the doomed rows fails too.
  let clock ← r.clock
  let CUTOFF := (clock - RETAIN_HOURS * 3600) * 1000
  let CUTOFF :=
    match r.blocks with
    | none => CUTOFF
    | some blocks =>
      if guard blocks > 0 ∧ guard blocks - 3600000 < CUTOFF then guard blocks - 3600000 else CUTOFF
  let now ← r.now
  if now * 1000 > 0 then
    let FLOOR := now * 1000 - (RETAIN_HOURS + GUARD_SLACK_HOURS) * 3600 * 1000
    return if CUTOFF < FLOOR then FLOOR else CUTOFF
  else none

/-- `WHERE at < CUTOFF`. -/
def doomed (CUTOFF : Int) (shares : Shares) : List Share :=
  shares.rows.filter fun r => (r.time : Int) < CUTOFF

/-- `SELECT id ... LIMIT BATCH`, in no stated order. -/
def Picks (CUTOFF : Int) (shares : Shares) (ids : List Nat) : Prop :=
  ids.Nodup ∧ ids ⊆ (doomed CUTOFF shares).map Share.id ∧
    ids.length = min BATCH (doomed CUTOFF shares).length

instance (CUTOFF : Int) (shares : Shares) (ids : List Nat) : Decidable (Picks CUTOFF shares ids) :=
  inferInstanceAs (Decidable (_ ∧ _ ∧ _))

/-- `DELETE FROM shares WHERE id IN ...`. -/
def delete (shares : Shares) (ids : List Nat) : Shares :=
  { shares with rows := shares.rows.filter (·.id ∉ ids) }

/-- The table that is pruned, and what it would be if it were not. -/
structure World where
  pruned : Shares
  kept : Shares
  batches : Nat := 0
deriving DecidableEq

/-- A share is recorded, or a batch is deleted. The script may stop after any of them. -/
inductive Event
  | record (row : Share)
  | batch (ids : List Nat)

def step (CUTOFF : Option Int) (w : World) : Event → Option World
  | .record row =>
    if (w.kept.lookup row.job_id row.nonce).isNone ∧ 0 < row.weight then
      some { w with pruned := w.pruned.insertOrIgnore row, kept := w.kept.insertOrIgnore row }
    else none
  | .batch ids =>
    match CUTOFF with
    | none => none
    | some CUTOFF =>
      if w.batches < MAX_BATCHES ∧ ids ≠ [] ∧ Picks CUTOFF w.pruned ids then
        some { w with pruned := delete w.pruned ids, batches := w.batches + 1 }
      else none

/-- The weight of the shares newer than `r`. -/
def above (shares : Shares) (r : Share) : Int := shareWeight (shares.rows.filter (r.id < ·.id))

/-- No share older than the cutoff is in the window of `N`. -/
def Spares (N : Int) (CUTOFF : Option Int) (w : World) : Event → Prop
  | .record _ => True
  | .batch _ => ∀ c ∈ CUTOFF, ∀ r ∈ doomed c w.pruned, N ≤ above w.pruned r

/-- A table as `AUTOINCREMENT` keeps it, with weights that are positive. -/
structure Table (shares : Shares) : Prop where
  order : shares.rows.Pairwise (·.id < ·.id)
  seq : ∀ r ∈ shares.rows, r.id ≤ shares.seq
  weights : ∀ r ∈ shares.rows, 0 < r.weight

/-- The pruned table stands for the other one: what it lacks is below the window of `N`. -/
structure Represents (N : Int) (w : World) : Prop where
  table : Table w.kept
  seq : w.pruned.seq = w.kept.seq
  rows : w.pruned.rows.Sublist w.kept.rows
  dropped : ∀ r ∈ w.kept.rows, r ∉ w.pruned.rows → N ≤ above w.pruned r

theorem above_le {shares shares' : Shares} (hrows : shares'.rows.Sublist shares.rows)
    (hweights : ∀ r ∈ shares.rows, 0 < r.weight) (r : Share) : above shares' r ≤ above shares r :=
  shareWeight_sublist (hrows.filter _) fun q hq => (hweights q (List.mem_of_mem_filter hq)).le

theorem above_anti {shares : Shares} (hweights : ∀ r ∈ shares.rows, 0 < r.weight) {r d : Share}
    (h : r.id ≤ d.id) : above shares d ≤ above shares r := by
  refine shareWeight_sublist ?_ fun q hq => (hweights q (List.mem_of_mem_filter hq)).le
  refine List.monotone_filter_right _ fun q hq => ?_
  have hlt : d.id < q.id := of_decide_eq_true hq
  exact decide_eq_true (by omega)

/-- Rows newer than every doomed one are not deleted. -/
theorem above_delete {c : Int} {shares : Shares} {ids : List Nat}
    (hpicks : ids ⊆ (doomed c shares).map Share.id)
    {r : Share} (hnewest : ∀ q ∈ doomed c shares, q.id ≤ r.id) :
    above (delete shares ids) r = above shares r := by
  rw [above, delete, List.filter_filter, above]
  congr 1
  refine List.filter_congr fun q hq => ?_
  by_cases hlt : r.id < q.id
  · have hnot : q.id ∉ ids := by
      intro hmem
      obtain ⟨d, hd, hid⟩ := List.mem_map.mp (hpicks hmem)
      have := hnewest d hd
      omega
    simp [hlt, hnot]
  · simp [hlt]

theorem exists_newest {rows : List Share} (hne : rows ≠ []) : ∃ d ∈ rows, ∀ q ∈ rows, q.id ≤ d.id := by
  obtain ⟨d, hd, hmax⟩ := Finset.exists_max_image rows.toFinset Share.id
    ((List.toFinset_nonempty_iff rows).mpr hne)
  exact ⟨d, List.mem_toFinset.mp hd, fun q hq => hmax q (List.mem_toFinset.mpr hq)⟩

/-- A batch that spares the window leaves it above every row that was below it. -/
theorem le_above_delete {N c : Int} {shares : Shares} {ids : List Nat}
    (hweights : ∀ r ∈ shares.rows, 0 < r.weight) (hpicks : ids ⊆ (doomed c shares).map Share.id)
    (hspares : ∀ r ∈ doomed c shares, N ≤ above shares r) {r : Share} (hr : N ≤ above shares r) :
    N ≤ above (delete shares ids) r := by
  by_cases hdoomed : ∀ q ∈ doomed c shares, q.id ≤ r.id
  · rwa [above_delete hpicks hdoomed]
  · simp only [not_forall, not_le] at hdoomed
    obtain ⟨q, hq, hlater⟩ := hdoomed
    obtain ⟨d, hd, hnewest⟩ := exists_newest (List.ne_nil_of_mem hq)
    have hsub : (delete shares ids).rows.Sublist shares.rows := List.filter_sublist
    have hdown := above_anti (fun q hq => hweights q (hsub.subset hq)) (hlater.le.trans (hnewest q hq))
    rw [above_delete hpicks hnewest] at hdown
    exact (hspares d hd).trans hdown

theorem lookup_isNone {shares shares' : Shares} (hrows : shares'.rows.Sublist shares.rows)
    {job_id nonce : String} (h : (shares.lookup job_id nonce).isNone) :
    shares'.lookup job_id nonce = none := by
  rw [Option.isNone_iff_eq_none, Shares.lookup, List.find?_eq_none] at h
  exact List.find?_eq_none.mpr fun q hq => h q (hrows.subset hq)

theorem insertOrIgnore_fresh {shares : Shares} {row : Share}
    (h : shares.lookup row.job_id row.nonce = none) : shares.insertOrIgnore row =
      { rows := shares.rows ++ [{ row with id := shares.seq + 1 }], seq := shares.seq + 1 } := by
  rw [Shares.insertOrIgnore, h]

/-- A share that is recorded is newer than every other. -/
theorem Represents.record {N : Int} {w : World} (h : Represents N w) {row : Share}
    (hfresh : (w.kept.lookup row.job_id row.nonce).isNone) (hweight : 0 < row.weight) :
    Represents N
      { w with pruned := w.pruned.insertOrIgnore row, kept := w.kept.insertOrIgnore row } := by
  rw [insertOrIgnore_fresh (lookup_isNone h.rows hfresh),
    insertOrIgnore_fresh (Option.isNone_iff_eq_none.mp hfresh)]
  refine ⟨⟨?_, ?_, ?_⟩, by simp [h.seq], ?_, ?_⟩
  · refine List.pairwise_append.mpr ⟨h.table.order, List.pairwise_singleton _ _, fun r hr q hq => ?_⟩
    rw [List.mem_singleton.mp hq]
    exact Nat.lt_succ_of_le (h.table.seq r hr)
  · intro r hr
    rcases List.mem_append.mp hr with hr | hr
    · exact (h.table.seq r hr).trans (Nat.le_succ _)
    · rw [List.mem_singleton.mp hr]
  · intro r hr
    rcases List.mem_append.mp hr with hr | hr
    · exact h.table.weights r hr
    · rw [List.mem_singleton.mp hr]
      exact hweight
  · rw [h.seq]
    exact h.rows.append (List.Sublist.refl _)
  · intro r hr hnot
    rw [h.seq] at hnot ⊢
    rw [List.mem_append, not_or] at hnot
    have hkept := (List.mem_append.mp hr).resolve_right hnot.2
    have hbelow := h.dropped r hkept hnot.1
    rw [above, List.filter_append, shareWeight_append]
    have hnew : 0 ≤ shareWeight ([{ row with id := w.kept.seq + 1 }].filter (r.id < ·.id)) :=
      shareWeight_nonneg fun q hq => by
        rw [List.mem_singleton.mp (List.mem_of_mem_filter hq)]
        exact hweight.le
    rw [above] at hbelow
    omega

/-- A batch that spares the window drops rows below it only. -/
theorem Represents.batch {N c : Int} {w : World} (h : Represents N w) {ids : List Nat}
    (hpicks : Picks c w.pruned ids) (hspares : ∀ r ∈ doomed c w.pruned, N ≤ above w.pruned r) (n : Nat) :
    Represents N { w with pruned := delete w.pruned ids, batches := n } := by
  have hsub : (delete w.pruned ids).rows.Sublist w.pruned.rows := List.filter_sublist
  have hweights : ∀ r ∈ w.pruned.rows, 0 < r.weight := fun r hr => h.table.weights r (h.rows.subset hr)
  refine ⟨h.table, h.seq, hsub.trans h.rows, fun r hr hnot => ?_⟩
  refine le_above_delete hweights hpicks.2.1 hspares ?_
  by_cases hin : r ∈ w.pruned.rows
  · have hid : r.id ∈ ids := by
      by_contra hid
      exact hnot (List.mem_filter.mpr ⟨hin, decide_eq_true hid⟩)
    obtain ⟨d, hd, heq⟩ := List.mem_map.mp (hpicks.2.1 hid)
    have hbelow := hspares d hd
    rwa [above, heq, ← above] at hbelow
  · exact h.dropped r hr hin

theorem Represents.step {N : Int} {CUTOFF : Option Int} {w w' : World} {e : Event} (h : Represents N w)
    (hspares : Spares N CUTOFF w e) (hstep : step CUTOFF w e = some w') : Represents N w' := by
  cases e with
  | record row =>
    rw [prune.step] at hstep
    split at hstep
    case isTrue hok => cases hstep; exact h.record hok.1 hok.2
    case isFalse => cases hstep
  | batch ids =>
    cases CUTOFF with
    | none => cases hstep
    | some c =>
      simp only [prune.step] at hstep
      split at hstep
      case isTrue hok => cases hstep; exact h.batch hok.2.2 (hspares c rfl) _
      case isFalse => cases hstep

/-- `SELECT IFNULL(MAX(id),0) FROM shares`. -/
def newestId (shares : Shares) : Nat := (shares.rows.map Share.id).foldl max 0

/-- The newest share is paid for the same work, pruned or not. -/
structure Unchanged (N : Int) (w : World) : Prop where
  newest : newestId w.pruned = newestId w.kept
  window : w.pruned.window (newestId w.kept) N = w.kept.window (newestId w.kept) N
  entries : ∀ entries entries', w.kept.windowEntries (newestId w.kept) N = .ok entries →
    w.pruned.windowEntries (newestId w.kept) N = .ok entries' → entries' = entries
  answered : w.kept.Fits (newestId w.kept) N →
    w.pruned.windowEntries (newestId w.kept) N = w.kept.windowEntries (newestId w.kept) N

theorem le_newestId {shares : Shares} {r : Share} (hr : r ∈ shares.rows) : r.id ≤ newestId shares := by
  have hfold : ∀ (l : List Nat) (a : Nat), a ≤ l.foldl max a ∧ ∀ n ∈ l, n ≤ l.foldl max a := by
    intro l
    induction l with
    | nil => simp
    | cons m l ih =>
      intro a
      obtain ⟨ha, hl⟩ := ih (max a m)
      simp only [List.foldl_cons, List.forall_mem_cons]
      exact ⟨by omega, by omega, hl⟩
  exact (hfold _ 0).2 r.id (List.mem_map_of_mem hr)

theorem newestId_mem {shares : Shares} (hne : shares.rows ≠ []) :
    ∃ r ∈ shares.rows, r.id = newestId shares := by
  obtain ⟨d, hd, hmax⟩ := exists_newest hne
  refine ⟨d, hd, le_antisymm (le_newestId hd) ?_⟩
  have hfold : ∀ (l : List Nat) (a b : Nat), a ≤ b → (∀ n ∈ l, n ≤ b) → l.foldl max a ≤ b := by
    intro l
    induction l with
    | nil => simp
    | cons m l ih =>
      intro a b ha hl
      obtain ⟨hm, hl⟩ := List.forall_mem_cons.mp hl
      exact ih _ b (max_le ha hm) hl
  exact hfold _ 0 d.id (Nat.zero_le _) (List.forall_mem_map.mpr hmax)

theorem newerWeight_eq {shares : Shares} {lastShareId : Nat} (h : ∀ r ∈ shares.rows, r.id ≤ lastShareId)
    (r : Share) : shares.newerWeight lastShareId r = above shares r := by
  rw [Shares.newerWeight, above]
  congr 1
  exact List.filter_congr fun q hq => by simp [h q hq]

theorem eq_of_sublist {α : Type} {l l' : List α} (h : l'.Sublist l) (hnodup : l.Nodup) (hall : l ⊆ l') :
    l' = l :=
  h.eq_of_length_le (hnodup.subperm hall).length_le

theorem Table.nodup {shares : Shares} (h : Table shares) : shares.rows.Nodup :=
  h.order.imp fun hlt heq => absurd hlt (by simp [heq])

theorem Represents.window_eq {N : Int} {w : World} (h : Represents N w) :
    w.pruned.window (newestId w.kept) N = w.kept.window (newestId w.kept) N := by
  have hle : ∀ r ∈ w.kept.rows, r.id ≤ newestId w.kept := fun r hr => le_newestId hr
  have hkept := newerWeight_eq hle
  have hpruned := newerWeight_eq fun r hr => hle r (h.rows.subset hr)
  have hmem : ∀ r, r ∈ w.pruned.window (newestId w.kept) N ↔ r ∈ w.kept.window (newestId w.kept) N := by
    intro r
    simp only [Shares.window, List.mem_filter, decide_eq_true_eq, hkept, hpruned]
    have hmore := above_le h.rows h.table.weights r
    constructor
    · rintro ⟨hr, hid, hN⟩
      refine ⟨h.rows.subset hr, hid, ?_⟩
      by_contra hge
      have hall : w.pruned.rows.filter (r.id < ·.id) = w.kept.rows.filter (r.id < ·.id) := by
        refine eq_of_sublist (h.rows.filter _) (h.table.nodup.filter _) fun d hd => ?_
        obtain ⟨hd, hlater⟩ := List.mem_filter.mp hd
        refine List.mem_filter.mpr ⟨?_, hlater⟩
        -- A newer row that is gone would lie below the window, and `r` with it.
        by_contra hnot
        have hbelow := h.dropped d hd hnot
        have hdown := above_anti (fun q hq => h.table.weights q (h.rows.subset hq))
          (of_decide_eq_true hlater).le
        omega
      have heq : above w.pruned r = above w.kept r := congrArg shareWeight hall
      omega
    · rintro ⟨hr, hid, hN⟩
      have hin : r ∈ w.pruned.rows := by
        by_contra hnot
        have := h.dropped r hr hnot
        omega
      exact ⟨hin, hid, by omega⟩
  have hsub : (w.pruned.window (newestId w.kept) N).Sublist w.kept.rows :=
    List.filter_sublist.trans h.rows
  have hperm : (w.pruned.window (newestId w.kept) N).Perm (w.kept.window (newestId w.kept) N) :=
    (List.perm_ext_iff_of_nodup (h.table.nodup.sublist hsub) (h.table.nodup.filter _)).mpr hmem
  exact hperm.eq_of_pairwise (fun a b _ _ hab hba => absurd hab (Nat.lt_asymm hba))
    (h.table.order.sublist hsub) (h.table.order.filter _)

theorem Represents.newest_eq {N : Int} (hN : 0 < N) {w : World} (h : Represents N w) :
    newestId w.pruned = newestId w.kept := by
  by_cases hne : w.kept.rows = []
  · have hpruned : w.pruned.rows = [] := List.sublist_nil.mp (hne ▸ h.rows)
    rw [newestId, newestId, hne, hpruned]
  · obtain ⟨r, hr, hid⟩ := newestId_mem hne
    have hin : r ∈ w.pruned.rows := by
      by_contra hnot
      have hbelow := h.dropped r hr hnot
      have hnone : w.pruned.rows.filter (r.id < ·.id) = [] :=
        List.filter_eq_nil_iff.mpr fun q hq => by
          have := le_newestId (h.rows.subset hq)
          simp only [decide_eq_true_eq]
          omega
      rw [above, hnone] at hbelow
      exact absurd hbelow (by simpa using hN)
    obtain ⟨q, hq, hqid⟩ := newestId_mem (List.ne_nil_of_mem hin)
    have hup := le_newestId hin
    have hdown := le_newestId (h.rows.subset hq)
    omega

theorem newest_sublist {shares shares' : Shares} (h : shares'.rows.Sublist shares.rows)
    (lastShareId : Nat) : (shares'.newest lastShareId).Sublist (shares.newest lastShareId) :=
  (h.filter _).reverse

theorem Represents.unchanged {N : Int} (hN : 0 < N) {w : World} (h : Represents N w) :
    Unchanged N w := by
  have hkept : ∀ r ∈ w.kept.newest (newestId w.kept), 0 ≤ r.weight := fun r hr =>
    (h.table.weights r (List.mem_of_mem_filter (List.mem_reverse.mp hr))).le
  have hsub := newest_sublist h.rows (newestId w.kept)
  have hpruned : ∀ r ∈ w.pruned.newest (newestId w.kept), 0 ≤ r.weight := fun r hr =>
    hkept r (hsub.subset hr)
  have hsame : withinWindow N 0 (w.pruned.newest (newestId w.kept)) =
      withinWindow N 0 (w.kept.newest (newestId w.kept)) := by
    rw [Shares.withinWindow_newest (h.table.order.sublist h.rows),
      Shares.withinWindow_newest h.table.order, h.window_eq]
  have hentries : ∀ entries entries', w.kept.windowEntries (newestId w.kept) N = .ok entries →
      w.pruned.windowEntries (newestId w.kept) N = .ok entries' → entries' = entries := by
    intro entries entries' hread hread'
    rw [Shares.of_windowEntries hkept hread, Shares.of_windowEntries hpruned hread', hsame]
  refine ⟨h.newest_eq hN, h.window_eq, hentries, fun hfits => ?_⟩
  have hfits' : w.pruned.Fits (newestId w.kept) N :=
    ⟨(shareWeight_sublist hsub hkept).trans_lt hfits.weights, hsub.length_le.trans hfits.rows,
      hfits.lastShareId, hfits.bound⟩
  obtain ⟨entries, hread⟩ := Shares.windowEntries_eq_ok hkept hN hfits
  obtain ⟨entries', hread'⟩ := Shares.windowEntries_eq_ok hpruned hN hfits'
  rw [hread, hread', hentries entries entries' hread hread']

/-- In every state of a run whose batches spare the window, the newest share is paid as if nothing
were pruned. -/
theorem prune_unchanged {shares : Shares} (htable : Table shares) (readings : Readings) {N : Int}
    (hN : 0 < N) {w : World}
    (hrun : run.Steps (step (cutoff readings)) (Spares N (cutoff readings))
      { pruned := shares, kept := shares } w) : Unchanged N w := by
  have hstart : Represents N { pruned := shares, kept := shares } :=
    ⟨htable, rfl, List.Sublist.refl _, fun r hr hnot => absurd hr hnot⟩
  have hw := hrun.invariant (fun _ _ _ hinv hok hstep => Represents.step hinv hok hstep) hstart
  exact hw.unchanged hN

/-- A share of the miner `slow`, and one of `fast` after a pause of 25 hours. -/
def paused : Shares where
  rows := [row 1 0 "slow" 10, row 2 90000000 "fast" 5]
  seq := 2
where
  row (id time : Nat) (miner : String) (weight : Int) : Share :=
    { id, time, miner, session := "", job_id := "", nonce := "", height := 0, weight, target := 0,
      epoch := 0, header := [], solved := [] }

/-- The script runs as the second share is recorded, with no block in flight. -/
def resumed : Readings where
  BEFORE_ROWS := some 2
  clock := some 90000
  blocks := some []
  now := some 90000

theorem table_paused : Table paused := ⟨by decide, by decide, by decide⟩

theorem cutoff_resumed : cutoff resumed = some 3600000 := by decide

/-- Where the newest share fills the window, the old one is deleted and nothing changes. -/
theorem prune_unchanged_paused :
    Unchanged 5 { pruned := delete paused [1], kept := paused, batches := 1 } := by
  refine prune_unchanged table_paused resumed (by decide)
    (run.steps_of_exec [.batch [1]] (by decide) ⟨?_, fun _ _ => trivial⟩)
  intro c hc
  rw [cutoff_resumed] at hc
  cases hc
  decide

/-- Where it does not, the weight of the old one is lost. -/
theorem paused_share_lost :
    step (cutoff resumed) { pruned := paused, kept := paused } (.batch [1]) =
      some { pruned := delete paused [1], kept := paused, batches := 1 } ∧
    ¬Unchanged 10 { pruned := delete paused [1], kept := paused, batches := 1 } ∧
    (∀ entries, paused.windowEntries 2 10 = .ok entries → totalWeight entries = 15) ∧
    ∀ entries, (delete paused [1]).windowEntries 2 10 = .ok entries → totalWeight entries = 5 := by
  have htotal : ∀ {shares : Shares} {entries : List Entry}, (∀ r ∈ shares.newest 2, 0 ≤ r.weight) →
      shares.windowEntries 2 10 = .ok entries →
      totalWeight entries = shareWeight (withinWindow 10 0 (shares.newest 2)) := by
    intro shares entries hrows h
    rw [Shares.of_windowEntries hrows h, totalWeight_groupByMiner]
  refine ⟨by decide, fun h => ?_, fun entries h => ?_, fun entries h => ?_⟩
  · have hwindow := h.window
    revert hwindow
    decide
  · rw [htotal (by decide) h]
    decide
  · rw [htotal (by decide) h]
    decide

end pcoin.prune
