import PCoin.Store.Blocks

namespace pcoin.store

/-- What happens to the ledger: a pass, or a block that is recorded. -/
inductive BlockEvent
  | pass (p : Pass)
  | record (c : Call) (b : Found)

namespace BlockEvent

def apply (maturity : Int) (t : Tables) : BlockEvent → Tables
  | .pass p => (evaluateBlocks maturity t p).1
  | .record c b => (recordBlockPaidByCoinbase t c b).1

end BlockEvent

/-- The reading that a pass makes of a block: whether the hash at its height was its own. -/
def Pass.reading (p : Pass) (t : Tables) (hash : String) : Option Bool := do
  let _ ← p.tipHeight
  let b ← table.find BlockRow.hash hash t.blocks
  if b.state = .orphaned then none
  else return decide ((← p.hashAt hash) = hash)

def BlockEvent.reading (t : Tables) (hash : String) : BlockEvent → Option Bool
  | .pass p => p.reading t hash
  | .record _ _ => none

/-- The readings that a run makes of a block, in order. -/
def readings (maturity : Int) (hash : String) : Tables → List BlockEvent → List Bool
  | _, [] => []
  | t, e :: es => (e.reading t hash).toList ++ readings maturity hash (e.apply maturity t) es

theorem readings_append (maturity : Int) (hash : String) (t : Tables) (es es' : List BlockEvent) :
    readings maturity hash t (es ++ es') = readings maturity hash t es ++
      readings maturity hash (es.foldl (BlockEvent.apply maturity) t) es' := by
  induction es generalizing t with
  | nil => rfl
  | cons e es ih =>
    simp only [List.cons_append, readings, ih, List.append_assoc, List.foldl_cons]

/-- A ledger in which no block that is still watched has a strike. -/
structure Tables.Fresh (t : Tables) : Prop where
  keyed : t.Keyed
  strikes : ∀ b ∈ t.blocks, b.state ≠ .orphaned → b.orphan_strikes = 0

/-- The strikes of a block, as the readings made of it so far say: one after a mismatch, none
after a match. -/
def Struck (row : Option BlockRow) (seen : List Bool) : Prop :=
  match row with
  | none => seen = []
  | some b => b.state ≠ .orphaned → b.orphan_strikes = if seen.getLast? = some false then 1 else 0

theorem Struck.visit {b : BlockRow} {seen : List Bool} (h : Struck (some b) seen)
    (hstate : b.state ≠ .orphaned) (maturity tip now : Int) (sent : Nat) (actual : Option String) :
    Struck (some (b.visit maturity tip now sent actual))
      (seen ++ (actual.map fun hash => decide (hash = b.hash)).toList) := by
  have hstrikes := h hstate
  cases actual with
  | none => simpa [BlockRow.visit] using h
  | some actual =>
    simp only [BlockRow.visit, BlockRow.judge, Option.elim_some, Option.map_some, Option.toList_some]
    intro hopen
    rw [List.getLast?_append, List.getLast?_singleton, Option.some_or]
    split_ifs at hopen hstrikes ⊢ <;> simp_all

theorem Struck.insertOrIgnore {blocks : List BlockRow} {hash : String} {seen : List Bool}
    (h : Struck (table.find BlockRow.hash hash blocks) seen) {row : BlockRow}
    (hrow : row.orphan_strikes = 0) :
    Struck (table.find BlockRow.hash hash (table.insertOrIgnore BlockRow.hash blocks row)) seen := by
  rw [table.find_insertOrIgnore]
  cases hfind : table.find BlockRow.hash hash blocks with
  | some b =>
    rw [hfind] at h
    exact h
  | none =>
    rw [hfind] at h
    obtain rfl : seen = [] := h
    cases hnew : table.find BlockRow.hash hash [row] with
    | none => rfl
    | some b =>
      obtain rfl := List.mem_singleton.mp (table.find_spec hnew).1
      exact fun _ => hrow

/-- What holds in every state of a run. -/
structure Watched (t : Tables) (seen : String → List Bool) : Prop where
  keyed : t.Keyed
  struck : ∀ hash, Struck (table.find BlockRow.hash hash t.blocks) (seen hash)

theorem Tables.Fresh.watched {t : Tables} (h : t.Fresh) : Watched t fun _ => [] := by
  refine ⟨h.keyed, fun hash => ?_⟩
  cases hfind : table.find BlockRow.hash hash t.blocks with
  | none => rfl
  | some b => exact fun hstate => h.strikes b (table.find_spec hfind).1 hstate

theorem Watched.pass {maturity : Int} {t : Tables} {seen : String → List Bool} (h : Watched t seen)
    (p : Pass) : Watched (evaluateBlocks maturity t p).1
      fun hash => seen hash ++ (p.reading t hash).toList := by
  refine ⟨?_, fun hash => ?_⟩
  · unfold Tables.Keyed
    rw [keys_evaluateBlocks]
    exact h.keyed
  · have hstruck := h.struck hash
    unfold Pass.reading
    cases htip : p.tipHeight with
    | none => simpa [evaluateBlocks, htip] using hstruck
    | some tip =>
      rw [find_evaluateBlocks maturity h.keyed p htip]
      cases hfind : table.find BlockRow.hash hash t.blocks with
      | none => simpa [hfind] using hstruck
      | some b =>
        obtain ⟨-, rfl⟩ := table.find_spec hfind
        rw [hfind] at hstruck
        rw [Option.map_some]
        split
        · rename_i hstate
          intro hopen
          exact absurd hstate hopen
        · rename_i hstate
          have hvisit := hstruck.visit hstate maturity tip p.now (t.sent b.hash) (p.hashAt b.hash)
          simpa [hstate, Option.map_eq_bind] using hvisit

theorem Watched.record {t : Tables} {seen : String → List Bool} (h : Watched t seen) (c : Call)
    (b : Found) : Watched (recordBlockPaidByCoinbase t c b).1 seen := by
  obtain ⟨row, -, -, hstrikes, hblocks⟩ := blocks_record t c b
  refine ⟨?_, fun hash => ?_⟩
  · unfold Tables.Keyed
    rw [hblocks]
    exact table.nodup_insertOrIgnore h.keyed row
  · rw [hblocks]
    exact (h.struck hash).insertOrIgnore hstrikes

/-- Along every run the strikes of a block count what was last read of it. -/
theorem Watched.run {maturity : Int} {t : Tables} {seen : String → List Bool} (h : Watched t seen)
    (es : List BlockEvent) : Watched (es.foldl (BlockEvent.apply maturity) t)
      fun hash => seen hash ++ readings maturity hash t es := by
  induction es generalizing t seen with
  | nil => simpa [readings] using h
  | cons e es ih =>
    rw [List.foldl_cons]
    cases e with
    | pass p => simpa [readings, BlockEvent.reading, BlockEvent.apply] using ih (h.pass p)
    | record c b => simpa [readings, BlockEvent.reading, BlockEvent.apply] using ih (h.record c b)

namespace Tables

/-- Some payout of the block was sent. -/
def Paid (t : Tables) (hash : String) : Prop :=
  ∃ q ∈ t.payouts, q.block_hash = hash ∧ q.sent_txid.isSome

/-- The block is in the ledger and was not orphaned. -/
def Standing (t : Tables) (hash : String) : Prop :=
  ∃ b, table.find BlockRow.hash hash t.blocks = some b ∧ b.state ≠ .orphaned

theorem sent_pos {t : Tables} {hash : String} : t.sent hash > 0 ↔ t.Paid hash := by
  rw [sent, gt_iff_lt, List.length_pos_iff_exists_mem]
  simp [Paid, List.mem_filter]

end Tables

theorem BlockRow.visit_orphaned {b : BlockRow} {maturity tip now : Int} {sent : Nat}
    {actual : Option String} (hstate : b.state ≠ .orphaned)
    (h : (b.visit maturity tip now sent actual).state = .orphaned) :
    sent = 0 ∧ b.orphan_strikes ≠ 0 ∧ ∃ hash, actual = some hash ∧ hash ≠ b.hash := by
  cases actual with
  | none => exact absurd h hstate
  | some actual =>
    simp only [visit, judge, Option.elim_some] at h
    split_ifs at h with hne hstrikes hsent hdeep
    · exact absurd h hstate
    · exact absurd h hstate
    · exact ⟨by omega, by omega, actual, rfl, hne⟩

theorem BlockRow.visit_matched {b : BlockRow} (maturity tip now : Int) (sent : Nat) :
    let b' := b.visit maturity tip now sent (some b.hash)
    b'.orphan_strikes = 0 ∧ b'.alarm = none ∧
      b'.state = if maturity ≤ tip - b.height + 1 then .mature else .pending := by
  simp only [visit, judge, Option.elim_some, ne_eq, not_true_eq_false, if_false, ge_iff_le]
  split_ifs <;> exact ⟨rfl, rfl, rfl⟩

theorem Tables.Standing.record {t : Tables} {hash : String} (h : t.Standing hash) (c : Call)
    (b : Found) : (recordBlockPaidByCoinbase t c b).1.Standing hash := by
  obtain ⟨r, hr, hstate⟩ := h
  obtain ⟨row, -, -, -, hblocks⟩ := blocks_record t c b
  refine ⟨r, ?_, hstate⟩
  rw [hblocks, table.find_insertOrIgnore, hr, Option.some_or]

theorem Tables.Paid.record {t : Tables} {hash : String} (h : t.Paid hash) (c : Call) (b : Found) :
    (recordBlockPaidByCoinbase t c b).1.Paid hash := by
  obtain ⟨q, hq, hhash⟩ := h
  refine ⟨q, ?_, hhash⟩
  rw [payouts_record]
  exact table.mem_foldl_insertOrIgnore hq _

theorem Tables.Standing.pass {maturity : Int} {t : Tables} {hash : String} (h : t.Standing hash)
    (hkeyed : t.Keyed) (hpaid : t.Paid hash) (p : Pass) :
    (evaluateBlocks maturity t p).1.Standing hash := by
  obtain ⟨b, hb, hstate⟩ := h
  cases htip : p.tipHeight with
  | none => exact ⟨b, by simpa [evaluateBlocks, htip] using hb, hstate⟩
  | some tip =>
    refine ⟨b.visit maturity tip p.now (t.sent hash) (p.hashAt hash), ?_, fun horphaned => ?_⟩
    · rw [find_evaluateBlocks maturity hkeyed p htip, hb, Option.map_some, if_neg hstate]
    · have hsent := (BlockRow.visit_orphaned hstate horphaned).1
      have hpos := Tables.sent_pos.mpr hpaid
      omega

/-- A block with a sent payout stands to the end of every run. -/
theorem Tables.Standing.run {maturity : Int} {t : Tables} {hash : String} (h : t.Standing hash)
    (hkeyed : t.Keyed) (hpaid : t.Paid hash) (es : List BlockEvent) :
    (es.foldl (BlockEvent.apply maturity) t).Standing hash := by
  induction es generalizing t with
  | nil => exact h
  | cons e es ih =>
    rw [List.foldl_cons]
    cases e with
    | pass p =>
      refine ih (h.pass hkeyed hpaid p) ?_ ?_
      · unfold Tables.Keyed
        rw [BlockEvent.apply, keys_evaluateBlocks]
        exact hkeyed
      · unfold Tables.Paid
        rw [BlockEvent.apply, payouts_evaluateBlocks maturity hkeyed]
        exact hpaid
    | record c b =>
      refine ih (h.record c b) ?_ (hpaid.record c b)
      obtain ⟨row, -, -, -, hblocks⟩ := blocks_record t c b
      unfold Tables.Keyed
      rw [BlockEvent.apply, hblocks]
      exact table.nodup_insertOrIgnore hkeyed row

/-- A pass that orphans a block is the second in a row to find another hash at its height, and
no payout of the block was sent. -/
theorem Watched.orphaned {maturity : Int} {t : Tables} {seen : String → List Bool} (h : Watched t seen)
    {p : Pass} {hash : String} {b b' : BlockRow} (hb : table.find BlockRow.hash hash t.blocks = some b)
    (hb' : table.find BlockRow.hash hash (evaluateBlocks maturity t p).1.blocks = some b')
    (hstate : b.state ≠ .orphaned) (horphaned : b'.state = .orphaned) :
    ¬ t.Paid hash ∧
      ∃ before, seen hash ++ (p.reading t hash).toList = before ++ [false, false] := by
  cases htip : p.tipHeight with
  | none =>
    obtain rfl : b = b' := by simpa [evaluateBlocks, htip, hb] using hb'
    exact absurd horphaned hstate
  | some tip =>
    rw [find_evaluateBlocks maturity h.keyed p htip, hb, Option.map_some, if_neg hstate] at hb'
    obtain rfl := Option.some.inj hb'
    obtain ⟨hsent, hstrikes, actual, hactual, hne⟩ := BlockRow.visit_orphaned hstate horphaned
    obtain ⟨-, rfl⟩ := table.find_spec hb
    refine ⟨fun hpaid => absurd (Tables.sent_pos.mpr hpaid) (by omega), ?_⟩
    have hstruck := h.struck b.hash
    rw [hb] at hstruck
    have hlast : (seen b.hash).getLast? = some false := by
      by_contra hlast
      exact hstrikes (by rw [hstruck hstate, if_neg hlast])
    obtain ⟨before, hseen⟩ := List.getLast?_eq_some_iff.mp hlast
    have hreading : p.reading t b.hash = some false := by
      simp [Pass.reading, htip, hb, hstate, hactual, hne]
    exact ⟨before, by rw [hreading, hseen, Option.toList_some, List.append_assoc]; rfl⟩

/-- The lifecycle of a block. What cannot be read changes nothing; a block is orphaned only
unpaid and on two mismatches in a row; a block with a sent payout never is; and a block found at
its height is mature exactly when it is deep enough, with its strike and its alarm cleared. -/
theorem block_lifecycle (maturity : Int) (t₀ : Tables) (hfresh : t₀.Fresh) (es : List BlockEvent)
    (hash : String) :
    let t := es.foldl (BlockEvent.apply maturity) t₀
    (∀ p : Pass,
      let t' := (evaluateBlocks maturity t p).1
      (p.tipHeight = none → t' = t) ∧
      (p.hashAt hash = none →
        table.find BlockRow.hash hash t'.blocks = table.find BlockRow.hash hash t.blocks) ∧
      (∀ b b', table.find BlockRow.hash hash t.blocks = some b →
        table.find BlockRow.hash hash t'.blocks = some b' →
        b.state ≠ .orphaned → b'.state = .orphaned →
        ¬ t.Paid hash ∧ ∃ before,
          readings maturity hash t₀ (es ++ [.pass p]) = before ++ [false, false]) ∧
      (∀ tip b, p.tipHeight = some tip → p.hashAt hash = some hash →
        table.find BlockRow.hash hash t.blocks = some b → b.state ≠ .orphaned →
        ∃ b', table.find BlockRow.hash hash t'.blocks = some b' ∧
          b'.state = (if maturity ≤ tip - b.height + 1 then .mature else .pending) ∧
          b'.orphan_strikes = 0 ∧ b'.alarm = none)) ∧
    (t.Paid hash → t.Standing hash → ∀ es' : List BlockEvent, (es'.foldl (BlockEvent.apply maturity) t).Standing hash) := by
  intro t
  have hwatched : Watched t fun hash => readings maturity hash t₀ es := by
    simpa using hfresh.watched.run es
  refine ⟨fun p => ⟨fun htip => ?_, fun hhash => ?_, ?_, ?_⟩, fun hpaid hstanding es' => ?_⟩
  · simp [evaluateBlocks, htip]
  · cases htip : p.tipHeight with
    | none => simp [evaluateBlocks, htip]
    | some tip =>
      rw [find_evaluateBlocks maturity hwatched.keyed p htip, hhash]
      simp [BlockRow.visit]
  · intro b b' hb hb' hstate horphaned
    obtain ⟨hpaid, before, hseen⟩ := hwatched.orphaned hb hb' hstate horphaned
    refine ⟨hpaid, before, ?_⟩
    rw [readings_append, ← hseen]
    simp only [readings, BlockEvent.reading, List.append_nil]
    rfl
  · intro tip b htip hhash hb hstate
    obtain ⟨hstrikes, halarm, hmature⟩ := b.visit_matched maturity tip p.now (t.sent hash)
    obtain ⟨-, rfl⟩ := table.find_spec hb
    refine ⟨_, ?_, hmature, hstrikes, halarm⟩
    rw [find_evaluateBlocks maturity hwatched.keyed p htip, hb, Option.map_some, if_neg hstate, hhash]
  · exact hstanding.run hwatched.keyed hpaid es'

/-- A block that is recorded without payouts, missed once and then found again. -/
def comeBack : List BlockEvent :=
  [.record ⟨"aa", "pc1qbob", 1, 0⟩ ⟨100, 5000000000, "t", [], 0, 0, List.nodup_nil⟩,
    .pass ⟨some 150, fun _ => some "bb", 0⟩, .pass ⟨some 199, fun hash => some hash, 1⟩]

theorem block_lifecycle_comeBack :
    ∃ b', table.find BlockRow.hash "aa" (evaluateBlocks 100 (comeBack.foldl (BlockEvent.apply 100) {})
        ⟨some 198, fun hash => some hash, 2⟩).1.blocks = some b' ∧
      b'.state = (if (100 : Int) ≤ 198 - 100 + 1 then .mature else .pending) ∧
      b'.orphan_strikes = 0 ∧ b'.alarm = none :=
  ((block_lifecycle 100 {} ⟨List.nodup_nil, fun _ hb => absurd hb List.not_mem_nil⟩ comeBack "aa").1
    ⟨some 198, fun hash => some hash, 2⟩).2.2.2 198
      ⟨"aa", 100, 0, 5000000000, "pc1qbob", 1, .mature, 1, some 100, 0, none⟩ rfl rfl
      (by decide +kernel) (by decide)

end pcoin.store
