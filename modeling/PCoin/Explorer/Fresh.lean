import PCoin.Explorer.Sync
import PCoin.Run.Basic

namespace pcoin.explorer

/-- The index is as high as the last observed tip of the node, with another block there. -/
def State.Diverged (s : State) : Prop :=
  s.sync.node_height.map (Int.ofNat ·) = some s.tables.tip.1 ∧ s.sync.node_hash ≠ s.tables.tip.2

instance (s : State) : Decidable s.Diverged := inferInstanceAs (Decidable (_ ∧ _))

/-- The statuses that `health` does not trust. -/
def Status.unsettled (status : Status) : Bool := status ∈ [.error, .reorg, .reindex, .init]

/-- The last poll is too old, or found the node still downloading the chain or without peers. -/
def State.alarmed (s : State) : Bool :=
  s.sync.last_poll_ts.all (fun ts : Nat => DEFAULT_MAX_POLL_AGE < (s.now : Int) - ts) ||
  s.sync.node_ibd || s.sync.node_connections = some 0

/-- What the next transaction of `sync_once` must not do: observe another tip at the height of
the index, reach the height of the observed tip with another block, or end there because of
`max_blocks`, of too many polls or of nothing to unwind; each unless the columns that it leaves
show that the index is not to be trusted. -/
def Settles (s : State) : Pc → Prop
  | .pollCommit _ info connections _ =>
    (info.blocks : Int) = s.tables.tip.1 → some info.bestblockhash ≠ s.tables.tip.2 →
      s.sync.status.unsettled ∨ info.initialblockdownload ∨
        (connections.orElse fun _ => s.sync.node_connections) = some 0
  | .apply _ blk _ =>
    s.tables.Extends blk → s.sync.node_height = some blk.height →
      s.sync.node_hash ≠ some blk.hash → s.sync.status.unsettled ∨ s.alarmed
  | .finish _ ending => ending ≠ .tip → s.Diverged → s.alarmed
  | _ => True

/-- Runs of `sync_once` in which every transaction settles. -/
def Settled (s : State) : Event → Prop
  | .handleReorg _ | .unwindTo _ => False
  | .commit => ∀ pc ∈ s.proc, Settles s pc
  | _ => True

instance (s : State) : (pc : Pc) → Decidable (Settles s pc)
  | .pollCommit _ info connections _ => inferInstanceAs (Decidable
      ((info.blocks : Int) = s.tables.tip.1 → some info.bestblockhash ≠ s.tables.tip.2 →
        s.sync.status.unsettled ∨ info.initialblockdownload ∨
          (connections.orElse fun _ => s.sync.node_connections) = some 0))
  | .apply _ blk _ => inferInstanceAs (Decidable
      (s.tables.Extends blk → s.sync.node_height = some blk.height →
        s.sync.node_hash ≠ some blk.hash → s.sync.status.unsettled ∨ s.alarmed))
  | .finish _ ending => inferInstanceAs (Decidable (ending ≠ .tip → s.Diverged → s.alarmed))
  | .info _ | .pollFailed | .peers .. | .probe .. | .reorgStatus .. | .reorgLog .. | .unwind ..
  | .reorgDone .. | .hashes .. | .blocks .. => .isTrue trivial

instance (s : State) : (e : Event) → Decidable (Settled s e)
  | .handleReorg _ | .unwindTo _ => .isFalse id
  | .commit => inferInstanceAs (Decidable (∀ pc ∈ s.proc, Settles s pc))
  | .syncOnce .. | .info _ | .peers _ | .hash _ | .hashes _ | .blocks _ | .fail | .tick | .crash =>
    .isTrue trivial

/-! ### The tip -/

section

variable {genesis : String} {height : Nat}

theorem insertRow_ok {α κ : Type*} [DecidableEq κ] {key : α → κ} {row : α} {rows rows' : List α}
    (h : insertRow key row rows = .ok rows') : rows' = rows ++ [row] := by
  unfold insertRow at h
  split at h
  · cases h
  · cases h
    rfl

theorem applyInput_blocks {txid : String} {acc acc' : Tables × List Delta} {i : Input}
    (h : applyInput height txid acc i = .ok acc') : acc'.1.blocks = acc.1.blocks := by
  obtain ⟨t, deltas⟩ := acc
  unfold applyInput at h
  dsimp only at h
  split at h
  · rw [run.bind_eq_ok] at h
    obtain ⟨inputs, -, h⟩ := h
    obtain rfl := Except.ok.inj h
    rfl
  · split at h
    · cases h
    · split at h
      · cases h
      · rw [run.bind_eq_ok] at h
        obtain ⟨inputs, -, h⟩ := h
        obtain rfl := Except.ok.inj h
        rfl

theorem applyOutput_blocks {tx : Tx} {acc acc' : Tables × List Delta} {o : Output}
    (h : applyOutput height tx acc o = .ok acc') : acc'.1.blocks = acc.1.blocks := by
  rw [applyOutput, run.bind_eq_ok] at h
  obtain ⟨outputs, -, h⟩ := h
  obtain rfl := Except.ok.inj h
  rfl

theorem applyTx_blocks {t t' : Tables} {tx : Tx} (h : applyTx height t tx = .ok t') :
    t'.blocks = t.blocks := by
  rw [applyTx, run.bind_eq_ok] at h
  obtain ⟨txs, -, h⟩ := h
  rw [run.bind_eq_ok] at h
  obtain ⟨acc, hinputs, h⟩ := h
  rw [run.bind_eq_ok] at h
  obtain ⟨⟨u, deltas⟩, houtputs, h⟩ := h
  have hacc : acc.1.blocks = t.blocks :=
    run.foldlM_invariant (p := fun acc : Tables × List Delta => acc.1.blocks = t.blocks)
      (fun _ _ _ hs hf => (applyInput_blocks hf).trans hs) tx.inputs rfl hinputs
  have hu : u.blocks = t.blocks :=
    run.foldlM_invariant (p := fun acc : Tables × List Delta => acc.1.blocks = t.blocks)
      (fun _ _ _ hs hf => (applyOutput_blocks hf).trans hs) tx.outputs hacc houtputs
  refine run.foldlM_invariant (p := fun u : Tables => u.blocks = t.blocks)
    (fun s d s' hs hf => ?_) deltas hu h
  rw [applyDelta, run.bind_eq_ok] at hf
  obtain ⟨address_txs, -, hf⟩ := hf
  obtain rfl := Except.ok.inj hf
  exact hs

/-- A block that is applied extends the tip and becomes it. -/
theorem applyLocked_tip {t t' : Tables} {blk : Block} (h : applyLocked genesis t blk = .ok t') :
    t.Extends blk ∧ t'.tip = ((blk.height : Int), some blk.hash) := by
  unfold applyLocked at h
  split at h
  · cases h
  · rename_i hlink
    have hextends := extends_of_linkError hlink
    refine ⟨hextends, ?_⟩
    unfold insertBlock at h
    split at h
    · cases h
    · rw [run.bind_eq_ok] at h
      obtain ⟨blocks, hinsert, h⟩ := h
      rw [run.bind_eq_ok] at h
      obtain ⟨u, hfold, h⟩ := h
      obtain rfl := Except.ok.inj h
      have hblocks : u.blocks = blocks :=
        run.foldlM_invariant (p := fun u : Tables => u.blocks = blocks)
          (fun _ _ _ hs hf => (applyTx_blocks hf).trans hs) blk.txs rfl hfold
      exact tip_append t hextends.1 (hblocks.trans (insertRow_ok hinsert))

/-! ### Runs -/

/-- `handle_reorg` has set the status and not yet returned. -/
def Pc.reorging : Pc → Bool
  | .reorgLog .. | .unwind .. | .reorgDone .. => true
  | _ => false

/-- The variables hold the tip that was observed last. -/
def SyncState.Observed (sync : SyncState) (v : Vars) : Prop :=
  sync.node_height = some v.node_height ∧ sync.node_hash = some v.node_hash

def Return.Observed (sync : SyncState) : Return → Prop
  | .unwind | .reorg => True
  | .level v | .link v => sync.Observed v

/-- What `sync_once` knows at each call and transaction: after a poll the observed tip, and at its
end whether that is the tip of the index. -/
def Pc.Observed (t : Tables) (sync : SyncState) : Pc → Prop
  | .info _ | .pollFailed | .peers .. | .pollCommit .. => True
  | .probe _ after | .reorgStatus _ after | .reorgLog _ after | .unwind _ _ after
  | .reorgDone _ after => after.Observed sync
  | .hashes v _ _ | .blocks v _ | .apply v _ _ => sync.Observed v
  | .finish v ending =>
    sync.Observed v ∧ (ending = .tip → t.tip = ((v.node_height : Int), some v.node_hash))

/-- An answer that is not stale is about the last observed tip. -/
def State.Fresh (s : State) : Prop := stale s = false → s.tables.tip.2 = s.sync.node_hash

instance (s : State) : Decidable s.Fresh := inferInstanceAs (Decidable (_ → _))

/-- The tip is fresh, blocks are only unwound under the status of a reorganisation, and the call
under way knows the observed tip. -/
structure Following (s : State) : Prop where
  fresh : s.Fresh
  reorg : ∀ pc ∈ s.proc, pc.reorging → s.sync.status = .reorg
  observed : ∀ pc ∈ s.proc, pc.Observed s.tables s.sync

theorem fresh_iff (s : State) : s.Fresh ↔ (s.Diverged → untrusted s) := by
  unfold State.Fresh State.Diverged stale
  cases s.sync.node_height with
  | none => simp
  | some node =>
    have heq : (node : Int) - s.tables.tip.1 = 0 ↔ Int.ofNat node = s.tables.tip.1 := by
      rw [sub_eq_zero, Int.ofNat_eq_natCast]
    cases untrusted s with
    | true => simp
    | false =>
      have hstale : decide ((node : Int) - s.tables.tip.1 ≠ 0) = false ↔
          Int.ofNat node = s.tables.tip.1 := by
        rw [decide_eq_false_iff_not, not_not, heq]
      simp only [Bool.or_false, hstale, Option.map_some, Option.some_inj, ne_eq,
        Bool.false_eq_true, imp_false, not_and, not_not]
      exact imp_congr_right fun _ => eq_comm

theorem untrusted_iff (s : State) : untrusted s ↔ s.sync.status.unsettled ∨ s.alarmed := by
  have hstatus : s.sync.status.unsettled =
    decide (s.sync.status ∈ [.error, .reorg, .reindex, .init]) := rfl
  simp only [untrusted, State.alarmed, hstatus, Bool.or_eq_true]
  tauto

theorem fresh_of_unsettled {s : State} (h : s.sync.status.unsettled) : s.Fresh :=
  (fresh_iff s).mpr fun _ => (untrusted_iff s).mpr (.inl h)

/-- Freshness is about the database and the clock. -/
theorem fresh_congr {s t : State} (h : s.Fresh) (htables : t.tables = s.tables)
    (hsync : t.sync = s.sync) (hnow : s.now ≤ t.now) : t.Fresh := by
  rw [fresh_iff] at h ⊢
  intro hdiverged
  unfold State.Diverged at h hdiverged
  rw [htables, hsync] at hdiverged
  have huntrusted := h hdiverged
  unfold untrusted at huntrusted ⊢
  rw [hsync]
  cases hts : s.sync.last_poll_ts with
  | none => simp
  | some ts =>
    simp only [hts, Option.all_some, Bool.or_eq_true, decide_eq_true_eq] at huntrusted ⊢
    rcases huntrusted with ((hage | h) | h) | h
    · exact .inl (.inl (.inl (by omega)))
    · exact .inl (.inl (.inr h))
    · exact .inl (.inr h)
    · exact .inr h

end

@[simp]
theorem startReorg_reorging (t : Tables) (node_height : Int) (after : Return) :
    (startReorg t node_height after).reorging = false := by
  unfold startReorg
  dsimp only
  split <;> rfl

@[simp]
theorem loop_reorging (t : Tables) (v : Vars) : (loop t v).reorging = false := by
  unfold loop
  split_ifs
  · rfl
  · rfl
  · rfl
  · exact startReorg_reorging ..
  · rfl

@[simp]
theorem nextBlock_reorging (t : Tables) (v : Vars) (blocks : List (Option Block)) :
    (nextBlock t v blocks).reorging = false := by
  cases blocks with
  | nil => exact loop_reorging t v
  | cons b rest => cases b <;> rfl

theorem afterReorg_reorging {t : Tables} {n : Nat} {after : Return} :
    ∀ pc ∈ afterReorg t n after, pc.reorging = false := by
  intro pc hpc
  cases after with
  | unwind | reorg => cases hpc
  | level v =>
    obtain rfl := Option.some.inj hpc
    split
    · rfl
    · exact loop_reorging t v
  | link v =>
    obtain rfl := Option.some.inj hpc
    exact loop_reorging t v

section

variable {t : Tables} {sync : SyncState} {v : Vars} {after : Return}

theorem startReorg_observed {node_height : Int} (h : after.Observed sync) :
    (startReorg t node_height after).Observed t sync := by
  unfold startReorg
  dsimp only
  split <;> exact h

theorem loop_observed (h : sync.Observed v) : (loop t v).Observed t sync := by
  unfold loop
  split_ifs with htip
  · exact ⟨h, fun _ => htip⟩
  · exact ⟨h, by simp⟩
  · exact ⟨h, by simp⟩
  · exact startReorg_observed h
  · exact h

theorem nextBlock_observed {blocks : List (Option Block)} (h : sync.Observed v) :
    (nextBlock t v blocks).Observed t sync := by
  cases blocks with
  | nil => exact loop_observed h
  | cons b rest =>
    cases b with
    | none => trivial
    | some blk => exact h

theorem nextUnwind_observed {fork : Int} {n : Nat} (h : after.Observed sync) :
    ∀ pc ∈ nextUnwind t fork n after, pc.Observed t sync := by
  intro pc hpc
  unfold nextUnwind at hpc
  split at hpc
  · split at hpc
    · cases hpc
    · obtain rfl := Option.some.inj hpc
      exact h
  · obtain rfl := Option.some.inj hpc
    exact h

theorem afterReorg_observed {n : Nat} (h : after.Observed sync) :
    ∀ pc ∈ afterReorg t n after, pc.Observed t sync := by
  intro pc hpc
  cases after with
  | unwind | reorg => cases hpc
  | level v =>
    obtain rfl := Option.some.inj hpc
    split
    · exact ⟨h, by simp⟩
    · exact loop_observed h
  | link v =>
    obtain rfl := Option.some.inj hpc
    exact loop_observed h

theorem answer_observed {s s' : State} {pc : Pc} {e : Event} (hpc : pc.Observed s.tables s.sync)
    (h : answer s pc e = some s') : ∀ pc ∈ s'.proc, pc.Observed s'.tables s'.sync := by
  unfold answer at h
  split at h
  case h_6 =>
    dsimp only at h
    split at h
    all_goals cases h
    all_goals rintro pc ⟨⟩
    all_goals exact hpc
  case h_8 =>
    split at h
    · cases h
    · split at h
      · cases h
        simp [State.goto, Pc.Observed]
      · cases h
        rintro pc ⟨⟩
        exact hpc
  case h_10 =>
    split at h
    · cases h
    · cases h
      rintro pc ⟨⟩
      exact nextBlock_observed hpc
  all_goals cases h
  all_goals simp [State.goto, State.done, Pc.Observed]

end

/-- The answers of the node are kept in variables only. -/
theorem answer_spec {s t : State} {pc : Pc} {e : Event} (h : answer s pc e = some t) :
    t.tables = s.tables ∧ t.sync = s.sync ∧ t.now = s.now ∧
      ∀ pc ∈ t.proc, pc.reorging = false := by
  unfold answer at h
  split at h
  case h_6 =>
    dsimp only at h
    split at h
    all_goals cases h
    all_goals simp [State.goto, Pc.reorging]
  case h_10 =>
    split at h
    · cases h
    · cases h
      simp [State.goto]
  all_goals try split at h
  all_goals try split at h
  all_goals cases h
  all_goals simp [State.goto, State.done, Pc.reorging]

section

variable {genesis : String} {s t : State}

/-- A step that leaves the database as it is, and starts no unwinding. -/
theorem Following.keep (hs : Following s) (htables : t.tables = s.tables) (hsync : t.sync = s.sync)
    (hnow : s.now ≤ t.now) (hproc : ∀ pc ∈ t.proc, pc.reorging → ∃ pc ∈ s.proc, pc.reorging)
    (hobserved : ∀ pc ∈ t.proc, pc.Observed s.tables s.sync) : Following t := by
  refine ⟨fresh_congr hs.fresh htables hsync hnow, fun pc hpc hreorging => ?_,
    by rwa [htables, hsync]⟩
  obtain ⟨pc', hpc', hreorging'⟩ := hproc pc hpc hreorging
  rw [hsync]
  exact hs.reorg pc' hpc' hreorging'

/-- Every transaction that settles keeps the index following the node. -/
theorem following_commit {pc : Pc} (hs : Following s) (hpc : s.proc = some pc)
    (hsettles : Settles s pc) (h : commit genesis s pc = some t) : Following t := by
  have hreorg := hs.reorg pc hpc
  have hobserved := hs.observed pc hpc
  cases pc with
  | pollFailed =>
    obtain rfl := Option.some.inj h
    exact ⟨fresh_of_unsettled rfl, by simp, by simp⟩
  | pollCommit v info connections polled =>
    obtain rfl := Option.some.inj h
    refine ⟨(fresh_iff _).mpr fun hdiverged => ?_, by simp, ?_⟩
    · obtain ⟨hheight, hhash⟩ := hdiverged
      rcases hsettles (Option.some.inj hheight) hhash with hstatus | hibd | hconnections
      · exact (untrusted_iff _).mpr (.inl hstatus)
      · exact (untrusted_iff _).mpr (.inr (by simp [State.alarmed, hibd]))
      · refine (untrusted_iff _).mpr (.inr ?_)
        simp only [State.alarmed, hconnections, decide_true, Bool.or_true]
    · rintro pc ⟨⟩
      exact loop_observed ⟨rfl, rfl⟩
  | reorgStatus fork after =>
    obtain rfl := Option.some.inj h
    refine ⟨fresh_of_unsettled rfl, by simp, ?_⟩
    rintro pc ⟨⟩
    cases after <;> exact hobserved
  | reorgLog fork after =>
    obtain rfl := Option.some.inj h
    exact hs.keep rfl rfl le_rfl (fun _ _ _ => ⟨_, hpc, rfl⟩) (nextUnwind_observed hobserved)
  | unwind fork n after =>
    have hstatus : s.sync.status = .reorg := hreorg rfl
    have hunsettled : s.sync.status.unsettled := by rw [hstatus]; rfl
    simp only [commit] at h
    split at h
    · obtain rfl := Option.some.inj h
      exact ⟨fresh_of_unsettled hunsettled, by simp [State.raise], by simp [State.raise]⟩
    · obtain rfl := Option.some.inj h
      exact ⟨fresh_of_unsettled hunsettled, fun _ _ _ => hstatus, nextUnwind_observed hobserved⟩
  | reorgDone n after =>
    obtain rfl := Option.some.inj h
    refine hs.keep rfl rfl le_rfl (fun pc hpc hreorging => ?_) (afterReorg_observed hobserved)
    rw [afterReorg_reorging pc hpc] at hreorging
    cases hreorging
  | apply v blk rest =>
    simp only [commit] at h
    split at h
    · obtain rfl := Option.some.inj h
      refine hs.keep rfl rfl le_rfl (by simp [State.goto]) ?_
      rintro pc ⟨⟩
      exact startReorg_observed hobserved
    · obtain rfl := Option.some.inj h
      exact hs.keep rfl rfl le_rfl (by simp [State.raise]) (by simp [State.raise])
    · rename_i tables happly
      obtain rfl := Option.some.inj h
      obtain ⟨hextends, htip⟩ := applyLocked_tip happly
      refine ⟨(fresh_iff _).mpr fun hdiverged => ?_, by simp, ?_⟩
      · obtain ⟨hheight, hhash⟩ := hdiverged
        dsimp only at hheight hhash
        rw [htip] at hheight hhash
        have hnode : s.sync.node_height = some blk.height := by
          obtain ⟨n, hn, heq⟩ := Option.map_eq_some_iff.mp hheight
          rw [hn, Int.ofNat.inj heq]
        exact (untrusted_iff _).mpr (hsettles hextends hnode hhash)
      · rintro pc ⟨⟩
        exact nextBlock_observed hobserved
  | finish v ending =>
    obtain rfl := Option.some.inj h
    refine ⟨(fresh_iff _).mpr fun hdiverged => ?_, by simp, by simp⟩
    -- at the tip that was observed the index has its block
    have hending : ending ≠ .tip := by
      intro hending
      obtain ⟨⟨-, hhash⟩, htip⟩ := hobserved
      refine hdiverged.2 ?_
      change s.sync.node_hash = s.tables.tip.2
      rw [hhash, htip hending]
    exact (untrusted_iff _).mpr (.inr (hsettles hending hdiverged))
  | info | peers | probe | hashes | blocks => cases h

theorem following_step {e : Event} (hs : Following s) (hok : Settled s e)
    (h : step genesis s e = some t) : Following t := by
  cases e with
  | handleReorg | unwindTo => exact hok.elim
  | syncOnce batch max_blocks =>
    simp only [step, Option.bind_eq_bind, Option.bind_eq_some_iff] at h
    obtain ⟨-, -, h⟩ := h
    obtain rfl := Option.some.inj h
    exact hs.keep rfl rfl le_rfl (by simp [State.goto, Pc.reorging])
      (by simp [State.goto, Pc.Observed])
  | commit =>
    simp only [step, Option.bind_eq_bind, Option.bind_eq_some_iff] at h
    obtain ⟨pc, hpc, h⟩ := h
    exact following_commit hs hpc (hok pc hpc) h
  | tick =>
    obtain rfl := Option.some.inj h
    exact hs.keep rfl rfl (Nat.le_succ _) (fun pc hpc hreorging => ⟨pc, hpc, hreorging⟩) hs.observed
  | fail | crash =>
    obtain rfl := Option.some.inj h
    exact hs.keep rfl rfl le_rfl (by simp [State.done]) (by simp [State.done])
  | info | peers | hash | hashes | blocks =>
    simp only [step, Option.bind_eq_bind, Option.bind_eq_some_iff] at h
    obtain ⟨pc, hpc, h⟩ := h
    obtain ⟨htables, hsync, hnow, hproc⟩ := answer_spec h
    have hobserved := answer_observed (hs.observed pc hpc) h
    rw [htables, hsync] at hobserved
    refine hs.keep htables hsync hnow.ge (fun pc hpc hreorging => ?_) hobserved
    rw [hproc pc hpc] at hreorging
    cases hreorging

/-- Over every run of `sync_once` from an empty index in which every transaction settles, an
answer that is not stale is about the last observed tip of the node. -/
theorem fresh_of_settled (now : Nat)
    (hrun : run.Steps (step genesis) Settled { now := now } s) (hstale : stale s = false) :
    s.tables.tip.2 = s.sync.node_hash := by
  have hinit : Following { now := now } := ⟨fresh_of_unsettled rfl, by simp, by simp⟩
  exact (hrun.invariant (fun _ _ _ hs hok hstep => following_step hs hok hstep) hinit).fresh hstale

end

/-- The blocks 0 and 1 of a node are indexed. -/
def firstSync : List Event :=
  [.syncOnce 10 none, .info (some ⟨1, "a", false⟩), .peers (some (some 3)), .commit,
   .hashes (some [some "g", some "a"]),
   .blocks (some [some ⟨0, "g", none, []⟩, some ⟨1, "a", some "g", []⟩]),
   .commit, .commit, .commit]

/-- The node reorganises to a longer branch, and the index follows. -/
def longerReorg : List Event :=
  [.syncOnce 10 none, .info (some ⟨2, "c", false⟩), .peers (some (some 3)), .commit,
   .hashes (some [some "c"]), .blocks (some [some ⟨2, "c", some "b", []⟩]), .commit,
   .hash (some (some "b")), .hash (some (some "g")), .commit, .commit, .commit, .commit,
   .hashes (some [some "b", some "c"]),
   .blocks (some [some ⟨1, "b", some "g", []⟩, some ⟨2, "c", some "b", []⟩]),
   .commit, .commit, .commit]

theorem fresh_of_settled_longer :
    ∃ s, run.Steps (step "g") Settled { now := 0 } s ∧ stale s = false ∧
      s.tables.tip = (2, some "c") ∧ s.tables.tip.2 = s.sync.node_hash := by
  have hexec : (run.exec (step "g") { now := 0 } (firstSync ++ longerReorg)).isSome := by
    decide +kernel
  obtain ⟨s, hs⟩ := Option.isSome_iff_exists.mp hexec
  have hrun : run.Steps (step "g") Settled { now := 0 } s :=
    run.steps_of_exec _ hs (by decide +kernel)
  have hanswer : ∀ s ∈ run.exec (step "g") { now := 0 } (firstSync ++ longerReorg),
      stale s = false ∧ s.tables.tip = (2, some "c") := by decide +kernel
  obtain ⟨hstale, htip⟩ := hanswer s hs
  exact ⟨s, hrun, hstale, htip, fresh_of_settled 0 hrun hstale⟩

/-- A poll that finds another tip at the height of the index leaves the answers on the
abandoned branch fresh, until the reorganisation is noted. -/
theorem level_reorg_looks_fresh :
    ∃ s, run.exec (step "g") { now := 0 } (firstSync ++
        [.syncOnce 10 none, .info (some ⟨1, "b", false⟩), .peers (some (some 3)), .commit]) = some s ∧
      stale s = false ∧ s.tables.tip.2 = some "a" ∧ s.sync.node_hash = some "b" := by
  decide +kernel

end pcoin.explorer
