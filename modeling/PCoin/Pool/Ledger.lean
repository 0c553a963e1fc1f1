import PCoin.Pool.Transition
import PCoin.Store.PayoutSpec

open pcoin.store pcoin.block

namespace pcoin.pool

/-- What the outputs of a payout set sum to. -/
def Payout.total (p : Payout) : Int := (p.outputs.map Output.value).sum

/-- The outputs that a job's coinbase pays. -/
def Job.spend (cfg : Config) (job : Job) : List Output :=
  block.spend job.value cfg.poolScript (job.payout.map Payout.outputs)

/-- The job's coinbase was built from its payout set and pays at most its value. -/
def Job.PaysAtMost (cfg : Config) (job : Job) : Prop :=
  (∃ height extranonce witnessCommitment, buildCoinbase cfg.sha256d height job.value cfg.poolScript
      (job.payout.map Payout.outputs) extranonce witnessCommitment = .ok job.coinbase) ∧
    ((job.spend cfg).map Output.value).sum ≤ job.value

/-- The payout set in force can be paid out of the template in force, or is held. -/
structure Fits (cfg : Config) (s : State) : Prop where
  up : s.crashed = none
  held : s.payoutHeld = true ∨
    ∀ t p, s.tpl = some t → s.payout = some p → Payout.total p ≤ t.coinbasevalue
  nonneg : ∀ p, s.payout = some p → ∀ o ∈ p.outputs, 0 ≤ o.value
  served : ∀ r ∈ s.served, r.job.PaysAtMost cfg

/-- The pairing is about the template, the set, the hold and the served jobs only. -/
theorem Fits.congr {cfg : Config} {s t : State} (h : Fits cfg s) (hup : t.crashed = s.crashed)
    (htpl : t.tpl = s.tpl) (hpayout : t.payout = s.payout) (hheld : t.payoutHeld = s.payoutHeld)
    (hserved : t.served = s.served) : Fits cfg t := by
  refine ⟨hup.trans h.up, ?_, ?_, ?_⟩
  · rw [htpl, hpayout, hheld]
    exact h.held
  · rw [hpayout]
    exact h.nonneg
  · rw [hserved]
    exact h.served

theorem fits_serving (cfg : Config) : Served.Invariant cfg (Fits cfg) where
  serve := by
    intro s sid t m job h htpl _ hheld hmade
    refine ⟨h.up, h.held, h.nonneg, ?_⟩
    intro r hr
    rcases List.mem_append.mp hr with hr | hr
    · exact h.served r hr
    · rw [List.mem_singleton.mp hr]
      obtain ⟨extranonce, hcb⟩ := hmade.coinbase
      refine ⟨⟨t.height, extranonce, t.default_witness_commitment, ?_⟩, ?_⟩
      · simpa [hmade.value, hmade.payout] using hcb
      · rw [Job.spend]
        apply sum_spend
        intro os hos
        rw [hmade.payout] at hos
        obtain ⟨p, hp, rfl⟩ := Option.map_eq_some_iff.mp hos
        rw [hmade.value]
        rcases h.held with hheld' | hfit
        · simp [hheld] at hheld'
        · exact hfit t p htpl hp
  factor := fun _ _ _ h => h.congr rfl rfl rfl rfl rfl
  clear := fun _ h => h.congr rfl rfl rfl rfl rfl

/-- While the set fits or is held, `makeJob` does not throw. -/
theorem makeJob_total {cfg : Config} {s : State} (h : Fits cfg s) (sid : String) :
    ∃ r, makeJob cfg s sid = .ok r := by
  unfold makeJob
  split
  · rename_i t m htpl hm
    split
    · exact ⟨_, rfl⟩
    · rename_i hheld
      have hfit : ∀ p, s.payout = some p → Payout.total p ≤ t.coinbasevalue := by
        rcases h.held with hheld' | hfit
        · exact absurd hheld' hheld
        · exact fun p hp => hfit t p htpl hp
      obtain ⟨cb, hcb⟩ := @buildCoinbase_eq cfg.sha256d t.height t.coinbasevalue cfg.poolScript
        (s.payout.map Payout.outputs)
        (bigEndian16 m.extranonce.toNat ++ bigEndian16 (m.jobCounter % 2 ^ 16))
        t.default_witness_commitment t.height_lt t.value_lt (by simp [bigEndian16])
        (by
          intro os hos
          obtain ⟨p, hp, rfl⟩ := Option.map_eq_some_iff.mp hos
          exact h.nonneg p hp)
        (by
          intro os hos
          obtain ⟨p, hp, rfl⟩ := Option.map_eq_some_iff.mp hos
          exact hfit p hp)
      have hleaves : (cb.txid :: t.transactions.map fun x =>
          (⟨x.val.reverse, by simp [x.property]⟩ : Hash)) ≠ [] := List.cons_ne_nil _ _
      obtain ⟨root, hroot⟩ := merkleRoot_eq cfg.sha256d hleaves
      have hpayout : (s.setMiner sid fun m => { m with jobCounter := m.jobCounter + 1 }).payout =
          s.payout := rfl
      simp only [hpayout, hcb, bind, Except.bind, hroot]
      exact ⟨_, rfl⟩
  · exact ⟨_, rfl⟩

/-- Publishing a template keeps the pairing: a new set is exactly its value, and an
old one is held when it is too large. -/
theorem fits_publish {cfg : Config} {s : State} (h : Fits cfg s) (t : Template)
    (w : Option Window) : Fits cfg (publish cfg s t w) := by
  unfold publish
  dsimp only
  split
  · rename_i p w' hbuild
    obtain ⟨hsum, hnonneg, _⟩ := buildPayoutOutputs_spec w'.distinct cfg.dustLimit_pos hbuild
    refine ⟨h.up, .inr ?_, ?_, h.served⟩
    · intro t' p' ht' hp'
      obtain rfl := Option.some.inj ht'
      obtain rfl := Option.some.inj hp'
      exact hsum.le
    · intro p' hp'
      obtain rfl := Option.some.inj hp'
      exact hnonneg
  · split
    · exact ⟨h.up, .inl rfl, h.nonneg, h.served⟩
    · rename_i hfit
      refine ⟨h.up, .inr ?_, h.nonneg, h.served⟩
      intro t' p' ht' hp'
      obtain rfl := Option.some.inj ht'
      have hp : s.payout = some p' := hp'
      simpa [hp, Payout.total] using hfit

/-- Nothing that happens to the pool breaks the pairing. -/
theorem fits_published (cfg : Config) : Published.Invariant cfg (Fits cfg) where
  serving := fits_serving cfg
  congr := fun _ _ h hup htpl hpayout hheld _ hserved => h.congr hup htpl hpayout hheld hserved
  publish := fun _ t w h => fits_publish h t w
  crash := by
    intro s sid e h hmake
    obtain ⟨r, hr⟩ := makeJob_total h sid
    rw [hr] at hmake
    cases hmake
  restart := by
    intro s h
    refine ⟨rfl, .inr ?_, ?_, h.served⟩
    · intro t p ht
      cases ht
    · intro p hp
      cases hp

/-- A template and a payout set that do not fit are never served, in any
interleaving of refreshes, window reads that fail or not, logins, job requests and
submissions: `makeJob` never throws, and every job's coinbase pays at most the value
of the template it was built from. -/
theorem payout_fits_template {cfg : Config} {s : State}
    (hrun : run.Steps (step cfg) (fun _ _ => True) {} s) :
    (s.payoutHeld = true ∨
        ∀ t p, s.tpl = some t → s.payout = some p → Payout.total p ≤ t.coinbasevalue) ∧
      s.crashed = none ∧ (∀ sid, ∃ r, makeJob cfg s sid = .ok r) ∧
      ∀ r ∈ s.served, r.job.PaysAtMost cfg := by
  have hinitial : Fits cfg {} := by
    refine ⟨rfl, .inr ?_, ?_, by simp⟩
    · intro t p ht
      cases ht
    · intro p hp
      cases hp
  have h := hrun.invariant (fun _ _ _ h _ hstep => (fits_published cfg).step h hstep) hinitial
  exact ⟨h.held, h.up, makeJob_total h, h.served⟩

theorem payout_fits_template_started :
    ∃ s, run.exec (step smallPool) {}
          (startUp 0 (some ⟨[], by decide⟩) "s" "alice" ++ [.getjob "s"]) = some s ∧
      s.served.length = 2 ∧ s.payout.isSome ∧ ∀ r ∈ s.served, r.job.PaysAtMost smallPool := by
  have hlen : (run.exec (step smallPool) {}
      (startUp 0 (some ⟨[], by decide⟩) "s" "alice" ++ [.getjob "s"])).map
        (fun s => (s.served.length, s.payout.isSome)) = some (2, true) := by
    decide +kernel
  obtain ⟨s, hexec, hs⟩ := Option.map_eq_some_iff.mp hlen
  obtain ⟨hserved, hpayout⟩ := Prod.mk.inj hs
  exact ⟨s, hexec, hserved, hpayout,
    (payout_fits_template (run.steps_of_exec _ hexec (run.meets_true _ _))).2.2.2⟩

/-- The pool's own output is the only one that the job's coinbase pays. -/
def Job.PoolOnly (cfg : Config) (job : Job) : Prop :=
  ∀ o ∈ job.spend cfg, 0 < o.value → o.miner = none

/-- The window, as it was when the job was served, owes a miner at least the dust
limit. -/
def Served.Owes (cfg : Config) (r : Served) : Prop :=
  ∃ entries, r.window = .ok entries ∧ Owed r.job.value cfg.feeBasisPoints cfg.dustLimit entries

/-- The process had read a window and built a set from it before it served the job,
and the last such window owed a miner at least the dust limit. -/
def Served.LedgerRead (cfg : Config) (r : Served) : Prop :=
  ∃ value w, r.basis = some (value, w) ∧
    Owed value cfg.feeBasisPoints cfg.dustLimit w.entries

/-- The payout set is what `buildPayoutOutputs` made of the template value and the
window in `basis`; without one there is no set. -/
def BuiltFrom (cfg : Config) : Option Payout → Option (Nat × Window) → Prop
  | none, none => True
  | some p, some (value, w) =>
    buildPayoutOutputs value cfg.feeBasisPoints w.entries cfg.scriptOf cfg.poolScript
      cfg.dustLimit = .ok p
  | _, _ => False

structure Kept (cfg : Config) (s : State) : Prop where
  set : BuiltFrom cfg s.payout s.basis
  served : ∀ r ∈ s.served, BuiltFrom cfg r.job.payout r.basis

theorem Kept.congr {cfg : Config} {s t : State} (h : Kept cfg s) (hpayout : t.payout = s.payout)
    (hbasis : t.basis = s.basis) (hserved : t.served = s.served) : Kept cfg t := by
  refine ⟨?_, ?_⟩
  · rw [hpayout, hbasis]
    exact h.set
  · rw [hserved]
    exact h.served

/-- A job pays the pool alone exactly when the set it carries was not built from a
window that owes somebody. -/
theorem poolOnly_iff {cfg : Config} {r : Served} (h : BuiltFrom cfg r.job.payout r.basis) :
    r.job.PoolOnly cfg ↔ ¬r.LedgerRead cfg := by
  cases hpayout : r.job.payout with
  | none =>
    cases hbasis : r.basis with
    | none => simp [Job.PoolOnly, Job.spend, spend, Served.LedgerRead, hpayout, hbasis]
    | some b => simp [BuiltFrom, hpayout, hbasis] at h
  | some p =>
    cases hbasis : r.basis with
    | none => simp [BuiltFrom, hpayout, hbasis] at h
    | some b =>
      obtain ⟨value, w⟩ := b
      rw [hpayout, hbasis] at h
      obtain ⟨_, _, hne, howed⟩ := buildPayoutOutputs_spec w.distinct cfg.dustLimit_pos h
      have hspend : r.job.spend cfg = p.outputs := by
        rw [Job.spend, hpayout, Option.map_some]
        exact spend_of_ne_nil _ _ hne
      have hread : r.LedgerRead cfg ↔ Owed value cfg.feeBasisPoints cfg.dustLimit w.entries := by
        simp [Served.LedgerRead, hbasis]
      rw [hread, ← howed, Job.PoolOnly, hspend]
      constructor
      · rintro honly ⟨o, ho, hpos, hminer⟩
        rw [honly o ho hpos] at hminer
        cases hminer
      · intro hnone o ho hpos
        by_contra hminer
        exact hnone ⟨o, ho, hpos, Option.isSome_iff_ne_none.mpr hminer⟩

theorem kept_serving (cfg : Config) : Served.Invariant cfg (Kept cfg) where
  serve := by
    intro s sid t m job h _ _ _ hmade
    refine ⟨h.set, ?_⟩
    intro r hr
    rcases List.mem_append.mp hr with hr | hr
    · exact h.served r hr
    · rw [List.mem_singleton.mp hr, hmade.payout]
      exact h.set
  factor := fun _ _ _ h => h.congr rfl rfl rfl
  clear := fun _ h => h.congr rfl rfl rfl

theorem kept_publish {cfg : Config} {s : State} (h : Kept cfg s) (t : Template)
    (w : Option Window) : Kept cfg (publish cfg s t w) := by
  unfold publish
  dsimp only
  split
  · rename_i p w' hbuild
    exact ⟨hbuild, h.served⟩
  · split
    · exact h.congr rfl rfl rfl
    · exact h.congr rfl rfl rfl

/-- Nothing that happens to the pool unties the set from the window it was built from. -/
theorem kept_published (cfg : Config) : Published.Invariant cfg (Kept cfg) where
  serving := kept_serving cfg
  congr := fun _ _ h _ _ hpayout _ hbasis hserved => h.congr hpayout hbasis hserved
  publish := fun _ t w h => kept_publish h t w
  crash := fun _ _ _ h _ => h.congr rfl rfl rfl
  restart := fun _ h => ⟨trivial, h.served⟩

/-- In every run, a job that is served while the window owes a miner the dust limit
pays more than the pool alone exactly when the process has already read a window that
did, and built a set from it. -/
theorem owed_job_pays_miners_iff {cfg : Config} {s : State}
    (hrun : run.Steps (step cfg) (fun _ _ => True) {} s) :
    ∀ r ∈ s.served, (r.Owes cfg → ¬r.job.PoolOnly cfg) ↔ (r.Owes cfg → r.LedgerRead cfg) := by
  have hinitial : Kept cfg {} := ⟨trivial, by simp⟩
  have h := hrun.invariant (fun _ _ _ h _ hstep => (kept_published cfg).step h hstep) hinitial
  intro r hr
  rw [poolOnly_iff (h.served r hr), not_not]

/-- A share of alice's in the table, a restart, and a first window read. -/
def ledgerRun (window : Option Window) : List Event :=
  startUp 0 none "s" "alice" ++ acceptedShare 1 "s" "01020304" 1 ++ [.finish 1 none, .restart] ++
    startUp 2 window "t" "bob"

def aliceEntry : Entry := ⟨"alice", 65537, 1⟩

theorem owed_alice : Owed 5000000000 smallPool.feeBasisPoints smallPool.dustLimit [aliceEntry] :=
  ⟨50000000, [⟨"alice", 65537, 4950000000⟩], 0, 65537, rfl, rfl,
    ⟨"alice", 65537, 4950000000⟩, by simp, by decide⟩

theorem owes_alice {r : Served} (hwindow : r.window.toOption = some [aliceEntry])
    (hvalue : r.job.value = 5000000000) : r.Owes smallPool := by
  refine ⟨[aliceEntry], ?_, ?_⟩
  · cases hw : r.window with
    | error e => simp [hw, Except.toOption] at hwindow
    | ok entries => simpa [hw, Except.toOption] using hwindow
  · rw [hvalue]
    exact owed_alice

theorem owed_job_pays_miners_iff_read :
    ∃ s r, run.exec (step smallPool) {} (ledgerRun (some ⟨[aliceEntry], by decide⟩)) = some s ∧
      r ∈ s.served ∧ r.Owes smallPool ∧ ¬r.job.PoolOnly smallPool := by
  have hlast : (run.exec (step smallPool) {}
      (ledgerRun (some ⟨[aliceEntry], by decide⟩))).map (fun s => s.served.getLast?.map fun r =>
        decide (r.window.toOption = some [aliceEntry] ∧ r.job.value = 5000000000 ∧
          r.basis.map (fun b => (b.1, b.2.entries)) = some (5000000000, [aliceEntry]))) =
      some (some true) := by
    decide +kernel
  obtain ⟨s, hexec, hs⟩ := Option.map_eq_some_iff.mp hlast
  obtain ⟨r, hr, hr'⟩ := Option.map_eq_some_iff.mp hs
  obtain ⟨hwindow, hvalue, hbasis⟩ := of_decide_eq_true hr'
  obtain ⟨⟨value, w⟩, hbasis, hb⟩ := Option.map_eq_some_iff.mp hbasis
  obtain ⟨rfl, hentries⟩ := Prod.mk.inj hb
  have howes := owes_alice hwindow hvalue
  have hmem := List.mem_of_getLast? hr
  refine ⟨s, r, hexec, hmem, howes, ?_⟩
  refine (owed_job_pays_miners_iff (run.steps_of_exec _ hexec (run.meets_true _ _)) r hmem).mpr
    ?_ howes
  intro _
  refine ⟨_, w, hbasis, ?_⟩
  rw [hentries]
  exact owed_alice

/-- The first window read of a process fails, and the next login is served a job that
pays the pool the whole block while the table owes alice nearly all of it. -/
theorem unread_ledger_pays_pool :
    ¬∀ s, run.Steps (step smallPool) (fun _ _ => True) {} s →
      ∀ r ∈ s.served, r.Owes smallPool → ¬r.job.PoolOnly smallPool := by
  have hlast : (run.exec (step smallPool) {} (ledgerRun none)).map (fun s =>
      s.served.getLast?.map fun r => (r.window.toOption, r.job.value, r.job.payout)) =
        some (some (some [aliceEntry], 5000000000, none)) := by
    decide +kernel
  obtain ⟨s, hexec, hs⟩ := Option.map_eq_some_iff.mp hlast
  obtain ⟨r, hr, hr'⟩ := Option.map_eq_some_iff.mp hs
  simp only [Prod.mk.injEq] at hr'
  obtain ⟨hwindow, hvalue, hpayout⟩ := hr'
  intro hall
  refine hall s (run.steps_of_exec _ hexec (run.meets_true _ _)) r (List.mem_of_getLast? hr)
    (owes_alice hwindow hvalue) ?_
  simp [Job.PoolOnly, Job.spend, hpayout, spend]

end pcoin.pool
