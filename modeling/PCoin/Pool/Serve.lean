import PCoin.Pool.Step
import PCoin.Pool.Block

open pcoin.store pcoin.block

namespace pcoin.pool

/-- The state after `makeJob` has built `job` from template `t`. -/
def State.serve (s : State) (cfg : Config) (sid : String) (t : Template) (job : Job) : State :=
  { s.setMiner sid (fun m => { m with jobCounter := m.jobCounter + 1 }) with
    jobSeq := s.jobSeq + 1
    jobs := s.jobs ++ [job]
    live := if (s.live ++ [job.id]).length > 500 then (s.live ++ [job.id]).tail
      else s.live ++ [job.id]
    served := s.served ++ [⟨job, currentWindow s.shares cfg.windowMultiplier
      (bitsToTarget t.bits), s.basis⟩] }

/-- The job that `makeJob` builds for session `m` from template `t`. -/
structure Made (cfg : Config) (s : State) (t : Template) (m : Miner) (job : Job) : Prop where
  id : job.id = hex.ofNat (s.jobSeq + 1)
  header : job.header.length = 80
  value : job.value = t.coinbasevalue
  payout : job.payout = s.payout
  miner : job.miner = m.id
  seen : job.seen = []
  offered : job.offered = []
  coinbase : ∃ extranonce, buildCoinbase cfg.sha256d t.height t.coinbasevalue cfg.poolScript
    (s.payout.map Payout.outputs) extranonce t.default_witness_commitment = .ok job.coinbase

/-- Everything a call of `makeJob` can do: nothing, or one more job. -/
theorem makeJob_cases {cfg : Config} {s s' : State} {sid : String} {r : Option Job}
    (h : makeJob cfg s sid = .ok (r, s')) :
    (r = none ∧ s' = s) ∨
      ∃ t m job, s.tpl = some t ∧ s.miner sid = some m ∧ s.payoutHeld = false ∧ r = some job ∧
        Made cfg s t m job ∧ s' = s.serve cfg sid t job := by
  unfold makeJob at h
  split at h
  · rename_i t m htpl hm
    split at h
    · obtain ⟨rfl, rfl⟩ : none = r ∧ s = s' := by simpa [pure, Except.pure] using h
      exact .inl ⟨rfl, rfl⟩
    · rename_i hheld
      simp only [bind, Except.bind] at h
      split at h
      · cases h
      rename_i cb hcb
      split at h
      · cases h
      rename_i root hroot
      obtain ⟨rfl, rfl⟩ := Prod.mk.inj (Except.ok.inj h)
      refine .inr ⟨t, m, _, htpl, hm, by simpa using hheld, rfl, ?_, rfl⟩
      exact ⟨rfl, length_buildHeader _ _ _ _ _ _, rfl, rfl, rfl, rfl, rfl, ⟨_, hcb⟩⟩
  · obtain ⟨rfl, rfl⟩ : none = r ∧ s = s' := by simpa [pure, Except.pure] using h
    exact .inl ⟨rfl, rfl⟩

/-- Publishing touches neither jobs nor sessions nor what was recorded. -/
theorem publish_same (cfg : Config) (s : State) (t : Template) (w : Option Window) :
    ∃ tpl netTarget payout payoutHeld basis, publish cfg s t w =
      { s with tpl := tpl, netTarget := netTarget, payout := payout, payoutHeld := payoutHeld
               basis := basis } := by
  unfold publish
  dsimp only
  split
  · exact ⟨_, _, _, _, _, rfl⟩
  · split
    · exact ⟨_, _, _, _, _, rfl⟩
    · exact ⟨_, _, _, _, _, rfl⟩

/-- Properties that serving jobs preserves: a job more, another difficulty factor, and
no live jobs at all. -/
structure Served.Invariant (cfg : Config) (p : State → Prop) : Prop where
  serve : ∀ s sid t m job, p s → s.tpl = some t → s.miner sid = some m → s.payoutHeld = false →
    Made cfg s t m job → p (s.serve cfg sid t job)
  factor : ∀ s sid f, p s → p (s.setMiner sid fun m => { m with diffFactor := f })
  clear : ∀ s, p s → p { s with live := [] }

namespace Served.Invariant

variable {cfg : Config} {p : State → Prop} (hp : Served.Invariant cfg p)

include hp

theorem makeJob {s s' : State} {sid : String} {r : Option Job} (hs : p s)
    (h : makeJob cfg s sid = .ok (r, s')) : p s' := by
  rcases makeJob_cases h with ⟨_, rfl⟩ | ⟨t, m, job, htpl, hm, hheld, _, hmade, rfl⟩
  · exact hs
  · exact hp.serve s sid t m job hs htpl hm hheld hmade

theorem map_makeJob {s s' : State} {sid : String} (hs : p s)
    (h : (pool.makeJob cfg s sid).map Prod.snd = .ok s') : p s' := by
  cases hmake : pool.makeJob cfg s sid with
  | error e => simp [hmake, Except.map] at h
  | ok r =>
    obtain rfl : r.2 = s' := by simpa [hmake, Except.map] using h
    exact hp.makeJob hs hmake

theorem orCrash
    (hcrash : ∀ s sid e, p s → pool.makeJob cfg s sid = .error e → p { s with crashed := some e })
    {s : State} (hs : p s) (sid : String) :
    p (orCrash s ((pool.makeJob cfg s sid).map Prod.snd)) := by
  cases hmake : pool.makeJob cfg s sid with
  | ok r => exact hp.makeJob hs hmake
  | error e => exact hcrash s sid e hs hmake

theorem retune {s s' : State} {sid : String} {factor : Option Nat} (hs : p s)
    (h : retune cfg factor s sid = .ok s') : p s' := by
  unfold pool.retune at h
  cases factor with
  | none =>
    obtain rfl : s = s' := by simpa [pure, Except.pure] using h
    exact hs
  | some f =>
    simp only [bind, Except.bind] at h
    split at h
    · cases h
    · rename_i r hmake
      obtain rfl : r.2 = s' := by simpa [pure, Except.pure] using h
      exact hp.makeJob (hp.factor s sid f hs) hmake

omit hp in
theorem forMiners {body : State → String → Except String State}
    (hbody : ∀ s sid s', p s → body s sid = .ok s' → p s') (ids : List String) {s : State}
    (hs : p s) : p (forMiners body ids s).1 := by
  induction ids generalizing s with
  | nil => exact hs
  | cons sid ids ih =>
    unfold pool.forMiners
    cases h : body s sid with
    | ok s' => exact ih (hbody s sid s' hs h)
    | error e => exact hs

theorem refreshTail {s : State} {t : Template} {changed : Bool} {w : Option Window}
    {factors : String → Option Nat} (hs : p (publish cfg s t w)) :
    p (refreshTail cfg s t changed w factors) := by
  have hretune : p (pool.forMiners (fun s sid => pool.retune cfg (factors sid) s sid)
      (publish cfg s t w).online (publish cfg s t w)).1 :=
    forMiners (fun s sid s' hs h => hp.retune hs h) _ hs
  unfold pool.refreshTail
  dsimp only
  split
  · rename_i s' e heq
    rwa [heq] at hretune
  · rename_i s' heq
    rw [heq] at hretune
    split
    · exact forMiners (fun s sid s' hs h => hp.map_makeJob hs h) _ (hp.clear s' hretune)
    · exact hretune

end Served.Invariant

end pcoin.pool
