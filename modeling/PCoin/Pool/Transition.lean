import PCoin.Pool.Serve

open pcoin.store pcoin.block

namespace pcoin.pool

/-- The row that a validated submission asks the store to record. -/
def rowOf (s : State) (f : Submit) (job : Job) (m : Miner) (order : Order) (weight : Int)
    (time : Nat) : Share :=
  { id := 0, time := time, miner := m.login, session := m.id, job_id := job.id
    nonce := f.nonce, height := job.height, weight := weight, target := job.target
    epoch := s.epoch, header := job.header, solved := candidate job f.nonce order }

/-- Everything an event can do to the pool, with what it has checked. -/
inductive Transition (cfg : Config) (s : State) : Event → State → Prop
  | restart : Transition cfg s .restart (restart s)
  | login {id login : String} {extranonce : UInt16} (hfresh : s.miner id = none) {s' : State}
      (hs' : s' = { s with miners := s.miners ++ [{ id := id, login := login
                                                    extranonce := extranonce
                                                    diffFactor := cfg.startFactor }] }) :
      Transition cfg s (.login id login extranonce)
        (orCrash s' ((makeJob cfg s' id).map Prod.snd))
  | bye (sid : String) :
      Transition cfg s (.bye sid) (s.setMiner sid fun m => { m with online := false })
  | getjob (sid : String) :
      Transition cfg s (.getjob sid) (orCrash s ((makeJob cfg s sid).map Prod.snd))
  | refresh : Transition cfg s .refresh
      { s with nextFid := s.nextFid + 1, refreshes := s.refreshes ++ [⟨s.nextFid, none⟩] }
  | template {fid : Nat} {t : Option Template} (refreshes : List Refresh) :
      Transition cfg s (.template fid t) { s with refreshes := refreshes }
  | window {fid : Nat} {w : Option Window} {factors : String → Option Nat} (t : Template)
      (changed : Bool) (refreshes : List Refresh) :
      Transition cfg s (.window fid w factors)
        (refreshTail cfg { s with refreshes := refreshes } t changed w factors)
  | submit {sid jobId text nonce : String} {m : Miner} {job : Job} {first : Order}
      {rest : List Order} (hm : s.miner sid = some m) (hjob : s.job jobId = some job)
      (howner : job.miner = m.id) (hnonce : parseNonce text = some nonce)
      (hseen : nonce ∉ job.seen) :
      Transition cfg s (.submit sid jobId text)
        { s.setJob jobId (fun j =>
            { j with seen := nonce :: j.seen, offered := nonce :: j.offered }) with
          nextFid := s.nextFid + 1
          submits := s.submits ++ [⟨s.nextFid, sid, jobId, nonce, .checking first rest⟩] }
  | retract {e : Event} {f : Submit} {s' : State} (hf : f ∈ s.submits)
      (hs' : s' = s ∨ ∃ order, s' = s.setMiner f.session fun m =>
        { m with nonceOrder := some order }) : Transition cfg s e (retract s' f)
  | drop {fid : Nat} {verdict : Verdict} {time : Nat} :
      Transition cfg s (.validator fid verdict time)
        { s with submits := s.submits.filter (·.fid ≠ fid) }
  | next {fid : Nat} {verdict : Verdict} {time : Nat} (order : Order) (rest : List Order) :
      Transition cfg s (.validator fid verdict time) (s.setStage fid (.checking order rest))
  | record {fid : Nat} {verdict : Verdict} {time : Nat} {f : Submit} {job : Job} {m : Miner}
      {order : Order} {rest : List Order} {weight : Int} (hf : f ∈ s.submits) (hfid : f.fid = fid)
      (hstage : f.stage = .checking order rest) (hjob : s.job f.job = some job)
      (hm : s.miner f.session = some m)
      (hpow : cfg.powHash (candidate job f.nonce order) ≤ job.target) :
      Transition cfg s (.validator fid verdict time)
        { (s.setMiner f.session fun m => { m with nonceOrder := some order }).setStage fid
            (.recording (candidate job f.nonce order) none) with
          requests := s.requests ++ [⟨fid, rowOf s f job m order weight time⟩] }
  | execute {fid : Nat} {fails : Bool} {r : Request} (hr : r ∈ s.requests) (hfid : r.fid = fid) :
      Transition cfg s (.execute fid fails) (execute s r fails)
  | stored {fid id : Nat} {f : Submit} {solved : Bytes} {known : Option Nat} (hf : f ∈ s.submits)
      (hfid : f.fid = fid) (hstage : f.stage = .recording solved known) :
      Transition cfg s (.store fid (some id)) (s.setStage fid (.recorded solved id))
  | finish {fid shareId : Nat} {factor : Option Nat} {f : Submit} {job : Job} {m : Miner}
      {solved : Bytes} {s' : State} (hf : f ∈ s.submits) (hfid : f.fid = fid)
      (hstage : f.stage = .recorded solved shareId) (hjob : s.job f.job = some job)
      (hm : s.miner f.session = some m)
      (hretune : retune cfg factor { s with submits := s.submits.filter (·.fid ≠ fid) } f.session =
        .ok s') :
      Transition cfg s (.finish fid factor)
        { s' with answers := s'.answers ++
            [⟨s'.epoch, f.session, m.login, f.job, job.header, f.nonce⟩] }
  | finishCrash {fid : Nat} {factor : Option Nat} {f : Submit} {err : String}
      (hretune : retune cfg factor { s with submits := s.submits.filter (·.fid ≠ fid) } f.session =
        .error err) :
      Transition cfg s (.finish fid factor)
        { s with submits := s.submits.filter (·.fid ≠ fid), crashed := some err }

theorem find_fid {f : Submit} {fid : Nat} {submits : List Submit}
    (h : submits.find? (·.fid = fid) = some f) : f ∈ submits ∧ f.fid = fid :=
  ⟨List.mem_of_find?_eq_some h, by simpa using List.find?_some h⟩

theorem transition_of_step {cfg : Config} {s t : State} {e : Event} (h : step cfg s e = some t) :
    Transition cfg s e t := by
  replace h : react cfg s e = some t := by
    unfold step at h
    split at h
    · cases h
    · exact h
  cases e with
  | restart =>
    obtain rfl := Option.some.inj h
    exact .restart
  | login id login extranonce =>
    simp only [react, guard, Option.bind_eq_bind, Option.bind_eq_some_iff] at h
    obtain ⟨_, hguard, h⟩ := h
    obtain rfl := Option.some.inj h
    split at hguard
    · rename_i hcond
      exact .login hcond.1 rfl
    · cases hguard
  | bye sid =>
    obtain rfl := Option.some.inj h
    exact .bye sid
  | getjob sid =>
    simp only [react, Option.bind_eq_bind, Option.bind_eq_some_iff] at h
    obtain ⟨m, hm, h⟩ := h
    obtain rfl := Option.some.inj h
    exact .getjob sid
  | refresh =>
    obtain rfl := Option.some.inj h
    exact .refresh
  | template fid t' =>
    simp only [react, Option.bind_eq_bind, Option.bind_eq_some_iff] at h
    obtain ⟨r, hr, _, _, h⟩ := h
    cases t' with
    | none =>
      obtain rfl := Option.some.inj h
      exact .template _
    | some t' =>
      obtain rfl := Option.some.inj h
      exact .template _
  | window fid w factors =>
    simp only [react, Option.bind_eq_bind, Option.bind_eq_some_iff] at h
    obtain ⟨r, hr, ⟨t', changed⟩, htpl, h⟩ := h
    obtain rfl := Option.some.inj h
    exact .window t' changed _
  | submit sid jobId text =>
    simp only [react, handleSubmit, guard, Option.bind_eq_bind, Option.bind_eq_some_iff] at h
    obtain ⟨m, hm, _, _, job, hjob, _, hown, nonce, hnonce, _, hseen, h⟩ := h
    obtain rfl := Option.some.inj h
    split at hown
    · rename_i howner
      split at hseen
      · rename_i hfresh
        exact .submit hm hjob howner hnonce hfresh
      · cases hseen
    · cases hown
  | validator fid verdict time =>
    simp only [react, Option.bind_eq_bind, Option.bind_eq_some_iff] at h
    obtain ⟨f, hfind, h⟩ := h
    obtain ⟨hf, rfl⟩ := find_fid hfind
    split at h
    · rename_i order rest hstage
      simp only [checked, Option.bind_eq_bind, Option.bind_eq_some_iff] at h
      obtain ⟨job, hjob, m, hm, h⟩ := h
      cases verdict with
      | dead =>
        obtain rfl := Option.some.inj h
        exact .retract hf (.inl rfl)
      | busy =>
        obtain rfl := Option.some.inj h
        exact .retract hf (.inl rfl)
      | err =>
        obtain rfl := Option.some.inj h
        exact .drop
      | done =>
        simp only at h
        split at h
        · rename_i hpow
          split at h
          · obtain rfl := Option.some.inj h
            exact .retract hf (.inr ⟨order, rfl⟩)
          · obtain rfl := Option.some.inj h
            exact .record hf rfl hstage hjob hm hpow
        · split at h
          · obtain rfl := Option.some.inj h
            exact .next _ _
          · obtain rfl := Option.some.inj h
            exact .drop
    · cases h
  | execute fid fails =>
    simp only [react, Option.bind_eq_bind, Option.bind_eq_some_iff] at h
    obtain ⟨r, hr, h⟩ := h
    obtain rfl := Option.some.inj h
    exact .execute (List.mem_of_find?_eq_some hr) (by simpa using List.find?_some hr)
  | store fid result =>
    simp only [react, Option.bind_eq_bind, Option.bind_eq_some_iff] at h
    obtain ⟨f, hfind, h⟩ := h
    obtain ⟨hf, hfid⟩ := find_fid hfind
    split at h
    · rename_i solved known id hstage
      obtain rfl := Option.some.inj h
      exact .stored hf hfid hstage
    · obtain rfl := Option.some.inj h
      exact .retract hf (.inl rfl)
    · cases h
  | finish fid factor =>
    simp only [react, Option.bind_eq_bind, Option.bind_eq_some_iff] at h
    obtain ⟨f, hfind, job, hjob, m, hm, h⟩ := h
    obtain ⟨hf, hfid⟩ := find_fid hfind
    split at h
    · rename_i solved shareId hstage
      split at h
      · rename_i err hretune
        obtain rfl := Option.some.inj h
        exact .finishCrash hretune
      · rename_i s' hretune
        obtain rfl := Option.some.inj h
        exact .finish hf hfid hstage hjob hm hretune
    · cases h

/-- Properties of what is published (the template, the payout set and the jobs served
with them) that no call breaks. -/
structure Published.Invariant (cfg : Config) (p : State → Prop) : Prop where
  serving : Served.Invariant cfg p
  congr : ∀ s t, p s → t.crashed = s.crashed → t.tpl = s.tpl → t.payout = s.payout →
    t.payoutHeld = s.payoutHeld → t.basis = s.basis → t.served = s.served → p t
  publish : ∀ s t w, p s → p (publish cfg s t w)
  crash : ∀ s sid e, p s → makeJob cfg s sid = .error e → p { s with crashed := some e }
  restart : ∀ s, p s → p (restart s)

/-- A `retune` throws only where its `makeJob` does. -/
theorem makeJob_of_retune_error {cfg : Config} {s : State} {sid : String} {factor : Option Nat}
    {e : String} (h : retune cfg factor s sid = .error e) :
    ∃ f, makeJob cfg (s.setMiner sid fun m => { m with diffFactor := f }) sid = .error e := by
  cases factor with
  | none => cases h
  | some f =>
    refine ⟨f, ?_⟩
    simp only [retune, bind, Except.bind] at h
    split at h
    · rename_i err hmake
      rw [hmake]
      exact congrArg Except.error (Except.error.inj h)
    · cases h

/-- What is published survives every step. -/
theorem Published.Invariant.step {cfg : Config} {p : State → Prop} (hp : Published.Invariant cfg p)
    {s t : State} {e : Event} (h : p s) (hstep : step cfg s e = some t) : p t := by
  cases transition_of_step hstep with
  | restart => exact hp.restart s h
  | login hfresh hs' =>
    apply hp.serving.orCrash hp.crash
    exact hp.congr s _ h (by rw [hs']) (by rw [hs']) (by rw [hs']) (by rw [hs']) (by rw [hs'])
      (by rw [hs'])
  | bye sid => exact hp.congr s _ h rfl rfl rfl rfl rfl rfl
  | getjob sid => exact hp.serving.orCrash hp.crash h sid
  | refresh => exact hp.congr s _ h rfl rfl rfl rfl rfl rfl
  | template refreshes => exact hp.congr s _ h rfl rfl rfl rfl rfl rfl
  | window t' changed refreshes =>
    apply hp.serving.refreshTail
    apply hp.publish
    exact hp.congr s _ h rfl rfl rfl rfl rfl rfl
  | submit hm hjob howner hnonce hseen => exact hp.congr s _ h rfl rfl rfl rfl rfl rfl
  | retract hf hs' =>
    rcases hs' with rfl | ⟨order, rfl⟩
    · exact hp.congr _ _ h rfl rfl rfl rfl rfl rfl
    · exact hp.congr s _ h rfl rfl rfl rfl rfl rfl
  | drop => exact hp.congr s _ h rfl rfl rfl rfl rfl rfl
  | next order rest => exact hp.congr s _ h rfl rfl rfl rfl rfl rfl
  | record hf hfid hstage hjob hm hpow => exact hp.congr s _ h rfl rfl rfl rfl rfl rfl
  | execute hr hfid => exact hp.congr s _ h rfl rfl rfl rfl rfl rfl
  | stored hf hfid hstage => exact hp.congr s _ h rfl rfl rfl rfl rfl rfl
  | @finish fid shareId factor f job m solved s' hf hfid hstage hjob hm hretune =>
    have hgone : p { s with submits := s.submits.filter (·.fid ≠ fid) } :=
      hp.congr s _ h rfl rfl rfl rfl rfl rfl
    exact hp.congr s' _ (hp.serving.retune hgone hretune) rfl rfl rfl rfl rfl rfl
  | @finishCrash fid factor f err hretune =>
    obtain ⟨g, hmake⟩ := makeJob_of_retune_error hretune
    have hgone : p { s with submits := s.submits.filter (·.fid ≠ fid) } :=
      hp.congr s _ h rfl rfl rfl rfl rfl rfl
    have hcrash := hp.crash _ _ _ (hp.serving.factor _ f.session g hgone) hmake
    exact hp.congr _ _ hcrash rfl rfl rfl rfl rfl rfl

end pcoin.pool
