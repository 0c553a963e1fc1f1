import PCoin.Pool.Registry

open pcoin.store pcoin.block

namespace pcoin.pool

theorem Registry.addMiner {s : State} (h : Registry s) {m : Miner} (hfresh : s.miner m.id = none) :
    Registry { s with miners := s.miners ++ [m] } := by
  have hext : Extends s { s with miners := s.miners ++ [m] } :=
    ⟨rfl, fun j hj => ⟨j, hj, rfl, rfl, rfl, List.Subset.refl _⟩,
      fun m hm => ⟨m, List.mem_append_left _ hm, rfl, rfl⟩⟩
  refine hext.registry h ⟨h.jobs, h.counted, ?_, h.nonces⟩ (frames_of_eq rfl) rfl rfl rfl
  rw [List.map_append, List.map_singleton]
  refine h.miners.append (List.nodup_singleton _) ?_
  intro id hold hnew
  obtain ⟨m', hm', rfl⟩ := List.mem_map.mp hold
  have hnone := List.find?_eq_none.mp hfresh m' hm'
  simp [List.mem_singleton.mp hnew] at hnone

/-- A submission that has just begun: its number is new. -/
theorem Registry.addFrame {s t : State} (h : Registry s) {f : Submit} (hfid : f.fid = s.nextFid)
    (hholds : f.Holds s) (ht : t = { s with nextFid := s.nextFid + 1, submits := s.submits ++ [f] }) :
    Registry t := by
  subst ht
  refine ⟨⟨h.jobs, h.counted, h.miners, h.nonces⟩, ?_, ?_, ?_, ?_, ?_, h.epochs, h.backed, h.keys⟩
  · rw [List.map_append, List.map_singleton]
    refine h.fids.append (List.nodup_singleton _) ?_
    intro fid hold hnew
    obtain ⟨g, hg, rfl⟩ := List.mem_map.mp hold
    have hlt := h.fresh g hg
    have heq := List.mem_singleton.mp hnew
    omega
  · intro g hg
    show g.fid < s.nextFid + 1
    rcases List.mem_append.mp hg with hg | hg
    · exact (h.fresh g hg).trans (Nat.lt_succ_self _)
    · rw [List.mem_singleton.mp hg, hfid]
      exact Nat.lt_succ_self _
  · intro g hg
    rcases List.mem_append.mp hg with hg | hg
    · exact h.holds g hg
    · rw [List.mem_singleton.mp hg]
      exact hholds
  · intro r hr
    exact (h.sent r hr).trans (Nat.lt_succ_self _)
  · intro r hr g hg hgr
    rcases List.mem_append.mp hg with hg | hg
    · exact h.matched r hr g hg hgr
    · rw [List.mem_singleton.mp hg, hfid] at hgr
      have hlt := h.sent r hr
      omega

theorem mem_claimed_addRequest {s : State} {r : Request} {row : Share}
    (h : row ∈ ({ s with requests := s.requests ++ [r] } : State).claimed) :
    row ∈ s.claimed ∨ row = r.row := by
  simp only [State.claimed, List.map_append, List.map_singleton, ← List.append_assoc] at h
  rcases List.mem_append.mp h with hold | hnew
  · exact .inl hold
  · exact .inr (List.mem_singleton.mp hnew)

/-- A statement is sent for a submission in flight. -/
theorem Registry.addRequest {s : State} (h : Registry s) {r : Request} {f : Submit}
    (hf : f ∈ s.submits) (hfid : f.fid = r.fid) (hjob : r.row.job_id = f.job)
    (hnonce : r.row.nonce = f.nonce) (hepoch : r.row.epoch = s.epoch)
    (hbacked : Share.Backed s r.row) : Registry { s with requests := s.requests ++ [r] } := by
  refine ⟨⟨h.jobs, h.counted, h.miners, h.nonces⟩, h.fids, h.fresh, h.holds, ?_, ?_, ?_, ?_, h.keys⟩
  · intro r' hr'
    rcases List.mem_append.mp hr' with hr' | hr'
    · exact h.sent r' hr'
    · rw [List.mem_singleton.mp hr', ← hfid]
      exact h.fresh f hf
  · intro r' hr' g hg hgr
    rcases List.mem_append.mp hr' with hr' | hr'
    · exact h.matched r' hr' g hg hgr
    · obtain rfl := List.mem_singleton.mp hr'
      obtain rfl := List.inj_on_of_nodup_map h.fids hg hf (hgr.trans hfid.symm)
      exact ⟨hjob, hnonce, hepoch⟩
  · intro row hrow
    rcases mem_claimed_addRequest hrow with hrow | rfl
    · exact h.epochs row hrow
    · exact hepoch.le
  · intro row hrow hcurrent
    rcases mem_claimed_addRequest hrow with hrow | rfl
    · exact h.backed row hrow hcurrent
    · exact hbacked

/-- The stage of a submission after the statement `r` was executed. -/
theorem execute_submits (s : State) (r : Request) (fails : Bool) :
    Frames s (execute s r fails) := by
  refine frames_map rfl ?_
  intro f
  split
  · split
    · exact ⟨rfl, rfl, rfl, rfl⟩
    · exact ⟨rfl, rfl, rfl, rfl⟩
  · exact ⟨rfl, rfl, rfl, rfl⟩

/-- `INSERT OR IGNORE` leaves the table or appends the row under a new id. -/
theorem insertOrIgnore_cases (shares : Shares) (row : Share) :
    ((∃ old ∈ shares.rows, old.job_id = row.job_id ∧ old.nonce = row.nonce) ∧
        shares.insertOrIgnore row = shares) ∨
      ((∀ old ∈ shares.rows, ¬(old.job_id = row.job_id ∧ old.nonce = row.nonce)) ∧
        (shares.insertOrIgnore row).rows = shares.rows ++ [{ row with id := shares.seq + 1 }]) := by
  unfold Shares.insertOrIgnore
  cases hlookup : shares.lookup row.job_id row.nonce with
  | some old =>
    refine .inl ⟨⟨old, List.mem_of_find?_eq_some hlookup, ?_⟩, rfl⟩
    simpa using List.find?_some hlookup
  | none =>
    refine .inr ⟨?_, rfl⟩
    intro old hold
    simpa using List.find?_eq_none.mp hlookup old hold

/-- A row of the table after `execute` was there before or is the statement's. -/
theorem mem_rows_execute {s : State} {r : Request} {fails : Bool} {row : Share}
    (h : row ∈ (execute s r fails).shares.rows) :
    row ∈ s.shares.rows ∨ ∃ id, row = { r.row with id := id } := by
  simp only [execute] at h
  split at h
  · exact .inl h
  · rcases insertOrIgnore_cases s.shares r.row with ⟨_, heq⟩ | ⟨_, heq⟩
    · rw [heq] at h
      exact .inl h
    · rw [heq] at h
      rcases List.mem_append.mp h with hrow | hrow
      · exact .inl hrow
      · exact .inr ⟨_, List.mem_singleton.mp hrow⟩

/-- Nothing is claimed by `execute` that was not claimed before, under some id. -/
theorem mem_claimed_execute {s : State} {r : Request} {fails : Bool} {row : Share}
    (hr : r ∈ s.requests) (h : row ∈ (execute s r fails).claimed) :
    ∃ old ∈ s.claimed, ∃ id, row = { old with id := id } := by
  rcases List.mem_append.mp h with hrow | hrow
  · rcases mem_rows_execute hrow with hold | ⟨id, rfl⟩
    · exact ⟨row, List.mem_append_left _ hold, row.id, rfl⟩
    · exact ⟨r.row, List.mem_append_right _ (List.mem_map_of_mem hr), id, rfl⟩
  · obtain ⟨r', hr', rfl⟩ := List.mem_map.mp hrow
    exact ⟨r'.row, List.mem_append_right _ (List.mem_map_of_mem (List.mem_of_mem_filter hr')),
      r'.row.id, rfl⟩

/-- Rows are never removed. -/
theorem subset_rows_execute (s : State) (r : Request) (fails : Bool) :
    s.shares.rows ⊆ (execute s r fails).shares.rows := by
  simp only [execute]
  split
  · exact List.Subset.refl _
  · rcases insertOrIgnore_cases s.shares r.row with ⟨_, heq⟩ | ⟨_, heq⟩
    · rw [heq]
      exact List.Subset.refl _
    · rw [heq]
      exact List.subset_append_left _ _

theorem Registry.execute {s : State} (h : Registry s) {r : Request} (hr : r ∈ s.requests)
    (fails : Bool) : Registry (execute s r fails) := by
  have hframes := execute_submits s r fails
  refine ⟨⟨h.jobs, h.counted, h.miners, h.nonces⟩, h.fids.sublist hframes.fids, ?_, ?_, ?_, ?_, ?_,
    ?_, ?_⟩
  · intro g hg
    obtain ⟨f, hf, hfid, _⟩ := hframes.same g hg
    rw [hfid]
    exact h.fresh f hf
  · intro g hg
    obtain ⟨f, hf, _, hsession, hjob, hnonce⟩ := hframes.same g hg
    have hholds := h.holds f hf
    rwa [Submit.Holds, hsession, hjob, hnonce]
  · exact fun r' hr' => h.sent r' (List.mem_of_mem_filter hr')
  · intro r' hr' g hg hgr
    obtain ⟨f, hf, hfid, _, hjob, hnonce⟩ := hframes.same g hg
    rw [hjob, hnonce]
    exact h.matched r' (List.mem_of_mem_filter hr') f hf (hfid.symm.trans hgr)
  · intro row hrow
    obtain ⟨old, hold, id, rfl⟩ := mem_claimed_execute hr hrow
    exact h.epochs old hold
  · intro row hrow hepoch
    obtain ⟨old, hold, id, rfl⟩ := mem_claimed_execute hr hrow
    exact h.backed old hold hepoch
  · simp only [pool.execute]
    split
    · exact h.keys
    · rcases insertOrIgnore_cases s.shares r.row with ⟨_, heq⟩ | ⟨hnew, heq⟩
      · rw [heq]
        exact h.keys
      · rw [heq, List.map_append, List.map_singleton]
        refine h.keys.append (List.nodup_singleton _) ?_
        intro key hold hkey
        obtain ⟨old, hmem, rfl⟩ := List.mem_map.mp hold
        exact hnew old hmem (by simpa using hkey)

theorem registry_restart {s : State} (h : Registry s) : Registry (restart s) where
  jobs := List.nodup_nil
  counted := fun j hj => by cases hj
  miners := List.nodup_nil
  nonces := fun j hj => by cases hj
  fids := List.nodup_nil
  fresh := fun f hf => by cases hf
  holds := fun f hf => by cases hf
  sent := h.sent
  matched := fun r _ f hf => by cases hf
  epochs := fun row hrow => (h.epochs row hrow).trans (Nat.le_succ _)
  backed := by
    intro row hrow hepoch
    have hle := h.epochs row hrow
    have hnext : row.epoch = s.epoch + 1 := hepoch
    omega
  keys := h.keys

theorem Registry.setStage {s : State} (h : Registry s) (fid : Nat) (stage : Stage) :
    Registry (s.setStage fid stage) := by
  refine h.transfer rfl rfl rfl rfl (frames_map rfl ?_) rfl rfl rfl
  intro f
  split
  · exact ⟨rfl, rfl, rfl, rfl⟩
  · exact ⟨rfl, rfl, rfl, rfl⟩

theorem Registry.retract {s : State} (h : Registry s) (f : Submit) : Registry (retract s f) := by
  have hsame (j : Job) : ({ j with seen := j.seen.filter (· ≠ f.nonce) } : Job).id = j.id ∧
      ({ j with seen := j.seen.filter (· ≠ f.nonce) } : Job).header = j.header ∧
      ({ j with seen := j.seen.filter (· ≠ f.nonce) } : Job).miner = j.miner ∧
      j.offered ⊆ ({ j with seen := j.seen.filter (· ≠ f.nonce) } : Job).offered :=
    ⟨rfl, rfl, rfl, List.Subset.refl _⟩
  have hjob := (extends_setJob s f.job hsame).registry h
    (h.toDirectory.setJob f.job (fun _ => rfl) fun j n hn => .inl hn) (frames_of_eq rfl) rfl rfl rfl
  exact hjob.transfer rfl rfl rfl rfl (frames_filter rfl) rfl rfl rfl

/-- The nonce of a submission is offered to the job before it is checked. -/
theorem registry_submit {s : State} (h : Registry s) {sid jobId nonce : String} {m : Miner}
    {job : Job} (hm : s.miner sid = some m) (hjob : s.job jobId = some job)
    (howner : job.miner = m.id) (hnonce : IsNonce nonce) (first : Order) (rest : List Order) :
    Registry { s.setJob jobId (fun j =>
        { j with seen := nonce :: j.seen, offered := nonce :: j.offered }) with
      nextFid := s.nextFid + 1
      submits := s.submits ++ [⟨s.nextFid, sid, jobId, nonce, .checking first rest⟩] } := by
  obtain ⟨_, hsid⟩ := miner_spec hm
  obtain ⟨hmem, hid⟩ := job_spec hjob
  have hsame (j : Job) :
      ({ j with seen := nonce :: j.seen, offered := nonce :: j.offered } : Job).id = j.id ∧
      ({ j with seen := nonce :: j.seen, offered := nonce :: j.offered } : Job).header = j.header ∧
      ({ j with seen := nonce :: j.seen, offered := nonce :: j.offered } : Job).miner = j.miner ∧
      j.offered ⊆ ({ j with seen := nonce :: j.seen, offered := nonce :: j.offered } : Job).offered :=
    ⟨rfl, rfl, rfl, List.subset_cons_self _ _⟩
  have hoffered := (extends_setJob s jobId hsame).registry h
    (h.toDirectory.setJob jobId (fun _ => rfl) fun j n hn => by
      rcases List.mem_cons.mp hn with rfl | hn
      · exact .inr hnonce
      · exact .inl hn) (frames_of_eq rfl) rfl rfl rfl
  refine hoffered.addFrame rfl ?_ rfl
  refine ⟨_, List.mem_map_of_mem hmem, ?_⟩
  rw [if_pos hid]
  exact ⟨hid, howner.trans hsid, List.mem_cons_self⟩

/-- The row of a validated submission is backed by the job it was offered to. -/
theorem backed_rowOf {s : State} (h : Registry s) {f : Submit} {job : Job} {m : Miner}
    (hf : f ∈ s.submits) (hjob : s.job f.job = some job) (hm : s.miner f.session = some m)
    (order : Order) (weight : Int) (time : Nat) :
    Share.Backed s (rowOf s f job m order weight time) := by
  obtain ⟨hmem, hid⟩ := job_spec hjob
  obtain ⟨hmine, hsession⟩ := miner_spec hm
  obtain ⟨j, hj, hjid, howner, hnonce⟩ := h.holds f hf
  obtain rfl := h.toDirectory.job_unique hj hmem (hjid.trans hid.symm)
  exact ⟨⟨j, hmem, rfl, rfl, howner.trans hsession.symm, hnonce⟩, m, hmine, rfl, rfl⟩

theorem registry_record {s : State} (h : Registry s) {f : Submit} {job : Job} {m : Miner}
    (hf : f ∈ s.submits) (hjob : s.job f.job = some job) (hm : s.miner f.session = some m)
    (order : Order) (weight : Int) (time : Nat) (stage : Stage) :
    Registry { (s.setMiner f.session fun m => { m with nonceOrder := some order }).setStage f.fid
        stage with
      requests := s.requests ++ [⟨f.fid, rowOf s f job m order weight time⟩] } := by
  have hmemo : ∀ m : Miner, ({ m with nonceOrder := some order } : Miner).id = m.id ∧
      ({ m with nonceOrder := some order } : Miner).login = m.login := fun m => ⟨rfl, rfl⟩
  have hstaged := (h.setMiner f.session hmemo).setStage f.fid stage
  have hbacked : Share.Backed
      ((s.setMiner f.session fun m => { m with nonceOrder := some order }).setStage f.fid stage)
      (rowOf s f job m order weight time) :=
    (extends_of_eq rfl rfl rfl).backed ((extends_setMiner s f.session hmemo).backed
      (backed_rowOf h hf hjob hm order weight time))
  have hmem : ({ f with stage := stage } : Submit) ∈
      ((s.setMiner f.session fun m => { m with nonceOrder := some order }).setStage f.fid
        stage).submits := by
    refine List.mem_map.mpr ⟨f, hf, ?_⟩
    rw [if_pos rfl]
  exact hstaged.addRequest hmem rfl (job_spec hjob).2 rfl rfl hbacked

/-- Every step keeps the registry. -/
theorem registry_step {cfg : Config} {s t : State} {e : Event} (h : Registry s)
    (hstep : step cfg s e = some t) : Registry t := by
  have hcrash : ∀ s sid e, Registry s → makeJob cfg s sid = .error e →
      Registry { s with crashed := some e } :=
    fun _ _ _ h _ => h.transfer rfl rfl rfl rfl (frames_of_eq rfl) rfl rfl rfl
  cases transition_of_step hstep with
  | restart => exact registry_restart h
  | login hfresh hs' =>
    subst hs'
    apply (registry_serving cfg).orCrash hcrash
    exact h.addMiner hfresh
  | bye sid => exact h.setMiner sid fun m => ⟨rfl, rfl⟩
  | getjob sid => exact (registry_serving cfg).orCrash hcrash h sid
  | refresh =>
    refine ⟨⟨h.jobs, h.counted, h.miners, h.nonces⟩, h.fids, ?_, h.holds, ?_, h.matched, h.epochs,
      h.backed, h.keys⟩
    · exact fun f hf => (h.fresh f hf).trans (Nat.lt_succ_self _)
    · exact fun r hr => (h.sent r hr).trans (Nat.lt_succ_self _)
  | template refreshes => exact h.transfer rfl rfl rfl rfl (frames_of_eq rfl) rfl rfl rfl
  | window t' changed refreshes =>
    apply (registry_serving cfg).refreshTail
    apply registry_publish
    exact h.transfer rfl rfl rfl rfl (frames_of_eq rfl) rfl rfl rfl
  | submit hm hjob howner hnonce hseen =>
    exact registry_submit h hm hjob howner (isNonce_of_parseNonce hnonce) _ _
  | retract hf hs' =>
    rcases hs' with rfl | ⟨order, rfl⟩
    · exact h.retract _
    · apply Registry.retract
      exact h.setMiner _ fun m => ⟨rfl, rfl⟩
  | drop => exact h.transfer rfl rfl rfl rfl (frames_filter rfl) rfl rfl rfl
  | next order rest => exact h.setStage _ _
  | record hf hfid hstage hjob hm hpow =>
    subst hfid
    exact registry_record h hf hjob hm _ _ _ _
  | execute hr hfid => exact h.execute hr _
  | stored hf hfid hstage => exact h.setStage _ _
  | @finish fid shareId factor f job m solved s' hf hfid hstage hjob hm hretune =>
    have hgone : Registry { s with submits := s.submits.filter (·.fid ≠ fid) } :=
      h.transfer rfl rfl rfl rfl (frames_filter rfl) rfl rfl rfl
    have hnext := (registry_serving cfg).retune hgone hretune
    exact hnext.transfer rfl rfl rfl rfl (frames_of_eq rfl) rfl rfl rfl
  | finishCrash hretune => exact h.transfer rfl rfl rfl rfl (frames_filter rfl) rfl rfl rfl

theorem registry_initial : Registry {} := by
  have hdir : Directory {} := by
    constructor <;> simp
  refine ⟨hdir, ?_, ?_, ?_, ?_, ?_, ?_, ?_, ?_⟩ <;> simp [State.claimed]

end pcoin.pool
