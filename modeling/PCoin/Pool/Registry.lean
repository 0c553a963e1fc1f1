import PCoin.Pool.Transition

open pcoin.store pcoin.block

namespace pcoin.pool

/-- A nonce as `parseNonce` returns it. -/
def IsNonce (nonce : String) : Prop :=
  nonce.toList.length = 8 ∧ nonce.toList.all hex.isLower = true

theorem isNonce_of_parseNonce {text nonce : String} (h : parseNonce text = some nonce) :
    IsNonce nonce := by
  unfold parseNonce at h
  split at h
  · rename_i htext
    obtain ⟨hlen, hdigits⟩ := htext
    obtain rfl := Option.some.inj h
    refine ⟨by simpa [String.length_toList] using hlen, ?_⟩
    simp only [String.toList_ofList, List.all_map, List.all_eq_true] at hdigits ⊢
    exact fun c hc => hex.isLower_lower (hdigits c hc)
  · cases h

/-- The rows in the table and those on their way to it. -/
def State.claimed (s : State) : List Share := s.shares.rows ++ s.requests.map Request.row

/-- The submission's nonce was offered to a job of its session. -/
def Submit.Holds (s : State) (f : Submit) : Prop :=
  ∃ j ∈ s.jobs, j.id = f.job ∧ j.miner = f.session ∧ f.nonce ∈ j.offered

/-- A row of the running process is for a job of the process and names its session
and the miner who is logged in there. -/
def Share.Backed (s : State) (row : Share) : Prop :=
  (∃ j ∈ s.jobs, j.id = row.job_id ∧ j.header = row.header ∧ j.miner = row.session ∧
    row.nonce ∈ j.offered) ∧ ∃ m ∈ s.miners, m.id = row.session ∧ m.login = row.miner

/-- Ids are unique among the jobs and the sessions of a process. -/
structure Directory (s : State) : Prop where
  jobs : (s.jobs.map Job.id).Nodup
  counted : ∀ j ∈ s.jobs, ∃ n, n ≤ s.jobSeq ∧ j.id = hex.ofNat n
  miners : (s.miners.map Miner.id).Nodup
  nonces : ∀ j ∈ s.jobs, ∀ n ∈ j.offered, IsNonce n

/-- What ties submissions, statements and rows to the jobs they are for. -/
structure Registry (s : State) : Prop extends Directory s where
  fids : (s.submits.map Submit.fid).Nodup
  fresh : ∀ f ∈ s.submits, f.fid < s.nextFid
  holds : ∀ f ∈ s.submits, f.Holds s
  sent : ∀ r ∈ s.requests, r.fid < s.nextFid
  matched : ∀ r ∈ s.requests, ∀ f ∈ s.submits, f.fid = r.fid →
    r.row.job_id = f.job ∧ r.row.nonce = f.nonce ∧ r.row.epoch = s.epoch
  epochs : ∀ row ∈ s.claimed, row.epoch ≤ s.epoch
  backed : ∀ row ∈ s.claimed, row.epoch = s.epoch → Share.Backed s row
  keys : (s.shares.rows.map fun r => (r.job_id, r.nonce)).Nodup

/-- Jobs and sessions of the same process keep what rows refer to. -/
structure Extends (s t : State) : Prop where
  epoch : t.epoch = s.epoch
  jobs : ∀ j ∈ s.jobs, ∃ j' ∈ t.jobs, j'.id = j.id ∧ j'.header = j.header ∧ j'.miner = j.miner ∧
    j.offered ⊆ j'.offered
  miners : ∀ m ∈ s.miners, ∃ m' ∈ t.miners, m'.id = m.id ∧ m'.login = m.login

/-- Submissions may end or reach another stage; what they are for stays. -/
structure Frames (s t : State) : Prop where
  fids : (t.submits.map Submit.fid).Sublist (s.submits.map Submit.fid)
  same : ∀ g ∈ t.submits, ∃ f ∈ s.submits, g.fid = f.fid ∧ g.session = f.session ∧ g.job = f.job ∧
    g.nonce = f.nonce

theorem frames_of_eq {s t : State} (h : t.submits = s.submits) : Frames s t where
  fids := by rw [h]
  same := by
    rw [h]
    exact fun f hf => ⟨f, hf, rfl, rfl, rfl, rfl⟩

theorem frames_filter {s t : State} {p : Submit → Bool} (h : t.submits = s.submits.filter p) :
    Frames s t where
  fids := by
    rw [h]
    exact List.filter_sublist.map _
  same := by
    rw [h]
    exact fun f hf => ⟨f, List.mem_of_mem_filter hf, rfl, rfl, rfl, rfl⟩

theorem frames_map {s t : State} {g : Submit → Submit} (h : t.submits = s.submits.map g)
    (hg : ∀ f, (g f).fid = f.fid ∧ (g f).session = f.session ∧ (g f).job = f.job ∧
      (g f).nonce = f.nonce) : Frames s t where
  fids := by
    have hfids : Submit.fid ∘ g = Submit.fid := funext fun f => (hg f).1
    rw [h, List.map_map, hfids]
  same := by
    rw [h]
    intro f hf
    obtain ⟨f', hf', rfl⟩ := List.mem_map.mp hf
    exact ⟨f', hf', hg f'⟩

namespace Extends

variable {s t : State} (h : Extends s t)

include h

theorem holds {f : Submit} (hf : f.Holds s) : f.Holds t := by
  obtain ⟨j, hj, hid, hminer, hnonce⟩ := hf
  obtain ⟨j', hj', hid', _, hminer', hoffered⟩ := h.jobs j hj
  exact ⟨j', hj', hid'.trans hid, hminer'.trans hminer, hoffered hnonce⟩

theorem backed {row : Share} (hrow : Share.Backed s row) : Share.Backed t row := by
  obtain ⟨⟨j, hj, hid, hheader, hminer, hnonce⟩, m, hm, hsession, hlogin⟩ := hrow
  obtain ⟨j', hj', hid', hheader', hminer', hoffered⟩ := h.jobs j hj
  obtain ⟨m', hm', hsession', hlogin'⟩ := h.miners m hm
  exact ⟨⟨j', hj', hid'.trans hid, hheader'.trans hheader, hminer'.trans hminer, hoffered hnonce⟩,
    m', hm', hsession'.trans hsession, hlogin'.trans hlogin⟩

/-- A registry over more jobs and sessions and over fewer submissions. -/
theorem registry (hs : Registry s) (hdir : Directory t) (hframes : Frames s t)
    (hfid : t.nextFid = s.nextFid) (hrequests : t.requests = s.requests)
    (hshares : t.shares = s.shares) : Registry t := by
  have hclaimed : t.claimed = s.claimed := by rw [State.claimed, State.claimed, hrequests, hshares]
  refine ⟨hdir, hs.fids.sublist hframes.fids, ?_, ?_, ?_, ?_, ?_, ?_, ?_⟩
  · intro g hg
    obtain ⟨f, hf, hfid', _⟩ := hframes.same g hg
    rw [hfid, hfid']
    exact hs.fresh f hf
  · intro g hg
    obtain ⟨f, hf, _, hsession, hjob, hnonce⟩ := hframes.same g hg
    have hholds := h.holds (hs.holds f hf)
    rwa [Submit.Holds, hsession, hjob, hnonce]
  · rw [hrequests, hfid]
    exact hs.sent
  · rw [hrequests]
    intro r hr g hg hgr
    obtain ⟨f, hf, hfid', _, hjob, hnonce⟩ := hframes.same g hg
    rw [hjob, hnonce, h.epoch]
    exact hs.matched r hr f hf (hfid'.symm.trans hgr)
  · rw [hclaimed, h.epoch]
    exact hs.epochs
  · rw [hclaimed, h.epoch]
    exact fun row hrow hepoch => h.backed (hs.backed row hrow hepoch)
  · rw [hshares]
    exact hs.keys

end Extends

theorem extends_of_eq {s t : State} (hepoch : t.epoch = s.epoch) (hjobs : t.jobs = s.jobs)
    (hminers : t.miners = s.miners) : Extends s t where
  epoch := hepoch
  jobs := by
    rw [hjobs]
    exact fun j hj => ⟨j, hj, rfl, rfl, rfl, List.Subset.refl _⟩
  miners := by
    rw [hminers]
    exact fun m hm => ⟨m, hm, rfl, rfl⟩

theorem extends_setMiner (s : State) (sid : String) {f : Miner → Miner}
    (hf : ∀ m, (f m).id = m.id ∧ (f m).login = m.login) : Extends s (s.setMiner sid f) where
  epoch := rfl
  jobs := fun j hj => ⟨j, hj, rfl, rfl, rfl, List.Subset.refl _⟩
  miners := by
    intro m hm
    refine ⟨_, List.mem_map_of_mem hm, ?_⟩
    split
    · exact hf m
    · exact ⟨rfl, rfl⟩

theorem extends_setJob (s : State) (id : String) {f : Job → Job}
    (hf : ∀ j, (f j).id = j.id ∧ (f j).header = j.header ∧ (f j).miner = j.miner ∧
      j.offered ⊆ (f j).offered) : Extends s (s.setJob id f) where
  epoch := rfl
  miners := fun m hm => ⟨m, hm, rfl, rfl⟩
  jobs := by
    intro j hj
    refine ⟨_, List.mem_map_of_mem hj, ?_⟩
    split
    · exact hf j
    · exact ⟨rfl, rfl, rfl, List.Subset.refl _⟩

theorem Directory.setMiner {s : State} (h : Directory s) (sid : String) {f : Miner → Miner}
    (hf : ∀ m, (f m).id = m.id) : Directory (s.setMiner sid f) := by
  refine ⟨h.jobs, h.counted, ?_, h.nonces⟩
  have hids : (s.setMiner sid f).miners.map Miner.id = s.miners.map Miner.id := by
    simp only [State.setMiner, List.map_map]
    apply List.map_congr_left
    intro m _
    by_cases hm : m.id = sid
    · simp [hm, hf]
    · simp [hm]
  rw [hids]
  exact h.miners

theorem Directory.setJob {s : State} (h : Directory s) (id : String) {f : Job → Job}
    (hid : ∀ j, (f j).id = j.id) (hnonces : ∀ j, ∀ n ∈ (f j).offered, n ∈ j.offered ∨ IsNonce n) :
    Directory (s.setJob id f) := by
  have hids : (s.setJob id f).jobs.map Job.id = s.jobs.map Job.id := by
    simp only [State.setJob, List.map_map]
    apply List.map_congr_left
    intro j _
    by_cases hj : j.id = id
    · simp [hj, hid]
    · simp [hj]
  refine ⟨?_, ?_, h.miners, ?_⟩
  · rw [hids]
    exact h.jobs
  · intro j hj
    have hmem : j.id ∈ s.jobs.map Job.id := by
      rw [← hids]
      exact List.mem_map_of_mem hj
    obtain ⟨j', hj', hsame⟩ := List.mem_map.mp hmem
    rw [← hsame]
    exact h.counted j' hj'
  · intro j hj n hn
    obtain ⟨j', hj', rfl⟩ := List.mem_map.mp hj
    split at hn
    · rcases hnonces j' n hn with hold | hnew
      · exact h.nonces j' hj' n hold
      · exact hnew
    · exact h.nonces j' hj' n hn

/-- The lookup of a session finds the one session with that id. -/
theorem miner_spec {s : State} {sid : String} {m : Miner} (h : s.miner sid = some m) :
    m ∈ s.miners ∧ m.id = sid :=
  ⟨List.mem_of_find?_eq_some h, by simpa using List.find?_some h⟩

theorem job_spec {s : State} {id : String} {j : Job} (h : s.job id = some j) :
    j ∈ s.jobs ∧ j.id = id :=
  ⟨List.mem_of_find?_eq_some h, by simpa using List.find?_some h⟩

theorem Directory.job_unique {s : State} (h : Directory s) {a b : Job} (ha : a ∈ s.jobs)
    (hb : b ∈ s.jobs) (hid : a.id = b.id) : a = b :=
  List.inj_on_of_nodup_map h.jobs ha hb hid

theorem Directory.miner_unique {s : State} (h : Directory s) {a b : Miner} (ha : a ∈ s.miners)
    (hb : b ∈ s.miners) (hid : a.id = b.id) : a = b :=
  List.inj_on_of_nodup_map h.miners ha hb hid

theorem Directory.transfer {s t : State} (h : Directory s) (hjobs : t.jobs = s.jobs)
    (hseq : t.jobSeq = s.jobSeq) (hminers : t.miners = s.miners) : Directory t := by
  refine ⟨?_, ?_, ?_, ?_⟩
  · rw [hjobs]
    exact h.jobs
  · rw [hjobs, hseq]
    exact h.counted
  · rw [hminers]
    exact h.miners
  · rw [hjobs]
    exact h.nonces

theorem Directory.addJob {s t : State} (h : Directory s) {job : Job}
    (hid : job.id = hex.ofNat (s.jobSeq + 1)) (hoffered : job.offered = [])
    (hjobs : t.jobs = s.jobs ++ [job]) (hseq : t.jobSeq = s.jobSeq + 1)
    (hminers : t.miners = s.miners) : Directory t := by
  refine ⟨?_, ?_, ?_, ?_⟩
  · rw [hjobs, List.map_append, List.map_singleton]
    refine h.jobs.append (List.nodup_singleton _) ?_
    intro id hold hnew
    obtain ⟨j, hj, rfl⟩ := List.mem_map.mp hold
    obtain ⟨n, hn, hjn⟩ := h.counted j hj
    have hsame : hex.ofNat n = hex.ofNat (s.jobSeq + 1) := by
      rw [← hjn, ← hid]
      exact List.mem_singleton.mp hnew
    have := hex.ofNat_inj hsame
    omega
  · rw [hjobs, hseq]
    intro j hj
    rcases List.mem_append.mp hj with hj | hj
    · obtain ⟨n, hn, hjn⟩ := h.counted j hj
      exact ⟨n, by omega, hjn⟩
    · rw [List.mem_singleton.mp hj]
      exact ⟨_, le_refl _, hid⟩
  · rw [hminers]
    exact h.miners
  · rw [hjobs]
    intro j hj n hn
    rcases List.mem_append.mp hj with hj | hj
    · exact h.nonces j hj n hn
    · rw [List.mem_singleton.mp hj, hoffered] at hn
      cases hn

/-- A step that touches neither jobs, sessions nor rows keeps the registry. -/
theorem Registry.transfer {s t : State} (h : Registry s) (hepoch : t.epoch = s.epoch)
    (hjobs : t.jobs = s.jobs) (hseq : t.jobSeq = s.jobSeq) (hminers : t.miners = s.miners)
    (hframes : Frames s t) (hfid : t.nextFid = s.nextFid) (hrequests : t.requests = s.requests)
    (hshares : t.shares = s.shares) : Registry t :=
  (extends_of_eq hepoch hjobs hminers).registry h (h.toDirectory.transfer hjobs hseq hminers)
    hframes hfid hrequests hshares

theorem Registry.setMiner {s : State} (h : Registry s) (sid : String) {f : Miner → Miner}
    (hf : ∀ m, (f m).id = m.id ∧ (f m).login = m.login) : Registry (s.setMiner sid f) :=
  (extends_setMiner s sid hf).registry h (h.toDirectory.setMiner sid fun m => (hf m).1)
    (frames_of_eq rfl) rfl rfl rfl

theorem registry_serving (cfg : Config) : Served.Invariant cfg Registry where
  serve := by
    intro s sid t m job h _ _ _ hmade
    have hcount : ∀ m : Miner, ({ m with jobCounter := m.jobCounter + 1 } : Miner).id = m.id ∧
        ({ m with jobCounter := m.jobCounter + 1 } : Miner).login = m.login := fun m => ⟨rfl, rfl⟩
    have hminer := h.setMiner sid hcount
    have hext : Extends (s.setMiner sid fun m => { m with jobCounter := m.jobCounter + 1 })
        (s.serve cfg sid t job) :=
      ⟨rfl, fun j hj => ⟨j, List.mem_append_left _ hj, rfl, rfl, rfl, List.Subset.refl _⟩,
        fun m hm => ⟨m, hm, rfl, rfl⟩⟩
    exact hext.registry hminer
      (hminer.toDirectory.addJob hmade.id hmade.offered rfl rfl rfl) (frames_of_eq rfl) rfl rfl rfl
  factor := fun s sid f h => h.setMiner sid fun m => ⟨rfl, rfl⟩
  clear := fun s h => h.transfer rfl rfl rfl rfl (frames_of_eq rfl) rfl rfl rfl

theorem registry_publish {cfg : Config} {s : State} (h : Registry s) (t : Template)
    (w : Option Window) : Registry (publish cfg s t w) := by
  obtain ⟨_, _, _, _, _, heq⟩ := publish_same cfg s t w
  rw [heq]
  exact h.transfer rfl rfl rfl rfl (frames_of_eq rfl) rfl rfl rfl

end pcoin.pool
