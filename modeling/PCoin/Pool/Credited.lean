import PCoin.Pool.RegistryStep

open pcoin.store pcoin.block

namespace pcoin.pool

/-- The table has a row of the answered miner and session for the job, the header and
the nonce of the submission, written by the process that answered. -/
def Answer.Credited (rows : List Share) (a : Answer) : Prop :=
  ∃ row ∈ rows, row.miner = a.login ∧ row.session = a.session ∧ row.job_id = a.job ∧
    row.header = a.header ∧ row.nonce = a.nonce ∧ row.epoch = a.epoch

instance (rows : List Share) (a : Answer) : Decidable (a.Credited rows) :=
  inferInstanceAs (Decidable (∃ row ∈ rows, row.miner = a.login ∧ row.session = a.session ∧
    row.job_id = a.job ∧ row.header = a.header ∧ row.nonce = a.nonce ∧ row.epoch = a.epoch))

/-- The id that the statement of a submission has returned. -/
def Stage.stored : Stage → Option Nat
  | .recording _ stored => stored
  | _ => none

/-- Each `recordShare` gets the id that its own statement has returned, and no
statement meets a row of an earlier process under its `(job_id, nonce)`. -/
def OwnRow (s : State) : Event → Prop
  | .store fid (some id) => ∃ f ∈ s.submits, f.fid = fid ∧ f.stage.stored = some id
  | .execute fid _ => ∀ r ∈ s.requests, r.fid = fid → r.row.epoch = s.epoch →
    ∀ row ∈ s.shares.rows, row.job_id = r.row.job_id → row.nonce = r.row.nonce →
      row.epoch = s.epoch
  | _ => True

instance (s : State) : (e : Event) → Decidable (OwnRow s e)
  | .store fid (some id) =>
    inferInstanceAs (Decidable (∃ f ∈ s.submits, f.fid = fid ∧ f.stage.stored = some id))
  | .execute fid _ => inferInstanceAs (Decidable (∀ r ∈ s.requests, r.fid = fid →
      r.row.epoch = s.epoch → ∀ row ∈ s.shares.rows, row.job_id = r.row.job_id →
        row.nonce = r.row.nonce → row.epoch = s.epoch))
  | .login _ _ _ | .bye _ | .getjob _ | .refresh | .template _ _ | .window _ _ _ | .submit _ _ _
  | .validator _ _ _ | .store _ none | .finish _ _ | .restart => .isTrue trivial

/-- The statement of the submission has found or made a row. -/
def Submit.Stored (f : Submit) : Prop :=
  match f.stage with
  | .checking _ _ => False
  | .recording _ stored => stored.isSome
  | .recorded _ _ => True

theorem Submit.stored_of_id (f : Submit) {id : Nat} (h : f.stage.stored = some id) : f.Stored := by
  unfold Submit.Stored
  cases hstage : f.stage with
  | checking order rest => simp [hstage, Stage.stored] at h
  | recording solved known =>
    rw [hstage] at h
    exact Option.isSome_iff_exists.mpr ⟨id, h⟩
  | recorded solved shareId => trivial

/-- Submissions past the store, and answers, have a row of this process. -/
structure Credit (s : State) : Prop where
  stored : ∀ f ∈ s.submits, f.Stored →
    ∃ row ∈ s.shares.rows, row.epoch = s.epoch ∧ row.job_id = f.job ∧ row.nonce = f.nonce
  answered : ∀ a ∈ s.answers, a.Credited s.shares.rows

theorem Answer.Credited.mono {rows rows' : List Share} {a : Answer} (h : a.Credited rows)
    (hrows : rows ⊆ rows') : a.Credited rows' := by
  obtain ⟨row, hrow, hsame⟩ := h
  exact ⟨row, hrows hrow, hsame⟩

namespace Credit

variable {s t : State}

/-- Submissions that reach no row, and a table that only grows. -/
theorem weaken (h : Credit s) (hepoch : t.epoch = s.epoch)
    (hsubmits : ∀ g ∈ t.submits, g.Stored →
      ∃ f ∈ s.submits, f.Stored ∧ g.job = f.job ∧ g.nonce = f.nonce)
    (hrows : s.shares.rows ⊆ t.shares.rows) (hanswers : t.answers = s.answers) : Credit t := by
  refine ⟨?_, ?_⟩
  · intro g hg hstored
    obtain ⟨f, hf, hstored, hjob, hnonce⟩ := hsubmits g hg hstored
    obtain ⟨row, hrow, hrow'⟩ := h.stored f hf hstored
    refine ⟨row, hrows hrow, ?_⟩
    rwa [hepoch, hjob, hnonce]
  · rw [hanswers]
    exact fun a ha => (h.answered a ha).mono hrows

theorem transfer (h : Credit s) (hepoch : t.epoch = s.epoch) (hsubmits : t.submits ⊆ s.submits)
    (hshares : t.shares = s.shares) (hanswers : t.answers = s.answers) : Credit t := by
  refine h.weaken hepoch ?_ (by rw [hshares]; exact List.Subset.refl _) hanswers
  exact fun g hg hstored => ⟨g, hsubmits hg, hstored, rfl, rfl⟩

/-- Another stage for a submission: if it is past the store, it was before. -/
theorem setStage (h : Credit s) {fid : Nat} {stage : Stage}
    (hstage : ∀ f ∈ s.submits, f.fid = fid → ({ f with stage := stage } : Submit).Stored →
      f.Stored) : Credit (s.setStage fid stage) := by
  refine h.weaken rfl ?_ (List.Subset.refl _) rfl
  intro g hg hstored
  obtain ⟨f, hf, rfl⟩ := List.mem_map.mp hg
  by_cases hfid : f.fid = fid
  · rw [if_pos hfid] at hstored ⊢
    exact ⟨f, hf, hstage f hf hfid hstored, rfl, rfl⟩
  · rw [if_neg hfid] at hstored ⊢
    exact ⟨f, hf, hstored, rfl, rfl⟩

theorem serving (cfg : Config) : Served.Invariant cfg Credit where
  serve := fun _ _ _ _ _ h _ _ _ _ => h.transfer rfl (List.Subset.refl _) rfl rfl
  factor := fun _ _ _ h => h.transfer rfl (List.Subset.refl _) rfl rfl
  clear := fun _ h => h.transfer rfl (List.Subset.refl _) rfl rfl

theorem publish (h : Credit s) (cfg : Config) (t : Template) (w : Option Window) :
    Credit (publish cfg s t w) := by
  obtain ⟨_, _, _, _, _, heq⟩ := publish_same cfg s t w
  rw [heq]
  exact h.transfer rfl (List.Subset.refl _) rfl rfl

theorem retract (h : Credit s) (f : Submit) : Credit (retract s f) :=
  h.transfer rfl (List.filter_subset_self _) rfl rfl

/-- A statement of the running process that finds a row has found one of the running
process. -/
theorem execute (h : Credit s) (hreg : Registry s) {r : Request} (hr : r ∈ s.requests)
    (hown : r.row.epoch = s.epoch → ∀ row ∈ s.shares.rows, row.job_id = r.row.job_id →
      row.nonce = r.row.nonce → row.epoch = s.epoch) (fails : Bool) :
    Credit (execute s r fails) := by
  have hgrow := subset_rows_execute s r fails
  refine ⟨?_, fun a ha => (h.answered a ha).mono hgrow⟩
  intro g hg hstored
  obtain ⟨f, hf, rfl⟩ := List.mem_map.mp hg
  have hkept (hfstored : f.Stored) : ∃ row ∈ (pool.execute s r fails).shares.rows,
      row.epoch = s.epoch ∧ row.job_id = f.job ∧ row.nonce = f.nonce := by
    obtain ⟨row, hrow, hsame⟩ := h.stored f hf hfstored
    exact ⟨row, hgrow hrow, hsame⟩
  cases hstage : f.stage with
  | checking order rest =>
    simp only [hstage] at hstored
    exact absurd hstored (by simp [Submit.Stored, hstage])
  | recorded solved id =>
    simp only
    exact hkept (by simp [Submit.Stored, hstage])
  | recording solved known =>
    by_cases hfid : f.fid = r.fid
    · obtain ⟨hjob, hnonce, hepoch⟩ := hreg.matched r hr f hf hfid
      simp only [hstage, if_pos hfid, Submit.Stored, Option.isSome_map] at hstored ⊢
      obtain ⟨row, hlookup⟩ := Option.isSome_iff_exists.mp hstored
      have hrow : row ∈ (pool.execute s r fails).shares.rows := List.mem_of_find?_eq_some hlookup
      have hkey : row.job_id = r.row.job_id ∧ row.nonce = r.row.nonce := by
        simpa using List.find?_some hlookup
      refine ⟨row, hrow, ?_, hkey.1.trans hjob, hkey.2.trans hnonce⟩
      rcases mem_rows_execute hrow with hold | ⟨id, rfl⟩
      · exact hown hepoch row hold hkey.1 hkey.2
      · exact hepoch
    · simp only [hstage, if_neg hfid] at hstored ⊢
      exact hkept hstored

/-- An answer to a submission past the store is credited. -/
theorem finish (h : Credit s) (hreg : Registry s) {f : Submit} {job : Job} {m : Miner}
    (hf : f ∈ s.submits) (hstored : f.Stored) (hjob : s.job f.job = some job)
    (hm : s.miner f.session = some m) :
    Answer.Credited s.shares.rows ⟨s.epoch, f.session, m.login, f.job, job.header, f.nonce⟩ := by
  obtain ⟨row, hrow, hepoch, hrowjob, hrownonce⟩ := h.stored f hf hstored
  obtain ⟨⟨j, hj, hjid, hheader, howner, _⟩, m', hm', hsession, hlogin⟩ :=
    hreg.backed row (List.mem_append_left _ hrow) hepoch
  obtain ⟨hjobmem, hjobid⟩ := job_spec hjob
  obtain ⟨hmmem, hmid⟩ := miner_spec hm
  obtain ⟨j', hj', hjid', howner', _⟩ := hreg.holds f hf
  obtain rfl := hreg.toDirectory.job_unique hj hjobmem (hjid.trans (hrowjob.trans hjobid.symm))
  obtain rfl := hreg.toDirectory.job_unique hj' hj (hjid'.trans hjobid.symm)
  have hrowsession : row.session = f.session := howner.symm.trans howner'
  obtain rfl := hreg.toDirectory.miner_unique hm' hmmem
    (hsession.trans (hrowsession.trans hmid.symm))
  exact ⟨row, hrow, hlogin.symm, hrowsession, hrowjob, hheader.symm, hrownonce, hepoch⟩

end Credit

/-- Every step that meets the condition keeps the answers credited. -/
theorem credit_step {cfg : Config} {s t : State} {e : Event} (hreg : Registry s) (h : Credit s)
    (hok : OwnRow s e) (hstep : step cfg s e = some t) : Credit t := by
  have hcrash : ∀ s sid e, Credit s → makeJob cfg s sid = .error e →
      Credit { s with crashed := some e } :=
    fun _ _ _ h _ => h.transfer rfl (List.Subset.refl _) rfl rfl
  cases transition_of_step hstep with
  | restart => exact ⟨fun f hf => (by cases hf), h.answered⟩
  | login hfresh hs' =>
    subst hs'
    apply (Credit.serving cfg).orCrash hcrash
    exact h.transfer rfl (List.Subset.refl _) rfl rfl
  | bye sid => exact h.transfer rfl (List.Subset.refl _) rfl rfl
  | getjob sid => exact (Credit.serving cfg).orCrash hcrash h sid
  | refresh => exact h.transfer rfl (List.Subset.refl _) rfl rfl
  | template refreshes => exact h.transfer rfl (List.Subset.refl _) rfl rfl
  | window t' changed refreshes =>
    apply (Credit.serving cfg).refreshTail
    apply Credit.publish
    exact h.transfer rfl (List.Subset.refl _) rfl rfl
  | submit hm hjob howner hnonce hseen =>
    refine h.weaken rfl ?_ (List.Subset.refl _) rfl
    intro g hg hstored
    rcases List.mem_append.mp hg with hg | hg
    · exact ⟨g, hg, hstored, rfl, rfl⟩
    · rw [List.mem_singleton.mp hg] at hstored
      exact absurd hstored id
  | retract hf hs' =>
    rcases hs' with rfl | ⟨order, rfl⟩
    · exact h.retract _
    · apply Credit.retract
      exact h.transfer rfl (List.Subset.refl _) rfl rfl
  | drop => exact h.transfer rfl (List.filter_subset_self _) rfl rfl
  | next order rest => exact h.setStage fun _ _ _ hstored => absurd hstored id
  | @record fid verdict time f job m order rest weight hf hfid hstage hjob hm hpow =>
    have hstaged : Credit (s.setStage fid (.recording (candidate job f.nonce order) none)) :=
      h.setStage fun _ _ _ hstored => absurd hstored (by simp [Submit.Stored])
    exact hstaged.transfer rfl (List.Subset.refl _) rfl rfl
  | execute hr hfid => exact h.execute hreg hr (hok _ hr hfid) _
  | stored hf hfid hstage =>
    refine h.setStage ?_
    intro f hf' hfid' _
    obtain ⟨g, hg, hgfid, hgstored⟩ := hok
    obtain rfl := List.inj_on_of_nodup_map hreg.fids hg hf' (hgfid.trans hfid'.symm)
    exact g.stored_of_id hgstored
  | @finish fid shareId factor f job m solved s' hf hfid hstage hjob hm hretune =>
    have hcredited := h.finish hreg hf (by simp [Submit.Stored, hstage]) hjob hm
    have hgone : Credit { s with submits := s.submits.filter (·.fid ≠ fid) } :=
      h.transfer rfl (List.filter_subset_self _) rfl rfl
    have hnext := (Credit.serving cfg).retune hgone hretune
    have hkeep : Served.Invariant cfg fun u => u.shares = s.shares ∧ u.epoch = s.epoch :=
      ⟨fun _ _ _ _ _ h _ _ _ _ => h, fun _ _ _ h => h, fun _ h => h⟩
    obtain ⟨hshares, hepoch⟩ := hkeep.retune (by exact ⟨rfl, rfl⟩) hretune
    refine ⟨hnext.stored, ?_⟩
    intro a ha
    rcases List.mem_append.mp ha with ha | ha
    · exact hnext.answered a ha
    · rw [List.mem_singleton.mp ha, hepoch, hshares]
      exact hcredited
  | finishCrash hretune => exact h.transfer rfl (List.filter_subset_self _) rfl rfl

/-- Every submission that is answered OK is credited, in every run in which the store
answers each statement with its own row and no row of an earlier process stands under
the job id and nonce of a new one. -/
theorem ok_answers_credited {cfg : Config} {s : State}
    (hrun : run.Steps (step cfg) OwnRow {} s) : ∀ a ∈ s.answers, a.Credited s.shares.rows := by
  have hpreserve : ∀ s e t, Registry s ∧ Credit s → OwnRow s e → step cfg s e = some t →
      Registry t ∧ Credit t := by
    rintro s e t ⟨hreg, h⟩ hok hstep
    exact ⟨registry_step hreg hstep, credit_step hreg h hok hstep⟩
  have hinitial : Credit {} := ⟨by simp, by simp⟩
  exact (hrun.invariant hpreserve ⟨registry_initial, hinitial⟩).2.answered

/-- Alice's share in job 1, answered. -/
def aliceAnswered : List Event :=
  startUp 0 none "s" "alice" ++ acceptedShare 1 "s" "01020304" 1 ++ [.finish 1 none]

theorem ok_answers_credited_alice :
    ∃ s, run.exec (step smallPool) {} aliceAnswered = some s ∧ s.answers.length = 1 ∧
      ∀ a ∈ s.answers, a.Credited s.shares.rows := by
  have hanswers : (run.exec (step smallPool) {} aliceAnswered).map (fun s => s.answers.length) =
      some 1 := by
    decide +kernel
  obtain ⟨s, hexec, hlen⟩ := Option.map_eq_some_iff.mp hanswers
  refine ⟨s, hexec, hlen, ok_answers_credited (run.steps_of_exec _ hexec ?_)⟩
  decide +kernel

/-- After a restart job 1 is another miner's. The same nonce solves it too, the insert
is ignored in favour of alice's row, and bob is answered OK without a row. -/
theorem reused_job_id_uncredited :
    ¬∀ s, run.Steps (step smallPool) (fun _ _ => True) {} s →
      ∀ a ∈ s.answers, a.Credited s.shares.rows := by
  have hanswers : (run.exec (step smallPool) {} (aliceAnswered ++ [.restart] ++
      startUp 2 none "t" "bob" ++ acceptedShare 3 "t" "01020304" 1 ++ [.finish 3 none])).map
        (fun s => decide (∃ a ∈ s.answers, a.login = "bob" ∧ ¬a.Credited s.shares.rows)) =
      some true := by
    decide +kernel
  obtain ⟨s, hexec, hbob⟩ := Option.map_eq_some_iff.mp hanswers
  obtain ⟨a, ha, _, huncredited⟩ := of_decide_eq_true hbob
  intro hall
  exact huncredited (hall s (run.steps_of_exec _ hexec (run.meets_true _ _)) a ha)

end pcoin.pool
