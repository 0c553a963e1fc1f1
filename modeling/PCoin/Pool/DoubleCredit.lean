import PCoin.Pool.RegistryStep

open pcoin.store pcoin.block

namespace pcoin.pool

/-- The two texts spell the same four bytes in opposite orders. -/
def Reversed (a b : String) : Prop := nonceBytes a .standard = nonceBytes b .legacy

/-- One of the two byte orders of the nonce meets the job's share target. -/
def Solves (cfg : Config) (job : Job) (nonce : String) : Prop :=
  ∃ order, cfg.powHash (candidate job nonce order) ≤ job.target

/-- No job is submitted a solution under a text whose byte reversal, another text, was
submitted to it before. -/
def OneText (cfg : Config) (s : State) : Event → Prop
  | .submit _ jobId text => ∀ job ∈ s.job jobId, ∀ nonce ∈ parseNonce text,
      Solves cfg job nonce → ∀ other ∈ job.offered, Reversed other nonce → other = nonce
  | _ => True

instance (a b : String) : Decidable (Reversed a b) :=
  inferInstanceAs (Decidable (nonceBytes a .standard = nonceBytes b .legacy))

instance (cfg : Config) (job : Job) (nonce : String) : Decidable (Solves cfg job nonce) :=
  decidable_of_iff (cfg.powHash (candidate job nonce .standard) ≤ job.target ∨
      cfg.powHash (candidate job nonce .legacy) ≤ job.target)
    ⟨fun h => h.elim (⟨.standard, ·⟩) (⟨.legacy, ·⟩), fun ⟨order, h⟩ => by
      cases order with
      | standard => exact .inl h
      | legacy => exact .inr h⟩

instance (cfg : Config) (s : State) : (e : Event) → Decidable (OneText cfg s e)
  | .submit _ jobId text => inferInstanceAs (Decidable (∀ job ∈ s.job jobId,
      ∀ nonce ∈ parseNonce text, Solves cfg job nonce → ∀ other ∈ job.offered,
        Reversed other nonce → other = nonce))
  | .login _ _ _ | .bye _ | .getjob _ | .refresh | .template _ _ | .window _ _ _ | .validator _ _ _
  | .execute _ _ | .store _ _ | .finish _ _ | .restart => .isTrue trivial

theorem reversed_comm {a b : String} (h : Reversed a b) : Reversed b a := by
  simp only [Reversed, nonceBytes] at h ⊢
  rw [h, List.reverse_reverse]

theorem solves_of_reversed {cfg : Config} {job : Job} {a b : String} (hrev : Reversed a b)
    (h : Solves cfg job a) : Solves cfg job b := by
  obtain ⟨order, hpow⟩ := h
  cases order with
  | standard =>
    refine ⟨.legacy, ?_⟩
    rwa [candidate, ← hrev]
  | legacy =>
    refine ⟨.standard, ?_⟩
    rwa [candidate, reversed_comm hrev]

theorem nonceBytes_inj {a b : String} (ha : IsNonce a) (hb : IsNonce b) {order : Order}
    (h : nonceBytes a order = nonceBytes b order) : a = b := by
  have hdecode : hex.decode a.toList = hex.decode b.toList := by
    cases order with
    | standard => exact h
    | legacy => exact List.reverse_injective h
  apply String.toList_injective
  exact hex.decode_inj ha.2 hb.2 (by rw [ha.1]; decide) (ha.1.trans hb.1.symm) hdecode

/-- Two texts with the same bytes, in whichever orders these are read, are equal
or reversals of one another. -/
theorem eq_or_reversed {a b : String} (ha : IsNonce a) (hb : IsNonce b) {x y : Order}
    (h : nonceBytes a x = nonceBytes b y) : a = b ∨ Reversed a b := by
  by_cases hxy : x = y
  · subst hxy
    exact .inl (nonceBytes_inj ha hb h)
  · cases x with
    | standard =>
      cases y with
      | standard => exact absurd rfl hxy
      | legacy => exact .inr h
    | legacy =>
      cases y with
      | standard => exact .inr (reversed_comm h.symm)
      | legacy => exact absurd rfl hxy

/-- The nonces offered to a job, and the rows claimed for it, are under one text
for each solution. -/
structure Apart (cfg : Config) (s : State) : Prop where
  offered : ∀ j ∈ s.jobs, ∀ a ∈ j.offered, ∀ b ∈ j.offered, Reversed a b → Solves cfg j b → a = b
  claimed : ∀ a ∈ s.claimed, ∀ b ∈ s.claimed, a.epoch = b.epoch → a.job_id = b.job_id →
    a.header = b.header ∧ (Reversed a.nonce b.nonce → a.nonce = b.nonce)
  solved : ∀ a ∈ s.claimed,
    IsNonce a.nonce ∧ ∃ order, a.solved = a.header.take 76 ++ nonceBytes a.nonce order

namespace Apart

variable {cfg : Config} {s t : State}

/-- Jobs that were offered nothing new and rows that were claimed before. -/
theorem weaken (h : Apart cfg s)
    (hjobs : ∀ j' ∈ t.jobs, j'.offered = [] ∨
      ∃ j ∈ s.jobs, j'.offered = j.offered ∧ j'.header = j.header ∧ j'.target = j.target)
    (hclaimed : ∀ a ∈ t.claimed, ∃ old ∈ s.claimed, ∃ id, a = { old with id := id }) :
    Apart cfg t := by
  refine ⟨?_, ?_, ?_⟩
  · intro j' hj' a ha b hb hrev hsolves
    rcases hjobs j' hj' with hnone | ⟨j, hj, hoffered, hheader, htarget⟩
    · rw [hnone] at ha
      cases ha
    · rw [hoffered] at ha hb
      refine h.offered j hj a ha b hb hrev ?_
      simpa only [Solves, candidate, hheader, htarget] using hsolves
  · intro a ha b hb
    obtain ⟨a', ha', _, rfl⟩ := hclaimed a ha
    obtain ⟨b', hb', _, rfl⟩ := hclaimed b hb
    exact h.claimed a' ha' b' hb'
  · intro a ha
    obtain ⟨a', ha', _, rfl⟩ := hclaimed a ha
    exact h.solved a' ha'

theorem transfer (h : Apart cfg s) (hjobs : t.jobs = s.jobs) (hrequests : t.requests = s.requests)
    (hshares : t.shares = s.shares) : Apart cfg t := by
  have hclaimed : t.claimed = s.claimed := by rw [State.claimed, State.claimed, hrequests, hshares]
  refine h.weaken ?_ ?_
  · rw [hjobs]
    exact fun j hj => .inr ⟨j, hj, rfl, rfl, rfl⟩
  · rw [hclaimed]
    exact fun a ha => ⟨a, ha, a.id, rfl⟩

theorem retract (h : Apart cfg s) (f : Submit) : Apart cfg (retract s f) := by
  refine h.weaken ?_ fun a ha => ⟨a, ha, a.id, rfl⟩
  intro j' hj'
  obtain ⟨j, hj, rfl⟩ := List.mem_map.mp hj'
  refine .inr ⟨j, hj, ?_⟩
  split
  · exact ⟨rfl, rfl, rfl⟩
  · exact ⟨rfl, rfl, rfl⟩

/-- A nonce that is not a solution's second text may be offered. -/
theorem submit (h : Apart cfg s) (hdir : Directory s) {jobId nonce : String} {job : Job}
    (hjob : s.job jobId = some job)
    (hone : Solves cfg job nonce → ∀ other ∈ job.offered, Reversed other nonce → other = nonce)
    (hjobs : t.jobs = (s.setJob jobId fun j =>
      { j with seen := nonce :: j.seen, offered := nonce :: j.offered }).jobs)
    (hrequests : t.requests = s.requests) (hshares : t.shares = s.shares) : Apart cfg t := by
  have hclaimed : t.claimed = s.claimed := by rw [State.claimed, State.claimed, hrequests, hshares]
  obtain ⟨hmem, hid⟩ := job_spec hjob
  refine ⟨?_, by rw [hclaimed]; exact h.claimed, by rw [hclaimed]; exact h.solved⟩
  rw [hjobs]
  intro j' hj' a ha b hb hrev hsolves
  obtain ⟨j, hj, rfl⟩ := List.mem_map.mp hj'
  by_cases hjid : j.id = jobId
  · rw [if_pos hjid] at ha hb hsolves
    obtain rfl := hdir.job_unique hj hmem (hjid.trans hid.symm)
    have hsolves' : Solves cfg j b := hsolves
    rcases List.mem_cons.mp ha with hanew | ha
    · rcases List.mem_cons.mp hb with hbnew | hb
      · rw [hanew, hbnew]
      · rw [hanew] at hrev ⊢
        exact (hone (solves_of_reversed (reversed_comm hrev) hsolves') b hb
          (reversed_comm hrev)).symm
    · rcases List.mem_cons.mp hb with hbnew | hb
      · rw [hbnew] at hrev hsolves' ⊢
        exact hone hsolves' a ha hrev
      · exact h.offered j hj a ha b hb hrev hsolves'
  · rw [if_neg hjid] at ha hb hsolves
    exact h.offered j hj a ha b hb hrev hsolves

/-- A validated submission claims a row that no other text of its job claims. -/
theorem record (h : Apart cfg s) (hreg : Registry s) {f : Submit} {job : Job} {m : Miner}
    {order : Order} (hf : f ∈ s.submits) (hjob : s.job f.job = some job)
    (hm : s.miner f.session = some m)
    (hpow : cfg.powHash (candidate job f.nonce order) ≤ job.target) (weight : Int) (time : Nat)
    (hjobs : t.jobs = s.jobs)
    (hrequests : t.requests = s.requests ++ [⟨f.fid, rowOf s f job m order weight time⟩])
    (hshares : t.shares = s.shares) : Apart cfg t := by
  obtain ⟨⟨j, hj, hjid, hheader, _, hnonce⟩, _⟩ := backed_rowOf hreg hf hjob hm order weight time
  obtain ⟨hmem, _⟩ := job_spec hjob
  obtain rfl := hreg.toDirectory.job_unique hj hmem hjid
  have hsolves : Solves cfg j f.nonce := ⟨order, hpow⟩
  have hsplit (a : Share) (ha : a ∈ t.claimed) :
      a ∈ s.claimed ∨ a = rowOf s f j m order weight time := by
    rw [State.claimed, hrequests, hshares] at ha
    exact mem_claimed_addRequest ha
  -- the rows of this job that were claimed before carry its header and a nonce offered to it
  have hold (a : Share) (ha : a ∈ s.claimed) (hepoch : a.epoch = s.epoch) (hid : a.job_id = j.id) :
      a.header = j.header ∧ (Reversed a.nonce f.nonce → a.nonce = f.nonce) := by
    obtain ⟨⟨j', hj', hjid', hheader', _, hnonce'⟩, _⟩ := hreg.backed a ha hepoch
    obtain rfl := hreg.toDirectory.job_unique hj' hj (hjid'.trans hid)
    exact ⟨hheader'.symm, fun hrev => h.offered j' hj _ hnonce' _ hnonce hrev hsolves⟩
  refine ⟨by rw [hjobs]; exact h.offered, ?_, ?_⟩
  · intro a ha b hb hepoch hid
    rcases hsplit a ha with ha | rfl
    · rcases hsplit b hb with hb | rfl
      · exact h.claimed a ha b hb hepoch hid
      · exact hold a ha hepoch hid
    · rcases hsplit b hb with hb | rfl
      · obtain ⟨hb', happart⟩ := hold b hb hepoch.symm hid.symm
        exact ⟨hb'.symm, fun hrev => (happart (reversed_comm hrev)).symm⟩
      · exact ⟨rfl, fun _ => rfl⟩
  · intro a ha
    rcases hsplit a ha with ha | rfl
    · exact h.solved a ha
    · exact ⟨hreg.nonces j hj _ hnonce, order, rfl⟩

theorem serving (cfg : Config) : Served.Invariant cfg (Apart cfg) where
  serve := by
    intro s sid t m job h _ _ _ hmade
    refine h.weaken ?_ fun a ha => ⟨a, ha, a.id, rfl⟩
    intro j' hj'
    rcases List.mem_append.mp hj' with hj' | hj'
    · exact .inr ⟨j', hj', rfl, rfl, rfl⟩
    · rw [List.mem_singleton.mp hj']
      exact .inl hmade.offered
  factor := fun s sid f h => h.transfer rfl rfl rfl
  clear := fun s h => h.transfer rfl rfl rfl

theorem publish (h : Apart cfg s) (t : Template) (w : Option Window) :
    Apart cfg (publish cfg s t w) := by
  obtain ⟨_, _, _, _, _, heq⟩ := publish_same cfg s t w
  rw [heq]
  exact h.transfer rfl rfl rfl

end Apart

/-- Every step in which no solution gets a second text keeps the rows apart. -/
theorem apart_step {cfg : Config} {s t : State} {e : Event} (hreg : Registry s) (h : Apart cfg s)
    (hok : OneText cfg s e) (hstep : step cfg s e = some t) : Apart cfg t := by
  have hcrash : ∀ s sid e, Apart cfg s → makeJob cfg s sid = .error e →
      Apart cfg { s with crashed := some e } := fun _ _ _ h _ => h.transfer rfl rfl rfl
  cases transition_of_step hstep with
  | restart => exact h.weaken (fun j hj => by cases hj) fun a ha => ⟨a, ha, a.id, rfl⟩
  | login hfresh hs' =>
    subst hs'
    apply (Apart.serving cfg).orCrash hcrash
    exact h.transfer rfl rfl rfl
  | bye sid => exact h.transfer rfl rfl rfl
  | getjob sid => exact (Apart.serving cfg).orCrash hcrash h sid
  | refresh => exact h.transfer rfl rfl rfl
  | template refreshes => exact h.transfer rfl rfl rfl
  | window t' changed refreshes =>
    apply (Apart.serving cfg).refreshTail
    apply Apart.publish
    exact h.transfer rfl rfl rfl
  | submit hm hjob howner hnonce hseen =>
    exact h.submit hreg.toDirectory hjob (hok _ hjob _ hnonce) rfl rfl rfl
  | retract hf hs' =>
    rcases hs' with rfl | ⟨order, rfl⟩
    · exact h.retract _
    · apply Apart.retract
      exact h.transfer rfl rfl rfl
  | drop => exact h.transfer rfl rfl rfl
  | next order rest => exact h.transfer rfl rfl rfl
  | record hf hfid hstage hjob hm hpow =>
    subst hfid
    exact h.record hreg hf hjob hm hpow _ _ rfl rfl rfl
  | execute hr hfid =>
    exact h.weaken (fun j hj => .inr ⟨j, hj, rfl, rfl, rfl⟩)
      fun a ha => mem_claimed_execute hr ha
  | stored hf hfid hstage => exact h.transfer rfl rfl rfl
  | @finish fid shareId factor f job m solved s' hf hfid hstage hjob hm hretune =>
    have hgone : Apart cfg { s with submits := s.submits.filter (·.fid ≠ fid) } :=
      h.transfer rfl rfl rfl
    have hnext := (Apart.serving cfg).retune hgone hretune
    exact hnext.transfer rfl rfl rfl
  | finishCrash hretune => exact h.transfer rfl rfl rfl

/-- No proof of work is credited twice while no solution is submitted under two
texts: two rows that one process recorded for one job and one solved header are the
same row. -/
theorem no_solution_credited_twice {cfg : Config} {s : State}
    (hrun : run.Steps (step cfg) (OneText cfg) {} s) :
    ∀ a ∈ s.shares.rows, ∀ b ∈ s.shares.rows, a.epoch = b.epoch → a.job_id = b.job_id →
      a.solved = b.solved → a = b := by
  have hinitial : Registry {} ∧ Apart cfg {} := by
    refine ⟨registry_initial, ?_, ?_, ?_⟩ <;> simp [State.claimed]
  have hpreserve : ∀ s e t, Registry s ∧ Apart cfg s → OneText cfg s e → step cfg s e = some t →
      Registry t ∧ Apart cfg t := by
    rintro s e t ⟨hreg, h⟩ hok hstep
    exact ⟨registry_step hreg hstep, apart_step hreg h hok hstep⟩
  obtain ⟨hreg, h⟩ := hrun.invariant hpreserve hinitial
  intro a ha b hb hepoch hjob hsolved
  have hamem : a ∈ s.claimed := List.mem_append_left _ ha
  have hbmem : b ∈ s.claimed := List.mem_append_left _ hb
  obtain ⟨hheader, hrev⟩ := h.claimed a hamem b hbmem hepoch hjob
  obtain ⟨hanonce, x, hax⟩ := h.solved a hamem
  obtain ⟨hbnonce, y, hby⟩ := h.solved b hbmem
  have hbytes : nonceBytes a.nonce x = nonceBytes b.nonce y := by
    rw [hax, hby, hheader] at hsolved
    exact List.append_cancel_left hsolved
  have hnonce : a.nonce = b.nonce := by
    rcases eq_or_reversed hanonce hbnonce hbytes with heq | hreversed
    · exact heq
    · exact hrev hreversed
  exact List.inj_on_of_nodup_map hreg.keys ha hb (Prod.ext hjob hnonce)

theorem no_solution_credited_twice_one :
    ∃ s, run.exec (step smallPool) {} (startUp 0 none "s" "alice" ++
        acceptedShare 1 "s" "01020304" 1) = some s ∧ s.shares.rows.length = 1 ∧
      ∀ a ∈ s.shares.rows, ∀ b ∈ s.shares.rows, a.epoch = b.epoch → a.job_id = b.job_id →
        a.solved = b.solved → a = b := by
  have hrows : (run.exec (step smallPool) {} (startUp 0 none "s" "alice" ++
      acceptedShare 1 "s" "01020304" 1)).map (fun s => s.shares.rows.length) = some 1 := by
    decide +kernel
  obtain ⟨s, hexec, hlen⟩ := Option.map_eq_some_iff.mp hrows
  refine ⟨s, hexec, hlen, no_solution_credited_twice (run.steps_of_exec _ hexec ?_)⟩
  decide +kernel

/-- A solution is sent as its bytes and then as their reversal: the second text
passes the seen-set, fails in the standard order, and is accepted in the legacy one. -/
theorem reversed_text_credited_again :
    ¬∀ s, run.Steps (step smallPool) (fun _ _ => True) {} s →
      ∀ a ∈ s.shares.rows, ∀ b ∈ s.shares.rows, a.epoch = b.epoch → a.job_id = b.job_id →
        a.solved = b.solved → a = b := by
  have hrows : (run.exec (step smallPool) {} (startUp 0 none "s" "alice" ++
      acceptedShare 1 "s" "01020304" 1 ++ [.finish 1 none, .submit "s" "1" "04030201",
        .validator 2 .done 6, .validator 2 .done 6, .execute 2 false])).map (fun s =>
      decide (∃ a ∈ s.shares.rows, ∃ b ∈ s.shares.rows, a.epoch = b.epoch ∧ a.job_id = b.job_id ∧
        a.solved = b.solved ∧ a ≠ b)) = some true := by
    decide +kernel
  obtain ⟨s, hexec, hpair⟩ := Option.map_eq_some_iff.mp hrows
  obtain ⟨a, ha, b, hb, hepoch, hjob, hsolved, hne⟩ := of_decide_eq_true hpair
  intro hall
  exact hne (hall s (run.steps_of_exec _ hexec (run.meets_true _ _)) a ha b hb hepoch hjob hsolved)

end pcoin.pool
