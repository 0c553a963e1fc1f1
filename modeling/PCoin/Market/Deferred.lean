import PCoin.Market.Ahead

open floating

namespace pcoin.market.retire

section

variable {env : Env} {s t : State} {x : Spot}

/-- From here the scan can be answered to its end. -/
def Ends (env : Env) (height : Int) (s : State) : Prop :=
  ∃ es t, (∀ e ∈ es, Answers height e) ∧ run.exec (step env) s es = some t ∧ t.scan = none

theorem ends_of_idle {height : Int} (h : s.scan = none) : Ends env height s :=
  ⟨[], s, by simp, rfl, h⟩

theorem Ends.cons {height : Int} {e : Event} (hans : Answers height e)
    (hstep : step env s e = some t) (h : Ends env height t) : Ends env height s := by
  obtain ⟨es, u, hes, hexec, hend⟩ := h
  refine ⟨e :: es, u, fun e' he => ?_, by simpa [run.exec, hstep] using hexec, hend⟩
  obtain rfl | he := List.mem_cons.mp he
  · exact hans
  · exact hes e' he

theorem ends_read {height : Int} {pc : Pc} {next : Option Pc} (hpc : s.scan = some pc)
    (hnext : answered env s pc = some next) (h : Ends env height { s with scan := next }) :
    Ends env height s :=
  .cons (e := .read true) rfl (by simp [step, hpc, hnext]) h

theorem ends_write {height : Int} {pc : Pc} {next : Option Pc} (hpc : s.scan = some pc)
    (hnext : written env s pc = some (t, next)) (h : Ends env height { t with scan := next }) :
    Ends env height s :=
  .cons (e := .write true true) ⟨rfl, rfl⟩ (by simp [step, hpc, hnext]) h

theorem ends_transact {height k : Int} {pass : Pass} {o : Spend} {address system : String}
    {rest : List Spend} (hpc : s.scan = some (.transact pass k o address system rest))
    (hadvance : ∀ pass' t, pass'.safeTip = pass.safeTip → t.scan = some (advance pass' k rest) →
      Ends env height t) : Ends env height s := by
  cases htransact : transact env s k o address system with
  | none =>
    have hnext : written env s (.transact pass k o address system rest) =
        some (s, some (advance pass k rest)) := by rw [written, htransact]
    exact ends_write hpc hnext (hadvance pass _ rfl rfl)
  | some r =>
    obtain ⟨u, got⟩ := r
    have hnext : written env s (.transact pass k o address system rest) =
        some (u, some (advance { pass with retired := pass.retired + fromUnits got } k rest)) := by
      rw [written, htransact]
    exact ends_write hpc hnext
      (hadvance { pass with retired := pass.retired + fromUnits got } _ rfl rfl)

theorem ends_select {height k : Int} {pass : Pass} {o : Spend} {address : String}
    {rest : List Spend} (hpc : s.scan = some (.select pass k o address rest))
    (hadvance : ∀ pass' t, pass'.safeTip = pass.safeTip → t.scan = some (advance pass' k rest) →
      Ends env height t) : Ends env height s := by
  cases hsystem : env.systemOf address with
  | none =>
    have hnext : answered env s (.select pass k o address rest) =
        some (some (advance pass k rest)) := by rw [answered, hsystem]
    exact ends_read hpc hnext (hadvance pass _ rfl rfl)
  | some system =>
    by_cases hcap : env.want o > pass.capLeft - pass.retired
    · have hnext : answered env s (.select pass k o address rest) = some none := by
        simp only [answered, hsystem, if_pos hcap]
      exact ends_read hpc hnext (ends_of_idle rfl)
    · have hnext : answered env s (.select pass k o address rest) =
          some (some (.transact pass k o address system rest)) := by
        simp only [answered, hsystem, if_neg hcap]
      exact ends_read hpc hnext (ends_transact rfl hadvance)

/-- By induction on the outputs still to be read. -/
theorem ends_advance {height k : Int} (rest : List Spend) {pass : Pass}
    (hpc : s.scan = some (advance pass k rest))
    (hset : ∀ pass' t, pass'.safeTip = pass.safeTip → t.scan = some (.setCursor pass' k) →
      Ends env height t) : Ends env height s := by
  induction rest generalizing s pass with
  | nil => exact hset pass s rfl hpc
  | cons o rest ih =>
    rw [advance] at hpc
    split at hpc
    · exact ih hpc hset
    · exact ends_select hpc fun pass' t htip hscan =>
        ih hscan fun pass'' t' htip' => hset pass'' t' (htip'.trans htip)

/-- By induction on the blocks still to be read. -/
theorem ends_next {height : Int} (n : Nat) {k : Int} {pass : Pass} (hpc : s.scan = pass.next k)
    (hn : pass.safeTip - k < n) : Ends env height s := by
  induction n generalizing s k pass with
  | zero =>
    refine ends_of_idle (hpc.trans ?_)
    rw [Pass.next, if_neg (by omega)]
  | succ n ih =>
    have hset : ∀ pass' t, pass'.safeTip = pass.safeTip → t.scan = some (.setCursor pass' k) →
        Ends env height t := fun pass' t htip hscan =>
      ends_write hscan rfl (ih rfl (by omega))
    by_cases hle : k ≤ pass.safeTip
    · rw [Pass.next, if_pos hle] at hpc
      refine ends_read hpc rfl ?_
      split
      · exact ends_advance _ rfl hset
      · exact ends_of_idle rfl
    · refine ends_of_idle (hpc.trans ?_)
      rw [Pass.next, if_neg hle]

/-- Whatever it waits for, a scan that is answered ends. -/
theorem ends (height : Int) (s : State) : Ends env height s := by
  have hset : ∀ pass k t, t.scan = some (.setCursor pass k) → Ends env height t :=
    fun pass k t hscan => ends_write hscan rfl
      (ends_next ((pass.safeTip - (k + 1)).toNat + 1) rfl (by omega))
  have htoday : ∀ safeTip start t, t.scan = some (.today safeTip start) → Ends env height t :=
    fun safeTip start t hscan => ends_read hscan rfl
      (ends_next ((safeTip - (start + 1)).toNat + 1) rfl (by simp only; omega))
  have hcursor : ∀ safeTip t, t.scan = some (.cursor safeTip) → Ends env height t := by
    intro safeTip t hscan
    cases hc : t.cursor with
    | none =>
      have hnext : answered env t (.cursor safeTip) = some (some (.first safeTip)) := by
        rw [answered, hc]
      exact ends_read hscan hnext (ends_write rfl rfl (ends_of_idle rfl))
    | some start =>
      have hnext : answered env t (.cursor safeTip) =
          some (if safeTip ≤ start then none else some (.today safeTip start)) := by
        rw [answered, hc]
      refine ends_read hscan hnext ?_
      by_cases hle : safeTip ≤ start
      · exact ends_of_idle (if_pos hle)
      · exact htoday safeTip start _ (if_neg hle)
  cases hscan : s.scan with
  | none => exact ends_of_idle hscan
  | some pc =>
    cases pc with
    | tip =>
      have hstep : step env s (.tip (some height)) =
          some { s with scan := some (.cursor (height - env.minConf)) } := by
        simp [step, hscan, guard]
      exact .cons (e := .tip (some height)) ⟨height, rfl, le_rfl⟩ hstep (hcursor _ _ rfl)
    | cursor safeTip => exact hcursor safeTip s hscan
    | first safeTip => exact ends_write hscan rfl (ends_of_idle rfl)
    | today safeTip start => exact htoday safeTip start s hscan
    | block pass k =>
      refine ends_read hscan rfl ?_
      split
      · exact ends_advance _ rfl fun pass' t _ => hset pass' k t
      · exact ends_of_idle rfl
    | select pass k o address rest =>
      exact ends_select hscan fun pass' t _ ht =>
        ends_advance rest ht fun pass'' t' _ => hset pass'' k t'
    | transact pass k o address system rest =>
      exact ends_transact hscan fun pass' t _ ht =>
        ends_advance rest ht fun pass'' t' _ => hset pass'' k t'
    | setCursor pass k => exact hset pass k s hscan

instance (env : Env) (o : Spend) : Decidable (env.Qualifies o) :=
  inferInstanceAs (Decidable (_ = true))

/-- The outputs of a number of blocks after a height. -/
def Env.between (env : Env) (first : Int) (n : Nat) : List Spend :=
  (List.range n).flatMap fun i : Nat => env.outputs (first + 1 + i)

/-- The output is still to be counted. -/
def Due (env : Env) (rows : List Row) (o : Spend) : Prop :=
  env.Qualifies o ∧ o.key ∉ rows.map Row.key

instance (env : Env) (rows : List Row) (o : Spend) : Decidable (Due env rows o) :=
  inferInstanceAs (Decidable (_ ∧ _))

/-- How many outputs are still to be counted. -/
def due (env : Env) (first : Int) (n : Nat) (rows : List Row) : Nat :=
  (env.between first n).countP fun o => Due env rows o

theorem mem_between {first k : Int} {n : Nat} {o : Spend} (hlt : first < k) (hle : k ≤ first + n)
    (ho : o ∈ env.outputs k) : o ∈ env.between first n := by
  have hi : (k - first - 1).toNat < n := by omega
  refine List.mem_flatMap.mpr ⟨_, List.mem_range.mpr hi, ?_⟩
  have hk : first + 1 + ((k - first - 1).toNat : Int) = k := by omega
  rwa [hk]

theorem Due.mono {rows rows' : List Row} {o : Spend} (hrows : rows ⊆ rows') (h : Due env rows' o) :
    Due env rows o :=
  ⟨h.1, fun hkey => h.2 (List.map_subset _ hrows hkey)⟩

theorem due_mono (env : Env) (first : Int) (n : Nat) {rows rows' : List Row} (hrows : rows ⊆ rows') :
    due env first n rows' ≤ due env first n rows := by
  refine List.countP_mono_left fun o _ ho => ?_
  exact decide_eq_true (Due.mono hrows (of_decide_eq_true ho))

theorem due_lt {first : Int} {n : Nat} {rows rows' : List Row} (hrows : rows ⊆ rows') {o : Spend}
    (ho : o ∈ env.between first n) (hdue : Due env rows o) (hdone : ¬ Due env rows' o) :
    due env first n rows' < due env first n rows := by
  obtain ⟨pre, post, hsplit⟩ := List.append_of_mem ho
  have hmono : ∀ l : List Spend, l.countP (fun o => Due env rows' o) ≤
      l.countP (fun o => Due env rows o) := fun l => List.countP_mono_left fun o _ ho =>
    decide_eq_true (Due.mono hrows (of_decide_eq_true ho))
  have hpre := hmono pre
  have hpost := hmono post
  rw [due, due, hsplit, List.countP_append, List.countP_append,
    List.countP_cons_of_neg (by simpa using hdone), List.countP_cons_of_pos (by simpa using hdue)]
  omega

theorem cursor_step (hcounted : Counted env s) {e : Event} (hstep : step env s e = some t) {c : Int}
    (hc : s.cursor = some c) : ∃ c', t.cursor = some c' ∧ c ≤ c' := by
  cases move_of_step hstep with
  | still _ _ _ hcursor => exact ⟨c, hcursor.trans hc, le_rfl⟩
  | start | tip | failed | crash | read => exact ⟨c, hc, le_rfl⟩
  | write pc u next told hpc hnext =>
    have hscan := hcounted.scan pc hpc
    cases pc with
    | first =>
      rw [show s.cursor = none from hscan] at hc
      cases hc
    | setCursor pass k =>
      obtain ⟨rfl, -⟩ := Prod.mk.inj (Option.some.inj hnext)
      obtain rfl : c = k - 1 := Option.some.inj (hc.symm.trans hscan.1)
      exact ⟨k, rfl, by omega⟩
    | transact pass k o address system rest =>
      rw [written] at hnext
      split at hnext
      · obtain ⟨rfl, -⟩ := Prod.mk.inj (Option.some.inj hnext)
        exact ⟨c, hc, le_rfl⟩
      · rename_i v got htransact
        obtain ⟨rfl, -⟩ := Prod.mk.inj (Option.some.inj hnext)
        obtain ⟨-, row, rungs, -, -, -, -, -, rfl⟩ := transact_spec htransact
        exact ⟨c, hc, le_rfl⟩
    | tip | cursor | today | block | select => cases hnext

/-- The counting is under way from a height on, and the rows hold whole shares. -/
structure Counting (env : Env) (first : Int) (s : State) : Prop where
  counted : Counted env s
  origin : ∃ origin, s.origin = some origin ∧ origin ≤ first
  cursor : ∃ c, s.cursor = some c ∧ first ≤ c
  whole : ∀ r ∈ s.rows, r.pcn_retired = toUnits (env.share r.pcn_spent)

theorem whole_step (hcounted : Counted env s) {e : Event} (hstocked : ∀ o, Stocked env o s e)
    (hstep : step env s e = some t)
    (h : ∀ r ∈ s.rows, r.pcn_retired = toUnits (env.share r.pcn_spent)) :
    ∀ r ∈ t.rows, r.pcn_retired = toUnits (env.share r.pcn_spent) := by
  obtain hrows | ⟨told, pass, k, o, address, system, rest, row, rfl, hscan, hnew, hrows, -, hspent,
    hgot⟩ := new_row hstep
  · rwa [hrows]
  · intro r hr
    rw [hrows] at hr
    obtain hr | hr := List.mem_append.mp hr
    · exact h r hr
    · obtain rfl := List.mem_singleton.mp hr
      obtain ⟨-, -, -, hpayee, -⟩ := hcounted.scan _ hscan
      have hwant : 0 < env.want o :=
        share_pos (hcounted.ratio (by simp [hscan])) (value_pos_of_payee hpayee)
      have hleft := hstocked o told pass k address system rest rfl hscan hnew
      rw [hgot, (taken_eq_iff hwant.le _).mpr hleft, hspent]
      rfl

theorem counting_step {first : Int} (h : Counting env first s) {e : Event}
    (hstocked : ∀ o, Stocked env o s e) (hstep : step env s e = some t) : Counting env first t := by
  obtain ⟨origin, horigin, hle⟩ := h.origin
  obtain ⟨c, hc, hfirst⟩ := h.cursor
  obtain ⟨c', hc', hmono⟩ := cursor_step h.counted hstep hc
  exact ⟨counted_step h.counted hstep, ⟨origin, origin_step horigin hstep, hle⟩,
    ⟨c', hc', hfirst.trans hmono⟩, whole_step h.counted hstocked hstep h.whole⟩

/-- The first output still to be counted, when a scan begins. -/
theorem exists_ahead {first : Int} {n : Nat} (h : Counting env first s) (hneg : -1 ≤ first)
    (hshares : ∀ k o, first < k → k ≤ first + n → o ∈ env.outputs k → env.Qualifies o →
      env.want o ≤ env.dailyCap)
    (hscan : s.scan = some .tip) (hdue : 0 < due env first n s.rows) :
    ∃ x : Spot, x.On env ∧ Ahead env x s ∧ Due env s.rows x.output ∧ first < x.height ∧
      x.height ≤ first + n := by
  obtain ⟨origin, horigin, hle⟩ := h.origin
  obtain ⟨c, hc, hfirst⟩ := h.cursor
  -- the first block with such an output
  have hblock : ∃ i : Nat, i < n ∧ ∃ o ∈ env.outputs (first + 1 + i), Due env s.rows o := by
    obtain ⟨o, ho, hdue⟩ := List.countP_pos_iff.mp hdue
    obtain ⟨i, hi, ho⟩ := List.mem_flatMap.mp ho
    exact ⟨i, List.mem_range.mp hi, o, ho, of_decide_eq_true hdue⟩
  obtain ⟨i, ⟨hi, o, ho, hdue'⟩, hmin⟩ : ∃ i : Nat, (i < n ∧ ∃ o ∈ env.outputs (first + 1 + i),
      Due env s.rows o) ∧ ∀ j < i, ¬ (j < n ∧ ∃ o ∈ env.outputs (first + 1 + j),
        Due env s.rows o) :=
    ⟨Nat.find hblock, Nat.find_spec hblock, fun j hj => Nat.find_min hblock hj⟩
  -- the first such output of the block
  obtain ⟨o', hfind⟩ : ∃ o', (env.outputs (first + 1 + i)).find? (fun o => Due env s.rows o) =
      some o' := Option.isSome_iff_exists.mp
    (List.find?_isSome.mpr ⟨o, ho, decide_eq_true hdue'⟩)
  obtain ⟨hdue', before, after, hsplit, hbefore⟩ := List.find?_eq_some_iff_append.mp hfind
  have hdue' : Due env s.rows o' := of_decide_eq_true hdue'
  have hgood : ∀ k o, first < k → k ≤ first + n → o ∈ env.outputs k → ¬ Due env s.rows o →
      Good env s.rows o := fun k o hlt hle ho hnot hq =>
    ⟨by_contra fun hkey => hnot ⟨hq, hkey⟩, hshares k o hlt hle ho hq⟩
  have hlt : c < first + 1 + i := by
    by_contra hge
    have hpending := (h.counted.covered origin horigin c hc).2 (first + 1 + i) (by omega) (by omega)
    obtain hkey | hnil := hpending o' (hsplit ▸ by simp) hdue'.1
    · exact hdue'.2 hkey
    · cases hnil
  refine ⟨⟨first + 1 + i, before, o', after⟩, ⟨hsplit, hdue'.1⟩, ⟨⟨c, hc, by omega, hlt, ?_⟩, ?_, ?_⟩,
    hdue', by simp only; omega, by simp only; omega⟩
  · intro k hk hk' o ho
    simp only at hk'
    refine hgood k o (by omega) (by omega) ho fun hdue => ?_
    have heq : first + 1 + ((k - first - 1).toNat : Int) = k := by omega
    exact hmin (k - first - 1).toNat (by omega) ⟨by omega, o, by rwa [heq], hdue⟩
  · intro o ho
    refine hgood (first + 1 + i) o (by omega) (by omega) (hsplit ▸ by simp [ho]) fun hdue => ?_
    simpa [hdue] using hbefore o ho
  · rw [hscan]
    rintro pc ⟨⟩
    trivial

/-- Days on which a pass begins with nothing retired and is answered to its end. In between
anything may happen. -/
inductive Days (env : Env) (height : Int) : Nat → State → State → Prop
  | refl (s : State) : Days env height 0 s s
  | tail {n : Nat} {s r u v : State} {es : List Event} (hdays : Days env height n s r)
      (hrun : run.Steps (step env) (fun s e => ∀ o, Stocked env o s e) r u)
      (hscan : u.scan = some .tip) (hday : retiredOn u.rows u.day = 0)
      (hexec : run.exec (step env) u es = some v)
      (hmeets : run.Meets (step env) (fun s e => ∀ o, Stocked env o s e) u es)
      (hans : ∀ e ∈ es, Answers (height + env.minConf) e) (hend : v.scan = none) :
      Days env height (n + 1) s v

theorem Answers.mono {height height' : Int} (hle : height' ≤ height) {e : Event}
    (h : Answers height e) : Answers height' e := by
  cases e with
  | tip reply =>
    obtain ⟨tip, htip, hge⟩ := h
    exact ⟨tip, htip, hle.trans hge⟩
  | scan | read | write | ladder | tick | crash => exact h

theorem counting_steps {first : Int} (h : Counting env first s)
    (hrun : run.Steps (step env) (fun s e => ∀ o, Stocked env o s e) s t) : Counting env first t :=
  hrun.invariant (fun _ _ _ h hstocked hstep => counting_step h hstocked hstep) h

/-- Every such day counts an output, as long as there is one to be counted. -/
theorem due_days {first : Int} {n : Nat} (h : Counting env first s) (hneg : -1 ≤ first)
    (hshares : ∀ k o, first < k → k ≤ first + n → o ∈ env.outputs k → env.Qualifies o →
      env.want o ≤ env.dailyCap) {m : Nat} (hdays : Days env (first + n) m s t) :
    Counting env first t ∧ due env first n t.rows ≤ due env first n s.rows - m := by
  induction hdays with
  | refl => exact ⟨h, le_rfl⟩
  | @tail m s r u v es hdays hrun hscan hday hexec hmeets hans hend ih =>
    obtain ⟨hr, hle⟩ := ih h
    have hu := counting_steps hr hrun
    have hv := counting_steps hu (run.steps_of_exec es hexec hmeets)
    have hru := due_mono env first n (rows_steps hrun)
    have huv := rows_exec es hexec
    refine ⟨hv, ?_⟩
    obtain hzero | hpos := Nat.eq_zero_or_pos (due env first n u.rows)
    · have hmono := due_mono env first n huv
      omega
    · obtain ⟨x, hx, hahead, hdue, hlt, hle'⟩ := exists_ahead hu hneg hshares hscan hpos
      have hmem : x.output ∈ env.outputs x.height := hx.outputs ▸ by simp
      have hcap := hshares x.height x.output hlt hle' hmem hx.qualifies
      have hpasses := passes_of_fresh hx hu.counted hahead hcap hscan hday es hexec
        (fun e he => (hans e he).mono (by omega)) hend
      have hlt := due_lt huv (mem_between hlt hle' hmem) hdue
        fun hdue => hdue.2 (hpasses.key hexec)
      omega

/-- What is before the place of a scan in its block is behind it. -/
def Placed (env : Env) (rows : List Row) : Pc → Prop
  | .select _ k o _ rest | .transact _ k o _ _ rest =>
    0 ≤ k ∧ ∃ before, env.outputs k = before ++ o :: rest ∧ ∀ y ∈ before, Good env rows y
  | .tip | .cursor _ | .first _ | .today _ _ | .block _ _ | .setCursor _ _ => True

theorem placed_advance {pass : Pass} {k : Int} (hk : 0 ≤ k) {rows : List Row} (rest : List Spend)
    {before : List Spend} (houtputs : env.outputs k = before ++ rest)
    (hbefore : ∀ y ∈ before, Good env rows y) : Placed env rows (advance pass k rest) := by
  induction rest generalizing before with
  | nil => trivial
  | cons o rest ih =>
    rw [advance]
    split
    · rename_i hpayee
      have hmoved : env.outputs k = (before ++ [o]) ++ rest := by rw [houtputs]; simp
      refine ih hmoved fun y hy => ?_
      obtain hy | hy := List.mem_append.mp hy
      · exact hbefore y hy
      · rw [List.mem_singleton.mp hy]
        intro hq
        simp [Env.Qualifies, hpayee] at hq
    · exact ⟨hk, before, houtputs, hbefore⟩

theorem placed_next {rows : List Row} {pass : Pass} {k : Int} :
    ∀ pc ∈ pass.next k, Placed env rows pc := by
  intro pc hpc
  rw [Pass.next] at hpc
  split at hpc
  · obtain rfl := Option.some.inj hpc
    trivial
  · cases hpc

/-- The place moves past an output that is behind the scan. -/
theorem Placed.advance {rows rows' : List Row} {k : Int} {o : Spend} {rest : List Spend}
    (h : 0 ≤ k ∧ ∃ before, env.outputs k = before ++ o :: rest ∧ ∀ y ∈ before, Good env rows y)
    (hrows : rows ⊆ rows') (ho : Good env rows' o) (pass : Pass) :
    Placed env rows' (retire.advance pass k rest) := by
  obtain ⟨hk, before, houtputs, hbefore⟩ := h
  have hmoved : env.outputs k = (before ++ [o]) ++ rest := by rw [houtputs]; simp
  refine placed_advance hk rest hmoved fun y hy => ?_
  obtain hy | hy := List.mem_append.mp hy
  · exact (hbefore y hy).mono (List.map_subset _ hrows)
  · rwa [List.mem_singleton.mp hy]

theorem placed_step (hcounted : Counted env s) (h : ∀ pc ∈ s.scan, Placed env s.rows pc) {e : Event}
    (hstep : step env s e = some t) : ∀ pc ∈ t.scan, Placed env t.rows pc := by
  cases move_of_step hstep with
  | still _ _ _ _ hrows _ hscan =>
    rw [hscan, hrows]
    exact h
  | start =>
    rintro pc ⟨⟩
    trivial
  | tip reply =>
    intro pc hpc
    obtain ⟨tip, -, rfl⟩ := Option.map_eq_some_iff.mp hpc
    trivial
  | failed | crash => rintro pc ⟨⟩
  | read pc next hpc hnext =>
    have hplaced := h pc hpc
    have hscan := hcounted.scan pc hpc
    cases pc with
    | cursor safeTip =>
      rw [answered] at hnext
      split at hnext <;> obtain rfl := Option.some.inj hnext
      · rintro pc ⟨⟩
        trivial
      · split <;> rintro pc ⟨⟩
        trivial
    | today =>
      obtain rfl := Option.some.inj hnext
      exact placed_next
    | block pass k =>
      obtain rfl := Option.some.inj hnext
      split
      · rename_i hk
        rintro pc ⟨⟩
        exact placed_advance hk _ (List.nil_append _).symm (by simp)
      · rintro pc ⟨⟩
    | select pass k o address rest =>
      rw [answered] at hnext
      split at hnext
      · rename_i hnone
        obtain rfl := Option.some.inj hnext
        rintro pc ⟨⟩
        refine Placed.advance hplaced (List.Subset.refl _) (fun hq => ?_) pass
        simp [Env.Qualifies, hscan.2.2.2, hnone] at hq
      · split at hnext <;> obtain rfl := Option.some.inj hnext <;> rintro pc ⟨⟩
        exact hplaced
    | tip | first | transact | setCursor => cases hnext
  | write pc u next told hpc hnext =>
    have hplaced := h pc hpc
    have hscan := hcounted.scan pc hpc
    cases told with
    | false => rintro pc ⟨⟩
    | true =>
      cases pc with
      | first =>
        obtain ⟨rfl, rfl⟩ := Prod.mk.inj (Option.some.inj hnext)
        rintro pc ⟨⟩
      | setCursor =>
        obtain ⟨rfl, rfl⟩ := Prod.mk.inj (Option.some.inj hnext)
        exact placed_next
      | transact pass k o address system rest =>
        obtain ⟨-, hroom, -, hpayee, hsystem, hwant⟩ := hscan
        have hcap := hroom.want_le (hcounted.ratio (by simp [hpc])) (value_pos_of_payee hpayee) hwant
        have hkey := key_of_write hstep hpc
        have hrows := rows_step hstep
        rw [written] at hnext
        split at hnext <;> obtain ⟨rfl, rfl⟩ := Prod.mk.inj (Option.some.inj hnext) <;>
          rintro pc ⟨⟩ <;> exact Placed.advance hplaced hrows (fun _ => ⟨hkey, hcap⟩) _
      | tip | cursor | today | block | select => cases hnext

/-- The scan is at the output of the spot, and the cap stops it there. -/
def Deferred (env : Env) (x : Spot) (s : State) : Prop :=
  ∃ pass address system, s.scan = some (.select pass x.height x.output address x.after) ∧
    env.systemOf address = some system ∧ pass.capLeft - pass.retired < env.want x.output

theorem ahead_of_deferred (hcounted : Counted env s) (hplaced : ∀ pc ∈ s.scan, Placed env s.rows pc)
    (houtputs : env.outputs x.height = x.before ++ x.output :: x.after) (h : Deferred env x s) :
    x.On env ∧ Ahead env x s ∧ 0 < env.ratio := by
  obtain ⟨pass, address, system, hscan, hsystem, -⟩ := h
  obtain ⟨hcursor, -, -, hpayee⟩ := hcounted.scan _ hscan
  obtain ⟨hk, before, houtputs', hbefore⟩ := hplaced _ hscan
  have hsame : before = x.before := List.append_cancel_right (houtputs'.symm.trans houtputs)
  refine ⟨⟨houtputs, qualifies_of_payee hpayee hsystem⟩, ⟨⟨_, hcursor, by omega, by omega, ?_⟩,
    hsame ▸ hbefore, ?_⟩, hcounted.ratio (by simp [hscan])⟩
  · intro k hlt hlt'
    omega
  · rw [hscan]
    rintro pc ⟨⟩
    exact .inr ⟨rfl, [], by simp, rfl⟩

/-- What the cap stops the scan at is retired in full by the first pass of another day exactly
when its share is within the cap and on the ladder; then everything is, a day after the other. -/
theorem cap_defers {s₀ : State} (hstart : Start s₀) :
    (∀ x s, run.Steps (step env) (fun _ _ => True) s₀ s →
      env.outputs x.height = x.before ++ x.output :: x.after → Deferred env x s →
      ∀ es u es' t, run.exec (step env) s es = some u → u.scan = some .tip →
        retiredOn u.rows u.day = 0 → run.exec (step env) u es' = some t →
        (∀ e ∈ es', Answers (x.height + env.minConf) e) → t.scan = none →
        (Passes env x s (es ++ es') ↔ env.want x.output ≤ env.dailyCap) ∧
        (x.output.key ∉ s.rows.map Row.key →
          (InFull env t.rows x.output ↔ env.want x.output ≤ env.dailyCap ∧
            run.Meets (step env) (Stocked env x.output) s (es ++ es')))) ∧
    (∀ height s, Ends env height s) ∧
    ∀ s (first : Int) (n : Nat), run.Steps (step env) (fun s e => ∀ o, Stocked env o s e) s₀ s →
      s.cursor = some first → -1 ≤ first →
      (∀ k o, first < k → k ≤ first + n → o ∈ env.outputs k → env.Qualifies o →
        env.want o ≤ env.dailyCap) →
      ∀ t, Days env (first + n) (due env first n s.rows) s t →
        ∀ k o, first < k → k ≤ first + n → o ∈ env.outputs k → env.Qualifies o →
          ∃ r ∈ t.rows, r.key = o.key ∧ r.pcn_retired = toUnits (env.share r.pcn_spent) := by
  refine ⟨?_, ends, ?_⟩
  · intro x s hrun houtputs hdeferred es u es' t hexec hscan hday hexec' hans hend
    have hkeep : ∀ u e v, Counted env u ∧ (∀ pc ∈ u.scan, Placed env u.rows pc) → True →
        step env u e = some v → Counted env v ∧ ∀ pc ∈ v.scan, Placed env v.rows pc :=
      fun _ _ _ hu _ hstep => ⟨counted_step hu.1 hstep, placed_step hu.1 hu.2 hstep⟩
    obtain ⟨hcounted, hplaced⟩ := hrun.invariant hkeep
      ⟨hstart.counted env, by rw [hstart.scan]; rintro pc ⟨⟩⟩
    obtain ⟨hx, hahead, hratio⟩ := ahead_of_deferred hcounted hplaced houtputs hdeferred
    have hall : run.exec (step env) s (es ++ es') = some t := by
      rw [run.exec_append, hexec]
      exact hexec'
    have hpasses : Passes env x s (es ++ es') ↔ env.want x.output ≤ env.dailyCap := by
      constructor
      · rintro ⟨es₁, v, -, hv, hpassed, -⟩
        obtain hv' | ⟨-, hcap⟩ := ahead_exec hx hcounted hahead es₁ hv
        · exact absurd hpassed hv'.not_passed
        · exact hcap
      · intro hcap
        obtain hu | ⟨hpasses, -⟩ := ahead_exec hx hcounted hahead es hexec
        · exact (passes_of_fresh hx (counted_exec hcounted es hexec) hu hcap hscan hday es' hexec'
            hans hend).append hexec
        · exact hpasses.extend es'
    refine ⟨hpasses, fun hnew => ?_⟩
    constructor
    · rintro ⟨r, hr, hrow, hfull⟩
      have hkey : x.output.key ∈ t.rows.map Row.key := List.mem_map.mpr ⟨r, hr, hrow⟩
      obtain ⟨hcap, hiff⟩ := in_full_iff hx hratio hcounted hahead hnew _ hall hkey
      exact ⟨hcap, hiff.mp ⟨r, hr, hrow, hfull⟩⟩
    · rintro ⟨hcap, hmeets⟩
      have hkey := (hpasses.mpr hcap).key hall
      exact (in_full_iff hx hratio hcounted hahead hnew _ hall hkey).2.mpr hmeets
  · intro s first n hrun hcursor hneg hshares t hdays k o hlt hle ho hq
    have hkeep : ∀ u e v, (Counted env u ∧ ∀ r ∈ u.rows,
        r.pcn_retired = toUnits (env.share r.pcn_spent)) → (∀ o, Stocked env o u e) →
        step env u e = some v → Counted env v ∧ ∀ r ∈ v.rows,
          r.pcn_retired = toUnits (env.share r.pcn_spent) :=
      fun _ _ _ hu hstocked hstep => ⟨counted_step hu.1 hstep, whole_step hu.1 hstocked hstep hu.2⟩
    obtain ⟨hcounted, hwhole⟩ := hrun.invariant hkeep ⟨hstart.counted env, by simp [hstart.rows]⟩
    obtain ⟨origin, horigin⟩ : ∃ origin, s.origin = some origin := by
      rw [← Option.ne_none_iff_exists']
      intro hnone
      rw [hcounted.origin.mp hnone] at hcursor
      cases hcursor
    have hcounting : Counting env first s := ⟨hcounted,
      ⟨origin, horigin, (hcounted.covered origin horigin first hcursor).1⟩,
      ⟨first, hcursor, le_rfl⟩, hwhole⟩
    obtain ⟨ht, hdue⟩ := due_days hcounting hneg hshares hdays
    have hzero : due env first n t.rows = 0 := by omega
    have hnot := List.countP_eq_zero.mp hzero o (mem_between hlt hle ho)
    have hkey : o.key ∈ t.rows.map Row.key := by_contra fun hkey =>
      hnot (decide_eq_true ⟨hq, hkey⟩)
    obtain ⟨r, hr, hrow⟩ := List.mem_map.mp hkey
    exact ⟨r, hr, hrow, ht.whole r hr⟩

end

/-- Two payments in a block, half of each to be retired, ten PCN a day. -/
def payments (value value' : Int) : Env where
  retireRatioPct := 50
  minConf := 1
  retireDailyCapPcn := 10
  systems := ["bot"]
  spend_addresses a := if a = "p" then some "bot" else none
  block h := if h = 6 then [⟨"t", [⟨some "p", value * 10 ^ 8⟩, ⟨some "p", value' * 10 ^ 8⟩]⟩] else []

def second (value value' : Int) : Spot :=
  ⟨6, [⟨"t", 0, some "p", value * 10 ^ 8⟩], ⟨"t", 1, some "p", value' * 10 ^ 8⟩, []⟩

/-- Twenty PCN are for sale. -/
def stocked : State :=
  { shop := { rungs := [{ rung_no := 0, qty_total := 20 * 10 ^ 8 }] }, cursor := some 5 }

theorem stocked_start : Start stocked := ⟨⟨by decide, by decide, rfl⟩, rfl, rfl, rfl⟩

/-- A scan up to the second payment. -/
def toSecond : List Event :=
  [.scan, .tip (some 7), .read true, .read true, .read true, .read true, .write true true]

/-- It stops there; the next day another begins. -/
def nextDay : List Event := [.read true, .tick, .scan]

def again : List Event :=
  [.tip (some 7), .read true, .read true, .read true, .read true, .write true true, .read true,
    .write true true, .write true true]

theorem answers_again : ∀ e ∈ again, Answers (6 + (payments 14 16).minConf) e := by
  simp [again, Answers, payments]

theorem cap_defers_second :
    ∃ s t, run.exec (step (payments 14 16)) stocked toSecond = some s ∧
      Deferred (payments 14 16) (second 14 16) s ∧
      run.exec (step (payments 14 16)) s (nextDay ++ again) = some t ∧
      Passes (payments 14 16) (second 14 16) s (nextDay ++ again) := by
  obtain ⟨s, hs⟩ : ∃ s, run.exec (step (payments 14 16)) stocked toSecond = some s :=
    Option.isSome_iff_exists.mp (by decide +kernel)
  have hscan : (run.exec (step (payments 14 16)) stocked toSecond).map State.scan =
      some (some (.select ⟨6, Number.of 53 10, Number.of 53 7⟩ 6 ⟨"t", 1, some "p", 16 * 10 ^ 8⟩
        "p" [])) := by
    decide +kernel
  rw [hs] at hscan
  have hdeferred : Deferred (payments 14 16) (second 14 16) s :=
    ⟨⟨6, Number.of 53 10, Number.of 53 7⟩, "p", "bot", Option.some.inj hscan, by decide +kernel,
      by decide +kernel⟩
  have hu : ((run.exec (step (payments 14 16)) stocked toSecond).bind
      (run.exec (step (payments 14 16)) · nextDay)).map (fun u => (u.scan, retiredOn u.rows u.day)) =
      some (some .tip, 0) := by decide +kernel
  have ht : (((run.exec (step (payments 14 16)) stocked toSecond).bind
      (run.exec (step (payments 14 16)) · nextDay)).bind
      (run.exec (step (payments 14 16)) · again)).map State.scan = some none := by decide +kernel
  rw [hs, Option.bind_some] at hu ht
  obtain ⟨u, hnext, hfresh⟩ := Option.map_eq_some_iff.mp hu
  obtain ⟨hfresh, hday⟩ := Prod.mk.inj hfresh
  rw [hnext, Option.bind_some] at ht
  obtain ⟨t, hagain, hend⟩ := Option.map_eq_some_iff.mp ht
  refine ⟨s, t, hs, hdeferred, ?_, ?_⟩
  · rw [run.exec_append, hnext]
    exact hagain
  · have hrun := run.steps_of_exec toSecond hs (run.meets_true stocked toSecond)
    refine ((cap_defers stocked_start).1 (second 14 16) s hrun (by decide +kernel) hdeferred
      nextDay u again t hnext hfresh hday hagain answers_again hend).1.mpr ?_
    decide +kernel

/-- A payment of which more is to be retired than the cap of a whole day. -/
def first (value value' : Int) : Spot :=
  ⟨6, [], ⟨"t", 0, some "p", value * 10 ^ 8⟩, [⟨"t", 1, some "p", value' * 10 ^ 8⟩]⟩

def toFirst : List Event := [.scan, .tip (some 7), .read true, .read true, .read true]

def stopped : List Event := [.tip (some 7), .read true, .read true, .read true, .read true]

/-- The next day's pass stops at the same output, and nothing is retired. -/
theorem share_past_cap :
    ∃ s u t, 0 < (payments 30 16).ratio ∧ 0 < (payments 30 16).dailyCap ∧
      run.exec (step (payments 30 16)) stocked toFirst = some s ∧
      Deferred (payments 30 16) (first 30 16) s ∧
      run.exec (step (payments 30 16)) s nextDay = some u ∧
      u.scan = some .tip ∧ retiredOn u.rows u.day = 0 ∧
      run.exec (step (payments 30 16)) u stopped = some t ∧
      (∀ e ∈ stopped, Answers (6 + (payments 30 16).minConf) e) ∧ t.scan = none ∧
      t.cursor = some 5 ∧ ¬ InFull (payments 30 16) t.rows (first 30 16).output := by
  obtain ⟨s, hs⟩ : ∃ s, run.exec (step (payments 30 16)) stocked toFirst = some s :=
    Option.isSome_iff_exists.mp (by decide +kernel)
  have hscan : (run.exec (step (payments 30 16)) stocked toFirst).map State.scan =
      some (some (.select ⟨6, Number.of 53 10, 0⟩ 6 ⟨"t", 0, some "p", 30 * 10 ^ 8⟩ "p"
        [⟨"t", 1, some "p", 16 * 10 ^ 8⟩])) := by
    decide +kernel
  have hu : ((run.exec (step (payments 30 16)) stocked toFirst).bind
      (run.exec (step (payments 30 16)) · nextDay)).map (fun u => (u.scan, retiredOn u.rows u.day)) =
      some (some .tip, 0) := by decide +kernel
  have ht : (((run.exec (step (payments 30 16)) stocked toFirst).bind
      (run.exec (step (payments 30 16)) · nextDay)).bind
      (run.exec (step (payments 30 16)) · stopped)).map (fun t => (t.scan, t.cursor, t.rows)) =
      some (none, some 5, []) := by decide +kernel
  rw [hs] at hscan
  rw [hs, Option.bind_some] at hu ht
  obtain ⟨u, hnext, hfresh⟩ := Option.map_eq_some_iff.mp hu
  obtain ⟨hfresh, hday⟩ := Prod.mk.inj hfresh
  rw [hnext, Option.bind_some] at ht
  obtain ⟨t, hstopped, hend⟩ := Option.map_eq_some_iff.mp ht
  obtain ⟨hend, hcursor, hrows⟩ : t.scan = none ∧ t.cursor = some 5 ∧ t.rows = [] := by
    simpa using hend
  refine ⟨s, u, t, by decide +kernel, by decide +kernel, hs, ?_, hnext, hfresh, hday,
    hstopped, by simp [stopped, Answers, payments], hend, hcursor, ?_⟩
  · exact ⟨⟨6, Number.of 53 10, 0⟩, "p", "bot", Option.some.inj hscan, by decide +kernel,
      by decide +kernel⟩
  · rw [hrows]
    rintro ⟨r, hr, -⟩
    cases hr

end pcoin.market.retire
