import PCoin.Forward.Adopts

namespace pcoin.forward

open run Routine Pairing

section Gather

variable {i : Inputs} {F : Bool → Bool → Prop}

theorem twin_walletAnswers : Twin i F walletAnswers walletAnswers := by
  refine agree_ask (fun _ _ h => h) fun reply _ => ?_
  cases reply <;> exact twin_pure _

theorem twin_gatherLoaded (loaded : Bool) : Twin i F (gatherLoaded loaded) (gatherLoaded loaded) := by
  unfold gatherLoaded
  split
  · exact twin_walletAnswers
  · exact twin_pure _

theorem twin_relayPeers : Twin i F relayPeers relayPeers := by
  refine agree_ask (fun _ _ h => h) fun reply _ => ?_
  match reply with
  | .ok (some ps) => exact twin_pure _
  | .ok none => exact twin_pure _
  | .error _ => exact twin_pure _

/-- Who owns the destination is asked for display only, and may be answered differently. -/
theorem agree_isMine (address : String) : (ported i).Agree (On anywhere) (fun _ _ => On anywhere)
    (isMine .windows address) (isMine .android address) := by
  refine agree_ask (fun _ _ h => h) fun reply _ => ?_
  match reply with
  | .ok (some info) => exact agree_done fun _ h => h
  | .ok none => exact agree_done fun _ h => h
  | .error _ => exact agree_done fun _ h => h

theorem twin_addressFacts (address : String) :
    Twin i anywhere (addressFacts .windows address) (addressFacts .android address) := by
  refine agree_ask (G := anywhere) (fun _ _ _ => trivial) fun reply ⟨a, r, _, hplain⟩ => ?_
  match reply with
  | .ok (some v) =>
    refine Agree.bind (agree_isMine address) fun _ _ => ?_
    rw [int_eq hplain 0 rfl]
    exact twin_pure _
  | .ok none => exact twin_pure _
  | .error _ => exact twin_pure _

theorem twin_gatherFacts (walletLoaded : Bool) (destination : String) :
    Twin i anywhere (gatherFacts .windows walletLoaded destination)
      (gatherFacts .android walletLoaded destination) := by
  unfold gatherFacts
  split
  · exact twin_addressFacts destination
  · exact twin_pure _

theorem twin_batchFlags (chunk : List String) :
    Twin i F (batchFlags .windows chunk) (batchFlags .android chunk) := by
  refine agree_ask (fun _ _ h => h) fun reply ⟨a, r, _, hplain⟩ => ?_
  cases reply with
  | ok results => exact twin_pure _
  | error e => cases hplain

theorem twin_generatedFlags (chunks : List (List String)) :
    Twin i F (generatedFlags .windows chunks) (generatedFlags .android chunks) := by
  induction chunks with
  | nil => exact twin_pure _
  | cons chunk chunks ih =>
    exact (twin_batchFlags chunk).bind fun flags => ih.bind fun rest => twin_pure _

theorem Unspent.utxo_eq {u : Unspent} (h : u.plain = true) : u.utxo .windows = u.utxo .android := by
  obtain ⟨⟨-, hvout⟩, hamount⟩ := Bool.and_eq_true_iff.mp h |>.imp Bool.and_eq_true_iff.mp id
  rw [Unspent.utxo, Unspent.utxo, map_int_eq hvout,
    show Port.windows.toSat (u.amount.getD 0) = Port.android.toSat (u.amount.getD 0) from
      (of_decide_eq_true hamount).symm]

theorem twin_vettedCandidates :
    Twin i F (vettedCandidates .windows) (vettedCandidates .android) := by
  refine agree_call (fun _ _ h => h) fun reply ⟨a, r, _, hplain⟩ => ?_
  match reply with
  | none => exact twin_pure _
  | some list =>
    have hlist : ∀ u ∈ list, u.plain = true := List.all_eq_true.mp hplain
    have hraw : list.map (Unspent.utxo .windows) = list.map (Unspent.utxo .android) :=
      List.map_congr_left fun u hu => Unspent.utxo_eq (hlist u hu)
    have hblank : ∀ u ∈ list.map (Unspent.utxo .android),
        Port.windows.blank u.txid = Port.android.blank u.txid := by
      intro u hu
      obtain ⟨v, hv, rfl⟩ := List.mem_map.mp hu
      exact blank_eq (Bool.and_eq_true_iff.mp (Bool.and_eq_true_iff.mp (hlist v hv)).1).1
    have htxids : ((list.map (Unspent.utxo .android)).map Utxo.txid).filter
          (fun t => !Port.windows.blank t) =
        ((list.map (Unspent.utxo .android)).map Utxo.txid).filter
          (fun t => !Port.android.blank t) := by
      refine List.filter_congr fun t ht => ?_
      obtain ⟨u, hu, rfl⟩ := List.mem_map.mp ht
      rw [hblank u hu]
    have husable : (list.map (Unspent.utxo .android)).filter
          (fun u => decide (0 ≤ u.vout) && !Port.windows.blank u.txid) =
        (list.map (Unspent.utxo .android)).filter
          (fun u => decide (0 ≤ u.vout) && !Port.android.blank u.txid) :=
      List.filter_congr fun u hu => by rw [hblank u hu]
    dsimp only
    rw [hraw, htxids, husable]
    exact (twin_generatedFlags _).bind fun flags => twin_pure _

theorem twin_gatherCandidates (facts : Option AddressFacts) :
    Twin i F (gatherCandidates .windows facts) (gatherCandidates .android facts) := by
  unfold gatherCandidates
  split
  · exact twin_vettedCandidates
  · exact twin_pure _

end Gather

section Sending

variable {i : Inputs}

def Built.plain (b : Built) : Prop := plainText b.hex = true ∧ plainText b.txid = true

theorem asBuilt_plain {r : Option BuiltTx} (h : r.all BuiltTx.plain = true) : (asBuilt r).plain := by
  cases r with
  | none => exact ⟨rfl, rfl⟩
  | some b => exact Bool.and_eq_true_iff.mp h

theorem agree_build (kind : SweepKind) (inputs : List Utxo) (destination : String) :
    (ported i).Agree (On anywhere) (fun a b t => (a = b ∧ a.plain) ∧ On anywhere t)
      (build kind inputs destination) (build kind inputs destination) := by
  have hreply : ∀ (r : Option BuiltTx) (hr : r.all BuiltTx.plain = true),
      (ported i).Agree (On anywhere) (fun a b t => (a = b ∧ a.plain) ∧ On anywhere t)
        (pure (asBuilt r) : Engine Built) (pure (asBuilt r)) :=
    fun r hr => agree_done fun _ ht => ⟨⟨rfl, asBuilt_plain hr⟩, ht⟩
  cases kind with
  | sweep =>
    refine agree_call (G := anywhere) (fun _ _ _ => trivial) fun reply ⟨a, r, _, hplain⟩ =>
      hreply reply ?_
    cases reply <;> exact hplain
  | probe =>
    refine agree_call (G := anywhere) (fun _ _ _ => trivial) fun reply ⟨a, r, _, hplain⟩ =>
      hreply reply ?_
    cases reply <;> exact hplain

theorem twin_annotate (destination : String) {out : DecodedOut} (h : plainText out.address = true) :
    Twin i anywhere (annotate .windows destination out) (annotate .android destination out) := by
  unfold annotate
  rw [blank_eq h]
  split
  · exact twin_pure _
  · refine agree_ask (fun _ _ h => h) fun reply _ => ?_
    match reply with
    | .ok (some info) => exact twin_pure _
    | .ok none => exact twin_pure _
    | .error _ => exact twin_pure _

theorem twin_annotateChange (destination : String) {outs : List DecodedOut}
    (h : ∀ out ∈ outs, plainText out.address = true) :
    Twin i anywhere (annotateChange .windows destination outs)
      (annotateChange .android destination outs) := by
  induction outs with
  | nil => exact twin_pure _
  | cons out outs ih =>
    refine (twin_annotate destination (h out List.mem_cons_self)).bind fun out => ?_
    exact (ih fun out hout => h out (List.mem_cons_of_mem _ hout)).bind fun rest => twin_pure _

theorem twin_decodeBuilt (kind : SweepKind) (destination hex : String) :
    Twin i anywhere (decodeBuilt .windows kind destination hex)
      (decodeBuilt .android kind destination hex) := by
  refine agree_bind (agree_decode hex) fun decoded hdecoded => ?_
  cases kind with
  | sweep => exact twin_pure _
  | probe => exact (twin_annotateChange destination hdecoded).bind fun outs => twin_pure _

theorem twin_testAccept (hex : String) :
    Twin i anywhere (testAccept .windows hex) (testAccept .android hex) := by
  refine agree_ask (fun _ _ h => h) fun reply ⟨a, r, _, hplain⟩ => ?_
  match reply with
  | .ok (some a) =>
    dsimp only
    split
    · exact twin_pure _
    next hallowed =>
      have hreason : plainText (text a.rejectReason) = true := by
        simpa [plainReply, hallowed] using hplain
      rw [blank_eq hreason]
      split <;> exact twin_pure _
  | .ok none => exact twin_pure _
  | .error e => cases hplain

theorem twin_abort (why : String) : Twin i anywhere (abort .windows why) (abort .android why) :=
  (twin_write rfl).bind fun _ => twin_publish _

theorem twin_refuse (kind : SweepKind) (complaint why : String) :
    Twin i anywhere (refuse .windows kind complaint why) (refuse .android kind complaint why) :=
  agree_log (fun _ _ _ => trivial) fun _ => ⟨rfl, twin_abort why⟩

theorem twin_lock : Twin i anywhere (Routine.act .lock .done) (Routine.act .lock .done) :=
  twin_pass (a := .lock) () (fun _ _ => rfl) (twin_pure ())

theorem twin_unlock : Twin i anywhere (Routine.act .unlock .done) (Routine.act .unlock .done) :=
  twin_pass (a := .unlock) () (fun _ _ => rfl) (twin_pure ())

theorem twin_commit (r : SweepRecord) (expected : ForwardState) :
    Twin i anywhere (commit .windows r expected) (commit .android r expected) := by
  refine twin_lock.bind fun _ => agree_read fun v w hvw => ?_
  have haddress : v.address = w.address := (congrArg Store.address hvw :)
  have hstate : v.state = w.state := (congrArg Store.state hvw :)
  simp only [haddress, hstate]
  split
  · exact (twin_assign rfl).bind fun _ => twin_unlock.bind fun _ => twin_pure _
  · exact (twin_abort _).bind fun _ => twin_unlock.bind fun _ => twin_pure _

theorem twin_send (r : SweepRecord) : Twin i anywhere (send .windows r) (send .android r) := by
  refine (twin_lockunspent false _ _).bind fun _ => agree_ask (fun _ _ h => h) fun reply _ => ?_
  cases reply with
  | error e =>
    exact (twin_writeRecord _).bind fun _ => (twin_publishPending _ _).bind fun _ => agree_fail _ _
  | ok returned =>
    dsimp only
    split
    · exact (twin_writeRecord _).bind fun _ => twin_publishPending _ _
    · exact twin_nowMs.bind fun now => (twin_assign rfl).bind fun _ => twin_publishPending _ _

theorem twin_commitAndSend (r : SweepRecord) (expected : ForwardState) :
    Twin i anywhere (commitAndSend .windows r expected) (commitAndSend .android r expected) := by
  refine agree_log (G := anywhere) (fun _ _ _ => trivial) fun _ => ⟨rfl, ?_⟩
  refine (twin_commit r expected).bind fun committed => ?_
  split
  · exact twin_send r
  · exact twin_pure ()

theorem twin_vet (kind : SweepKind) (inputs : List Utxo) (destination script : String)
    (expected : ForwardState) (now : Int) (built : Built) :
    Twin i anywhere (vet .windows kind inputs destination script expected now built)
      (vet .android kind inputs destination script expected now built) := by
  refine (twin_decodeBuilt kind destination built.hex).bind fun decoded => ?_
  split
  · exact twin_refuse _ _ _
  · refine (twin_testAccept built.hex).bind fun rejection => ?_
    cases rejection with
    | some rejection => exact twin_refuse _ _ _
    | none => exact twin_commitAndSend _ expected

/-- Both engines build the same transaction, and accept or refuse it alike. -/
theorem twin_buildAndSend (kind : SweepKind) (inputs : List Utxo) (destination script : String)
    (expected : ForwardState) :
    Twin i anywhere (buildAndSend .windows kind inputs destination script expected)
      (buildAndSend .android kind inputs destination script expected) := by
  unfold buildAndSend
  split
  · exact twin_pure ()
  · refine twin_nowMs.bind fun now => agree_bind (agree_build kind inputs destination)
      fun built hbuilt => ?_
    rw [blank_eq hbuilt.1, blank_eq hbuilt.2]
    split
    · exact twin_refuse _ _ _
    · exact twin_vet kind inputs destination script expected now built

end Sending

section Evaluation

variable {i : Inputs}

theorem twin_applyPendingAddress :
    Twin i anywhere (applyPendingAddress .windows) (applyPendingAddress .android) := by
  refine agree_read fun v w hvw => ?_
  have hpending : v.pendingAddress = w.pendingAddress := (congrArg Store.pendingAddress hvw :)
  simp only [hpending]
  split
  · exact twin_pure ()
  · exact twin_assign rfl

theorem twin_arm (state : ForwardState) : Twin i anywhere (arm state) (arm state) := by
  unfold arm
  split
  · refine agree_read fun v w hvw => ?_
    have hconfirmed : v.probeConfirmed = w.probeConfirmed := (congrArg Store.probeConfirmed hvw :)
    simp only [hconfirmed]
    split
    · exact (twin_write rfl).bind fun _ => twin_pure _
    · exact twin_pure _
  · exact twin_pure _

theorem twin_carryOut (d : ForwardDecision) (candidates : List Utxo) (destination script : String)
    (state : ForwardState) :
    Twin i anywhere (carryOut .windows d candidates destination script state)
      (carryOut .android d candidates destination script state) := by
  refine agree_log (G := anywhere) (fun _ _ _ => trivial) fun _ => ⟨rfl, ?_⟩
  split
  · exact twin_publish _
  · exact twin_buildAndSend _ _ _ _ _
  · exact twin_buildAndSend _ _ _ _ _

theorem twin_consider (stats : NodeStats) (loaded alive : Bool) (state : ForwardState)
    (destination : String) :
    Twin i anywhere (consider .windows stats loaded alive state destination)
      (consider .android stats loaded alive state destination) :=
  (twin_gatherLoaded loaded).bind fun walletLoaded =>
    (twin_gatherFacts walletLoaded destination).bind fun facts =>
      (twin_gatherCandidates facts).bind fun _ => twin_nowMs.bind fun _ =>
        twin_relayPeers.bind fun _ => twin_carryOut _ _ _ _ _

theorem twin_considerArmed (stats : NodeStats) (loaded alive : Bool) (state : ForwardState) :
    Twin i anywhere (considerArmed .windows stats loaded alive state)
      (considerArmed .android stats loaded alive state) := by
  refine (twin_arm state).bind fun state => agree_read fun v w hvw => ?_
  have haddress : v.address = w.address := (congrArg Store.address hvw :)
  simp only [haddress]
  split
  · exact (twin_write rfl).bind fun _ => twin_publish _
  · exact twin_consider stats loaded alive state _

theorem twin_proceed (stats : NodeStats) (loaded alive : Bool) :
    Twin i anywhere (proceed .windows stats loaded alive) (proceed .android stats loaded alive) := by
  refine twin_applyPendingAddress.bind fun _ => agree_read fun v w hvw => ?_
  have hstate : v.state = w.state := (congrArg Store.state hvw :)
  simp only [hstate]
  split
  · exact twin_publish _
  · exact twin_considerArmed stats loaded alive _

theorem twin_evaluate (stats : NodeStats) (loaded alive : Bool) :
    Twin i anywhere (evaluate .windows stats loaded alive) (evaluate .android stats loaded alive) := by
  refine twin_readRecord.bind fun r => ?_
  match r with
  | none => exact twin_publish _
  | some none => exact twin_proceed stats loaded alive
  | some (some r) =>
    dsimp only
    split
    · exact twin_clearRecord.bind fun _ => twin_proceed stats loaded alive
    · exact twin_resolveRecord r

theorem exec_failed (port : Port) (e : Failure) (s : Course) :
    (failed port e).exec (Course.answer port i) s =
      (.ok (), { s with store := s.store.batch [.lastError (shorten e.message),
        .consecutiveFailures (s.store.consecutiveFailures + 1)] }) := by
  unfold failed
  generalize shorten e.message = why
  cases port <;> rfl

/-- Both engines count a failure, whatever each says of it. -/
theorem twin_failed (e e' : Failure) : Twin i anywhere (failed .windows e) (failed .android e') := by
  refine twin_of_exec
    (f := fun s => s.batch [.lastError (shorten e.message),
      .consecutiveFailures (s.consecutiveFailures + 1)])
    (g := fun s => s.batch [.lastError (shorten e'.message),
      .consecutiveFailures (s.consecutiveFailures + 1)])
    (exec_failed .windows e) (exec_failed .android e') fun v w hvw => ?_
  have hfailures : v.consecutiveFailures = w.consecutiveFailures :=
    (congrArg Store.consecutiveFailures hvw :)
  rw [hfailures]
  exact intent_batch_eq hvw (by simp only [List.filter, Field.matters])

theorem twin_runEvaluation (needed : Bool) (stats : NodeStats) (loaded alive : Bool) :
    Twin i anywhere (runEvaluation .windows needed stats loaded alive)
      (runEvaluation .android needed stats loaded alive) := by
  refine Agree.attempt ?_ fun e e' => (twin_failed e e' : Twin i anywhere _ _)
  exact twin_reload.bind fun _ => (twin_reconcileIf needed loaded).bind fun _ =>
    (twin_evaluate stats loaded alive).bind fun _ => twin_write rfl

end Evaluation

/-- What the service's control loop and the user do, in their order. -/
inductive Signal
  | tick (stats : NodeStats) (loaded alive : Bool)
  | nodeReady (loaded : Bool)
  | nodeLost
  | order (o : Order)

namespace Course

/-- A pass that a tick has claimed, for a height at a time. -/
def claimed (s : Course) (height now : Int) : Course :=
  { s with forced := false, lastHeight := height, lastMs := now, passing := true }

def evaluated (port : Port) (i : Inputs) (s : Course) (stats : NodeStats) (loaded alive : Bool)
    (now : Int) : Course :=
  ((runEvaluation port (!s.reconciled || s.requested) stats loaded alive).exec (answer port i)
    (s.claimed stats.height now)).2

/-- A tick that has read the clock. -/
def ticked (port : Port) (i : Inputs) (s : Course) (stats : NodeStats) (loaded alive : Bool)
    (now : Int) : Course :=
  if shouldEvaluate port stats.height s.lastHeight now s.lastMs s.forced then
    s.evaluated port i stats loaded alive now
  else s

def timed (s : Course) : Course := { s with clocks := s.clocks + 1 }

/-- One tick of the control loop. -/
def onTick (port : Port) (i : Inputs) (s : Course) (stats : NodeStats) (loaded alive : Bool) :
    Course :=
  if alive then s.timed.ticked port i stats loaded alive (i.clock s.clocks) else s

def lost (s : Course) : Course := { s with reconciled := false }

def started (s : Course) : Course := { s.lost with lastHeight := -1, lastMs := 0, passing := false }

/-- The end of a bring-up of the node. -/
def ready (port : Port) (i : Inputs) (s : Course) (loaded : Bool) : Course :=
  ((onNodeReady port loaded).exec (answer port i) s.started).2

def meet (port : Port) (i : Inputs) (s : Course) : Signal → Course
  | .tick stats loaded alive => s.onTick port i stats loaded alive
  | .nodeReady loaded => s.ready port i loaded
  | .nodeLost => s.lost
  | .order o => s.ordered port o

def run (port : Port) (i : Inputs) (s : Course) (events : List Signal) : Course :=
  events.foldl (meet port i) s

variable {i : Inputs} {s t : Course}

/-- Two programs that end alike leave their engines alike. -/
theorem intent_of_twin {p q : Engine Unit} (h : Twin i anywhere p q) (hst : s.intent = t.intent)
    (hplain : (q.exec (answer .android i) t).2.plain = true) :
    (p.exec (answer .windows i) s).2.intent = (q.exec (answer .android i) t).2.intent := by
  have hends := h s t hst trivial hplain
  revert hends
  change (ported i).Ends (Same anywhere) (p.exec (answer .windows i) s)
    (q.exec (answer .android i) t) → _
  generalize p.exec (answer .windows i) s = x
  generalize q.exec (answer .android i) t = y
  match x, y with
  | (.ok _, s), (.ok _, t) => exact fun h => h.2
  | (.error _, s), (.error _, t) => exact fun h => h
  | (.ok _, _), (.error _, _) => exact fun h => h.elim
  | (.error _, _), (.ok _, _) => exact fun h => h.elim

theorem plain_of_ready {loaded : Bool} (h : (t.ready .android i loaded).plain = true) :
    t.plain = true :=
  kept_exec (E := ported i) (t := t.started) (onNodeReady .android loaded) h

theorem plain_of_ticked {stats : NodeStats} {loaded alive : Bool} {now : Int}
    (h : (t.ticked .android i stats loaded alive now).plain = true) : t.plain = true := by
  unfold ticked at h
  split at h
  · exact kept_exec (E := ported i) (t := t.claimed stats.height now)
      (runEvaluation .android (!t.reconciled || t.requested) stats loaded alive) h
  · exact h

theorem plain_of_meet (e : Signal) (h : (t.meet .android i e).plain = true) : t.plain = true := by
  cases e with
  | tick stats loaded alive =>
    cases alive with
    | false => exact h
    | true => exact plain_of_ticked (t := t.timed) h
  | nodeReady loaded => exact plain_of_ready h
  | nodeLost => exact h
  | order o => exact h

theorem ticked_alike {stats : NodeStats} {loaded alive : Bool} {now : Int}
    (hst : s.intent = t.intent) (hplain : (t.ticked .android i stats loaded alive now).plain = true) :
    (s.ticked .windows i stats loaded alive now).intent =
      (t.ticked .android i stats loaded alive now).intent := by
  obtain ⟨store, plain, rfl, hstore⟩ := alike_iff.mp hst
  unfold ticked at hplain ⊢
  rw [shouldEvaluate_eq .windows]
  by_cases hdue : shouldEvaluate .android stats.height s.lastHeight now s.lastMs s.forced = true
  · rw [if_pos hdue] at hplain ⊢
    rw [if_pos hdue]
    exact intent_of_twin (twin_runEvaluation (!s.reconciled || s.requested) stats loaded alive)
      (alike_iff.mpr ⟨store, plain, rfl, hstore⟩) hplain
  · rw [if_neg hdue, if_neg hdue]
    exact alike_iff.mpr ⟨store, plain, rfl, hstore⟩

/-- One signal leaves alike courses alike. -/
theorem meet_alike (e : Signal) (hst : s.intent = t.intent)
    (hplain : (t.meet .android i e).plain = true) :
    (s.meet .windows i e).intent = (t.meet .android i e).intent := by
  obtain ⟨store, plain, rfl, hstore⟩ := alike_iff.mp hst
  cases e with
  | tick stats loaded alive =>
    cases alive with
    | false => exact hst
    | true =>
      exact ticked_alike (s := s.timed) (alike_iff.mpr ⟨store, plain, rfl, hstore⟩) hplain
  | nodeReady loaded =>
    exact intent_of_twin (s := s.started) (twin_onNodeReady loaded)
      (alike_iff.mpr ⟨store, plain, rfl, hstore⟩) hplain
  | nodeLost => exact alike_iff.mpr ⟨store, plain, rfl, hstore⟩
  | order o => exact ordered_alike hst o

theorem plain_of_run (events : List Signal) (h : (t.run .android i events).plain = true) :
    t.plain = true := by
  induction events generalizing t with
  | nil => exact h
  | cons e events ih => exact plain_of_meet e (ih h)

theorem run_alike (events : List Signal) (hst : s.intent = t.intent)
    (hplain : (t.run .android i events).plain = true) :
    (s.run .windows i events).intent = (t.run .android i events).intent := by
  induction events generalizing s t with
  | nil => exact hst
  | cons e events ih => exact ih (meet_alike e hst (plain_of_run events hplain)) hplain

end Course

/-- Where the phone's engine has read alike all that it was answered, the tray's engine, from a
store that says the same, has decided the same and stored the same at every point of the run. -/
theorem decided_alike (i : Inputs) (events : List Signal) (v w : Store) (hvw : v.intent = w.intent)
    (hplain : (Course.run .android i { store := w } events).plain = true) (past : List Signal)
    (hpast : past <+: events) :
    (Course.run .windows i { store := v } past).decided =
        (Course.run .android i { store := w } past).decided ∧
      (Course.run .windows i { store := v } past).store.intent =
        (Course.run .android i { store := w } past).store.intent := by
  obtain ⟨rest, rfl⟩ := hpast
  rw [Course.run, List.foldl_append] at hplain
  have hfirst : (Course.run .android i { store := w } past).plain = true :=
    Course.plain_of_run rest hplain
  have halike := Course.run_alike (s := { store := v }) past
    (Course.alike_iff.mpr ⟨w, true, rfl, hvw⟩) hfirst
  exact ⟨(congrArg Course.decided halike :), (congrArg Course.store halike :)⟩

/-- A machine that forwards, with a transaction under way. -/
def armedAt (record : Blob) : Store :=
  { address := "pc1q", state := .armed, probeConfirmed := true, record := record }

def underWay : SweepRecord where
  txid := "aa"
  hex := "00"
  inputs := [⟨"bb", 0⟩]
  amountSat := 500000000
  feeSat := 200
  address := "pc1q"
  state := .accepted
  kind := .sweep
  createdAtMs := 1
  broadcastAtMs := 1

/-- The transaction is in the chain six blocks deep, and the wallet has nothing to spend. -/
def settledAnswers : (c : Call) → Except Failure c.Reply
  | .gettransaction _ _ => .ok (some ⟨some 6, some "00"⟩)
  | .lockunspent _ _ => .ok ()
  | .getwalletinfo => .ok (some ())
  | .validateaddress _ => .ok (some ⟨some true, some true, some 0, some "0014"⟩)
  | .getaddressinfo _ => .ok (some ⟨some false, some false⟩)
  | .listunspent => .ok (some [])
  | .getpeerinfo => .ok (some [⟨some true, some "outbound-full-relay"⟩])
  | _ => .error { message := "no answer" }

def settledInputs : Inputs := ⟨fun _ => settledAnswers, fun n => 1000 * n, fun _ => []⟩

def firstPass : List Signal := [.nodeReady true, .tick ⟨100, 100, false, 1⟩ true true]

/-- The bring-up settles the record, the pass after it finds nothing to send, and the phone and
the tray agree on both. -/
theorem decided_alike_settled :
    (Course.run .windows settledInputs
        { store := { armedAt (.record underWay) with lastError := "old" } } firstPass).decided =
      (Course.run .android settledInputs { store := armedAt (.record underWay) } firstPass).decided ∧
    (Course.run .android settledInputs { store := armedAt (.record underWay) }
        firstPass).decided.length = 2 :=
  ⟨(decided_alike settledInputs firstPass { armedAt (.record underWay) with lastError := "old" }
    (armedAt (.record underWay)) rfl (by decide +kernel) firstPass (List.prefix_refl _)).1,
    by decide +kernel⟩

/-- The wallet lists a send without its confirmations. -/
def listedAnswers : (c : Call) → Except Failure c.Reply
  | .listtransactions => .ok (some [⟨some "send", none, none, some "aa"⟩])
  | .gettransaction _ _ => .ok (some ⟨none, some "00"⟩)
  | .decoderawtransaction _ =>
    .ok (some ⟨some "aa", [⟨some "bb", some 0⟩], [⟨some "pc1q", some "0014", some 5⟩]⟩)
  | .getaddressinfo _ => .ok (some ⟨some false, some false⟩)
  | .listlockunspent => .ok (some [])
  | _ => .error { message := "no answer" }

def listedInputs : Inputs := ⟨fun _ => listedAnswers, fun n => 1000 * n, fun _ => []⟩

/-- At a bring-up the phone takes a listed send without confirmations for one under way, and
the tray takes it for one in the chain. -/
theorem decided_apart :
    (Course.run .android listedInputs { store := armedAt .empty }
        [.nodeReady true]).store.record.inFlight = true ∧
      (Course.run .windows listedInputs { store := armedAt .empty }
        [.nodeReady true]).store.record.inFlight = false ∧
      (Course.run .windows listedInputs { store := armedAt .empty } [.nodeReady true]).decided ≠
        (Course.run .android listedInputs { store := armedAt .empty } [.nodeReady true]).decided := by
  decide +kernel

end pcoin.forward
