import PCoin.Forward.OneTray

namespace pcoin.forward

open run Routine Surroundings

/-- The address that the user wants, the queued one if there is one. It is empty after a stop. -/
def Store.wanted (s : Store) : String := if s.pendingAddress = "" then s.address else s.pendingAddress

/-- What the user wants of `f` stands in `g`: the address, and a stop. -/
structure Stands (f g : Store) : Prop where
  wanted : g.wanted = f.wanted
  stopped : f.wanted = "" → f.state = .holding → g.state = .holding

/-- A setter that leaves the addresses as they are. -/
def Field.unaddressed : Field → Bool
  | address _ => false
  | pendingAddress _ => false
  | _ => true

/-- A setter that leaves what the user wants as it is. -/
def Field.bystands : Field → Bool
  | state _ => false
  | f => f.unaddressed

theorem Field.bystands.unaddressed {f : Field} (h : f.bystands = true) : f.unaddressed = true := by
  cases f <;> first | rfl | cases h

theorem Store.batch_wanted {fs : List Field} (h : ∀ f ∈ fs, f.unaddressed = true) (s : Store) :
    (s.batch fs).address = s.address ∧ (s.batch fs).pendingAddress = s.pendingAddress := by
  constructor
  · obtain hkept | hset := Store.batch_mem (p := Store.address) (c := Field.address)
      (fun s f => by cases f <;> first | exact .inl rfl | exact .inr rfl) s fs
    · exact hkept
    · cases h _ hset
  · obtain hkept | hset := Store.batch_mem (p := Store.pendingAddress) (c := Field.pendingAddress)
      (fun s f => by cases f <;> first | exact .inl rfl | exact .inr rfl) s fs
    · exact hkept
    · cases h _ hset

theorem Store.batch_state_mem (s : Store) (fs : List Field) :
    (s.batch fs).state = s.state ∨ .state (s.batch fs).state ∈ fs := by
  refine Store.batch_mem (p := Store.state) (c := Field.state) (fun s f => ?_) s fs
  cases f <;> first | exact .inl rfl | exact .inr rfl

theorem Stands.of_wanted {f g : Store} (haddress : g.address = f.address)
    (hpending : g.pendingAddress = f.pendingAddress)
    (hstate : f.state = .holding → g.state = .holding) : Stands f g := by
  refine ⟨?_, fun _ => hstate⟩
  rw [Store.wanted, Store.wanted, haddress, hpending]

/-- A batch stands, if it sets no address and, of a store that is on hold, no other state. -/
theorem stands_batch {s : Store} {fs : List Field} (h : ∀ f ∈ fs, f.unaddressed = true)
    (hstate : s.state = .holding → ∀ st, .state st ∈ fs → st = .holding) : Stands s (s.batch fs) := by
  obtain ⟨haddress, hpending⟩ := Store.batch_wanted h s
  refine .of_wanted haddress hpending fun hholding => ?_
  obtain hkept | hset := s.batch_state_mem fs
  · exact hkept.trans hholding
  · exact hstate hholding _ hset

/-- What the user wants is the same in both memories. -/
def SameWish (v w : View) : Prop :=
  w.store.address = v.store.address ∧ w.store.pendingAddress = v.store.pendingAddress ∧
    w.store.state = v.store.state

theorem SameWish.trans {u v w : View} (hu : SameWish u v) (hv : SameWish v w) : SameWish u w :=
  ⟨hv.1.trans hu.1, hv.2.1.trans hu.2.1, hv.2.2.trans hu.2.2⟩

/-- The memory of a tray whose user changes nothing of what is wanted. No write of its engine changes
that either. -/
def Willed : Surroundings Act Act.Reply View where
  step := Free.step
  rely _ := SameWish
  wait _ _ := True
  meet
    | v, .write fs, _ => Stands v.store (v.assign fs).store
    | _, _, _ => True

variable {α : Type} {v : View}

/-- The engine leaves what the user wants as it is, whatever it ends with. -/
def Wills (p : Engine α) (v : View) : Prop := Willed.Ensures (fun _ _ => True) (fun _ _ => True) p v

/-- The actions that change nothing of what is wanted. -/
def Act.Bystands : Act → Prop
  | write fs => ∀ f ∈ fs, f.bystands = true
  | reload => False
  | _ => True

theorem Act.Shows.bystands {a : Act} (h : a.Shows) : a.Bystands := by
  cases a with
  | write fs =>
    intro f hf
    have hdisplay := h f hf
    cases f <;> first | rfl | cases hdisplay
  | reload => cases h
  | _ => trivial

theorem bystands_of_asks {p : Engine α} (hp : p.Only Act.Asks) : p.Only Act.Bystands :=
  (shows_of_asks hp).mono fun _ => Act.Shows.bystands

theorem SameWish.assign {w : View} (h : SameWish v w) {fs : List Field}
    (hfs : ∀ f ∈ fs, f.bystands = true) : SameWish v (w.assign fs) := by
  obtain ⟨haddress, hpending⟩ :=
    Store.batch_wanted (fun f hf => Field.bystands.unaddressed (hfs f hf)) w.store
  obtain ⟨hv, hvpending, hvstate⟩ := h
  refine ⟨haddress.trans hv, hpending.trans hvpending, ?_⟩
  obtain hkept | hset := w.store.batch_state_mem fs
  · exact hkept.trans hvstate
  · cases hfs _ hset

/-- Actions that change nothing of what is wanted leave it as it was. -/
theorem willed_of_bystands {p : Engine α} (hp : p.Only Act.Bystands) :
    Willed.Ensures (fun _ => SameWish v) (fun _ => SameWish v) p v := by
  refine ensures_of_only hp (fun a s t _ hs h => ⟨hs.trans h, trivial⟩) (fun s a r t ha hs hstep => ?_)
    ⟨rfl, rfl, rfl⟩
  cases a with
  | write fs =>
    obtain rfl := hstep
    refine ⟨stands_batch (fun f hf => Field.bystands.unaddressed (ha f hf)) fun _ st hst => ?_,
      hs.assign ha⟩
    cases ha _ hst
  | read =>
    obtain ⟨-, rfl⟩ := hstep
    exact ⟨trivial, hs⟩
  | reload => exact ha.elim
  | call | now | lock | unlock | reconciled | publish | log =>
    obtain rfl := hstep
    exact ⟨trivial, hs⟩

theorem wills_of_bystands {p : Engine α} (hp : p.Only Act.Bystands) (v : View) : Wills p v :=
  (willed_of_bystands hp).mono (fun _ _ _ => trivial) fun _ _ _ => trivial

theorem wills_of_shows {p : Engine α} (hp : p.Only Act.Shows) (v : View) : Wills p v :=
  wills_of_bystands (hp.mono fun _ => Act.Shows.bystands) v

theorem Wills.bind {β : Type} {p : Engine α} {f : α → Engine β} (hp : Wills p v)
    (hf : ∀ a w, Wills (f a) w) : Wills (p >>= f) v :=
  Ensures.bind hp fun a w _ => hf a w

/-- What is read is what the memory holds then. -/
theorem willed_read {β : Type} {post : β → View → Prop} {f : View → Engine β}
    (hf : ∀ w, SameWish v w → Willed.Ensures post (fun _ _ => True) (f w) w) :
    Willed.Ensures post (fun _ _ => True) (read >>= f) v := by
  intro t ht
  refine ⟨trivial, ?_⟩
  rintro w u ⟨rfl, rfl⟩
  exact ⟨trivial, hf _ ht⟩

theorem wills_read {f : View → Engine α} (hf : ∀ w, SameWish v w → Wills (f w) w) :
    Wills (read >>= f) v :=
  willed_read hf

theorem wills_write {fs : List Field}
    (h : ∀ w, SameWish v w → Stands w.store (w.assign fs).store) : Wills (write fs) v := by
  intro t ht
  refine ⟨trivial, ?_⟩
  rintro ⟨⟩ u rfl
  exact ⟨h t ht, trivial⟩

theorem bystands_write {fs : List Field} (h : ∀ f ∈ fs, f.bystands = true) :
    (write fs).Only Act.Bystands :=
  ⟨h, fun _ => trivial⟩

section Resolution

variable {r : SweepRecord}

theorem bystands_publishPending (r : SweepRecord) (confirmations : Int) :
    (publishPending .windows r confirmations).Only Act.Bystands :=
  (publishPending_shows .windows r confirmations).mono fun _ => Act.Shows.bystands

theorem bystands_writeRecord (r : SweepRecord) : (writeRecord r).Only Act.Bystands :=
  bystands_write (by simp [Field.bystands, Field.unaddressed])

theorem bystands_writeIf (c : Bool) (r : SweepRecord) :
    (writeIf c [.record (.record r)]).Only Act.Bystands := by
  unfold writeIf
  split
  · exact bystands_writeRecord r
  · trivial

/-- A probe that landed is not what a store on hold waits for. -/
theorem wills_settleProbe : Wills (settleProbe .windows r) v := by
  refine wills_read fun w _ => wills_write fun t ht =>
    stands_batch (fun f hf => ?_) fun hholding st hst => ?_
  · simp only [List.mem_append] at hf
    obtain (hf | hf) | hf := hf
    · split at hf <;> simp_all [Field.unaddressed]
    · split at hf <;> simp_all [Field.unaddressed]
    · simp_all [Field.unaddressed]
  · have hstate : w.store.state = .holding := ht.2.2.symm.trans hholding
    simp only [List.mem_append] at hst
    obtain (hst | hst) | hst := hst
    · split at hst <;> simp at hst
    · split at hst
      · rename_i hpending
        rw [hstate] at hpending
        cases hpending
      · cases hst
    · simp at hst

theorem wills_settle : Wills (settle .windows r) v := by
  refine (wills_of_bystands (bystands_of_asks (unlockInputs_asks .windows r.inputs)) v).bind
    fun _ w => Wills.bind ?_ fun _ w => ?_
  · unfold settled
    split
    · refine (wills_of_bystands (p := nowMs) ⟨trivial, fun _ => trivial⟩ w).bind fun now w => ?_
      exact wills_of_bystands (bystands_write (by simp [Field.bystands, Field.unaddressed])) w
    · exact wills_settleProbe
  · exact (wills_of_bystands (bystands_write (by simp [Field.bystands, Field.unaddressed])) w).bind
      fun _ w => wills_of_shows (publish_shows _ _) w

/-- Nor is the test payment that was dropped. -/
theorem wills_dropConflicted : Wills (dropConflicted .windows r) v := by
  refine (wills_of_bystands (bystands_of_asks (unlockInputs_asks .windows r.inputs)) v).bind
    fun _ w => Wills.bind ?_ fun _ w => wills_of_shows (publish_shows _ _) w
  refine wills_read fun w _ => wills_write fun t ht =>
    stands_batch (fun f hf => ?_) fun hholding st hst => ?_
  · simp only [List.mem_append] at hf
    obtain (hf | hf) | hf := hf
    · simp_all [Field.unaddressed]
    · split at hf
      · simp only [dropProbe, List.mem_cons, List.not_mem_nil, or_false] at hf
        obtain rfl | rfl | rfl := hf <;> rfl
      · cases hf
    · simp_all [Field.unaddressed]
  · have hawaited : r.awaited w.store = false := by
      simp [SweepRecord.awaited, ht.2.2.symm.trans hholding]
    simp [hawaited] at hst

theorem wills_rebroadcast {again : SweepRecord → Engine Unit} (hagain : ∀ r w, Wills (again r) w)
    (now : Int) : Wills (rebroadcast .windows r now again) v := by
  refine (wills_of_bystands (bystands_writeRecord _) v).bind fun _ w => ?_
  refine (wills_of_bystands (p := ask (.sendrawtransaction r.hex)) ⟨trivial, fun _ => trivial⟩ w).bind
    fun reply w => ?_
  cases reply with
  | ok _ =>
    exact (wills_of_bystands (bystands_writeRecord _) w).bind fun _ w =>
      wills_of_bystands (bystands_publishPending _ _) w
  | error e =>
    dsimp only
    split
    · exact hagain _ w
    · split
      · trivial
      · exact (wills_of_bystands (bystands_writeRecord _) w).bind fun _ w =>
          wills_of_bystands (bystands_publishPending _ _) w

theorem wills_resolveOnce {again : SweepRecord → Engine Unit} (hagain : ∀ r w, Wills (again r) w) :
    Wills (resolveOnce .windows again r) v := by
  refine (wills_of_bystands (bystands_of_asks (observe_asks .windows r.txid)) v).bind fun obs w => ?_
  refine (wills_of_bystands (p := nowMs) ⟨trivial, fun _ => trivial⟩ w).bind fun now w => ?_
  refine (wills_of_bystands (p := log _) ⟨trivial, fun _ => trivial⟩ w).bind fun _ w => ?_
  refine (wills_of_bystands (bystands_writeIf _ _) w).bind fun _ w => ?_
  cases resolve .windows obs (r.seen .windows obs) now with
  | unresolved => exact wills_of_bystands (bystands_publishPending _ _) w
  | rebroadcast => exact wills_rebroadcast hagain now
  | markBroadcast | markAccepted | markConfirmed =>
    exact (wills_of_bystands (bystands_writeIf _ _) w).bind fun _ w =>
      wills_of_bystands (bystands_publishPending _ _) w
  | markSettled => exact wills_settle
  | noteConflict =>
    exact (wills_of_bystands (bystands_writeRecord _) w).bind fun _ w =>
      wills_of_bystands (bystands_publishPending _ _) w
  | markConflicted => exact wills_dropConflicted

theorem wills_resolveRecord (left : Nat) (r : SweepRecord) (v : View) :
    Wills (resolveRecord .windows left r) v := by
  induction left generalizing r v with
  | zero =>
    exact wills_resolveOnce fun next w => wills_of_bystands (bystands_publishPending next (-1)) w
  | succ left ih => exact wills_resolveOnce ih

end Resolution

section Evaluation

theorem wills_adopt : Wills (adopt .windows) v := by
  refine (wills_of_bystands (bystands_of_asks (adoptInFlightSend_asks .windows)) v).bind
    fun found w => ?_
  cases found with
  | none => exact wills_of_bystands (bystands_of_asks (releaseStaleLocks_asks .windows)) w
  | some r =>
    refine (wills_of_bystands (p := log _) ⟨trivial, fun _ => trivial⟩ w).bind fun _ w => ?_
    exact (wills_of_bystands (bystands_writeRecord r) w).bind fun _ w =>
      wills_of_bystands (bystands_publishPending r (-1)) w

theorem wills_send {r : SweepRecord} : Wills (send .windows r) v := by
  refine (wills_of_bystands (bystands_of_asks (lockunspent_asks false _)) v).bind fun _ w => ?_
  refine (wills_of_bystands (p := ask (.sendrawtransaction r.hex)) ⟨trivial, fun _ => trivial⟩ w).bind
    fun reply w => ?_
  cases reply with
  | error e =>
    exact (wills_of_bystands (bystands_writeRecord _) w).bind fun _ w =>
      (wills_of_bystands (bystands_publishPending r (-1)) w).bind fun _ _ => trivial
  | ok returned =>
    dsimp only
    split
    · exact (wills_of_bystands (bystands_writeRecord _) w).bind fun _ w =>
        wills_of_bystands (bystands_publishPending r (-1)) w
    · refine (wills_of_bystands (p := nowMs) ⟨trivial, fun _ => trivial⟩ w).bind fun now w => ?_
      exact (wills_of_bystands (bystands_write (by simp [Field.bystands, Field.unaddressed])) w).bind
        fun _ w => wills_of_bystands (bystands_publishPending _ (-1)) w

/-- Nothing is committed that was not expected of a store that is not on hold. -/
theorem wills_commit {r : SweepRecord} {expected : ForwardState} (hexpected : expected ≠ .holding) :
    Wills (commit .windows r expected) v := by
  refine (wills_of_bystands (p := Routine.act .lock .done) ⟨trivial, fun _ => trivial⟩ v).bind
    fun _ w => wills_read fun w _ => ?_
  split
  · rename_i hintent
    refine Wills.bind (wills_write fun t ht => stands_batch (fun f hf => ?_) fun hholding => ?_)
      fun _ w => (wills_of_bystands (p := Routine.act .unlock .done) ⟨trivial, fun _ => trivial⟩ w).bind
        fun _ _ => trivial
    · unfold commitFields at hf
      split at hf
      · simp_all [Field.unaddressed]
      · simp only [List.mem_cons, List.not_mem_nil, or_false] at hf
        obtain rfl | rfl | rfl := hf <;> rfl
    · exact absurd (hintent.2.symm.trans (ht.2.2.symm.trans hholding)) hexpected
  · exact (wills_of_shows (abort_shows _ _) w).bind fun _ w =>
      (wills_of_bystands (p := Routine.act .unlock .done) ⟨trivial, fun _ => trivial⟩ w).bind
        fun _ _ => trivial

theorem wills_vet (kind : SweepKind) (inputs : List Utxo) (destination script : String)
    {expected : ForwardState} (hexpected : expected ≠ .holding) (now : Int) (built : Built) :
    Wills (vet .windows kind inputs destination script expected now built) v := by
  have hdecode := bystands_of_asks (decodeBuilt_asks .windows kind destination built.hex)
  refine (wills_of_bystands hdecode v).bind fun decoded w => ?_
  split
  · exact wills_of_shows (refuse_shows _ _ _ _) w
  · refine (wills_of_bystands (bystands_of_asks (testAccept_asks .windows built.hex)) w).bind
      fun rejection w => ?_
    split
    · exact wills_of_shows (refuse_shows _ _ _ _) w
    · refine (wills_of_bystands (p := log _) ⟨trivial, fun _ => trivial⟩ w).bind fun _ w => ?_
      refine (wills_commit hexpected).bind fun committed w => ?_
      split
      · exact wills_send
      · trivial

theorem wills_buildAndSend (kind : SweepKind) (inputs : List Utxo) (destination script : String)
    {expected : ForwardState} (hexpected : expected ≠ .holding) :
    Wills (buildAndSend .windows kind inputs destination script expected) v := by
  unfold buildAndSend
  split
  · trivial
  · refine (wills_of_bystands (p := nowMs) ⟨trivial, fun _ => trivial⟩ v).bind fun now w => ?_
    refine Wills.bind ?_ fun built w => ?_
    · refine wills_of_bystands ?_ w
      cases kind <;> exact ⟨trivial, fun reply => by cases reply <;> trivial⟩
    · split
      · exact wills_of_shows (refuse_shows _ _ _ _) w
      · exact wills_vet kind inputs destination script hexpected now built

/-- A store is armed that was sent a test payment for. -/
theorem willed_arm {state : ForwardState} (hstate : v.store.state = state) (hheld : state ≠ .holding) :
    Willed.Ensures (fun st _ => st ≠ .holding) (fun _ _ => True) (arm state) v := by
  unfold arm
  split
  · refine willed_read fun w hw => ?_
    split
    · refine Ensures.bind (m := fun _ _ => True) (wills_write fun t ht => ?_) fun _ _ _ => by
        change ForwardState.armed ≠ .holding
        decide
      refine stands_batch (by simp [Field.unaddressed]) fun hholding => ?_
      exact absurd (hstate.symm.trans (hw.2.2.symm.trans (ht.2.2.symm.trans hholding))) hheld
    · exact hheld
  · exact hheld

theorem wills_consider (stats : NodeStats) (loaded alive : Bool) {state : ForwardState}
    (hheld : state ≠ .holding) (destination : String) :
    Wills (consider .windows stats loaded alive state destination) v := by
  refine (wills_of_bystands (bystands_of_asks (gatherLoaded_asks loaded)) v).bind
    fun walletLoaded w => ?_
  have hfacts := bystands_of_asks (gatherFacts_asks .windows walletLoaded destination)
  refine (wills_of_bystands hfacts w).bind fun facts w => ?_
  refine (wills_of_bystands (bystands_of_asks (gatherCandidates_asks .windows facts)) w).bind
    fun candidates w => ?_
  refine (wills_of_bystands (p := nowMs) ⟨trivial, fun _ => trivial⟩ w).bind fun now w => ?_
  refine (wills_of_bystands (bystands_of_asks relayPeers_asks) w).bind fun peers w => ?_
  refine (wills_of_bystands (p := log _) ⟨trivial, fun _ => trivial⟩ w).bind fun _ w => ?_
  split
  · exact wills_of_shows (publish_shows _ _) w
  · exact wills_buildAndSend _ _ _ _ hheld
  · exact wills_buildAndSend _ _ _ _ hheld

/-- The queued address is what is wanted, and is taken into use. -/
theorem wills_applyPendingAddress : Wills (applyPendingAddress .windows) v := by
  refine wills_read fun w _ => ?_
  split
  · trivial
  · rename_i hqueued
    refine wills_write fun t ht => ?_
    have hpending : t.store.pendingAddress ≠ "" := ht.2.1 ▸ hqueued
    have hwanted : t.store.wanted = w.store.pendingAddress := by
      rw [Store.wanted, if_neg hpending, ht.2.1]
    exact ⟨hwanted.symm, fun hnone => absurd (hwanted.symm.trans hnone) hqueued⟩

theorem wills_proceed (stats : NodeStats) (loaded alive : Bool) :
    Wills (proceed .windows stats loaded alive) v := by
  refine wills_applyPendingAddress.bind fun _ w => wills_read fun w _ => ?_
  split
  · exact wills_of_shows (publish_shows _ _) w
  · rename_i hheld
    refine Ensures.bind (willed_arm rfl hheld) fun state w hstate => wills_read fun w _ => ?_
    split
    · refine Wills.bind (wills_write fun t _ => ?_) fun _ w => wills_of_shows (publish_shows _ _) w
      exact stands_batch (by simp [Field.unaddressed]) fun _ st hst => by simpa using hst
    · exact wills_consider stats loaded alive hstate w.store.address

theorem wills_evaluate (stats : NodeStats) (loaded alive : Bool) (v : View) :
    Wills (evaluate .windows stats loaded alive) v := by
  refine (wills_of_shows readRecord_shows v).bind fun found w => ?_
  match found with
  | none => exact wills_of_shows (publish_shows _ _) w
  | some none => exact wills_proceed stats loaded alive
  | some (some r) =>
    dsimp only
    split
    · exact (wills_of_bystands (bystands_write (by simp [Field.bystands, Field.unaddressed])) w).bind
        fun _ w => wills_proceed stats loaded alive
    · exact wills_resolveRecord _ r w

theorem wills_reconcile (loaded : Bool) (v : View) : Wills (reconcile .windows loaded) v := by
  refine wills_read fun w _ => ?_
  split
  · exact wills_of_shows (publish_shows _ _) w
  · split
    · exact (wills_of_shows (publish_shows _ _) w).bind fun _ _ => trivial
    · refine (wills_of_shows readRecord_shows w).bind fun found w => ?_
      match found with
      | none => exact wills_of_shows (publish_shows _ _) w
      | some none => exact wills_adopt
      | some (some r) =>
        dsimp only
        split
        · exact (wills_of_bystands (bystands_write (by simp [Field.bystands, Field.unaddressed])) w).bind
            fun _ w => wills_adopt
        · exact wills_resolveRecord _ r w

/-- The file is read again first, whatever it holds. -/
theorem wills_reload {p : Engine Unit} (hp : ∀ v, Wills p v) (v : View) :
    Wills (reload .windows >>= fun _ => p) v :=
  fun _ _ => ⟨trivial, fun _ u _ => ⟨trivial, hp u⟩⟩

theorem wills_runEvaluation (needed : Bool) (stats : NodeStats) (loaded alive : Bool) (v : View) :
    Wills (runEvaluation .windows needed stats loaded alive) v := by
  refine Ensures.attempt (m := fun _ _ => True) (wills_reload (fun v => ?_) v)
    fun e w _ => wills_of_shows (failed_shows _ e) w
  refine Wills.bind ?_ fun _ w => (wills_evaluate stats loaded alive w).bind fun _ w =>
    wills_of_shows (write_shows (by simp)) w
  unfold reconcileIf
  split
  · exact (wills_reconcile loaded v).bind fun _ w =>
    wills_of_bystands (p := Routine.act .reconciled .done) ⟨trivial, fun _ => trivial⟩ w
  · trivial

theorem wills_onNodeReady (loaded : Bool) (v : View) : Wills (onNodeReady .windows loaded) v := by
  refine Ensures.attempt (m := fun _ _ => True) (wills_reload (fun v => ?_) v)
    fun e w _ => wills_of_shows (publish_shows _ _) w
  exact (wills_reconcile loaded v).bind fun _ w =>
    wills_of_bystands (p := Routine.act .reconciled .done) ⟨trivial, fun _ => trivial⟩ w

end Evaluation

theorem Wills.rely {p : Engine Unit} {w : View} (h : Wills p v) (hw : SameWish v w) : Wills p w :=
  Ensures.relies (fun _ _ hu => hw.trans hu) h

/-- The user sets an address, or a stop. -/
def Edit.sets : Edit → Bool
  | storeAddress _ => true
  | stopForwarding => true
  | _ => false

/-- The other edits change nothing of what is wanted. -/
theorem Edit.bystands {e : Edit} (h : e.sets = false) (s : Store) :
    ∀ f ∈ e.fields s, f.bystands = true := by
  cases e with
  | storeAddress | stopForwarding => cases h
  | shown | clearStuckRecord | acknowledgeProbe =>
    simp [Edit.fields, Field.bystands, Field.unaddressed]

namespace pair

/-- Two trays over one file. With `guarded`, both have the mutex `Global\PCoinForwardEngine`. -/
structure State where
  trays : Bool → Tray := fun _ => {}
  file : Option Store
  guarded : Bool
  /-- The tray has read or saved the file, and the other has saved nothing since. -/
  fresh : Bool → Bool := fun _ => false
  /-- The tray in which an address was last set, or a stop. -/
  setBy : Option Bool := none

/-- An event of one of the trays. -/
structure Event where
  who : Bool
  what : forward.Event

def starts : forward.Event → Bool
  | .evaluate _ _ _ _ => true
  | .nodeReady _ => true
  | _ => false

def sets : forward.Event → Bool
  | .edit e => e.sets
  | _ => false

/-- The tray of an event that saves nothing has the file in memory after it. -/
def State.knows (s : State) (e : Event) : Bool :=
  match e.what with
  | .launch reads => reads || s.file.isNone
  | .exit => false
  | .resume o => match (s.trays e.who).running with
    | some (.act .reload _) => o.reads || s.file.isNone || s.fresh e.who
    | _ => s.fresh e.who
  | _ => s.fresh e.who

def State.freshAfter (s : State) (e : Event) : Bool → Bool :=
  if ((s.trays e.who).saves e.what).isSome then fun who => decide (who = e.who)
  else Function.update s.fresh e.who (s.knows e)

/-- A pass that does not get the mutex is skipped. -/
def State.step (s : State) (e : Event) : Option State :=
  if s.guarded ∧ starts e.what ∧ (s.trays !e.who).running.isSome then none
  else ((s.trays e.who).step s.file e.what).map fun (tray, file) =>
    { s with
        trays := Function.update s.trays e.who tray
        file := file
        fresh := s.freshAfter e
        setBy := if sets e.what then some e.who else s.setBy }

/-- No tray runs yet. -/
def closed (file : Option Store) (guarded : Bool) : State := { file := file, guarded := guarded }

/-- No two passes at a time, no pass over a file that it could not read, and no edit beside a pass
of the other tray or from a memory older than its last save. -/
def Heeded (s : State) (e : Event) : Prop :=
  match e.what with
  | .evaluate _ _ _ _ | .nodeReady _ => s.guarded = true ∨ (s.trays !e.who).running = none
  | .resume _ => match (s.trays e.who).running with
    | some (.act .reload _) => s.knows e = true
    | _ => True
  | .edit _ => s.fresh e.who = true ∧ (s.trays !e.who).running = none
  | _ => True

/-- A save of `fs` that leaves `after` in a file that was `f`. -/
structure Respects (foreign : Prop) (f : Store) (fs : List Field) (after : Store) : Prop where
  /-- Nothing changes but what the save sets. -/
  exact : after = f.batch fs
  /-- A record under way is not overwritten. -/
  record : f.record.inFlight = true → f.record.sameTx after.record = true ∨ .record .empty ∈ fs
  /-- No transaction is committed beside one that is under way. -/
  commit : ∀ r, .record (.record r) ∈ fs → f.record.inFlight = true →
    f.record.sameTx (.record r) = true
  /-- The address and the stop of another tray are not undone. -/
  intent : foreign → Stands f after

/-- The address and the stop are not of this tray's user, who sets none now. -/
def Foreign (s : State) (e : Event) : Prop := s.setBy ≠ some e.who ∧ sets e.what = false

/-- A save of one tray leaves alone what the other saved. -/
def Sound (s : State) (e : Event) : Prop :=
  ∀ fs ∈ (s.trays e.who).saves e.what, ∀ f ∈ s.file,
    Respects (Foreign s e) f fs ((s.trays e.who).mem.assign fs).store

/-- What holds of a tray over the file, between the events. With `own`, its user has the last word. -/
structure Kept (t : Tray) (file : Option Store) (fresh : Bool) (own : Prop) : Prop where
  ready : Ready t
  same : fresh = true → ∀ f ∈ file, t.mem.store = f
  /-- A pass that has read the file has it in memory. -/
  current : ∀ p ∈ t.running, fresh = true ∨ ∃ k, p = .act .reload k
  willed : ∀ p ∈ t.running, own ∨ Wills p t.mem

/-- What holds in every state of a run. -/
structure Inv (s : State) : Prop where
  kept : ∀ who, Kept (s.trays who) s.file (s.fresh who) (s.setBy = some who)
  /-- No two passes run at a time. -/
  alone : ∀ who, (s.trays who).running.isSome = true → (s.trays !who).running = none

section Tray

variable {t : Tray} {file : Option Store} {fresh : Bool} {own : Prop}

/-- A tray whose engine rests, and that the other may have saved after. -/
theorem Kept.idle (hready : Ready t) (hrests : t.running = none) : Kept t file false own where
  ready := hready
  same h := by cases h
  current p hp := by rw [hrests] at hp; cases hp
  willed p hp := by rw [hrests] at hp; cases hp

theorem Kept.launched (reads : Bool) :
    Kept { up := true, mem := View.reload file reads {} } file (reads || file.isNone) own where
  ready p hp := by cases hp
  same hfresh f hf := by
    obtain rfl := hf
    cases reads with
    | true => rfl
    | false => cases hfresh
  current p hp := by cases hp
  willed p hp := by cases hp

/-- A pass starts, and reads the file first. -/
theorem Kept.started (h : Kept t file fresh own) {k : Unit → Engine Unit}
    (hfrees : Frees (.act .reload k) t.mem) (hwills : Wills (.act .reload k) t.mem) :
    Kept (t.start (.act .reload k)) file fresh own where
  ready := ready_start hfrees
  same := h.same
  current _ hp := .inr ⟨k, (Option.some.inj hp).symm⟩
  willed p hp := .inr (ensures_remaining hwills p hp)

/-- The engine takes the action it is at, from a memory that has the file, and goes on as it should. -/
theorem Kept.resumed (h : Kept t file fresh own) {a : Act} {k : a.Reply → Engine Unit}
    (hrun : t.running = some (.act a k)) (o : Oracle)
    (hsame : ∀ f ∈ fileAfter file t.mem a, (t.mem.after file o a).store = f) :
    Kept { t with mem := t.mem.after file o a, held := heldAfter t.held a,
                  running := remaining (k (o.reply t.mem a)) } (fileAfter file t.mem a) true own where
  ready := ensures_remaining (h.ready.taken hrun file o).2
  same _ := hsame
  current _ _ := .inl rfl
  willed p hp := (h.willed _ hrun).imp_right fun hwills =>
    ensures_remaining ((hwills t.mem ⟨rfl, rfl, rfl⟩).2 _ _ (free_step file o t.mem a)).2 p hp

theorem Kept.edited (h : Kept t file fresh own) (e : Edit) {own' : Prop}
    (hsets : e.sets = true → own') (hkeeps : own → own') :
    Kept { t with mem := t.mem.assign (e.fields t.mem.store) }
      (some (t.mem.assign (e.fields t.mem.store)).store) true own' where
  ready p hp := (h.ready p hp : Frees p t.mem).rely (e.record t.mem.store)
  same _ f hf := Option.some.inj hf
  current _ _ := .inl rfl
  willed p hp := by
    cases hset : e.sets with
    | true => exact .inl (hsets hset)
    | false =>
      refine (h.willed p hp).imp hkeeps fun hwills => hwills.rely ?_
      exact SameWish.assign ⟨rfl, rfl, rfl⟩ (Edit.bystands hset _)

end Tray

variable {s t : State} {who : Bool} {what : forward.Event} {u : Tray} {file : Option Store}

theorem State.freshAfter_self (hsaves : (s.trays who).saves what = none) :
    s.freshAfter ⟨who, what⟩ who = s.knows ⟨who, what⟩ := by
  simp [State.freshAfter, hsaves]

theorem State.freshAfter_saved {fs : List Field} (hsaves : (s.trays who).saves what = some fs)
    (w : Bool) : s.freshAfter ⟨who, what⟩ w = decide (w = who) := by
  simp [State.freshAfter, hsaves]

/-- After a heeded reading the memory is the file, if there is one. -/
theorem Kept.reloaded {t : Tray} {fresh : Bool} {own : Prop} (h : Kept t file fresh own)
    {reads : Bool} (hreads : (reads || file.isNone || fresh) = true) :
    ∀ f ∈ file, (t.mem.reload file reads).store = f := by
  rintro f hf
  have hsame := h.same
  obtain rfl := hf
  cases reads with
  | true => rfl
  | false => exact hsame hreads f rfl

/-- The engine of a tray goes on, and has the file in memory. -/
theorem Inv.resumed (h : Inv s) {o : Oracle} (hok : Heeded s ⟨who, .resume o⟩) {a : Act}
    {k : a.Reply → Engine Unit} (hrun : (s.trays who).running = some (.act a k)) :
    s.freshAfter ⟨who, .resume o⟩ who = true ∧
      ∀ f ∈ fileAfter s.file (s.trays who).mem a, ((s.trays who).mem.after s.file o a).store = f := by
  have hkept := h.kept who
  cases a with
  | write fs =>
    have hsaves : (s.trays who).saves (.resume o) = some fs := by simp only [Tray.saves, hrun]
    refine ⟨?_, fun f hf => Option.some.inj hf⟩
    rw [State.freshAfter_saved hsaves, decide_eq_true rfl]
  | reload =>
    rw [State.freshAfter_self (by simp only [Tray.saves, hrun])]
    simp only [Heeded, hrun] at hok
    refine ⟨hok, hkept.reloaded ?_⟩
    simpa only [State.knows, hrun] using hok
  | _ =>
    rw [State.freshAfter_self (by simp only [Tray.saves, hrun])]
    have hfresh : s.fresh who = true := (hkept.current _ hrun).resolve_right (by rintro ⟨_, ⟨⟩⟩)
    exact ⟨by simpa only [State.knows, hrun] using hfresh, hkept.same hfresh⟩

/-- What an event makes of the tray that it is of. -/
theorem Inv.own (h : Inv s) (hok : Heeded s ⟨who, what⟩)
    (hu : (s.trays who).step s.file what = some (u, file)) :
    Kept u file (s.freshAfter ⟨who, what⟩ who)
      ((if sets what then some who else s.setBy) = some who) := by
  have hkept := h.kept who
  cases Tray.took_of_step hu with
  | launch reads =>
    rw [State.freshAfter_self rfl]
    exact Kept.launched reads
  | exit =>
    rw [State.freshAfter_self rfl]
    exact Kept.idle (fun p hp => by cases hp) rfl
  | evaluate needed stats loaded alive =>
    rw [State.freshAfter_self rfl]
    exact hkept.started (frees_runEvaluation needed stats loaded alive _)
      (wills_runEvaluation needed stats loaded alive _)
  | nodeReady loaded =>
    rw [State.freshAfter_self rfl]
    exact hkept.started (frees_onNodeReady loaded _) (wills_onNodeReady loaded _)
  | resume o _ hrun =>
    obtain ⟨hfresh, hsame⟩ := h.resumed hok hrun
    rw [hfresh]
    exact hkept.resumed hrun o hsame
  | edit d =>
    rw [State.freshAfter_saved rfl, decide_eq_true rfl]
    exact hkept.edited d (fun hsets => if_pos hsets) fun hown => by rw [hown, ite_self]

/-- What is saved is saved while the other tray runs no pass. -/
theorem Inv.saves_alone (h : Inv s) (hok : Heeded s ⟨who, what⟩) {fs : List Field}
    (hsaves : (s.trays who).saves what = some fs) : (s.trays !who).running = none := by
  cases what with
  | resume o =>
    refine h.alone who ?_
    cases hrun : (s.trays who).running with
    | none => simp [Tray.saves, hrun] at hsaves
    | some p => rfl
  | edit d => exact hok.2
  | _ => cases hsaves

theorem Tray.file_of_step {t u : Tray} {file file' : Option Store} {e : forward.Event}
    (hstep : t.step file e = some (u, file')) (hsaves : t.saves e = none) : file' = file := by
  cases Tray.took_of_step hstep with
  | @resume o a k _ hrun => cases a <;> first | rfl | simp [Tray.saves, hrun] at hsaves
  | edit d => cases hsaves
  | _ => rfl

/-- What an event makes of the other tray. -/
theorem Inv.other (h : Inv s) (hok : Heeded s ⟨who, what⟩)
    (hu : (s.trays who).step s.file what = some (u, file)) :
    Kept (s.trays !who) file (s.freshAfter ⟨who, what⟩ !who)
      ((if sets what then some who else s.setBy) = some !who) := by
  cases hsaves : (s.trays who).saves what with
  | none =>
    have hsets : sets what = false := by
      cases what <;> first | rfl | cases hsaves
    have hfresh : s.freshAfter ⟨who, what⟩ (!who) = s.fresh !who := by
      simp [State.freshAfter, hsaves]
    obtain rfl := Tray.file_of_step hu hsaves
    rw [hfresh, hsets]
    exact h.kept !who
  | some fs =>
    rw [State.freshAfter_saved hsaves, decide_eq_false (Bool.not_ne_self who)]
    exact Kept.idle (h.kept _).ready (h.saves_alone hok hsaves)

/-- A pass that runs after an event of its tray runs alone. -/
theorem Inv.runs_alone (h : Inv s) (hok : Heeded s ⟨who, what⟩)
    (hguard : ¬(s.guarded = true ∧ starts what = true ∧ (s.trays !who).running.isSome = true))
    (hu : (s.trays who).step s.file what = some (u, file)) (hruns : u.running.isSome = true) :
    (s.trays !who).running = none := by
  have hstarts (hwills : s.guarded = true ∨ (s.trays !who).running = none)
      (hstarts : starts what = true) : (s.trays !who).running = none := by
    obtain hguarded | hrests := hwills
    · cases hrun : (s.trays !who).running with
      | none => rfl
      | some p => exact absurd ⟨hguarded, hstarts, by rw [hrun]; rfl⟩ hguard
    · exact hrests
  cases Tray.took_of_step hu with
  | launch | exit => cases hruns
  | evaluate | nodeReady => exact hstarts hok rfl
  | resume o _ hrun =>
    refine h.alone who ?_
    rw [hrun]
    rfl
  | edit d => exact hok.2

/-- A heeded event keeps each memory in step with the file. -/
theorem Inv.step {e : Event} (h : Inv s) (hok : Heeded s e) (hstep : s.step e = some t) : Inv t := by
  obtain ⟨who, what⟩ := e
  unfold State.step at hstep
  split at hstep
  · cases hstep
  next hguard =>
    obtain ⟨⟨u, file⟩, hu, rfl⟩ := Option.map_eq_some_iff.mp hstep
    have halone := h.runs_alone hok hguard hu
    refine ⟨fun w => ?_, fun w hruns => ?_⟩
    · by_cases hw : w = who
      · subst hw
        simpa using h.own hok hu
      · obtain rfl := Bool.eq_not.mpr hw
        simpa using h.other hok hu
    · by_cases hw : w = who
      · subst hw
        simpa using halone (by simpa using hruns)
      · obtain rfl := Bool.eq_not.mpr hw
        have hother : (s.trays !who).running.isSome = true := by simpa using hruns
        suffices u.running = none by simpa using this
        refine Option.not_isSome_iff_eq_none.mp fun hown => ?_
        rw [halone hown] at hother
        cases hother

theorem inv_closed (file : Option Store) (guarded : Bool) : Inv (closed file guarded) :=
  ⟨fun _ => .idle (fun p hp => by cases hp) rfl, fun _ h => by cases h⟩

/-- A tray that is about to save has the file in memory. -/
theorem Inv.saves_same (h : Inv s) (hok : Heeded s ⟨who, what⟩) {fs : List Field}
    (hsaves : (s.trays who).saves what = some fs) : ∀ f ∈ s.file, (s.trays who).mem.store = f := by
  cases what with
  | resume o =>
    simp only [Tray.saves] at hsaves
    split at hsaves
    next gs k hrun =>
      exact (h.kept who).same (((h.kept who).current _ hrun).resolve_right (by rintro ⟨_, ⟨⟩⟩))
    · cases hsaves
  | edit d => exact (h.kept who).same hok.1
  | _ => cases hsaves

/-- A tray whose user has not the last word saves nothing that undoes it. -/
theorem Inv.saves_stand (h : Inv s) (hforeign : Foreign s ⟨who, what⟩) {fs : List Field}
    (hsaves : (s.trays who).saves what = some fs) :
    Stands (s.trays who).mem.store ((s.trays who).mem.assign fs).store := by
  obtain ⟨hsetBy, hsets⟩ := hforeign
  cases what with
  | resume o =>
    simp only [Tray.saves] at hsaves
    split at hsaves
    next gs k hrun =>
      obtain rfl := Option.some.inj hsaves
      have hwills := ((h.kept who).willed _ hrun).resolve_left hsetBy
      exact ((hwills _ ⟨rfl, rfl, rfl⟩).2 () _ rfl).1
    · cases hsaves
  | edit d =>
    obtain rfl := Option.some.inj hsaves
    have hbystands := Edit.bystands hsets (s.trays who).mem.store
    refine stands_batch (fun f hf => Field.bystands.unaddressed (hbystands f hf)) fun _ st hst => ?_
    cases hbystands _ hst
  | _ => cases hsaves

/-- In every run whose passes do not overlap, whose passes read the file, and whose users edit it as
it is, no save of one tray undoes what the other saved. -/
theorem saves_respect {file : Option Store} {guarded : Bool} {s : State} {e : Event}
    (hrun : Steps State.step Heeded (closed file guarded) s) (hok : Heeded s e) : Sound s e := by
  have hinv : Inv s := hrun.invariant (fun _ _ _ h hok hstep => h.step hok hstep)
    (inv_closed file guarded)
  obtain ⟨who, what⟩ := e
  intro fs hfs f hf
  have hready := (hinv.kept who).ready
  obtain rfl := hinv.saves_same hok hfs f hf
  refine ⟨rfl, fun hflight => ?_, fun r hr hflight => ?_, fun hforeign => hinv.saves_stand hforeign hfs⟩
  · exact (hready.keeps (knows_saved _) hfs _ rfl hflight).imp_right And.right
  · obtain hempty | hsame := hready.meets hfs hr hflight
    · cases hempty
    · exact hsame

def armedStore : Store where
  address := "A"
  state := .armed
  probeTxid := "p"
  probeConfirmed := true

/-- A wallet that has one send under way. -/
def sending : Oracle where
  call
    | .listtransactions => .ok (some [⟨some "send", some 0, none, some "t"⟩])
    | .gettransaction _ _ => .ok (some ⟨some 0, some "00"⟩)
    | .decoderawtransaction _ => .ok (some ⟨some "t", [⟨some "u", some 0⟩], []⟩)
    | _ => .error { message := "no answer" }
  clock := 1000
  reads := true

/-- One pass of a tray, over its actions. -/
def pass (who needed : Bool) (o : Oracle) (actions : Nat) : List Event :=
  ⟨who, .evaluate needed ⟨100, 100, false, 1⟩ true true⟩ :: List.replicate actions ⟨who, .resume o⟩

/-- One tray adopts the send, and its record is on disk. The other's pass comes upon it, and its user
stops then. The next pass of the first has looked for the send. -/
def stopped : List Event :=
  [⟨true, .launch true⟩, ⟨false, .launch true⟩] ++ pass true true sending 21 ++
    pass false false (silent true) 8 ++ [⟨false, .edit .stopForwarding⟩] ++
    pass true false (silent true) 5

/-- What is noted of the record then leaves the stop as it is. -/
theorem saves_respect_stopped :
    ∃ s, exec State.step (closed (some armedStore) true) stopped = some s ∧
      (∃ f ∈ s.file, f.record.inFlight = true ∧ f.wanted = "" ∧ f.state = .holding) ∧
      (s.trays true).saves (.resume (silent true)) =
        some [.blockedReason (ForwardBlock.reason .windows .pendingSweep)] ∧
      Foreign s ⟨true, .resume (silent true)⟩ ∧ Sound s ⟨true, .resume (silent true)⟩ := by
  obtain ⟨s, hs⟩ : ∃ s, exec State.step (closed (some armedStore) true) stopped = some s := ⟨_, rfl⟩
  have hmeets : run.Meets State.step Heeded (closed (some armedStore) true) stopped := by
    iterate 2
      refine ⟨trivial, ?_⟩
      rintro _ ⟨⟩
    -- the pass that adopts the send
    refine ⟨.inl rfl, ?_⟩
    rintro _ ⟨⟩
    refine ⟨rfl, ?_⟩
    rintro _ ⟨⟩
    iterate 20
      refine ⟨trivial, ?_⟩
      rintro _ ⟨⟩
    -- the pass of the other
    refine ⟨.inl rfl, ?_⟩
    rintro _ ⟨⟩
    refine ⟨rfl, ?_⟩
    rintro _ ⟨⟩
    iterate 7
      refine ⟨trivial, ?_⟩
      rintro _ ⟨⟩
    refine ⟨⟨rfl, rfl⟩, ?_⟩
    rintro _ ⟨⟩
    -- and the next pass
    refine ⟨.inl rfl, ?_⟩
    rintro _ ⟨⟩
    refine ⟨rfl, ?_⟩
    rintro _ ⟨⟩
    iterate 4
      refine ⟨trivial, ?_⟩
      rintro _ ⟨⟩
    trivial
  have hrun := steps_of_exec stopped hs hmeets
  obtain rfl := Option.some.inj hs
  exact ⟨_, rfl, ⟨_, rfl, rfl, rfl, rfl⟩, rfl, ⟨by decide, rfl⟩, saves_respect hrun trivial⟩

/-- Both trays start, one adopts the send and has its record on disk, the user of the other
acknowledges the test payment. -/
def twoTrays : List Event :=
  [⟨true, .launch true⟩, ⟨false, .launch true⟩] ++ pass true true sending 10

theorem other_record_lost : ¬∀ (file : Option Store) (guarded : Bool) (s : State) (e : Event),
    Steps State.step (fun _ _ => True) (closed file guarded) s → Sound s e := by
  intro h
  obtain ⟨s, hs⟩ : ∃ s, exec State.step (closed (some armedStore) true) twoTrays = some s := ⟨_, rfl⟩
  obtain rfl := Option.some.inj hs
  have hsound := h (some armedStore) true _ ⟨false, .edit .acknowledgeProbe⟩
    (steps_of_exec twoTrays rfl (meets_true _ _)) _ rfl _ rfl
  obtain hsame | hclears := hsound.record rfl
  · cases hsame
  · simp [Edit.fields] at hclears

end pair

end pcoin.forward
