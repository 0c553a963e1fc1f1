import PCoin.Forward.Tray

namespace pcoin.forward

open run Routine Surroundings

theorem Call.builds_of_asks {c : Call} (h : c.asks = true) : c.builds = false := by
  cases c <;> first | rfl | cases h

/-- What an edit does to the record: nothing, or it clears it. -/
theorem Edit.record (e : Edit) (s : Store) :
    (s.batch (e.fields s)).record = s.record ∨ (s.batch (e.fields s)).record = .empty := by
  cases e with
  | storeAddress a =>
    refine .inl (Store.batch_record (fun f hf => ?_) s)
    simp only [Edit.fields] at hf
    split at hf <;> simp [Port.reprobe] at hf <;> rcases hf with rfl | rfl | rfl | rfl | rfl | rfl <;>
      rfl
  | shown => exact .inl (Store.batch_record (by simp [Edit.fields, Field.other]) s)
  | stopForwarding => exact .inl (Store.batch_record (by simp [Edit.fields, Field.other]) s)
  | clearStuckRecord => exact .inr rfl
  | acknowledgeProbe => exact .inl (Store.batch_record (by simp [Edit.fields, Field.other]) s)

/-- The memory of a tray, with the user's edits between the actions of its engine. The node
builds only while the memory shows nothing under way, and a record is written over none but an
earlier version of itself. -/
def Free : Surroundings Act Act.Reply View where
  step
    | v, .read, r, w => r = v ∧ w = v
    | v, .write fs, _, w => w = v.assign fs
    | _, .reload, _, _ => True
    | v, _, _, w => w = v
  rely _ v w := w.store.record = v.store.record ∨ w.store.record = .empty
  wait _ _ := True
  meet
    | v, .call c, _ => c.builds = true → v.store.record.inFlight = false
    | v, .write fs, _ => ∀ b, .record b ∈ fs → v.store.record.inFlight = true →
        b = .empty ∨ v.store.record.sameTx b = true
    | _, _, _ => True

variable {α : Type}

/-- A property of the stored record that a clearing keeps. -/
def Cleared (inv : Blob → Prop) : Prop := ∀ b, inv b → inv .empty

theorem Cleared.rely {inv : Blob → Prop} (hinv : Cleared inv) {a : Act} {v w : View}
    (hv : inv v.store.record) (h : Free.rely a v w) : inv w.store.record := by
  obtain h | h := h
  · exact h ▸ hv
  · exact h ▸ hinv _ hv

theorem free_of_shows {inv : Blob → Prop} (hinv : Cleared inv) {p : Engine α}
    (hp : p.Only Act.Shows) {v : View} (hv : inv v.store.record) :
    Free.Ensures (fun _ w => inv w.store.record) (fun _ w => inv w.store.record) p v := by
  refine ensures_of_only hp (fun a s t _ hs h => ⟨hinv.rely hs h, trivial⟩) ?_ hv
  intro s a r t ha hs hstep
  cases a with
  | call c =>
    obtain rfl := hstep
    refine ⟨fun hbuilds => ?_, hs⟩
    rw [Call.builds_of_asks ha] at hbuilds
    cases hbuilds
  | write fs =>
    obtain rfl := hstep
    refine ⟨fun r hr _ => ?_, ?_⟩
    · cases ha _ hr
    · rw [View.assign, Store.batch_record fun f hf => Field.display.other (ha f hf)]
      exact hs
  | read =>
    obtain ⟨-, rfl⟩ := hstep
    exact ⟨trivial, hs⟩
  | now | publish | log =>
    obtain rfl := hstep
    exact ⟨trivial, hs⟩
  | reload | lock | unlock | reconciled => cases ha

theorem free_of_asks {inv : Blob → Prop} (hinv : Cleared inv) {p : Engine α}
    (hp : p.Only Act.Asks) {v : View} (hv : inv v.store.record) :
    Free.Ensures (fun _ w => inv w.store.record) (fun _ w => inv w.store.record) p v :=
  free_of_shows hinv (shows_of_asks hp) hv

theorem cleared_empty : Cleared (· = .empty) := fun _ _ => rfl

/-- The record is a version of the transaction `txid`, or cleared. -/
def Named (txid : String) (b : Blob) : Prop := b = .empty ∨ ∃ r, b = .record r ∧ r.txid = txid

theorem cleared_named (txid : String) : Cleared (Named txid) := fun _ _ => .inl rfl

theorem cleared_true : Cleared fun _ => True := fun _ _ => trivial

/-- A write of setters that leave the record as it is. -/
theorem free_write_other {inv : Blob → Prop} (hinv : Cleared inv) {fs : List Field}
    (hfs : ∀ f ∈ fs, f.other = true) {v : View} (hv : inv v.store.record) :
    Free.Ensures (fun _ w => inv w.store.record) (fun _ _ => True) (write fs) v := by
  intro t ht
  refine ⟨trivial, ?_⟩
  rintro ⟨⟩ u rfl
  refine ⟨fun r hr _ => ?_, ?_⟩
  · cases hfs _ hr
  · change inv (t.store.batch fs).record
    rw [Store.batch_record hfs]
    exact hinv.rely hv ht

/-- A write whose last word on the record is a version of it, or that clears it. -/
theorem free_write {txid : String} {fs : List Field} {I : Blob → Prop} {v : View}
    (hv : Named txid v.store.record)
    (hfs : ∀ b, .record b ∈ fs → b = .empty ∨ ∃ r, b = .record r ∧ r.txid = txid)
    (hinv : ∀ s : Store, I (s.batch fs).record) :
    Free.Ensures (fun _ w => I w.store.record) (fun _ _ => True) (write fs) v := by
  intro t ht
  have hnamed := (cleared_named txid).rely hv ht
  refine ⟨trivial, ?_⟩
  rintro ⟨⟩ u rfl
  refine ⟨fun b hb hflight => ?_, hinv t.store⟩
  obtain hempty | ⟨q, hq, hqtxid⟩ := hnamed
  · rw [hempty] at hflight
    cases hflight
  · refine (hfs b hb).imp_right fun ⟨r, hr, hrtxid⟩ => ?_
    rw [hq, hr]
    exact decide_eq_true (hqtxid.trans hrtxid.symm)

theorem free_writeRecord {txid : String} {r : SweepRecord} (hr : r.txid = txid) {v : View}
    (hv : Named txid v.store.record) :
    Free.Ensures (fun _ w => Named txid w.store.record) (fun _ _ => True) (writeRecord r) v :=
  free_write hv (fun q hq => by simp_all) fun _ => .inr ⟨r, rfl, hr⟩

theorem free_writeIf {txid : String} {c : Bool} {r : SweepRecord} (hr : r.txid = txid) {v : View}
    (hv : Named txid v.store.record) :
    Free.Ensures (fun _ w => Named txid w.store.record) (fun _ _ => True)
      (writeIf c [.record (.record r)]) v := by
  unfold writeIf
  split
  · exact free_writeRecord hr hv
  · exact hv

theorem free_clearRecord (v : View) :
    Free.Ensures (fun _ w => w.store.record = .empty) (fun _ _ => True) clearRecord v := by
  intro t _
  refine ⟨trivial, ?_⟩
  rintro ⟨⟩ u rfl
  exact ⟨fun b hb _ => .inl (by simpa using hb), rfl⟩

/-- The engine does as it should, whatever it ends with. -/
def Frees (p : Engine α) (v : View) : Prop := Free.Ensures (fun _ _ => True) (fun _ _ => True) p v

theorem frees_of_shows {p : Engine α} (hp : p.Only Act.Shows) (v : View) : Frees p v :=
  free_of_shows cleared_true hp trivial

theorem frees_publishPending (r : SweepRecord) (confirmations : Int) (v : View) :
    Frees (publishPending .windows r confirmations) v :=
  frees_of_shows (publishPending_shows _ r confirmations) v

section Resolution

variable {txid : String} {r : SweepRecord} {v : View}

theorem frees_advance (hr : r.txid = txid) (hv : Named txid v.store.record) (state : SweepState)
    (confirmations now : Int) : Frees (advance .windows r state confirmations now) v :=
  (free_writeIf (by exact hr) hv).bind fun _ w _ => frees_publishPending _ _ w

theorem frees_noteConflict (hr : r.txid = txid) (hv : Named txid v.store.record)
    (confirmations now : Int) : Frees (noteConflict .windows r confirmations now) v :=
  (free_writeRecord (by exact hr) hv).bind fun _ w _ => frees_publishPending _ _ w

theorem free_read {inv : Blob → Prop} (hinv : Cleared inv) (hv : inv v.store.record)
    {post : α → View → Prop} {f : View → Engine α}
    (hf : ∀ w : View, inv w.store.record → Free.Ensures post (fun _ _ => True) (f w) w) :
    Free.Ensures post (fun _ _ => True) (read >>= f) v := by
  intro t ht
  refine ⟨trivial, ?_⟩
  rintro w u ⟨rfl, rfl⟩
  exact ⟨trivial, hf _ (hinv.rely hv ht)⟩

/-- The actions that leave the memory as it is, and ask the node for nothing. -/
def Act.passes : Act → Bool
  | now _ => true
  | lock => true
  | unlock => true
  | reconciled => true
  | publish _ => true
  | log _ => true
  | _ => false

theorem free_pass {inv : Blob → Prop} (hinv : Cleared inv) {a : Act}
    (hv : inv v.store.record) {post : α → View → Prop} {k : a.Reply → Engine α}
    (hk : ∀ r (w : View), inv w.store.record → Free.Ensures post (fun _ _ => True) (k r) w)
    (ha : a.passes = true) :
    Free.Ensures post (fun _ _ => True) (.act a k) v := by
  intro t ht
  refine ⟨trivial, fun r u hu => ?_⟩
  cases a with
  | now | lock | unlock | reconciled | publish | log =>
    obtain rfl := hu
    exact ⟨trivial, hk r _ (hinv.rely hv ht)⟩
  | call | read | write | reload => cases ha

theorem frees_settle : Frees (settle .windows r) v := by
  refine (free_of_asks cleared_true (unlockInputs_asks .windows r.inputs) trivial).mono
    (fun _ _ h => h) (fun _ _ _ => trivial) |>.bind fun _ w _ => ?_
  refine Ensures.bind (m := fun _ _ => True) ?_ fun _ w _ =>
    (free_clearRecord w).bind fun _ w _ => frees_of_shows (publish_shows _ _) w
  unfold settled
  split
  · refine Ensures.bind (m := fun _ _ => True)
      (free_of_asks cleared_true (p := nowMs) ⟨trivial, fun _ => trivial⟩ trivial)
      fun now w _ => ?_
    exact free_write_other cleared_true (by simp [Field.other]) trivial
  · refine free_read cleared_true trivial fun w _ => ?_
    refine free_write_other cleared_true (fun f hf => ?_) trivial
    simp only [List.mem_append] at hf
    obtain (hf | hf) | hf := hf
    · split at hf <;> simp_all [Field.other]
    · split at hf <;> simp_all [Field.other]
    · simp_all [Field.other]

theorem frees_dropConflicted : Frees (dropConflicted .windows r) v := by
  refine (free_of_asks cleared_true (unlockInputs_asks .windows r.inputs) trivial).mono
    (fun _ _ h => h) (fun _ _ _ => trivial) |>.bind fun _ w _ => ?_
  refine Ensures.bind (m := fun _ _ => True) ?_ fun _ w _ => frees_of_shows (publish_shows _ _) w
  refine free_read cleared_true trivial fun w _ => ?_
  intro t _
  refine ⟨trivial, ?_⟩
  rintro ⟨⟩ u rfl
  refine ⟨fun b hb _ => .inl ?_, trivial⟩
  simp only [List.mem_append] at hb
  obtain (hb | hb) | hb := hb
  · simpa using hb
  · split at hb <;> simp [dropProbe] at hb
  · simp at hb

theorem frees_ask {inv : Blob → Prop} (hinv : Cleared inv) {c : Call} (hc : c.builds = false)
    (hv : inv v.store.record) {f : Except Failure c.Reply → Engine α}
    (hf : ∀ r (w : View), inv w.store.record → Frees (f r) w) : Frees (ask c >>= f) v := by
  intro t ht
  refine ⟨trivial, ?_⟩
  rintro r u rfl
  refine ⟨fun hbuilds => ?_, hf r _ (hinv.rely hv ht)⟩
  rw [hc] at hbuilds
  cases hbuilds

theorem frees_rebroadcast {again : SweepRecord → Engine Unit}
    (hagain : ∀ (next : SweepRecord) (w : View), next.txid = txid → Named txid w.store.record →
      Frees (again next) w)
    (hr : r.txid = txid) (hv : Named txid v.store.record) (now : Int) :
    Frees (rebroadcast .windows r now again) v := by
  refine (free_writeRecord (by exact hr) hv).bind fun _ w hw => ?_
  refine frees_ask (cleared_named txid) rfl hw fun reply w hw => ?_
  cases reply with
  | ok _ =>
    exact (free_writeRecord (by exact hr) hw).bind fun _ w _ => frees_publishPending _ _ w
  | error e =>
    dsimp only
    split
    · exact hagain _ w hr hw
    · split
      · trivial
      · exact (free_writeRecord (by exact hr) hw).bind fun _ w _ => frees_publishPending _ _ w

theorem frees_resolveOnce {again : SweepRecord → Engine Unit}
    (hagain : ∀ (next : SweepRecord) (w : View), next.txid = txid → Named txid w.store.record →
      Frees (again next) w)
    (hr : r.txid = txid) (hv : Named txid v.store.record) :
    Frees (resolveOnce .windows again r) v := by
  refine Ensures.bind (m := fun _ w => Named txid w.store.record)
    ((free_of_asks (cleared_named txid) (observe_asks .windows r.txid) hv).mono
      (fun _ _ h => h) fun _ _ _ => trivial) fun obs w hw => ?_
  refine Ensures.bind (m := fun _ w => Named txid w.store.record)
    ((free_of_asks (cleared_named txid) (p := nowMs) ⟨trivial, fun _ => trivial⟩ hw).mono
      (fun _ _ h => h) fun _ _ _ => trivial) fun now w hw => ?_
  refine free_pass (cleared_named txid) hw (fun _ w hw => ?_) rfl
  have hseen : (r.seen .windows obs).txid = txid := by
    unfold SweepRecord.seen
    split <;> exact hr
  refine (free_writeIf hseen hw).bind fun _ w hw => ?_
  generalize resolve .windows obs (r.seen .windows obs) now = res
  cases res with
  | unresolved => exact frees_publishPending _ _ w
  | rebroadcast => exact frees_rebroadcast hagain hseen hw now
  | markBroadcast => exact frees_advance hseen hw _ _ _
  | markAccepted => exact frees_advance hseen hw _ _ _
  | markConfirmed => exact frees_advance hseen hw _ _ _
  | markSettled => exact frees_settle
  | noteConflict => exact frees_noteConflict hseen hw _ _
  | markConflicted => exact frees_dropConflicted

theorem frees_resolveRecord (left : Nat) (hr : r.txid = txid) (hv : Named txid v.store.record) :
    Frees (resolveRecord .windows left r) v := by
  induction left generalizing r v with
  | zero => exact frees_resolveOnce (fun next w _ _ => frees_publishPending next (-1) w) hr hv
  | succ left ih => exact frees_resolveOnce (fun next w hnext hw => ih hnext hw) hr hv

end Resolution

/-- The stored record has been cleared, or there was none. -/
def Vacant (v : View) : Prop := v.store.record = .empty

theorem Vacant.named {v : View} (h : Vacant v) (txid : String) : Named txid v.store.record := .inl h

theorem vacant_of_asks {p : Engine α} (hp : p.Only Act.Asks) {v : View} (hv : Vacant v) :
    Free.Ensures (fun _ => Vacant) (fun _ _ => True) p v :=
  (free_of_asks cleared_empty hp hv).mono (fun _ _ h => h) fun _ _ _ => trivial

theorem vacant_write {fs : List Field} (hfs : ∀ f ∈ fs, f.other = true) {v : View} (hv : Vacant v) :
    Free.Ensures (fun _ => Vacant) (fun _ _ => True) (write fs) v :=
  free_write_other cleared_empty hfs hv

section Sending

variable {v : View}

theorem frees_adopt (hv : Vacant v) : Frees (adopt .windows) v := by
  refine (vacant_of_asks (adoptInFlightSend_asks .windows) hv).bind fun found w hw => ?_
  cases found with
  | none => exact frees_of_shows (shows_of_asks (releaseStaleLocks_asks .windows)) w
  | some r =>
    refine free_pass cleared_empty hw (fun _ w hw => ?_) rfl
    exact (free_writeRecord rfl (Vacant.named hw r.txid)).bind fun _ w _ =>
      frees_publishPending r (-1) w

theorem frees_send {r : SweepRecord} (hv : Named r.txid v.store.record) :
    Frees (send .windows r) v := by
  refine Ensures.bind (m := fun _ w => Named r.txid w.store.record)
    ((free_of_asks (cleared_named r.txid) (lockunspent_asks false _) hv).mono
      (fun _ _ h => h) fun _ _ _ => trivial) fun _ w hw => ?_
  refine frees_ask (cleared_named r.txid) rfl hw fun reply w hw => ?_
  cases reply with
  | error e =>
    exact (free_writeRecord (by rfl) hw).bind fun _ w _ =>
      Ensures.bind (frees_publishPending r (-1) w) fun _ _ _ => trivial
  | ok returned =>
    dsimp only
    split
    · exact (free_writeRecord (by rfl) hw).bind fun _ w _ => frees_publishPending r (-1) w
    · refine Ensures.bind (m := fun _ w => Named r.txid w.store.record)
        ((free_of_asks (cleared_named r.txid) (p := nowMs) ⟨trivial, fun _ => trivial⟩ hw).mono
          (fun _ _ h => h) fun _ _ _ => trivial) fun now w hw => ?_
      refine Ensures.bind (m := fun _ _ => True)
        (free_write (I := fun _ => True) hw ?_ fun _ => trivial)
        fun _ w _ => frees_publishPending _ (-1) w
      intro q hq
      simp only [List.mem_cons, Field.record.injEq, reduceCtorEq, List.not_mem_nil, or_false] at hq
      exact .inr ⟨r.announced now, hq, rfl⟩

theorem named_commit {r : SweepRecord} (hv : Vacant v) (expected : ForwardState) :
    Free.Ensures (fun _ w => Named r.txid w.store.record) (fun _ _ => True)
      (commit .windows r expected) v := by
  refine free_pass cleared_empty hv (fun _ w hw => ?_) rfl
  refine free_read cleared_empty hw fun w hw => ?_
  split
  · refine Ensures.bind (m := fun _ w => Named r.txid w.store.record)
      (free_write (Vacant.named hw r.txid) (fun q hq => ?_) fun s => ?_) fun _ w hw => ?_
    · unfold commitFields at hq
      split at hq <;> exact .inr ⟨r, by simpa using hq, rfl⟩
    · unfold commitFields
      split <;> exact .inr ⟨r, rfl, rfl⟩
    · exact free_pass (cleared_named r.txid) hw (fun _ _ hw => hw) rfl
  · refine Ensures.bind (m := fun _ => Vacant)
      ((free_of_shows cleared_empty (abort_shows _ _) hw).mono (fun _ _ h => h)
        fun _ _ _ => trivial) fun _ w hw => ?_
    exact free_pass cleared_empty hw (fun _ _ hw => Vacant.named hw r.txid) rfl

theorem frees_commitAndSend {r : SweepRecord} (hv : Vacant v) (expected : ForwardState) :
    Frees (commitAndSend .windows r expected) v := by
  refine free_pass cleared_empty hv (fun _ w hw => ?_) rfl
  refine (named_commit hw expected).bind fun committed w hw => ?_
  split
  · exact frees_send hw
  · trivial

theorem frees_vet (kind : SweepKind) (inputs : List Utxo) (destination script : String)
    (expected : ForwardState) (now : Int) (built : Built) (hv : Vacant v) :
    Frees (vet .windows kind inputs destination script expected now built) v := by
  refine (vacant_of_asks (decodeBuilt_asks .windows kind destination built.hex) hv).bind
    fun decoded w hw => ?_
  split
  · exact frees_of_shows (refuse_shows _ _ _ _) w
  · refine (vacant_of_asks (testAccept_asks .windows built.hex) hw).bind fun rejection w hw => ?_
    split
    · exact frees_of_shows (refuse_shows _ _ _ _) w
    · exact frees_commitAndSend hw expected

/-- The node builds where nothing is under way. -/
theorem vacant_build (kind : SweepKind) (inputs : List Utxo) (destination : String) (hv : Vacant v) :
    Free.Ensures (fun _ => Vacant) (fun _ _ => True) (build kind inputs destination) v := by
  cases kind <;>
  · intro t ht
    have ht : Vacant t := cleared_empty.rely hv ht
    refine ⟨trivial, ?_⟩
    rintro reply u rfl
    refine ⟨fun _ => by rw [ht]; rfl, ?_⟩
    cases reply with
    | error e => trivial
    | ok b => exact ht

theorem frees_buildAndSend (kind : SweepKind) (inputs : List Utxo) (destination script : String)
    (expected : ForwardState) (hv : Vacant v) :
    Frees (buildAndSend .windows kind inputs destination script expected) v := by
  unfold buildAndSend
  split
  · trivial
  · refine (vacant_of_asks (p := nowMs) ⟨trivial, fun _ => trivial⟩ hv).bind fun now w hw => ?_
    refine (vacant_build kind inputs destination hw).bind fun built w hw => ?_
    split
    · exact frees_of_shows (refuse_shows _ _ _ _) w
    · exact frees_vet kind inputs destination script expected now built hw

end Sending

section Evaluation

variable {v : View}

theorem vacant_arm (state : ForwardState) (hv : Vacant v) :
    Free.Ensures (fun _ => Vacant) (fun _ _ => True) (arm state) v := by
  unfold arm
  split
  · refine free_read cleared_empty hv fun w hw => ?_
    split
    · exact (vacant_write (by simp [Field.other]) hw).bind fun _ _ h => h
    · exact hw
  · exact hv

theorem frees_consider (stats : NodeStats) (loaded alive : Bool) (state : ForwardState)
    (destination : String) (hv : Vacant v) :
    Frees (consider .windows stats loaded alive state destination) v := by
  refine (vacant_of_asks (gatherLoaded_asks loaded) hv).bind fun walletLoaded w hw => ?_
  refine (vacant_of_asks (gatherFacts_asks .windows walletLoaded destination) hw).bind
    fun facts w hw => ?_
  refine (vacant_of_asks (gatherCandidates_asks .windows facts) hw).bind fun candidates w hw => ?_
  refine (vacant_of_asks (p := nowMs) ⟨trivial, fun _ => trivial⟩ hw).bind fun now w hw => ?_
  refine (vacant_of_asks relayPeers_asks hw).bind fun peers w hw => ?_
  refine free_pass cleared_empty hw (fun _ w hw => ?_) rfl
  split
  · exact frees_of_shows (publish_shows _ _) w
  · exact frees_buildAndSend _ _ _ _ _ hw
  · exact frees_buildAndSend _ _ _ _ _ hw

theorem frees_proceed (stats : NodeStats) (loaded alive : Bool) (hv : Vacant v) :
    Frees (proceed .windows stats loaded alive) v := by
  have happly : Free.Ensures (fun _ => Vacant) (fun _ _ => True) (applyPendingAddress .windows) v := by
    refine free_read cleared_empty hv fun w hw => ?_
    split
    · exact hw
    · exact vacant_write (by simp [Field.other, Port.reprobe]) hw
  refine happly.bind fun _ w hw => free_read cleared_empty hw fun w hw => ?_
  split
  · exact frees_of_shows (publish_shows _ _) w
  · refine (vacant_arm w.store.state hw).bind fun state w hw =>
      free_read cleared_empty hw fun w hw => ?_
    split
    · exact (vacant_write (by simp [Field.other]) hw).bind fun _ w _ =>
        frees_of_shows (publish_shows _ _) w
    · exact frees_consider stats loaded alive state w.store.address hw

/-- What the reading of the record says about it. -/
def Recorded (found : Option (Option SweepRecord)) (v : View) : Prop :=
  match found with
  | none => True
  | some none => Vacant v
  | some (some r) => Named r.txid v.store.record

theorem free_readRecord (v : View) :
    Free.Ensures Recorded (fun _ _ => True) readRecord v := by
  have hparked : ∀ w : View, Free.Ensures Recorded (fun _ _ => True) parked w := fun w =>
    (free_write_other cleared_true (by simp [Field.other]) trivial).bind fun _ _ _ => trivial
  refine free_read cleared_true trivial fun w _ => ?_
  unfold recordIn
  split
  · exact .inr ⟨_, by assumption, rfl⟩
  · exact hparked w
  · split
    · exact hparked w
    · change Vacant w
      assumption

theorem vacant_clear (v : View) : Free.Ensures (fun _ => Vacant) (fun _ _ => True) clearRecord v :=
  free_clearRecord v

theorem frees_evaluate (stats : NodeStats) (loaded alive : Bool) (v : View) :
    Frees (evaluate .windows stats loaded alive) v := by
  refine (free_readRecord v).bind fun found w hw => ?_
  match found, hw with
  | none, _ => exact frees_of_shows (publish_shows _ _) w
  | some none, hw => exact frees_proceed stats loaded alive hw
  | some (some r), hw =>
    dsimp only
    split
    · exact (vacant_clear w).bind fun _ w hw => frees_proceed stats loaded alive hw
    · exact frees_resolveRecord _ rfl hw

theorem frees_reconcile (loaded : Bool) (v : View) : Frees (reconcile .windows loaded) v := by
  refine free_read cleared_true trivial fun w _ => ?_
  split
  · exact frees_of_shows (publish_shows _ _) w
  · split
    · exact Ensures.bind (frees_of_shows (publish_shows _ _) w) fun _ _ _ => trivial
    · refine (free_readRecord w).bind fun found w hw => ?_
      match found, hw with
      | none, _ => exact frees_of_shows (publish_shows _ _) w
      | some none, hw => exact frees_adopt hw
      | some (some r), hw =>
        dsimp only
        split
        · exact (vacant_clear w).bind fun _ w hw => frees_adopt hw
        · exact frees_resolveRecord _ rfl hw

/-- The file is read again first, whatever it holds. -/
theorem frees_reload {p : Engine Unit} (hp : ∀ v, Frees p v) (v : View) :
    Frees (reload .windows >>= fun _ => p) v :=
  fun _ _ => ⟨trivial, fun _ u _ => ⟨trivial, hp u⟩⟩

theorem frees_runEvaluation (needed : Bool) (stats : NodeStats) (loaded alive : Bool) (v : View) :
    Frees (runEvaluation .windows needed stats loaded alive) v := by
  refine Ensures.attempt (m := fun _ _ => True) (frees_reload (fun v => ?_) v)
    fun e w _ => frees_of_shows (failed_shows _ e) w
  refine Ensures.bind (m := fun _ _ => True) ?_ fun _ w _ =>
    Ensures.bind (frees_evaluate stats loaded alive w) fun _ w _ =>
      frees_of_shows (write_shows (by simp)) w
  unfold reconcileIf
  split
  · exact Ensures.bind (frees_reconcile loaded v) fun _ w _ =>
      free_pass cleared_true trivial (fun _ _ _ => trivial) rfl
  · trivial

theorem frees_onNodeReady (loaded : Bool) (v : View) : Frees (onNodeReady .windows loaded) v := by
  refine Ensures.attempt (m := fun _ _ => True) (frees_reload (fun v => ?_) v)
    fun e w _ => frees_of_shows (publish_shows _ _) w
  exact Ensures.bind (frees_reconcile loaded v) fun _ w _ =>
    free_pass cleared_true trivial (fun _ _ _ => trivial) rfl

end Evaluation

end pcoin.forward
