import PCoin.Forward.Tells

namespace pcoin.forward

open run Routine Surroundings

section Adoption

variable {s : Told}

/-- A probe that is about to be adopted pays the address that is in use. -/
def Adoptable (r : SweepRecord) (s : Told) : Prop :=
  Blank s ∧ (r.kind = .probe → Live s → (r.txid, s.store.address) ∈ s.paid)

theorem Adoptable.told {r : SweepRecord} (h : Adoptable r s) {c : Command} (hfree : s.held = false)
    (hheeds : ∀ b given, c = .store b given → r.kind = .probe → (r.txid, b) ∈ s.paid) :
    Adoptable r (s.told c) := by
  refine ⟨steady_blank.told s c h.1 hfree, fun hprobe hlive => ?_⟩
  rw [told_paid]
  cases c with
  | store b given =>
    rw [told_direct h.1.2]
    exact hheeds b given rfl hprobe
  | stopForwarding => exact absurd rfl hlive.2.1

theorem nonempty_of_pending {tx : TxEntry} (h : tx.pending .android = true) : text tx.txid ≠ "" := by
  intro hempty
  simp [TxEntry.pending, hempty, Port.blank, isBlank] at h

/-- What is adopted as a probe is the one that is named, at the reading of its name. -/
theorem adoptable_adoptedRecord {txid : String} (htxid : txid ≠ "") (hex : String) (hs : Blank s) :
    Phone.Ensures (fun r => Adoptable r) (fun _ => Calm) (adoptedRecord .android txid hex) s := by
  have hcalm : ∀ s, Blank s → Calm s := fun _ => Blank.calm
  refine (steady_asks steady_blank hcalm (decode_asks .android hex) hs).bind fun decoded t ht => ?_
  refine (steady_asks steady_blank hcalm (paidTo_asks .android _ _ _) ht).bind fun paid t ht => ?_
  refine (steady_asks (p := nowMs) steady_blank hcalm ⟨trivial, fun _ => trivial⟩ ht).bind
    fun now t ht => ?_
  refine (steady_asks steady_blank hcalm (nowAgain_asks .android now) ht).bind fun later t ht => ?_
  refine steady_read steady_blank hcalm (fun t ht => ⟨ht, fun hprobe hlive => ?_⟩) ht
  have hnamed : txid = t.store.probeTxid := by
    by_contra hother
    simp [hother] at hprobe
  rw [hnamed]
  exact ht.1.proofs.probe hlive (hnamed ▸ htxid)

theorem adoptable_adoptFrom (txs : List TxEntry) (hs : Blank s) :
    Phone.Ensures (fun found t => Blank t ∧ ∀ r ∈ found, Adoptable r t) (fun _ => Calm)
      (adoptFrom .android txs) s := by
  induction txs generalizing s with
  | nil => exact ⟨hs, fun r hr => by cases hr⟩
  | cons tx txs ih =>
    unfold adoptFrom
    split
    next hpending =>
      refine (steady_asks steady_blank (fun _ => Blank.calm) (call_asks rfl) hs).bind
        fun full t ht => ?_
      split
      · exact ih ht
      · split
        · exact ih ht
        · refine (adoptable_adoptedRecord (nonempty_of_pending hpending) _ ht).bind
            fun r u hu => ⟨hu.1, fun q hq => ?_⟩
          obtain rfl := Option.some.inj hq
          exact hu
    · exact ih hs

theorem tells_adopt (hs : Blank s) : Tells (adopt .android) s := by
  have hcalm : ∀ s, Blank s → Calm s := fun _ => Blank.calm
  have hfound : Phone.Ensures (fun found t => Blank t ∧ ∀ r ∈ found, Adoptable r t) (fun _ => Calm)
      (adoptInFlightSend .android) s := by
    refine (steady_asks steady_blank hcalm (call_asks rfl) hs).bind fun list t ht => ?_
    split
    · exact ht.calm
    · exact adoptable_adoptFrom _ ht
  refine hfound.bind fun found t ht => ?_
  cases found with
  | none =>
    exact tells_of_shows steady_blank hcalm (shows_of_asks (releaseStaleLocks_asks .android)) ht.1
  | some r =>
    refine told_act (J := Adoptable r) (fun s c h hfree hheeds => h.told hfree ?_)
      (fun _ h => h.1.calm.sane) (fun _ _ => trivial) (fun t _ ht _ => ?_) (ht.2 r rfl)
    · rintro b given rfl hprobe
      exact hheeds h.1.2 hprobe
    · refine Ensures.bind (m := fun _ => Calm) (p := writeRecord r) ?_ fun _ _ hu => hu
      refine told_write (fun s c h hfree hheeds => h.told hfree ?_) (fun _ h => h.1.calm.sane)
        (fun _ h => h.1.calm.free)
        (fun u hu => hu.1.calm.recorded fun hlive hprobe => hu.2 hprobe hlive) ht
      rintro b given rfl hprobe
      exact hheeds h.1.2 hprobe

end Adoption

section Sending

variable {r : SweepRecord} {s : Told}

theorem tells_send (hs : Holds r.txid r.kind s) : Tells (send .android r) s := by
  have hholds := steady_holds r.txid r.kind
  have hcalm : ∀ s, Holds r.txid r.kind s → Calm s := fun _ => Holds.calm
  refine (steady_asks hholds hcalm (lockunspent_asks false _) hs).bind fun _ t ht => ?_
  refine steady_ask hholds hcalm (fun t reply ht => ?_) ht
  cases reply with
  | error e =>
    refine (holds_writeRecord (q := { r with lastError := shorten e.message }) rfl rfl ht).bind
      fun _ u hu => ?_
    exact Ensures.bind (m := fun _ => Calm) (tells_publishPending r (-1) hu) fun _ _ h => h
  | ok returned =>
    dsimp only
    split
    · exact (holds_writeRecord
        (q := { r with lastError := "the node returned a different transaction id" }) rfl rfl
          ht).bind fun _ u hu => tells_publishPending r (-1) hu
    · refine (steady_asks (p := nowMs) hholds hcalm ⟨trivial, fun _ => trivial⟩ ht).bind
        fun now t ht => ?_
      refine Ensures.bind (m := fun _ => Holds r.txid r.kind) ?_ fun _ u hu =>
        tells_publishPending _ _ hu
      refine (holds_writeRecord (q := r.announced now) (r := r) rfl rfl ht).bind fun _ u hu => ?_
      exact (steady_write hholds hcalm (fun v hv => hholds.idle v _ rfl hv) hu).bind
        fun _ _ hv => hv

/-- Under the lock, at a record of the intent as it is. -/
structure Under (s : Told) : Prop where
  sane : Sane s
  whole : s.half = false
  held : s.held = true

theorem Under.unlock (h : Under s) : Calm { s with held := false } := by
  have hproofs := h.sane.proofs h.whole
  exact ⟨⟨h.sane.stopped, h.sane.stored, h.sane.halfway, fun _ => ⟨hproofs.proved, hproofs.probe,
    hproofs.record⟩⟩, h.whole, rfl⟩

theorem Calm.lock (h : Calm s) : Under { s with held := true } :=
  ⟨⟨h.sane.stopped, h.sane.stored, h.sane.halfway, fun _ => ⟨h.proofs.proved, h.proofs.probe,
    h.proofs.record⟩⟩, h.whole, rfl⟩

theorem steady_under : Steady Under := by
  refine ⟨fun s c h hfree => ?_, fun s f hf h => ⟨h.sane.idle hf, ?_, h.held⟩⟩
  · cases h.held.symm.trans hfree
  · cases f <;> first | exact h.whole | cases hf

/-- What the kind of a record says of the state it is committed in. -/
def Meant (r : SweepRecord) (expected : ForwardState) : Prop :=
  (r.kind = .sweep → expected = .armed) ∧ (r.kind = .probe → expected = .probingPending)

/-- A record is committed where the user's intent is still what it was built for. -/
theorem Under.heard (h : Under s) {expected : ForwardState} (hmeant : Meant r expected)
    (haddress : s.store.address = r.address) (hstate : s.store.state = expected)
    (hpending : s.store.pendingAddress = "") (hdestination : r.address ≠ "") : Heard s r := by
  refine ⟨haddress.symm, fun hsweep => ?_, fun hstop => ?_, fun a ha => ?_⟩
  · have harmed : s.store.state = .armed := hstate.trans (hmeant.1 hsweep)
    exact (h.sane.proofs h.whole).proved ⟨hpending, haddress ▸ hdestination, by simp [harmed]⟩
      (.inl harmed)
  · exact hdestination (haddress.symm.trans (h.sane.stopped hstop).1)
  · exact haddress.symm.trans (h.sane.stored a ha).1


theorem under_write {f : Field} {K : Told → Prop} {failed : Failure → Told → Prop} (h : Under s)
    (hobeys : Obeys s (.write [f])) (hK : K (s.set f)) :
    Phone.Ensures (fun _ => K) failed (write [f]) s :=
  held_act h.held h.sane hobeys fun _ _ => hK

theorem under_read {α : Type} {post : α → Told → Prop} {failed : Failure → Told → Prop} (h : Under s)
    {f : View → Engine α} (hf : Phone.Ensures post failed (f ⟨s.store, false⟩) s) :
    Phone.Ensures post failed (read >>= f) s :=
  held_act h.held h.sane trivial fun v hv => by
    obtain rfl := hv
    exact hf

theorem obeys_other {f : Field} (h : f.other = true) : Obeys s (.write [f]) := by
  intro _ r hr
  obtain rfl := List.mem_singleton.mp hr
  cases h

/-- The record is stored, under the lock. -/
def Stored (r : SweepRecord) (s : Told) : Prop := Under s ∧ s.store.record = .record r

theorem Under.stored (h : Under s) (haddress : s.store.address = r.address) :
    Stored r (s.set (.record (.record r))) := by
  refine ⟨⟨h.sane.recorded h.whole fun _ hprobe => ?_, h.whole, h.held⟩, rfl⟩
  rw [haddress]
  simp [Told.set, h.held, hprobe]

/-- The probe of a record is named and the state goes on, before anything is sent. -/
theorem stored_probe (hprobe : r.kind = .probe) (hs : Stored r s) (hactive : Active s) :
    Phone.Ensures (fun _ => Stored r) (fun _ => Calm)
      (assign .android [.probeTxid r.txid, .state .probingSent]) s := by
  have hproofs := hs.1.sane.proofs hs.1.whole
  refine Ensures.bind (m := fun _ t => Stored r t ∧ Active t) (under_write hs.1 (obeys_other rfl)
    ⟨⟨⟨hs.1.sane.probed fun _ hlive _ => ?_, hs.1.whole, hs.1.held⟩, hs.2⟩, hactive⟩)
      fun _ t ht => ?_
  · exact hproofs.record hlive r hs.2 hprobe
  · obtain ⟨⟨hunder, hrecord⟩, hactive⟩ := ht
    have hsent : Stored r (t.set (.state .probingSent)) :=
      ⟨⟨hunder.sane.stated hunder.whole (fun _ haddress _ => hactive haddress)
        fun h => (by cases h), rfl, hunder.held⟩, hrecord⟩
    exact Ensures.bind (m := fun _ => Stored r) (under_write hunder (obeys_other rfl) hsent)
      fun _ _ hu => hu

theorem stored_commitFields {expected : ForwardState} (hmeant : Meant r expected)
    (haddress : s.store.address = r.address) (hstate : s.store.state = expected)
    (hpending : s.store.pendingAddress = "") (hdestination : r.address ≠ "") (hs : Under s) :
    Phone.Ensures (fun _ => Stored r) (fun _ => Calm) (assign .android (commitFields r)) s := by
  have hobeys : Obeys s (.write [.record (.record r)]) := by
    intro _ q hq
    obtain rfl : q = r := by simpa using hq
    exact hs.heard hmeant haddress hstate hpending hdestination
  have hstored := hs.stored haddress
  unfold commitFields
  split
  · exact Ensures.bind (m := fun _ => Stored r) (under_write hs hobeys hstored) fun _ _ hu => hu
  next hprobe =>
    refine Ensures.bind (m := fun _ t => Stored r t ∧ Active t)
      (under_write hs hobeys ⟨hstored, fun _ hholding => ?_⟩) fun _ t ht =>
        stored_probe hprobe ht.1 ht.2
    have hpendingState := hstate.trans (hmeant.2 hprobe)
    cases hpendingState.symm.trans hholding

theorem under_abort (why : String) (hs : Under s) :
    Phone.Ensures (fun _ => Under) (fun _ => Calm) (abort .android why) s := by
  have hidle : ∀ f t, f.idle = true → Under t →
      Phone.Ensures (fun _ => Under) (fun _ => Calm) (write [f]) t := fun f t hf ht =>
    under_write ht (obeys_other (by cases f <;> first | rfl | cases hf))
      (steady_under.idle t f hf ht)
  refine (hidle _ s rfl hs).bind fun _ t ht => (hidle _ t rfl ht).bind fun _ u hu => ?_
  exact held_act hu.held hu.sane trivial fun _ _ => hu

theorem holds_commit {expected : ForwardState} (hmeant : Meant r expected)
    (hdestination : r.address ≠ "") (hs : Settled s) :
    Phone.Ensures (fun committed t => Calm t ∧ (committed = true → Holds r.txid r.kind t))
      (fun _ => Calm) (commit .android r expected) s := by
  refine told_act (fun s c h hfree _ => steady_settled.told s c h hfree) (fun _ h => h.1.calm.sane)
    (fun _ _ => trivial) (fun t _ ht _ => ?_) hs
  have hunder : Under (t.after .lock) := ht.1.calm.lock
  have hpending : (t.after .lock).store.pendingAddress = "" := ht.2
  generalize t.after .lock = t at hunder hpending
  refine under_read hunder ?_
  split
  next hsame =>
    refine Ensures.bind (m := fun _ => Stored r)
      (stored_commitFields hmeant hsame.1 hsame.2 hpending hdestination hunder) fun _ u hu => ?_
    refine held_act hu.1.held hu.1.sane trivial fun _ _ => ?_
    exact ⟨hu.1.unlock, fun _ => ⟨hu.1.unlock, r, hu.2, rfl, rfl⟩⟩
  · refine Ensures.bind (m := fun _ => Under) (p := abort .android _) ?_ fun _ u hu =>
      held_act hu.held hu.sane trivial fun _ _ => ⟨hu.unlock, fun h => by cases h⟩
    exact under_abort _ hunder

theorem tells_commitAndSend {expected : ForwardState} (hmeant : Meant r expected)
    (hdestination : r.address ≠ "") (hs : Settled s) :
    Tells (commitAndSend .android r expected) s := by
  refine steady_pass steady_settled (fun _ h => h.1.calm) (fun _ => trivial) (fun _ => rfl)
    (fun t _ ht _ => ?_) hs
  refine (holds_commit hmeant hdestination ht).bind fun committed u hu => ?_
  cases committed with
  | true => exact tells_send (hu.2 rfl)
  | false => exact hu.1

theorem tells_vet {kind : SweepKind} {expected : ForwardState}
    (hmeant : (kind = .sweep → expected = .armed) ∧ (kind = .probe → expected = .probingPending))
    (inputs : List Utxo) {destination : String} (hdestination : destination ≠ "") (script : String)
    (now : Int) (built : Built) (hs : Settled s) :
    Tells (vet .android kind inputs destination script expected now built) s := by
  have hcalm : ∀ s, Settled s → Calm s := fun _ h => h.1.calm
  refine (steady_asks steady_settled hcalm (decodeBuilt_asks .android kind destination built.hex)
    hs).bind fun decoded t ht => ?_
  split
  · exact tells_of_shows steady_settled hcalm (refuse_shows _ _ _ _) ht
  · refine (steady_asks steady_settled hcalm (testAccept_asks .android built.hex) ht).bind
      fun rejection u hu => ?_
    split
    · exact tells_of_shows steady_settled hcalm (refuse_shows _ _ _ _) hu
    · exact tells_commitAndSend hmeant hdestination hu

theorem settled_build (kind : SweepKind) (inputs : List Utxo) (destination : String)
    (hs : Settled s) :
    Phone.Ensures (fun _ => Settled) (fun _ => Calm) (build kind inputs destination) s := by
  cases kind <;>
  · refine steady_pass steady_settled (fun _ h => h.1.calm) (fun _ => trivial) (fun _ => rfl)
      (fun t reply ht _ => ?_) hs
    cases reply with
    | error e => exact ht.1.calm
    | ok b => exact ht

theorem tells_buildAndSend {kind : SweepKind} {expected : ForwardState}
    (hmeant : (kind = .sweep → expected = .armed) ∧ (kind = .probe → expected = .probingPending))
    (inputs : List Utxo) {destination : String} (hdestination : destination ≠ "") (script : String)
    (hs : Settled s) : Tells (buildAndSend .android kind inputs destination script expected) s := by
  have hcalm : ∀ s, Settled s → Calm s := fun _ h => h.1.calm
  unfold buildAndSend
  split
  · exact hs.1.calm
  · refine (steady_asks (p := nowMs) steady_settled hcalm ⟨trivial, fun _ => trivial⟩ hs).bind
      fun now t ht => ?_
    refine (settled_build kind inputs destination ht).bind fun built u hu => ?_
    split
    · exact tells_of_shows steady_settled hcalm (refuse_shows _ _ _ _) hu
    · exact tells_vet hmeant inputs hdestination script now built hu

end Sending

section Evaluation

variable {s : Told}

/-- The decision acts only in the state of forwarding that is for it. -/
def ForwardDecision.Meant (c : ForwardConditions) (d : ForwardDecision) : Prop :=
  (d.action = .sweep → c.forwardState = .armed) ∧
    (d.action = .probe → c.forwardState = .probingPending)

theorem meant_blocked (c : ForwardConditions) (b : ForwardBlock) : (blocked b).Meant c :=
  ⟨fun h => (by cases h), fun h => (by cases h)⟩

theorem meant_unless {c : ForwardConditions} {p : Prop} [Decidable p] (b : ForwardBlock)
    {d : ForwardDecision} (h : d.Meant c) : (if p then blocked b else d).Meant c := by
  split
  · exact meant_blocked c b
  · exact h

/-- A decision to send is made in the state for it. -/
theorem decision_meant (c : ForwardConditions) : (decision c).Meant c := by
  unfold decision
  iterate 11 apply meant_unless
  cases hstate : c.forwardState with
  | holding => exact meant_blocked c _
  | probingSent => exact meant_blocked c _
  | probingPending =>
    change (decideProbe c).Meant c
    refine ⟨fun h => ?_, fun _ => hstate⟩
    unfold decideProbe at h
    split at h <;> cases h
  | armed =>
    change (decideSweep c).Meant c
    refine ⟨fun _ => hstate, fun h => ?_⟩
    unfold decideSweep at h
    split at h <;> cases h

theorem tells_consider (stats : NodeStats) (loaded alive : Bool) (state : ForwardState)
    {destination : String} (hdestination : destination ≠ "") (hs : Settled s) :
    Tells (consider .android stats loaded alive state destination) s := by
  have hcalm : ∀ s, Settled s → Calm s := fun _ h => h.1.calm
  refine (steady_asks steady_settled hcalm (gatherLoaded_asks loaded) hs).bind
    fun walletLoaded t ht => ?_
  refine (steady_asks steady_settled hcalm (gatherFacts_asks .android walletLoaded destination)
    ht).bind fun facts t ht => ?_
  refine (steady_asks steady_settled hcalm (gatherCandidates_asks .android facts) ht).bind
    fun candidates t ht => ?_
  refine (steady_asks (p := nowMs) steady_settled hcalm ⟨trivial, fun _ => trivial⟩ ht).bind
    fun now t ht => ?_
  refine (steady_asks steady_settled hcalm relayPeers_asks ht).bind fun peers t ht => ?_
  have hmeant := decision_meant
    (conditions stats alive state walletLoaded facts candidates now peers)
  unfold carryOut
  generalize decision (conditions stats alive state walletLoaded facts candidates now peers) = d
    at hmeant
  refine steady_pass steady_settled hcalm (fun _ => trivial) (fun _ => rfl) (fun t _ ht _ => ?_) ht
  split
  next => exact tells_of_shows steady_settled hcalm (publish_shows _ _) ht
  next haction =>
    exact tells_buildAndSend ⟨fun _ => hmeant.1 haction, fun h => (by cases h)⟩ _ hdestination _ ht
  next haction =>
    exact tells_buildAndSend ⟨fun h => (by cases h), fun _ => hmeant.2 haction⟩ _ hdestination _ ht

/-- The queued address `a` is about to be set. -/
def Queued (a : String) (s : Told) : Prop :=
  Blank s ∧ s.word ≠ .stop ∧ ∀ b, s.word = .store b → b = a

/-- The address is set, and what goes with it is not yet. -/
structure Changing (s : Told) : Prop where
  sane : Sane s
  free : s.held = false
  record : s.store.record = .empty
  pending : s.half = false → s.store.pendingAddress = ""

theorem Queued.told {a : String} (h : Queued a s) {c : Command} {k : List Field}
    (hk : k = [.address a]) (hfree : s.held = false) (hheeds : Heeds s (.write k) c) :
    Queued a (s.told c) := by
  subst hk
  refine ⟨steady_blank.told s c h.1 hfree, ?_⟩
  cases c with
  | store b given =>
    obtain rfl : a = b := hheeds
    rw [told_direct h.1.2]
    exact ⟨fun hstop => (by cases hstop), fun b hb => by cases hb; rfl⟩
  | stopForwarding => cases hheeds

theorem Queued.changing {a : String} (h : Queued a s) : Changing (s.set (.address a)) := by
  refine ⟨⟨fun hstop => absurd hstop h.2.1, fun b hb => ⟨(h.2.2 b hb).symm, ?_⟩, fun _ => h.1.2,
    fun hhalf => (by cases hhalf)⟩, h.1.1.free, h.1.2, fun hhalf => (by cases hhalf)⟩
  exact (h.1.1.sane.stored b hb).2

theorem Changing.told (h : Changing s) (c : Command) : Changing (s.told c) := by
  refine ⟨h.sane.told c, (told_held s c).trans h.free, (told_record s c).trans h.record, ?_⟩
  cases c with
  | store b given =>
    rw [told_direct h.record]
    exact fun _ => rfl
  | stopForwarding => exact fun _ => rfl

/-- A part of the store that a change of the address sets again. -/
def Again (P : Store → Prop) : Prop :=
  ∀ (s : Told) (c : Command), s.store.record = .empty → P s.store → P (s.told c).store

theorem Again.and {P Q : Store → Prop} (hP : Again P) (hQ : Again Q) :
    Again fun s => P s ∧ Q s :=
  fun s c hrecord h => ⟨hP s c hrecord h.1, hQ s c hrecord h.2⟩

theorem again_of_set {P : Store → Prop}
    (hstore : ∀ (s : Store) (a : String), P { s with
      address := a, pendingAddress := "", probeTxid := "", probeConfirmed := false
      state := .probingPending })
    (hstop : ∀ s : Store, P { s with
      address := "", pendingAddress := "", probeTxid := "", probeConfirmed := false
      state := .holding }) : Again P := by
  intro s c hrecord _
  cases c with
  | store b given =>
    rw [told_direct hrecord]
    exact hstore s.store b
  | stopForwarding => exact hstop s.store

theorem again_pending : Again (·.pendingAddress = "") :=
  again_of_set (fun _ _ => rfl) fun _ => rfl

theorem again_probe : Again (·.probeTxid = "") :=
  again_of_set (fun _ _ => rfl) fun _ => rfl

theorem again_confirmed : Again (·.probeConfirmed = false) :=
  again_of_set (fun _ _ => rfl) fun _ => rfl

theorem changing_write {f : Field} {P : Store → Prop} {K : Told → Prop} (hP : Again P)
    (hK : ∀ t, Changing t → P t.store → K (t.set f)) (hs : Changing s) (hpart : P s.store) :
    Phone.Ensures (fun _ => K) (fun _ => Calm) (write [f]) s :=
  told_write (J := fun t => Changing t ∧ P t.store)
    (fun t c h _ _ => ⟨h.1.told c, hP t c h.1.record h.2⟩) (fun _ h => h.1.sane)
    (fun _ h => h.1.free) (fun t ht => hK t ht.1 ht.2) ⟨hs, hpart⟩

theorem Changing.dequeued (h : Changing s) : Changing (s.set (.pendingAddress "")) := by
  refine ⟨⟨fun hstop => ⟨(h.sane.stopped hstop).1, rfl⟩, fun a ha => ⟨(h.sane.stored a ha).1, rfl⟩,
    h.sane.halfway, fun hhalf => ?_⟩, h.free, h.record, fun _ => rfl⟩
  have hproofs := h.sane.proofs hhalf
  have hbefore : Live (s.set (.pendingAddress "")) → Live s := fun hlive =>
    ⟨h.pending hhalf, hlive.2⟩
  exact ⟨fun hlive => hproofs.proved (hbefore hlive), fun hlive => hproofs.probe (hbefore hlive),
    fun hlive => hproofs.record (hbefore hlive)⟩

/-- The state is written last, where nothing of an earlier address is left. -/
theorem Changing.settled (h : Changing s) (hpending : s.store.pendingAddress = "")
    (hprobe : s.store.probeTxid = "") (hconfirmed : s.store.probeConfirmed = false) :
    Settled (s.set (.state .probingPending)) := by
  refine ⟨⟨⟨⟨h.sane.stopped, h.sane.stored, fun hhalf => (by cases hhalf), fun _ => ⟨fun _ hproof =>
    ?_, fun _ ht => absurd hprobe ht, fun _ r hr => ?_⟩⟩, rfl, h.free⟩, h.record⟩, hpending⟩
  · obtain hstate | htrue := hproof
    · cases hstate
    · cases hconfirmed.symm.trans htrue
  · cases h.record.symm.trans hr

theorem settled_reprobe (hs : Changing s) :
    Phone.Ensures (fun _ => Settled) (fun _ => Calm)
      (assign .android (.pendingAddress "" :: Port.android.reprobe)) s := by
  have hpending := again_pending
  have hprobe := hpending.and again_probe
  have hconfirmed := hprobe.and again_confirmed
  refine Ensures.bind (changing_write (P := fun _ => True)
    (K := fun t => Changing t ∧ t.store.pendingAddress = "") (fun _ _ _ _ => trivial)
    (fun t ht _ => ⟨ht.dequeued, rfl⟩) hs trivial) fun _ t ht => ?_
  refine Ensures.bind (changing_write
    (K := fun t => Changing t ∧ t.store.pendingAddress = "" ∧ t.store.probeTxid = "") hpending
    (fun t ht hpart => ⟨⟨ht.sane.probed fun _ _ h => absurd rfl h, ht.free, ht.record, ht.pending⟩,
      hpart, rfl⟩) ht.1 ht.2) fun _ t ht => ?_
  refine Ensures.bind (changing_write
    (K := fun t => Changing t ∧ (t.store.pendingAddress = "" ∧ t.store.probeTxid = "") ∧
      t.store.probeConfirmed = false) hprobe
    (fun t ht hpart => ⟨⟨ht.sane.confirmed fun _ _ h => (by cases h), ht.free, ht.record,
      ht.pending⟩, hpart, rfl⟩) ht.1 ht.2) fun _ t ht => ?_
  exact Ensures.bind (changing_write hconfirmed
    (fun t ht hpart => ht.settled hpart.1.1 hpart.1.2 hpart.2) ht.1 ht.2) fun _ _ hu => hu

theorem settled_applyPendingAddress (hs : Blank s) :
    Phone.Ensures (fun _ => Settled) (fun _ => Calm) (applyPendingAddress .android) s := by
  refine steady_read steady_blank (fun _ => Blank.calm) (fun t ht => ?_) hs
  split
  next hempty => exact ⟨ht, hempty⟩
  next hqueued =>
    have hqueue : Queued t.store.pendingAddress t :=
      ⟨ht, fun hstop => hqueued (ht.1.sane.stopped hstop).2,
        fun b hb => absurd (ht.1.sane.stored b hb).2 hqueued⟩
    simp only at hqueued ⊢
    generalize t.store.pendingAddress = a at hqueue
    refine Ensures.bind (m := fun _ => Changing) (told_write (fun u c h hfree hheeds =>
      h.told rfl hfree hheeds) (fun _ h => h.1.calm.sane) (fun _ h => h.1.calm.free)
        (fun _ h => h.changing) hqueue) fun _ t ht => ?_
    exact settled_reprobe ht

/-- Only an address that a probe has proved is armed. -/
theorem settled_arm (state : ForwardState) (hs : Settled s) (hactive : Active s) :
    Phone.Ensures (fun _ => Settled) (fun _ => Calm) (arm state) s := by
  have hJ := steady_settled.and steady_active
  have hcalm : ∀ s, Settled s ∧ Active s → Calm s := fun _ h => h.1.1.calm
  unfold arm
  split
  · refine steady_read hJ hcalm (fun t ht => ?_) ⟨hs, hactive⟩
    split
    next hconfirmed =>
      refine Ensures.bind (m := fun _ => Settled) (told_write
        (J := fun t => (Settled t ∧ Active t) ∧ (Live t → t.proved = true))
        (fun u c h hfree hheeds => ⟨hJ.told u c h.1 hfree, ?_⟩) (fun _ h => (hcalm _ h.1).sane)
        (fun _ h => (hcalm _ h.1).free) (fun u hu => ?_)
        ⟨ht, fun hlive => ht.1.1.calm.proofs.proved hlive (.inr hconfirmed)⟩) fun _ _ hu => hu
      · cases c with
        | store b given => cases hheeds
        | stopForwarding => exact fun hlive => absurd rfl hlive.2.1
      · obtain ⟨⟨⟨⟨hcalm, hrecord⟩, hpending⟩, hactive⟩, hproved⟩ := hu
        exact ⟨⟨hcalm.stated (fun _ haddress _ => hactive haddress) fun _ => hproved, hrecord⟩,
          hpending⟩
    · exact ht.1
  · exact hs

theorem tells_proceed (stats : NodeStats) (loaded alive : Bool) (hs : Blank s) :
    Tells (proceed .android stats loaded alive) s := by
  have hcalm : ∀ s, Settled s → Calm s := fun _ h => h.1.calm
  refine (settled_applyPendingAddress hs).bind fun _ t ht =>
    steady_read steady_settled hcalm (fun t ht => ?_) ht
  split
  · exact tells_of_shows steady_settled hcalm (publish_shows _ _) ht
  next hstate =>
    refine (settled_arm t.store.state ht fun _ => hstate).bind fun state u hu =>
      steady_read steady_settled hcalm (fun u hu => ?_) hu
    split
    · refine Ensures.bind (m := fun _ => Settled) (steady_write steady_settled hcalm
        (fun v hv => ⟨⟨hv.1.1.stated (fun _ _ h => absurd rfl h) fun h => (by cases h), hv.1.2⟩,
          hv.2⟩) hu) fun _ v hv => ?_
      exact tells_of_shows steady_settled hcalm (publish_shows _ _) hv
    next hdestination => exact tells_consider stats loaded alive state hdestination hu

/-- What the reading of the record says about it. -/
def Found (found : Option (Option SweepRecord)) (s : Told) : Prop :=
  Calm s ∧ match found with
  | none => True
  | some none => s.store.record = .empty
  | some (some r) => Holds r.txid r.kind s

theorem found_readRecord (hs : Calm s) :
    Phone.Ensures Found (fun _ => Calm) readRecord s := by
  refine steady_read steady_calm (fun _ h => h) (fun t ht => ?_) hs
  unfold recordIn
  split
  next r hr => exact ⟨ht, ht, r, hr, rfl, rfl⟩
  next hr =>
    have hparked : parked.Only Act.Shows :=
      (write_shows (by simp)).bind fun _ => trivial
    have hnone : parked.Yields fun found => found = none := fun _ => rfl
    refine ((steady_shows steady_calm (fun _ h => h.sane) hparked ht).yields hnone).mono
      (fun found u ⟨hu, hfound⟩ => ?_) fun _ _ h => h
    rw [hfound]
    exact ⟨hu, trivial⟩
  next hr => exact ⟨ht, hr⟩

theorem tells_publish (shown : Shown) (hs : Calm s) : Tells (publish .android shown) s :=
  tells_of_shows steady_calm (fun _ h => h) (publish_shows _ _) hs

theorem tells_evaluate (stats : NodeStats) (loaded alive : Bool) (hs : Calm s) :
    Tells (evaluate .android stats loaded alive) s := by
  refine (found_readRecord hs).bind fun found t ⟨hcalm, hfound⟩ => ?_
  match found, hfound with
  | none, _ => exact tells_publish _ hcalm
  | some none, hrecord => exact tells_proceed stats loaded alive ⟨hcalm, hrecord⟩
  | some (some r), hholds =>
    dsimp only
    split
    · exact (blank_clearRecord (steady_holds r.txid r.kind) (fun _ => Holds.calm) hholds).bind
        fun _ u hu => tells_proceed stats loaded alive hu
    · exact tells_resolveRecord _ hholds

theorem tells_reconcile (loaded : Bool) (hs : Calm s) : Tells (reconcile .android loaded) s := by
  refine steady_read steady_calm (fun _ h => h) (fun t ht => ?_) hs
  split
  · exact tells_publish _ ht
  · split
    · exact Ensures.bind (m := fun _ => Calm) (tells_publish _ ht) fun _ _ h => h
    · refine (found_readRecord ht).bind fun found u ⟨hcalm, hfound⟩ => ?_
      match found, hfound with
      | none, _ => exact tells_publish _ hcalm
      | some none, hrecord => exact tells_adopt ⟨hcalm, hrecord⟩
      | some (some r), hholds =>
        dsimp only
        split
        · exact (blank_clearRecord (steady_holds r.txid r.kind) (fun _ => Holds.calm) hholds).bind
            fun _ v hv => tells_adopt hv
        · exact tells_resolveRecord _ hholds

theorem tells_reconciled (hs : Calm s) : Tells (Routine.act .reconciled .done : Engine Unit) s :=
  steady_pass steady_calm (fun _ h => h) (fun _ => trivial) (fun _ => rfl) (fun _ _ ht _ => ht) hs

theorem tells_runEvaluation (needed : Bool) (stats : NodeStats) (loaded alive : Bool)
    (hs : Calm s) : Tells (runEvaluation .android needed stats loaded alive) s := by
  refine Ensures.attempt (m := fun _ => Calm) ?_ fun e t ht =>
    tells_of_shows steady_calm (fun _ h => h) (failed_shows _ e) ht
  refine Ensures.bind (m := fun _ => Calm) (p := reconcileIf .android needed loaded) ?_
    fun _ t ht => Ensures.bind (m := fun _ => Calm) (tells_evaluate stats loaded alive ht)
      fun _ u hu => tells_of_shows steady_calm (fun _ h => h)
        (write_shows (by simp)) hu
  unfold reconcileIf
  split
  · exact Ensures.bind (m := fun _ => Calm) (tells_reconcile loaded hs) fun _ _ ht =>
      tells_reconciled ht
  · exact hs

theorem tells_onNodeReady (loaded : Bool) (hs : Calm s) : Tells (onNodeReady .android loaded) s := by
  refine Ensures.attempt (m := fun _ => Calm) ?_ fun e t ht => tells_publish _ ht
  exact Ensures.bind (m := fun _ => Calm) (p := reconcile .android loaded)
    (tells_reconcile loaded hs) fun _ _ ht => tells_reconciled ht

end Evaluation

end pcoin.forward
