import PCoin.Forward.Told

namespace pcoin.forward

open run Routine Surroundings

/-! ### The rules -/

/-- A stage of the engine that the user's commands and the setters of no interest keep. -/
structure Steady (J : Told → Prop) : Prop where
  told : ∀ s c, J s → s.held = false → J (s.told c)
  idle : ∀ s f, f.idle = true → J s → J (s.set f)

section Rules

variable {α : Type} {J K : Told → Prop} {s : Told} {post : α → Told → Prop}
  {failed : Failure → Told → Prop}

theorem Steady.and (hJ : Steady J) (hK : Steady K) : Steady fun s => J s ∧ K s :=
  ⟨fun s c h hfree => ⟨hJ.told s c h.1 hfree, hK.told s c h.2 hfree⟩,
    fun s f hf h => ⟨hJ.idle s f hf h.1, hK.idle s f hf h.2⟩⟩

/-- The engine at an action, with the commands it may meet there. -/
theorem told_act {a : Act} {k : a.Reply → Engine α}
    (htold : ∀ s c, J s → s.held = false → Heeds s a c → J (s.told c))
    (hsane : ∀ s, J s → Sane s) (hobeys : ∀ s, J s → Obeys s a)
    (hk : ∀ t r, J t → t.answers a r → Phone.Ensures post failed (k r) (t.after a)) (hs : J s) :
    Phone.Ensures post failed (.act a k) s := by
  intro t ht
  have hJ : J t := by
    induction ht with
    | refl => exact hs
    | tail _ hsaid ih =>
      obtain ⟨hfree, c, hheeds, rfl⟩ := hsaid
      exact htold _ c ih hfree hheeds
  refine ⟨hsane t hJ, ?_⟩
  rintro r u ⟨hr, rfl⟩
  exact ⟨hobeys t hJ, hk t r hJ hr⟩

/-- Under the lock, nobody says anything. -/
theorem held_act {a : Act} {k : a.Reply → Engine α} (hheld : s.held = true) (hsane : Sane s)
    (hobeys : Obeys s a)
    (hk : ∀ r, s.answers a r → Phone.Ensures post failed (k r) (s.after a)) :
    Phone.Ensures post failed (.act a k) s :=
  told_act (J := (· = s)) (fun t c ht hfree => by subst ht; cases hheld.symm.trans hfree)
    (fun t ht => ht ▸ hsane) (fun t ht => ht ▸ hobeys) (fun t r ht hr => by subst ht; exact hk r hr)
    rfl

theorem foldl_idle (hJ : Steady J) {fs : List Field} (hfs : ∀ f ∈ fs, f.idle = true) (h : J s) :
    J (fs.foldl Told.set s) := by
  induction fs generalizing s with
  | nil => exact h
  | cons f fs ih =>
    exact ih (fun g hg => hfs g (List.mem_cons_of_mem _ hg))
      (hJ.idle s f (hfs f List.mem_cons_self) h)

/-- What shows only does not leave its stage. -/
theorem steady_shows (hJ : Steady J) (hsane : ∀ s, J s → Sane s) {p : Engine α}
    (hp : p.Only Act.Shows) (hs : J s) : Phone.Ensures (fun _ => J) (fun _ => J) p s := by
  induction p generalizing s with
  | done a => exact hs
  | fail e => exact hs
  | act a k ih =>
    refine told_act (fun s c h hfree _ => hJ.told s c h hfree) hsane (fun t _ => ?_)
      (fun t r ht _ => ih r (hp.2 r) ?_) hs
    · have ha := hp.1
      cases a with
      | write fs => exact fun _ r hr => by cases ha _ hr
      | _ => trivial
    · have ha := hp.1
      cases a with
      | write fs => exact foldl_idle hJ (fun f hf => Field.idle_of_display (ha f hf)) ht
      | log d => cases d with
        | resolved => cases ha
        | verdict | built | adopted => exact ht
      | call | now | read | publish => exact ht
      | reload | lock | unlock | reconciled => cases ha

/-- The engine does as it should, and leaves nothing half done. -/
def Tells (p : Engine α) (s : Told) : Prop :=
  Phone.Ensures (fun _ => Calm) (fun _ => Calm) p s

variable {F : Failure → Told → Prop}

theorem steady_asks (hJ : Steady J) (hcalm : ∀ s, J s → Calm s) {p : Engine α}
    (hp : p.Only Act.Asks) (hs : J s) : Phone.Ensures (fun _ => J) (fun _ => Calm) p s :=
  (steady_shows hJ (fun s h => (hcalm s h).sane) (shows_of_asks hp) hs).mono (fun _ _ h => h)
    fun _ t h => hcalm t h

theorem tells_of_shows (hJ : Steady J) (hcalm : ∀ s, J s → Calm s) {p : Engine α}
    (hp : p.Only Act.Shows) (hs : J s) : Tells p s :=
  (steady_shows hJ (fun s h => (hcalm s h).sane) hp hs).mono (fun _ t h => hcalm t h)
    fun _ t h => hcalm t h

/-- An action that changes nothing, in any stage. -/
theorem steady_pass (hJ : Steady J) (hcalm : ∀ s, J s → Calm s) {a : Act} {k : a.Reply → Engine α}
    (hobeys : ∀ s, Obeys s a) (hafter : ∀ s : Told, s.after a = s)
    (hk : ∀ t r, J t → t.answers a r → Phone.Ensures post failed (k r) t) (hs : J s) :
    Phone.Ensures post failed (.act a k) s :=
  told_act (fun s c h hfree _ => hJ.told s c h hfree) (fun s h => (hcalm s h).sane)
    (fun s _ => hobeys s) (fun t r ht hr => by rw [hafter]; exact hk t r ht hr) hs

theorem steady_read (hJ : Steady J) (hcalm : ∀ s, J s → Calm s) {f : View → Engine α}
    (hf : ∀ t, J t → Phone.Ensures post failed (f ⟨t.store, false⟩) t) (hs : J s) :
    Phone.Ensures post failed (read >>= f) s :=
  steady_pass hJ hcalm (fun _ => trivial) (fun _ => rfl) (fun t r ht hr => by
    obtain rfl := hr
    exact hf t ht) hs

theorem steady_ask (hJ : Steady J) (hcalm : ∀ s, J s → Calm s) {c : Call}
    {f : Except Failure c.Reply → Engine α} (hf : ∀ t r, J t → Phone.Ensures post failed (f r) t)
    (hs : J s) : Phone.Ensures post failed (ask c >>= f) s :=
  steady_pass hJ hcalm (fun _ => trivial) (fun _ => rfl) (fun t r ht _ => hf t r ht) hs

/-- A single write of the engine, outside of the lock. -/
theorem told_write {f : Field}
    (htold : ∀ s c, J s → s.held = false → Heeds s (.write [f]) c → J (s.told c))
    (hsane : ∀ s, J s → Sane s) (hfree : ∀ s, J s → s.held = false)
    (hK : ∀ t, J t → K (t.set f)) (hs : J s) :
    Phone.Ensures (fun _ => K) failed (write [f]) s :=
  told_act htold hsane (fun t ht hheld => by cases (hfree t ht).symm.trans hheld)
    (fun t _ ht _ => hK t ht) hs

theorem steady_write {f : Field} (hJ : Steady J) (hcalm : ∀ s, J s → Calm s)
    (hK : ∀ t, J t → K (t.set f)) (hs : J s) :
    Phone.Ensures (fun _ => K) failed (write [f]) s :=
  told_write (fun s c h hfree _ => hJ.told s c h hfree) (fun s h => (hcalm s h).sane)
    (fun s h => (hcalm s h).free) hK hs

end Rules

/-! ### The stages -/

theorem steady_calm : Steady Calm := ⟨fun _ c h _ => h.told c, fun _ _ hf h => h.idle hf⟩

theorem steady_record (P : Blob → Prop) : Steady fun s => P s.store.record := by
  refine ⟨fun s c h _ => ?_, fun s f hf h => ?_⟩
  · rwa [told_record]
  · cases f <;> first | exact h | cases hf

/-- No record is stored. -/
def Blank (s : Told) : Prop := Calm s ∧ s.store.record = .empty

theorem steady_blank : Steady Blank := steady_calm.and (steady_record (· = .empty))

/-- No record is stored, and no address is queued. -/
def Settled (s : Told) : Prop := Blank s ∧ s.store.pendingAddress = ""

theorem steady_settled : Steady Settled := by
  refine ⟨fun s c h hfree => ⟨steady_blank.told s c h.1 hfree, ?_⟩, fun s f hf h => ?_⟩
  · cases c with
    | store a ha => rw [told_direct h.1.2]
    | stopForwarding => rfl
  · refine ⟨steady_blank.idle s f hf h.1, ?_⟩
    cases f <;> first | exact h.2 | cases hf

/-- The stored record is a version of the transaction `txid`. -/
def Holds (txid : String) (kind : SweepKind) (s : Told) : Prop :=
  Calm s ∧ ∃ q, s.store.record = .record q ∧ q.txid = txid ∧ q.kind = kind

theorem steady_holds (txid : String) (kind : SweepKind) : Steady (Holds txid kind) :=
  steady_calm.and (steady_record fun b => ∃ q, b = .record q ∧ q.txid = txid ∧ q.kind = kind)

/-- An address that is set is not on hold. -/
def Active (s : Told) : Prop := s.store.address ≠ "" → s.store.state ≠ .holding

theorem steady_active : Steady Active := by
  refine ⟨fun s c h _ => ?_, fun s f hf h => ?_⟩
  · cases c with
    | store a ha =>
      by_cases hrecord : s.store.record = .empty
      · rw [told_direct hrecord]
        exact fun _ hstate => by cases hstate
      · rw [told_queued hrecord]
        exact h
    | stopForwarding => exact fun haddress => absurd rfl haddress
  · cases f <;> first | exact h | cases hf

/-! ### Resolution -/

section Resolution

variable {r : SweepRecord} {s : Told}

theorem Holds.calm {txid : String} {kind : SweepKind} (h : Holds txid kind s) : Calm s := h.1

theorem tells_publishPending {txid : String} {kind : SweepKind} (q : SweepRecord)
    (confirmations : Int) (hs : Holds txid kind s) :
    Tells (publishPending .android q confirmations) s :=
  tells_of_shows (steady_holds txid kind) (fun _ => Holds.calm) (publishPending_shows _ q _) hs

theorem Holds.version {q : SweepRecord} (h : Holds r.txid r.kind s) (htxid : q.txid = r.txid)
    (hkind : q.kind = r.kind) : Holds r.txid r.kind (s.set (.record (.record q))) := by
  obtain ⟨hcalm, p, hp, hptxid, hpkind⟩ := h
  refine ⟨hcalm.recorded fun hlive hprobe => ?_, q, rfl, htxid, hkind⟩
  rw [htxid, ← hptxid]
  exact hcalm.proofs.record hlive p hp (hpkind.trans (hkind.symm.trans hprobe))

/-- A version of the record is stored over it. -/
theorem holds_writeRecord {q : SweepRecord} {failed : Failure → Told → Prop}
    (htxid : q.txid = r.txid) (hkind : q.kind = r.kind) (hs : Holds r.txid r.kind s) :
    Phone.Ensures (fun _ => Holds r.txid r.kind) failed (writeRecord q) s :=
  steady_write (steady_holds r.txid r.kind) (fun _ => Holds.calm)
    (fun _ ht => ht.version htxid hkind) hs

theorem tells_advance (state : SweepState) (confirmations now : Int)
    (hs : Holds r.txid r.kind s) : Tells (advance .android r state confirmations now) s := by
  unfold advance writeIf
  split
  · exact (holds_writeRecord (q := r.advanced state now) (r := r) rfl rfl hs).bind fun _ t ht =>
      tells_publishPending _ _ ht
  · exact tells_publishPending _ _ hs

theorem tells_noteConflict (confirmations now : Int) (hs : Holds r.txid r.kind s) :
    Tells (noteConflict .android r confirmations now) s :=
  (holds_writeRecord (q := r.noted now) (r := r) rfl rfl hs).bind fun _ _ ht =>
    tells_publishPending _ _ ht

theorem blank_clearRecord {J : Told → Prop} {failed : Failure → Told → Prop} (hJ : Steady J)
    (hcalm : ∀ s, J s → Calm s) (hs : J s) :
    Phone.Ensures (fun _ => Blank) failed clearRecord s :=
  steady_write hJ hcalm (fun t ht => ⟨(hcalm t ht).cleared, rfl⟩) hs

theorem Blank.calm (h : Blank s) : Calm s := h.1

theorem tells_publish_blank (shown : Shown) (hs : Blank s) : Tells (publish .android shown) s :=
  tells_of_shows steady_blank (fun _ => Blank.calm) (publish_shows _ _) hs

/-- A recorded probe has landed, and proves the address that is in use. -/
def Landed (txid : String) (s : Told) : Prop :=
  Holds txid .probe s ∧ (Live s → s.proved = true)

theorem Landed.calm {txid : String} (h : Landed txid s) : Calm s := h.1.1

theorem steady_landed (txid : String) : Steady (Landed txid) := by
  refine ⟨fun s c h hfree => ⟨(steady_holds txid .probe).told s c h.1 hfree, fun hlive => ?_⟩,
    fun s f hf h => ⟨(steady_holds txid .probe).idle s f hf h.1, ?_⟩⟩
  · obtain ⟨⟨-, q, hq, -⟩, hproved⟩ := h
    have hrecord : s.store.record ≠ .empty := fun hempty => by cases hq.symm.trans hempty
    cases c with
    | store a ha =>
      rw [told_queued hrecord] at hlive
      exact absurd hlive.1 ha
    | stopForwarding => exact absurd rfl hlive.2.1
  · cases f <;> first | exact h.2 | cases hf

/-- A write that leaves what is live as it is. -/
theorem steady_writeIf {J K : Told → Prop} (hJ : Steady J) (hcalm : ∀ s, J s → Calm s) {f : Field}
    {c : Bool} {failed : Failure → Told → Prop} (hK : ∀ t, J t → K (t.set f))
    (hskip : J s → K s) (hs : J s) :
    Phone.Ensures (fun _ => K) failed (writeIf c [f]) s := by
  unfold writeIf
  split
  · exact steady_write hJ hcalm hK hs
  · exact hskip hs

theorem landed_settleProbe (hs : Landed r.txid s) :
    Phone.Ensures (fun _ => Landed r.txid) (fun _ => Calm) (settleProbe .android r) s := by
  have hlanded := steady_landed r.txid
  refine steady_read hlanded (fun _ => Landed.calm) (fun t ht => ?_) hs
  refine Ensures.bind (m := fun _ => Landed r.txid)
    (steady_writeIf hlanded (fun _ => Landed.calm) (fun t ht => ?_) id ht) fun _ t ht => ?_
  · -- The probe that is named is the one of the record.
    obtain ⟨⟨hcalm, q, hq, hqtxid, hqkind⟩, hproved⟩ := ht
    refine ⟨⟨hcalm.probed fun hlive _ => ?_, q, hq, hqtxid, hqkind⟩, hproved⟩
    exact hqtxid ▸ hcalm.proofs.record hlive q hq hqkind
  refine steady_read hlanded (fun _ => Landed.calm) (fun t ht => ?_) ht
  refine Ensures.bind (m := fun _ => Landed r.txid) ?_ fun _ t ht => ?_
  · unfold writeIf
    split
    next hpending =>
      have hactive : Active t := fun _ hholding => by
        have hstate : t.store.state = .probingPending := of_decide_eq_true hpending
        cases hstate.symm.trans hholding
      refine steady_write (hlanded.and steady_active) (fun _ h => h.1.calm) (fun u hu => ?_)
        ⟨ht, hactive⟩
      obtain ⟨⟨⟨hcalm, hq⟩, hproved⟩, hactive⟩ := hu
      exact ⟨⟨hcalm.stated (fun _ haddress _ => hactive haddress) (fun h => by cases h), hq⟩,
        fun hlive => hproved ⟨hlive.1, hlive.2.1, hactive hlive.2.1⟩⟩
    · exact ht
  · refine steady_write hlanded (fun _ => Landed.calm) (fun u hu => ?_) ht
    obtain ⟨⟨hcalm, hq⟩, hproved⟩ := hu
    exact ⟨⟨hcalm.confirmed fun hlive _ => hproved hlive, hq⟩, hproved⟩

theorem idle_assign {J : Told → Prop} (hJ : Steady J) (hcalm : ∀ s, J s → Calm s)
    {fs : List Field} (hfs : ∀ f ∈ fs, f.idle = true) (hs : J s) :
    Phone.Ensures (fun _ => J) (fun _ => Calm) (assign .android fs) s := by
  unfold assign
  induction fs generalizing s with
  | nil => exact hs
  | cons f fs ih =>
    refine Ensures.bind (m := fun _ => J) (steady_write hJ hcalm
      (fun t ht => hJ.idle t f (hfs f List.mem_cons_self) ht) hs) fun _ t ht => ?_
    exact ih (fun g hg => hfs g (List.mem_cons_of_mem _ hg)) ht

/-- An observed settlement of the record, to its clearing. -/
theorem tells_settle (hs : Holds r.txid r.kind s)
    (hproved : r.kind = .probe → Live s → s.proved = true) :
    Tells (settle .android r) s := by
  have hend : ∀ {J : Told → Prop} {t : Told}, Steady J → (∀ s, J s → Calm s) → J t →
      Tells (do clearRecord; publish .android { block := .none }) t := fun hJ hcalm ht =>
    (blank_clearRecord hJ hcalm ht).bind fun _ _ hu => tells_publish_blank _ hu
  cases hkind : r.kind with
  | sweep =>
    have hholds := steady_holds r.txid r.kind
    refine (steady_asks hholds (fun _ => Holds.calm) (unlockInputs_asks .android r.inputs) hs).bind
      fun _ t ht => ?_
    refine Ensures.bind (m := fun _ => Holds r.txid r.kind) ?_ fun _ t ht =>
      hend hholds (fun _ => Holds.calm) ht
    simp only [pcoin.forward.settled, hkind, settleSweep]
    rw [hkind] at hholds ht
    refine (steady_asks (p := nowMs) hholds (fun _ => Holds.calm) ⟨trivial, fun _ => trivial⟩
      ht).bind fun now t ht => ?_
    exact idle_assign hholds (fun _ => Holds.calm) (by simp [Field.idle]) ht
  | probe =>
    have hlanded := steady_landed r.txid
    have hs : Landed r.txid s := ⟨hkind ▸ hs, hproved hkind⟩
    refine (steady_asks hlanded (fun _ => Landed.calm) (unlockInputs_asks .android r.inputs) hs).bind
      fun _ t ht => ?_
    refine Ensures.bind (m := fun _ => Landed r.txid) ?_ fun _ t ht =>
      hend hlanded (fun _ => Landed.calm) ht
    simp only [pcoin.forward.settled, hkind]
    exact landed_settleProbe ht

/-- The test payment that was dropped is awaited no more. -/
theorem blank_drop (hs : Holds r.txid r.kind s) :
    Phone.Ensures (fun _ => Blank) (fun _ => Calm) (drop .android r) s := by
  refine Ensures.bind (m := fun _ => Blank)
    (blank_clearRecord (steady_holds r.txid r.kind) (fun _ => Holds.calm) hs) fun _ t ht => ?_
  refine steady_read steady_blank (fun _ => Blank.calm) (fun t ht => ?_) ht
  refine Ensures.bind (m := fun _ => Blank) ?_ fun _ t ht =>
    steady_write steady_blank (fun _ => Blank.calm) (fun u hu => steady_blank.idle u _ rfl hu) ht
  split
  next hawaited =>
    have hactive : Active t := fun _ hholding => by
      have hsent := (of_decide_eq_true hawaited).2.1
      cases hsent.symm.trans hholding
    have hJ := steady_blank.and steady_active
    have hcalm : ∀ s, Blank s ∧ Active s → Calm s := fun _ h => h.1.calm
    refine Ensures.bind (m := fun _ s => Blank s ∧ Active s) (steady_write hJ hcalm
      (fun u hu => ⟨⟨hu.1.1.probed fun _ h => absurd rfl h, hu.1.2⟩, hu.2⟩) ⟨ht, hactive⟩)
        fun _ t ht => ?_
    refine Ensures.bind (m := fun _ s => Blank s ∧ Active s) (steady_write hJ hcalm
      (fun u hu => ⟨⟨hu.1.1.confirmed fun _ h => (by cases h), hu.1.2⟩, hu.2⟩) ht)
        fun _ t ht => ?_
    exact (steady_write hJ hcalm (fun u hu => ⟨hu.1.1.stated (fun _ haddress _ => hu.2 haddress)
      fun h => (by cases h), hu.1.2⟩) ht).bind fun _ _ hu => hu
  · exact ht

theorem tells_dropConflicted (hs : Holds r.txid r.kind s) :
    Tells (dropConflicted .android r) s := by
  refine (steady_asks (steady_holds r.txid r.kind) (fun _ => Holds.calm)
    (unlockInputs_asks .android r.inputs) hs).bind fun _ t ht => ?_
  exact (blank_drop ht).bind fun _ _ hu => tells_publish_blank _ hu

theorem tells_rebroadcast {again : SweepRecord → Engine Unit}
    (hagain : ∀ (next : SweepRecord) (t : Told), next.txid = r.txid → next.kind = r.kind →
      Holds r.txid r.kind t → Tells (again next) t)
    (now : Int) (hs : Holds r.txid r.kind s) : Tells (rebroadcast .android r now again) s := by
  have hversion : ∀ (q : SweepRecord) (confirmations : Int) (shown : SweepRecord) (t : Told),
      q.txid = r.txid → q.kind = r.kind → Holds r.txid r.kind t →
        Tells (do writeRecord q; publishPending .android shown confirmations) t :=
    fun q confirmations shown t htxid hkind ht => (holds_writeRecord htxid hkind ht).bind
      fun _ u hu => tells_publishPending shown confirmations hu
  refine (holds_writeRecord (q := r.attempted now) (r := r) rfl rfl hs).bind fun _ t ht => ?_
  refine steady_ask (steady_holds r.txid r.kind) (fun _ => Holds.calm) (fun t reply ht => ?_) ht
  cases reply with
  | ok _ => exact hversion _ _ _ t rfl rfl ht
  | error e =>
    dsimp only
    split
    · exact hagain _ t rfl rfl ht
    · split
      · exact ht.calm
      · exact hversion _ _ _ t rfl rfl ht

theorem tells_follow {again : SweepRecord → Engine Unit} {obs : TxObservation} {now : Int}
    (hagain : ∀ (next : SweepRecord) (t : Told), next.txid = r.txid → next.kind = r.kind →
      Holds r.txid r.kind t → Tells (again next) t)
    {res : Resolution} (hs : Holds r.txid r.kind s)
    (hproved : res = .markSettled → r.kind = .probe → Live s → s.proved = true) :
    Tells (follow .android obs r now again res) s := by
  cases res with
  | unresolved => exact tells_publishPending _ _ hs
  | rebroadcast => exact tells_rebroadcast hagain now hs
  | markBroadcast => exact tells_advance _ _ _ hs
  | markAccepted => exact tells_advance _ _ _ hs
  | markConfirmed => exact tells_advance _ _ _ hs
  | markSettled => exact tells_settle hs (hproved rfl)
  | noteConflict => exact tells_noteConflict _ _ hs
  | markConflicted => exact tells_dropConflicted hs

/-- The record is stored, and proves the address that is in use if the resolution says so. -/
def Observed (r : SweepRecord) (res : Resolution) (s : Told) : Prop :=
  Holds r.txid r.kind s ∧ (res = .markSettled → r.kind = .probe → Live s → s.proved = true)

theorem Observed.calm {res : Resolution} (h : Observed r res s) : Calm s := h.1.1

theorem steady_observed (r : SweepRecord) (res : Resolution) : Steady (Observed r res) := by
  have hlanded := steady_landed r.txid
  have hholds := steady_holds r.txid r.kind
  exact ⟨fun s c h hfree => ⟨hholds.told s c h.1 hfree, fun hres hprobe =>
      (hlanded.told s c ⟨hprobe ▸ h.1, h.2 hres hprobe⟩ hfree).2⟩,
    fun s f hf h => ⟨hholds.idle s f hf h.1, fun hres hprobe =>
      (hlanded.idle s f hf ⟨hprobe ▸ h.1, h.2 hres hprobe⟩).2⟩⟩

/-- An observation that settles a probe proves the address that is in use. -/
theorem observed_log {obs : TxObservation} {now : Int} {res : Resolution}
    (hs : Holds r.txid r.kind s) : Observed r res (s.after (.log (.resolved obs r now res))) := by
  obtain ⟨hcalm, p, hp, hptxid, hpkind⟩ := hs
  cases res with
  | markSettled =>
    refine ⟨⟨hcalm.settled r, p, hp, hptxid, hpkind⟩, fun _ hprobe hlive => ?_⟩
    have hpaid := hcalm.proofs.record hlive p hp (hpkind.trans hprobe)
    rw [hptxid] at hpaid
    simp only [Told.after, Told.settled, hprobe]
    simp [hpaid]
  | _ => exact ⟨⟨hcalm, p, hp, hptxid, hpkind⟩, fun h => (by cases h)⟩

theorem tells_resolveOnce {again : SweepRecord → Engine Unit}
    (hagain : ∀ (next : SweepRecord) (t : Told), next.txid = r.txid → next.kind = r.kind →
      Holds r.txid r.kind t → Tells (again next) t)
    (hs : Holds r.txid r.kind s) : Tells (resolveOnce .android again r) s := by
  have hholds := steady_holds r.txid r.kind
  refine (steady_asks hholds (fun _ => Holds.calm) (observe_asks .android r.txid) hs).bind
    fun obs t ht => ?_
  refine (steady_asks (p := nowMs) hholds (fun _ => Holds.calm) ⟨trivial, fun _ => trivial⟩
    ht).bind fun now t ht => ?_
  have hseen : (r.seen .android obs).txid = r.txid ∧ (r.seen .android obs).kind = r.kind := by
    unfold SweepRecord.seen
    split <;> exact ⟨rfl, rfl⟩
  generalize r.seen .android obs = next at hseen
  refine told_act (fun s c h hfree _ => hholds.told s c h hfree) (fun _ h => h.calm.sane)
    (fun _ _ => trivial) (fun t _ ht _ => ?_) ht
  generalize hres : resolve .android obs next now = res
  refine Ensures.bind (m := fun _ => Observed r res) (p := writeIf _ _) ?_ fun _ u hu => ?_
  · exact steady_writeIf (steady_observed r res) (fun _ => Observed.calm)
      (fun u hu => ⟨hu.1.version hseen.1 hseen.2, hu.2⟩) id (observed_log ht)
  · refine tells_follow (fun next t htxid hkind => ?_) ?_ ?_
    · rw [hseen.1, hseen.2]
      exact hagain next t (htxid.trans hseen.1) (hkind.trans hseen.2)
    · rw [hseen.1, hseen.2]
      exact hu.1
    · rw [hseen.2]
      exact hu.2

theorem tells_resolveRecord (left : Nat) (hs : Holds r.txid r.kind s) :
    Tells (resolveRecord .android left r) s := by
  induction left generalizing r s with
  | zero => exact tells_resolveOnce (fun next t _ _ ht => tells_publishPending next (-1) ht) hs
  | succ left ih =>
    refine tells_resolveOnce (fun next t htxid hkind ht => ih ?_) hs
    rwa [htxid, hkind]

end Resolution

end pcoin.forward
