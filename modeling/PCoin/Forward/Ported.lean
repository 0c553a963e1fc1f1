import PCoin.Forward.Alike

namespace pcoin.forward

open run Routine Pairing

section Shown

variable {i : Inputs} {F : Bool → Bool → Prop}

/-- Two engines that end with the same result, where they are. -/
def Twin {α : Type} (i : Inputs) (F : Bool → Bool → Prop) (p q : Engine α) : Prop :=
  (ported i).Agree (On F) (Same F) p q

theorem twin_pure {α : Type} (a : α) : Twin i F (pure a) (pure a) :=
  agree_done fun _ ht => ⟨rfl, ht⟩

/-- One part after another, with the same result of the first. -/
theorem agree_then {α β : Type} {G : Bool → Bool → Prop} {T : β → β → Course → Prop}
    {p q : Engine α} {f g : α → Engine β} (h : (ported i).Agree (On F) (Same G) p q)
    (hf : ∀ a, (ported i).Agree (On G) T (f a) (g a)) :
    (ported i).Agree (On F) T (p >>= f) (q >>= g) :=
  Agree.bind h fun a _ => agree_of_fact fun hab => hab ▸ hf a

theorem Twin.bind {α β : Type} {T : β → β → Course → Prop} {p q : Engine α} {f g : α → Engine β}
    (h : Twin i F p q) (hf : ∀ a, (ported i).Agree (On F) T (f a) (g a)) :
    (ported i).Agree (On F) T (p >>= f) (q >>= g) :=
  agree_then h hf

/-- One part after another, with a fact of the same result of the first. -/
theorem agree_bind {α β : Type} {G : Bool → Bool → Prop} {T : β → β → Course → Prop}
    {Q : α → Prop} {p q : Engine α} {f g : α → Engine β}
    (h : (ported i).Agree (On F) (fun a b t => (a = b ∧ Q a) ∧ On G t) p q)
    (hf : ∀ a, Q a → (ported i).Agree (On G) T (f a) (g a)) :
    (ported i).Agree (On F) T (p >>= f) (q >>= g) :=
  Agree.bind h fun a _ => agree_of_fact fun hab => hab.1 ▸ hf a hab.2

theorem twin_of_agree {p q : Engine Unit}
    (h : (ported i).Agree (On F) (fun _ _ => On F) p q) : Twin i F p q :=
  h.mono (fun _ h => h) fun _ _ _ ht => ⟨rfl, ht⟩

theorem twin_write {fs gs : List Field} (h : fs.filter Field.matters = gs.filter Field.matters) :
    Twin i F (write fs) (write gs) :=
  twin_of_agree (agree_write h)

theorem twin_nowMs : Twin i F nowMs nowMs := by
  refine agree_act fun s t hst ht _ => ?_
  obtain ⟨store, plain, rfl, hstore⟩ := Course.alike_iff.mp hst
  exact ⟨Course.alike_iff.mpr ⟨store, plain, rfl, hstore⟩, On F, ht, twin_pure _⟩

/-- An action of both engines that none of them keeps. -/
theorem twin_pass {a : Act} {k l : a.Reply → Engine Unit} (r : a.Reply)
    (h : ∀ (port : Port) (s : Course), s.answer port i a = (r, s))
    (hk : Twin i F (k r) (l r)) : Twin i F (.act a k) (.act a l) := by
  refine agree_act fun s t hst ht _ => ?_
  simp only [ported, h]
  exact ⟨hst, On F, ht, hk⟩

theorem twin_publish (shown : Shown) : Twin i F (publish .windows shown) (publish .android shown) :=
  (twin_write rfl).bind fun _ =>
    twin_pass (a := .publish shown) () (fun _ _ => rfl) (twin_pure ())

theorem twin_publishPending (r : SweepRecord) (confirmations : Int) :
    Twin i F (publishPending .windows r confirmations) (publishPending .android r confirmations) :=
  twin_publish _

theorem twin_writeRecord (r : SweepRecord) : Twin i F (writeRecord r) (writeRecord r) :=
  twin_write rfl

theorem twin_clearRecord : Twin i F clearRecord clearRecord := twin_write rfl

theorem twin_writeIf (c : Bool) (fs : List Field) : Twin i F (writeIf c fs) (writeIf c fs) := by
  unfold writeIf
  split
  · exact twin_write rfl
  · exact twin_pure ()

/-- Several setters, at once or one by one. -/
theorem exec_assign (port p : Port) (fs : List Field) (s : Course) :
    (assign port fs).exec (Course.answer p i) s = (.ok (), { s with store := s.store.batch fs }) := by
  cases port with
  | windows => rfl
  | android =>
    unfold assign
    induction fs generalizing s with
    | nil => rfl
    | cons f fs ih => exact ih _

/-- Programs of writes alone that leave the same store. -/
theorem twin_of_exec {p q : Engine Unit} {f g : Store → Store}
    (hp : ∀ s : Course, p.exec (Course.answer .windows i) s = (.ok (), { s with store := f s.store }))
    (hq : ∀ s : Course, q.exec (Course.answer .android i) s = (.ok (), { s with store := g s.store }))
    (h : ∀ v w : Store, v.intent = w.intent → (f v).intent = (g w).intent) : Twin i F p q := by
  intro s t hst ht _
  obtain ⟨store, plain, rfl, hstore⟩ := Course.alike_iff.mp hst
  change (ported i).Ends (Same F) (p.exec (Course.answer .windows i) s)
    (q.exec (Course.answer .android i) _)
  rw [hp, hq]
  exact ⟨⟨rfl, ht⟩, Course.alike_iff.mpr ⟨_, plain, rfl, h _ _ hstore⟩⟩

theorem intent_batch_eq {v w : Store} (h : v.intent = w.intent) {fs gs : List Field}
    (hfs : fs.filter Field.matters = gs.filter Field.matters) :
    (v.batch fs).intent = (w.batch gs).intent := by
  rw [Store.intent_batch, Store.intent_batch, hfs, h]

theorem twin_assign {fs gs : List Field} (h : fs.filter Field.matters = gs.filter Field.matters) :
    Twin i F (assign .windows fs) (assign .android gs) :=
  twin_of_exec (exec_assign .windows .windows fs) (exec_assign .android .android gs)
    fun _ _ hvw => intent_batch_eq hvw h

end Shown

section Resolution

variable {i : Inputs} {F : Bool → Bool → Prop}

/-- The record of a store, by what matters of it. -/
theorem intent_record {v w : Store} (h : v.intent = w.intent) : v.record = w.record :=
  (congrArg Store.record h :)

theorem twin_readRecord : Twin i F readRecord readRecord := by
  refine agree_read fun v w hvw => ?_
  have hrecord := intent_record hvw
  unfold recordIn
  simp only [hrecord]
  split
  · exact twin_pure _
  · exact (twin_write rfl).bind fun _ => twin_pure _
  · exact twin_pure _

theorem twin_observeMempool (txid : String) (obs : TxObservation) :
    Twin i F (observeMempool txid obs) (observeMempool txid obs) := by
  unfold observeMempool
  split
  · exact twin_pure _
  · refine agree_ask (fun _ _ h => h) fun reply _ => ?_
    split <;> exact twin_pure _

theorem int_eq {n : Option Int} (h : n.all plainInt = true) (d : Int) (hd : plainInt d = true) :
    Port.windows.int (n.getD d) = Port.android.int (n.getD d) := by
  cases n with
  | none => exact (of_decide_eq_true hd).symm
  | some n => exact (of_decide_eq_true h).symm

theorem twin_observe (txid : String) : Twin i F (observe .windows txid) (observe .android txid) := by
  refine agree_ask (fun _ _ h => h) fun reply ⟨a, r, _, hplain⟩ => ?_
  match reply with
  | .ok (some tx) =>
    dsimp only
    rw [int_eq hplain 0 rfl]
    exact twin_observeMempool txid _
  | .ok none => exact twin_pure _
  | .error e =>
    dsimp only
    split
    · exact twin_observeMempool txid _
    · exact twin_pure _

theorem twin_advance (r : SweepRecord) (state : SweepState) (confirmations now : Int) :
    Twin i F (advance .windows r state confirmations now)
      (advance .android r state confirmations now) :=
  (twin_writeIf _ _).bind fun _ => twin_publishPending _ _

theorem twin_noteConflict (r : SweepRecord) (confirmations now : Int) :
    Twin i F (noteConflict .windows r confirmations now)
      (noteConflict .android r confirmations now) :=
  (twin_writeRecord _).bind fun _ => twin_publishPending _ _

theorem twin_lockunspent (unlock : Bool) (outs outs' : List (Option String × Option Int)) :
    Twin i F (lockunspent unlock outs) (lockunspent unlock outs') :=
  agree_calls (fun _ => rfl) (fun _ _ h => h) fun _ _ => twin_pure ()

/-- A record with inputs is unlocked on both machines. -/
theorem twin_unlockInputs (inputs : List Outpoint) :
    Twin i F (unlockInputs .windows inputs) (unlockInputs .android inputs) := by
  unfold unlockInputs
  rw [if_neg (show ¬(Port.android = .windows ∧ inputs.isEmpty = true) from fun h => nomatch h.1)]
  split
  next hempty =>
    -- The phone asks the node to unlock nothing, which the tray does not.
    intro s t _ _ hkept
    have hplain := (Bool.and_eq_true_iff.mp (show (t.asked .android i
      (.lockunspent true (outpointFields inputs))).plain = true from hkept)).2
    rw [List.isEmpty_iff.mp hempty.2] at hplain
    cases hplain
  · exact twin_lockunspent _ _ _

/-- What a settled test payment repairs. -/
def repaired (r : SweepRecord) (s : Store) : List Field :=
  (if s.probeTxid = "" then [.probeTxid r.txid] else []) ++
    (if s.state = .probingPending then [.state .probingSent] else []) ++ [.probeConfirmed true]

theorem exec_read {α : Type} (p : Port) (f : View → Engine α) (s : Course) :
    (read >>= f).exec (Course.answer p i) s = (f ⟨s.store, false⟩).exec (Course.answer p i) s := rfl

theorem exec_writeIf {α : Type} (p : Port) (c : Bool) (fs : List Field) (f : Unit → Engine α)
    (s : Course) : (writeIf c fs >>= f).exec (Course.answer p i) s =
      (f ()).exec (Course.answer p i) { s with store := s.store.batch (if c then fs else []) } := by
  cases c <;> rfl

theorem exec_settleProbe (port p : Port) (r : SweepRecord) (s : Course) :
    (settleProbe port r).exec (Course.answer p i) s =
      (.ok (), { s with store := s.store.batch (repaired r s.store) }) := by
  cases port with
  | windows => rfl
  | android =>
    have hstate : (s.store.batch (if s.store.probeTxid = "" then [.probeTxid r.txid] else [])).state =
        s.store.state := by
      split <;> rfl
    simp only [settleProbe, exec_read, exec_writeIf, hstate, decide_eq_true_eq]
    simp only [repaired, Store.batch, List.foldl_append]
    rfl

theorem twin_settleProbe (r : SweepRecord) :
    Twin i F (settleProbe .windows r) (settleProbe .android r) :=
  twin_of_exec (exec_settleProbe .windows .windows r) (exec_settleProbe .android .android r)
    fun v w hvw => intent_batch_eq hvw (by
      have htxid : v.probeTxid = w.probeTxid := (congrArg Store.probeTxid hvw :)
      have hstate : v.state = w.state := (congrArg Store.state hvw :)
      rw [repaired, repaired, htxid, hstate])

theorem twin_settle (r : SweepRecord) : Twin i F (settle .windows r) (settle .android r) := by
  refine (twin_unlockInputs r.inputs).bind fun _ => Twin.bind ?_ fun _ =>
    twin_clearRecord.bind fun _ => twin_publish _
  unfold settled
  split
  · exact twin_nowMs.bind fun now => twin_assign rfl
  · exact twin_settleProbe r

/-- What dropping a record writes. -/
def dropped (r : SweepRecord) (s : Store) : List Field :=
  [.record .empty] ++ (if r.awaited s then dropProbe else []) ++ [.lastError conflictedError]

theorem exec_drop (port p : Port) (r : SweepRecord) (s : Course) :
    (drop port r).exec (Course.answer p i) s =
      (.ok (), { s with store := s.store.batch (dropped r s.store) }) := by
  cases port with
  | windows => rfl
  | android =>
    have hawaited : r.awaited (s.store.set (.record .empty)) = r.awaited s.store := rfl
    change ((assign .android (if r.awaited (s.store.set (.record .empty)) then dropProbe else []) >>=
      fun _ => write [.lastError conflictedError]).exec (Course.answer p i)
        { s with store := s.store.set (.record .empty) }) = _
    rw [exec_bind, exec_assign, hawaited]
    simp only [dropped, Store.batch, List.foldl_append]
    rfl

theorem twin_dropConflicted (r : SweepRecord) :
    Twin i F (dropConflicted .windows r) (dropConflicted .android r) := by
  refine (twin_unlockInputs r.inputs).bind fun _ => Twin.bind ?_ fun _ => twin_publish _
  refine twin_of_exec (exec_drop .windows .windows r) (exec_drop .android .android r)
    fun v w hvw => intent_batch_eq hvw ?_
  have htxid : v.probeTxid = w.probeTxid := (congrArg Store.probeTxid hvw :)
  have hstate : v.state = w.state := (congrArg Store.state hvw :)
  rw [dropped, dropped, SweepRecord.awaited, SweepRecord.awaited, htxid, hstate]

/-- What is known where a record is being resolved. -/
def resolves (_adopting resolving : Bool) : Prop := resolving = true

theorem twin_rebroadcast {again again' : SweepRecord → Engine Unit}
    (hagain : ∀ r, Twin i resolves (again r) (again' r)) (r : SweepRecord) (now : Int) :
    Twin i resolves (rebroadcast .windows r now again) (rebroadcast .android r now again') := by
  refine (twin_writeRecord _).bind fun _ => agree_ask (fun _ _ h => h) fun reply hplain => ?_
  cases reply with
  | ok _ => exact (twin_writeRecord _).bind fun _ => twin_publishPending _ _
  | error e =>
    obtain ⟨a, _, rfl, hplain⟩ := hplain
    have htransport : e.transport = false := by simpa [plainReply] using hplain
    dsimp only
    split
    · exact hagain _
    · simp only [reduceCtorEq, if_false, htransport, and_false, Bool.false_eq_true]
      exact (twin_writeRecord _).bind fun _ => twin_publishPending _ _

theorem twin_follow {again again' : SweepRecord → Engine Unit}
    (hagain : ∀ r, Twin i resolves (again r) (again' r)) (obs : TxObservation) (r : SweepRecord)
    (now : Int) (res : Resolution) :
    Twin i resolves (follow .windows obs r now again res) (follow .android obs r now again' res) := by
  cases res with
  | unresolved => exact twin_publishPending r _
  | rebroadcast => exact twin_rebroadcast hagain r now
  | markBroadcast => exact twin_advance r _ _ now
  | markAccepted => exact twin_advance r _ _ now
  | markConfirmed => exact twin_advance r _ _ now
  | markSettled => exact twin_settle r
  | noteConflict => exact twin_noteConflict r _ now
  | markConflicted => exact twin_dropConflicted r

/-- Where the phone erases no sighting, both engines resolve a record alike. -/
theorem agree_resolveOnce {again again' : SweepRecord → Engine Unit}
    (hagain : ∀ r, Twin i resolves (again r) (again' r)) (r : SweepRecord) :
    (ported i).Agree (On F) (Same resolves) (resolveOnce .windows again r)
      (resolveOnce .android again' r) := by
  refine (twin_observe r.txid).bind fun obs => twin_nowMs.bind fun now => ?_
  refine agree_log (G := resolves) (fun _ _ _ => rfl) fun hplain => ?_
  have hclears : clearsConflict .android obs r = false := by simpa [plainLog] using hplain
  have hseen : r.seen .windows obs = r ∧ r.seen .android obs = r := by
    simp only [SweepRecord.seen, hclears, Bool.false_eq_true, if_false, and_true]
    rfl
  rw [hseen.1, hseen.2, resolve_eq .windows, hclears]
  exact ⟨rfl, (twin_writeIf false _).bind fun _ => twin_follow hagain obs r now _⟩

theorem agree_resolveRecord (left : Nat) (r : SweepRecord) :
    (ported i).Agree (On F) (Same resolves) (resolveRecord .windows left r)
      (resolveRecord .android left r) := by
  induction left generalizing r F with
  | zero => exact agree_resolveOnce (fun next => twin_publishPending next _) r
  | succ left ih => exact agree_resolveOnce (fun next => ih next) r

end Resolution

end pcoin.forward
