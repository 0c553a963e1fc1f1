import PCoin.Forward.Tray

namespace pcoin.forward

open run Routine Surroundings

/-- The wallet has the transaction buried deep enough. -/
def TxObservation.settles (obs : TxObservation) : Bool :=
  obs.readable && obs.knownToWallet && decide (settledConfirmations ≤ obs.confirmations)

/-- The wallet says that another transaction has taken its place. -/
def TxObservation.negative (obs : TxObservation) : Bool :=
  obs.readable && obs.knownToWallet && decide (obs.confirmations < 0)

/-- Nothing about the transaction could be read. -/
def TxObservation.silent (obs : TxObservation) : Bool :=
  !obs.readable || (!obs.knownToWallet && !obs.mempoolReadable)

/-- An observation of the recorded transaction, and the clock at it. -/
structure Sighting where
  obs : TxObservation
  now : Int
deriving DecidableEq

/-- The store on the disk, and what was observed since the record in it was stored, newest first. -/
structure Watched where
  store : Store
  seen : List Sighting := []

/-- The store and the observations after an action. A cleared record takes its own with it. -/
def Watched.after (w : Watched) : Act → Watched
  | .write fs => ⟨w.store.batch fs, if .record .empty ∈ fs then [] else w.seen⟩
  | .log (.resolved obs _ now _) => { w with seen := ⟨obs, now⟩ :: w.seen }
  | _ => w

/-- The proof that a clearing needs: a settlement that was seen, or two conflicts far enough apart
with nothing healthy between them. -/
def Proved (seen : List Sighting) : Prop :=
  (∃ o ∈ seen, o.obs.settles = true) ∨
    ∃ last middle first rest, seen = last :: middle ++ first :: rest ∧
      last.obs.negative = true ∧ first.obs.negative = true ∧
      conflictConfirmMs ≤ last.now - first.now ∧ ∀ o ∈ middle, o.obs.healthy = false

/-- What a write of `fs` has to keep. -/
structure Lawful (w : Watched) (fs : List Field) : Prop where
  /-- A record that is stored over another is a version of it, with the same hex. -/
  same : ∀ r q, .record (.record r) ∈ fs → w.store.record = .record q →
    r.txid = q.txid ∧ r.hex = q.hex
  /-- After an answer that says nothing, the record and the state stay. -/
  still : ∀ o ∈ w.seen.head?, o.obs.silent = true →
    (w.store.batch fs).record = w.store.record ∧ (w.store.batch fs).state = w.store.state
  clears : .record .empty ∈ fs → w.store.record ≠ .empty → Proved w.seen

/-- What an action has to meet. -/
def Meets (w : Watched) : Act → Prop
  | .call (.sendrawtransaction hex) => ∃ r, w.store.record = .record r ∧ r.hex = hex
  | .call c => c.builds = true → w.store.record.inFlight = false
  | .write fs => Lawful w fs
  | _ => True

/-- The sighting of a conflict at `c` has not been overtaken, or the transaction has settled. -/
def Backed (c : Int) (seen : List Sighting) : Prop :=
  (∃ o ∈ seen, o.obs.settles = true) ∨
    ∃ middle first rest, seen = middle ++ first :: rest ∧ first.obs.negative = true ∧
      first.now = c ∧ ∀ o ∈ middle, o.obs.healthy = false

/-- What the store says of the observations. -/
def Kept : Blob → List Sighting → Prop
  | .empty, seen => seen = []
  | .garbled, _ => True
  | .record r, seen => r.terminal = false ∧ (r.conflictSeenAtMs ≠ 0 → Backed r.conflictSeenAtMs seen)

/-- The record still holds the sighting of a conflict, and the newest observation is a healthy one
of a transaction that has never settled. -/
def Watched.overtaken (w : Watched) : Bool :=
  match w.store.record with
  | .record r => decide (r.conflictSeenAtMs ≠ 0) && (w.seen.head?.any fun o => o.obs.healthy) &&
      w.seen.all fun o => !o.obs.settles
  | _ => false

/-- A reading of the store finds what is on the disk. -/
def Watched.answers (w : Watched) : (a : Act) → a.Reply → Prop
  | .read, v => v = ⟨w.store, false⟩
  | _, _ => True

/-- A process over the store. The tray goes no further from a state that is overtaken. -/
def Guarded (port : Port) : Surroundings Act Act.Reply Watched where
  step w a r u := (w.overtaken = true → port = .android) ∧ w.answers a r ∧ u = w.after a
  rely _ w u := u = w
  wait _ w := Kept w.store.record w.seen ∨ w.overtaken = true
  meet w a _ := Meets w a

/-- The observations are as the store says, or a tray is stuck. -/
def Fine (port : Port) (w : Watched) : Prop :=
  Kept w.store.record w.seen ∨ (port = .windows ∧ w.overtaken = true)

/-- The record and the observations of a store. -/
def At (b : Blob) (seen : List Sighting) (w : Watched) : Prop :=
  w.store.record = b ∧ w.seen = seen

def Guards {α : Type} (port : Port) (p : Engine α) (w : Watched) : Prop :=
  (Guarded port).Ensures (fun _ => Fine port) (fun _ => Fine port) p w

/-! ### The observations -/

section Observations

variable {obs : TxObservation} {port : Port} {r : SweepRecord} {now c : Int} {o : Sighting}
  {seen : List Sighting}

theorem TxObservation.healthy_of_settles (h : obs.settles = true) : obs.healthy = true := by
  simp only [settles, healthy, Bool.and_eq_true, decide_eq_true_eq] at h ⊢
  obtain ⟨hsaid, hdeep⟩ := h
  exact ⟨hsaid, le_trans (by decide) hdeep⟩

theorem TxObservation.not_healthy_of_negative (h : obs.negative = true) : obs.healthy = false := by
  simp only [negative, Bool.and_eq_true, decide_eq_true_eq] at h
  have hlt : ¬0 ≤ obs.confirmations := by have := h.2; omega
  simp only [healthy, hlt, decide_false, Bool.and_false]

theorem resolve_silent (h : obs.silent = true) : resolve port obs r now = .unresolved := by
  simp only [TxObservation.silent, Bool.or_eq_true, Bool.and_eq_true] at h
  obtain h | ⟨hknown, hmempool⟩ := h
  · simp only [resolve, h, if_true]
  · unfold resolve
    split
    · rfl
    · simp_all [resolveMempool]

/-- What an observation was, by the resolution it led to. -/
def Led (obs : TxObservation) (r : SweepRecord) (now : Int) : Resolution → Prop
  | .markSettled => obs.settles = true
  | .noteConflict => obs.negative = true
  | .markConflicted => obs.negative = true ∧ r.conflictSeenAtMs ≠ 0 ∧
      conflictConfirmMs ≤ now - r.conflictSeenAtMs
  | _ => True

theorem led_of_mempool (port : Port) (obs : TxObservation) (r : SweepRecord) (now : Int) :
    Led obs r now (resolveMempool port obs r now) := by
  unfold resolveMempool
  generalize (if r.broadcastAtMs ≠ 0 then port.since now r.broadcastAtMs else 0) = age
  split
  · trivial
  · split
    · trivial
    · split
      · trivial
      · split <;> trivial

theorem led_resolve (port : Port) (obs : TxObservation) (r : SweepRecord) (now : Int) :
    Led obs r now (resolve port obs r now) := by
  unfold resolve
  split
  · trivial
  next hreadable =>
    split
    next hknown =>
      have hsaid : obs.readable = true ∧ obs.knownToWallet = true := by simp_all
      split
      next hsettled => simpa [Led, TxObservation.settles, hsaid] using hsettled
      · split
        · trivial
        · split
          next hneg =>
            have hnegative : obs.negative = true := by
              simpa [TxObservation.negative, hsaid] using hneg
            unfold resolveConflict
            split
            next hlate =>
              exact ⟨hnegative, hlate.1, (le_since_iff (by decide) port now _).mp hlate.2⟩
            · exact hnegative
          · exact led_of_mempool port obs r now
    · exact led_of_mempool port obs r now

theorem backed_of_settles (ho : o ∈ seen) (h : o.obs.settles = true) : Backed c seen :=
  .inl ⟨o, ho, h⟩

theorem Backed.cons (h : Backed c seen) (ho : o.obs.healthy = false) : Backed c (o :: seen) := by
  obtain ⟨p, hp, hsettles⟩ | ⟨middle, first, rest, rfl, hneg, hnow, hmiddle⟩ := h
  · exact .inl ⟨p, List.mem_cons_of_mem _ hp, hsettles⟩
  · exact .inr ⟨o :: middle, first, rest, rfl, hneg, hnow, List.forall_mem_cons.mpr ⟨ho, hmiddle⟩⟩

theorem backed_head (h : o.obs.negative = true) : Backed o.now (o :: seen) :=
  .inr ⟨[], o, seen, rfl, h, rfl, fun _ hp => by cases hp⟩

theorem Backed.proved (h : Backed c seen) (ho : o.obs.negative = true)
    (hlate : conflictConfirmMs ≤ o.now - c) : Proved (o :: seen) := by
  obtain ⟨p, hp, hsettles⟩ | ⟨middle, first, rest, rfl, hneg, rfl, hmiddle⟩ := h
  · exact .inl ⟨p, List.mem_cons_of_mem _ hp, hsettles⟩
  · exact .inr ⟨o, middle, first, rest, rfl, ho, hneg, hlate, hmiddle⟩

/-- A record keeps what it says of the observations, whatever else of it changes. -/
theorem Kept.version {q : SweepRecord} (h : Kept (.record r) seen) (hterminal : q.terminal = false)
    (hconflict : q.conflictSeenAtMs = r.conflictSeenAtMs) : Kept (.record q) seen :=
  ⟨hterminal, fun hc => hconflict ▸ h.2 (hconflict ▸ hc)⟩

theorem kept_fresh (hterminal : r.terminal = false) (hconflict : r.conflictSeenAtMs = 0) :
    Kept (.record r) seen :=
  ⟨hterminal, fun hc => absurd hconflict hc⟩

end Observations

/-! ### The rules -/

section Rules

variable {port : Port} {α : Type} {b : Blob} {seen : List Sighting} {w : Watched}
  {post : α → Watched → Prop}

theorem At.fine (h : At b seen w) (hkept : Kept b seen) : Fine port w :=
  .inl (by rw [h.1, h.2]; exact hkept)

/-- An action of a process at a known record. -/
theorem guarded_act {a : Act} {k : a.Reply → Engine α} (hw : At b seen w)
    (hkept : Kept b seen ∨ w.overtaken = true) (hmeet : Meets w a)
    (hk : ∀ r, w.answers a r → (Guarded port).Ensures post (fun _ => Fine port) (k r) (w.after a)) :
    (Guarded port).Ensures post (fun _ => Fine port) (.act a k) w := by
  rintro u rfl
  refine ⟨hkept.imp_left fun hkept => by rw [hw.1, hw.2]; exact hkept, ?_⟩
  rintro r u ⟨-, hr, rfl⟩
  exact ⟨hmeet, hk r hr⟩

/-- A tray goes no further from a state that is overtaken. -/
theorem guards_stuck (p : Engine α) (hport : port = .windows) (hw : w.overtaken = true) :
    Guards port p w := by
  cases p with
  | done a => exact .inr ⟨hport, hw⟩
  | fail e => exact .inr ⟨hport, hw⟩
  | act a k =>
    rintro u rfl
    refine ⟨.inr hw, fun r u hu => ?_⟩
    cases hport.symm.trans (hu.1 hw)

theorem meets_of_asks {c : Call} (h : c.asks = true) : Meets w (.call c) := by
  cases c with
  | sendall | send | sendrawtransaction => cases h
  | _ => exact fun hbuilds => by cases hbuilds

theorem Field.display_keeps {fs : List Field} (h : ∀ f ∈ fs, f.display = true) (s : Store) :
    (s.batch fs).record = s.record ∧ (s.batch fs).state = s.state := by
  induction fs generalizing s with
  | nil => exact ⟨rfl, rfl⟩
  | cons f fs ih =>
    have hrest := ih (fun g hg => h g (List.mem_cons_of_mem _ hg)) (s.set f)
    have hf := h f List.mem_cons_self
    cases f <;> first | exact hrest | cases hf

/-- What shows only leaves the record and the observations as they are. -/
theorem at_of_shows {p : Engine α} (hp : p.Only Act.Shows) (hkept : Kept b seen)
    (hw : At b seen w) :
    (Guarded port).Ensures (fun _ => At b seen) (fun _ => At b seen) p w := by
  refine ensures_of_only hp (fun a s t _ hs h => ?_) (fun s a r t ha hs hstep => ?_) hw
  · obtain rfl := h
    exact ⟨hs, .inl (by rw [hs.1, hs.2]; exact hkept)⟩
  · obtain ⟨-, -, rfl⟩ := hstep
    cases a with
    | call c => exact ⟨meets_of_asks ha, hs⟩
    | write fs =>
      have hkeeps := Field.display_keeps ha s.store
      have hnone : ∀ b, .record b ∉ fs := fun b hb => by cases ha _ hb
      refine ⟨⟨fun r q hr => absurd hr (hnone _), fun _ _ _ => hkeeps,
        fun hempty => absurd hempty (hnone _)⟩, hkeeps.1.trans hs.1, ?_⟩
      rw [Watched.after, if_neg (hnone _)]
      exact hs.2
    | log d => cases d with
      | resolved => cases ha
      | verdict | built | adopted => exact ⟨trivial, hs⟩
    | now | read | publish => exact ⟨trivial, hs⟩
    | reload | lock | unlock | reconciled => cases ha

theorem at_of_asks {p : Engine α} (hp : p.Only Act.Asks) (hkept : Kept b seen) (hw : At b seen w) :
    (Guarded port).Ensures (fun _ => At b seen) (fun _ => Fine port) p w :=
  (at_of_shows (shows_of_asks hp) hkept hw).mono (fun _ _ h => h) fun _ _ h => h.fine hkept

theorem guards_of_shows {p : Engine α} (hp : p.Only Act.Shows) (hkept : Kept b seen)
    (hw : At b seen w) : Guards port p w :=
  (at_of_shows hp hkept hw).mono (fun _ _ h => h.fine hkept) fun _ _ h => h.fine hkept

/-- The newest answer said something. -/
def Spoken (seen : List Sighting) : Prop := ∀ o ∈ seen.head?, o.obs.silent = false

theorem Spoken.still (h : Spoken w.seen) (fs : List Field) : ∀ o ∈ w.seen.head?,
    o.obs.silent = true →
      (w.store.batch fs).record = w.store.record ∧ (w.store.batch fs).state = w.store.state := by
  intro o ho hsilent
  rw [h o ho] at hsilent
  cases hsilent

/-- A write of setters that leave the record as it is. -/
theorem at_write_other {fs : List Field} (hfs : ∀ f ∈ fs, f.other = true) (hspoken : Spoken seen)
    (hkept : Kept b seen) (hw : At b seen w) :
    (Guarded port).Ensures (fun _ => At b seen) (fun _ => Fine port) (write fs) w := by
  have hnone : ∀ b, .record b ∉ fs := fun b hb => by cases hfs _ hb
  refine guarded_act hw (.inl hkept) ⟨fun r q hr => absurd hr (hnone _), ?_,
    fun hempty => absurd hempty (hnone _)⟩ fun _ _ => ⟨?_, ?_⟩
  · exact Spoken.still (by rwa [hw.2]) fs
  · exact (Store.batch_record hfs _).trans hw.1
  · rw [Watched.after, if_neg (hnone _)]
    exact hw.2

theorem at_assign_other {fs : List Field} (hfs : ∀ f ∈ fs, f.other = true) (hspoken : Spoken seen)
    (hkept : Kept b seen) (hw : At b seen w) :
    (Guarded port).Ensures (fun _ => At b seen) (fun _ => Fine port) (assign port fs) w := by
  cases port with
  | windows => exact at_write_other hfs hspoken hkept hw
  | android =>
    unfold assign
    induction fs generalizing w with
    | nil => exact hw
    | cons f fs ih =>
      have hf := hfs f List.mem_cons_self
      refine (at_write_other (by simpa using hf) hspoken hkept hw).bind fun _ w hw => ?_
      exact ih (fun g hg => hfs g (List.mem_cons_of_mem _ hg)) hw

/-- A record is stored over none, or over an earlier version of it. -/
theorem at_write_record {r : SweepRecord} {fs : List Field} (hfs : ∀ f ∈ fs, f.other = true)
    (hsame : ∀ q, b = .record q → r.txid = q.txid ∧ r.hex = q.hex) (hspoken : Spoken seen)
    (hkept : Kept b seen ∨ w.overtaken = true) (hw : At b seen w) :
    (Guarded port).Ensures (fun _ => At (.record r) seen) (fun _ => Fine port)
      (write (.record (.record r) :: fs)) w := by
  have hnone : ∀ c, .record c ∉ fs := fun c hc => by cases hfs _ hc
  refine guarded_act hw hkept ⟨fun q p hq hp => ?_, ?_, fun hempty => ?_⟩ fun _ _ => ⟨?_, ?_⟩
  · obtain hq | hq := List.mem_cons.mp hq
    · cases hq
      exact hsame p (hw.1.symm.trans hp)
    · exact absurd hq (hnone _)
  · exact Spoken.still (by rwa [hw.2]) _
  · simp [hnone] at hempty
  · exact Store.batch_record hfs _
  · simp [Watched.after, hnone, hw.2]

theorem at_writeRecord {r : SweepRecord}
    (hsame : ∀ q, b = .record q → r.txid = q.txid ∧ r.hex = q.hex) (hspoken : Spoken seen)
    (hkept : Kept b seen) (hw : At b seen w) :
    (Guarded port).Ensures (fun _ => At (.record r) seen) (fun _ => Fine port) (writeRecord r) w :=
  at_write_record (by simp) hsame hspoken (.inl hkept) hw

/-- A clearing, and what is written with it. -/
theorem at_clear {fs : List Field} (hfs : ∀ f ∈ fs, f.other = true) (hproved : Proved seen)
    (hspoken : Spoken seen) (hkept : Kept b seen) (hw : At b seen w) :
    (Guarded port).Ensures (fun _ => At .empty []) (fun _ => Fine port)
      (write (.record .empty :: fs)) w := by
  have hnone : ∀ c, .record c ∉ fs := fun c hc => by cases hfs _ hc
  refine guarded_act hw (.inl hkept) ⟨fun q p hq => ?_, ?_, fun _ _ => ?_⟩ fun _ _ => ⟨?_, ?_⟩
  · simp [hnone] at hq
  · exact Spoken.still (by rwa [hw.2]) _
  · rwa [hw.2]
  · exact Store.batch_record hfs _
  · simp [Watched.after]

theorem kept_empty : Kept .empty [] := rfl

theorem spoken_nil : Spoken [] := fun _ ho => by cases ho

theorem at_ask {c : Call} (hmeet : Meets w (.call c)) (hkept : Kept b seen) (hw : At b seen w)
    {f : Except Failure c.Reply → Engine α}
    (hf : ∀ r, (Guarded port).Ensures post (fun _ => Fine port) (f r) w) :
    (Guarded port).Ensures post (fun _ => Fine port) (ask c >>= f) w :=
  guarded_act hw (.inl hkept) hmeet fun r _ => hf r

theorem at_read (hkept : Kept b seen) (hw : At b seen w) {f : View → Engine α}
    (hf : (Guarded port).Ensures post (fun _ => Fine port) (f ⟨w.store, false⟩) w) :
    (Guarded port).Ensures post (fun _ => Fine port) (read >>= f) w :=
  guarded_act hw (.inl hkept) trivial fun r hr => by
    obtain rfl := hr
    exact hf

theorem at_nowMs (hkept : Kept b seen) (hw : At b seen w) :
    (Guarded port).Ensures (fun _ => At b seen) (fun _ => Fine port) nowMs w :=
  at_of_asks ⟨trivial, fun _ => trivial⟩ hkept hw

end Rules

end pcoin.forward
