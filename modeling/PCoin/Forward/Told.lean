import PCoin.Forward.Tray

namespace pcoin.forward

open run Routine Surroundings

/-- What the user does on the forwarding screen of the phone. -/
inductive Command
  | store (address : String) (given : address ≠ "")
  | stopForwarding

/-- The writes of a command, under `INTENT_LOCK`. -/
def Command.fields (s : Store) : Command → List Field
  | store a _ =>
    if s.record ≠ .empty then [.pendingAddress a]
    else .address a :: .pendingAddress "" :: Port.android.reprobe
  | stopForwarding =>
    [.address "", .pendingAddress "", .probeTxid "", .probeConfirmed false, .state .holding]

/-- The user's last word: to stop, to forward to an address, or neither of these for sure. -/
inductive Word
  | free
  | stop
  | store (address : String)
deriving DecidableEq

/-- The preferences of the phone, and what has happened to them: the user's last word, whether a
probe that pays the address was seen settled since the address was set, the probes that were
committed with what they pay, and whether the address was set and the state not yet. -/
structure Told where
  store : Store := {}
  held : Bool := false
  word : Word := .free
  proved : Bool := false
  paid : List (String × String) := []
  half : Bool := false

namespace Told

/-- A write of the engine. A record that is written under the lock is a commit. -/
def set (s : Told) (f : Field) : Told where
  store := s.store.set f
  held := s.held
  word := s.word
  proved := match f with
    | .address _ => false
    | _ => s.proved
  paid := match f with
    | .record (.record r) =>
      if s.held = true ∧ r.kind = .probe then (r.txid, r.address) :: s.paid else s.paid
    | _ => s.paid
  half := match f with
    | .address _ => true
    | .state _ => false
    | _ => s.half

/-- An observed settlement of a probe proves the address it pays. -/
def settled (s : Told) (r : SweepRecord) : Told :=
  { s with proved := s.proved ||
      (decide (r.kind = .probe) && decide ((r.txid, s.store.address) ∈ s.paid)) }

def after (s : Told) : Act → Told
  | .write fs => fs.foldl set s
  | .log (.resolved _ r _ .markSettled) => s.settled r
  | .lock => { s with held := true }
  | .unlock => { s with held := false }
  | _ => s

/-- A command. A store beside a record only queues its address. -/
def told (s : Told) (c : Command) : Told :=
  match c with
  | .store a _ =>
    if s.store.record ≠ .empty then
      { s with store := s.store.batch (c.fields s.store), word := .free }
    else
      { s with store := s.store.batch (c.fields s.store), word := .store a, proved := false
               half := false }
  | .stopForwarding =>
    { s with store := s.store.batch (c.fields s.store), word := .stop, proved := false
             half := false }

/-- What the process leaves. -/
def killed (s : Told) : Told := { s with held := false, half := false }

/-- A command that the end of the process cuts off after its first `n + 1` writes. -/
def cut (s : Told) (c : Command) (n : Nat) : Told :=
  { s.told c with store := s.store.batch ((c.fields s.store).take (n + 1)) }.killed

/-- A reading finds the preferences. -/
def answers (s : Told) : (a : Act) → a.Reply → Prop
  | .read, v => v = ⟨s.store, false⟩
  | _, _ => True

end Told

/-- No proof of an earlier address is left. -/
def Store.bare (s : Store) : Bool :=
  decide (s.state = .holding) ||
    (decide (s.probeTxid = "") && !s.probeConfirmed && decide (s.state ≠ .armed))

/-- What the commit of a record has to meet. -/
structure Heard (s : Told) (r : SweepRecord) : Prop where
  address : r.address = s.store.address
  /-- A sweep goes to an address that a probe has proved. -/
  proved : r.kind = .sweep → s.proved = true
  stopped : s.word ≠ .stop
  stored : ∀ a, s.word = .store a → r.address = a

/-- An action of the engine, where it is the commit of a record. -/
def Obeys (s : Told) : Act → Prop
  | .write fs => s.held = true → ∀ r, .record (.record r) ∈ fs → Heard s r
  | _ => True

/-- A command at an action of the engine that does not meet a write of an older intent: the queued
address, the arming, or the adoption of a probe that does not pay what is stored. -/
def Heeds (s : Told) : Act → Command → Prop
  | .write [.address a], .store b _ => a = b
  | .write [.address _], .stopForwarding => False
  | .write [.state .armed], .store _ _ => False
  | .write [.record (.record r)], .store b _ =>
    s.store.record = .empty → r.kind = .probe → (r.txid, b) ∈ s.paid
  | .log (.adopted r), .store b _ =>
    s.store.record = .empty → r.kind = .probe → (r.txid, b) ∈ s.paid
  | _, _ => True

/-- A command while the engine is at an action. -/
def Said (a : Act) (s t : Told) : Prop :=
  s.held = false ∧ ∃ c, Heeds s a c ∧ t = s.told c

/-- The address counts: the engine may arm it or is at its probe. -/
def Live (s : Told) : Prop :=
  s.store.pendingAddress = "" ∧ s.store.address ≠ "" ∧ s.store.state ≠ .holding

/-- What a live address has for it. -/
structure Proofs (s : Told) : Prop where
  proved : Live s → s.store.state = .armed ∨ s.store.probeConfirmed = true → s.proved = true
  probe : Live s → s.store.probeTxid ≠ "" → (s.store.probeTxid, s.store.address) ∈ s.paid
  record : Live s → ∀ r, s.store.record = .record r → r.kind = .probe →
    (r.txid, s.store.address) ∈ s.paid

/-- What holds at every action of the engine. -/
structure Sane (s : Told) : Prop where
  stopped : s.word = .stop → s.store.address = "" ∧ s.store.pendingAddress = ""
  stored : ∀ a, s.word = .store a → s.store.address = a ∧ s.store.pendingAddress = ""
  halfway : s.half = true → s.store.record = .empty
  proofs : s.half = false → Proofs s


/-- The engine on the phone, with the user's commands between its actions. -/
def Phone : Surroundings Act Act.Reply Told where
  step s a r t := s.answers a r ∧ t = s.after a
  rely a s t := Relation.ReflTransGen (Said a) s t
  wait _ s := Sane s
  meet s a _ := Obeys s a

/-- The setters that have no part in what the user wants or in its proof. -/
def Field.idle : Field → Bool
  | probeAcked _ => true
  | lastTxid _ => true
  | lastAmountSat _ => true
  | lastAtMs _ => true
  | lastAddress _ => true
  | lastError _ => true
  | blockedReason _ => true
  | consecutiveFailures _ => true
  | _ => false

theorem Field.idle_of_display {f : Field} (h : f.display = true) : f.idle = true := by
  cases f <;> first | rfl | cases h

/-! ### The commands -/

section Commands

variable {s : Told}

@[simp] theorem told_record (s : Told) (c : Command) :
    (s.told c).store.record = s.store.record := by
  cases c with
  | store a ha =>
    by_cases hrecord : s.store.record = .empty <;>
      simp [Told.told, Command.fields, hrecord, Port.reprobe, Store.batch, Store.set]
  | stopForwarding => rfl

@[simp] theorem told_held (s : Told) (c : Command) : (s.told c).held = s.held := by
  cases c with
  | store a ha => unfold Told.told; dsimp only; split <;> rfl
  | stopForwarding => rfl

@[simp] theorem told_paid (s : Told) (c : Command) : (s.told c).paid = s.paid := by
  cases c with
  | store a ha => unfold Told.told; dsimp only; split <;> rfl
  | stopForwarding => rfl

theorem told_half (h : s.half = false) (c : Command) : (s.told c).half = false := by
  cases c with
  | store a ha => unfold Told.told; dsimp only; split <;> first | exact h | rfl
  | stopForwarding => rfl

/-- A store beside no record sets the address and everything that goes with it. -/
theorem told_direct (hrecord : s.store.record = .empty) (a : String) (ha : a ≠ "") :
    s.told (.store a ha) =
      { s with store := { s.store with address := a, pendingAddress := "", probeTxid := ""
                                       probeConfirmed := false, state := .probingPending }
               word := .store a, proved := false, half := false } := by
  simp [Told.told, Command.fields, hrecord, Port.reprobe, Store.batch, Store.set]

theorem told_queued (hrecord : s.store.record ≠ .empty) (a : String) (ha : a ≠ "") :
    s.told (.store a ha) =
      { s with store := { s.store with pendingAddress := a }, word := .free } := by
  simp [Told.told, Command.fields, hrecord, Store.batch, Store.set]

theorem Sane.told (h : Sane s) (c : Command) : Sane (s.told c) := by
  cases c with
  | store a ha =>
    by_cases hrecord : s.store.record = .empty
    · rw [told_direct hrecord]
      refine ⟨fun hstop => (by cases hstop), fun b hb => ?_, fun hhalf => (by cases hhalf), fun _ =>
        ⟨fun _ h => by simp at h, fun _ h => absurd rfl h, fun _ r hr => ?_⟩⟩
      · cases hb
        exact ⟨rfl, rfl⟩
      · cases hrecord.symm.trans hr
    · rw [told_queued hrecord]
      exact ⟨fun hstop => (by cases hstop), fun b hb => (by cases hb),
        fun hhalf => absurd (h.halfway hhalf) hrecord, fun _ => ⟨fun hlive => absurd hlive.1 ha,
          fun hlive => absurd hlive.1 ha, fun hlive => absurd hlive.1 ha⟩⟩
  | stopForwarding =>
    exact ⟨fun _ => ⟨rfl, rfl⟩, fun b hb => (by cases hb), fun hhalf => (by cases hhalf), fun _ =>
      ⟨fun hlive => absurd rfl hlive.2.1, fun hlive => absurd rfl hlive.2.1,
        fun hlive => absurd rfl hlive.2.1⟩⟩

end Commands

/-! ### The writes -/

/-- Nothing is half done, and the lock is free. -/
structure Calm (s : Told) : Prop where
  sane : Sane s
  whole : s.half = false
  free : s.held = false

section Writes

variable {s : Told}

theorem Calm.proofs (h : Calm s) : Proofs s := h.sane.proofs h.whole

theorem Calm.told (h : Calm s) (c : Command) : Calm (s.told c) :=
  ⟨h.sane.told c, told_half h.whole c, (told_held s c).trans h.free⟩

theorem Sane.idle (h : Sane s) {f : Field} (hf : f.idle = true) : Sane (s.set f) := by
  have hproofs := h.proofs
  cases f with
  | address | state | pendingAddress | probeTxid | probeConfirmed | record => cases hf
  | _ =>
    exact ⟨h.stopped, h.stored, h.halfway, fun hhalf => ⟨(hproofs hhalf).proved,
      (hproofs hhalf).probe, (hproofs hhalf).record⟩⟩

theorem Calm.idle (h : Calm s) {f : Field} (hf : f.idle = true) : Calm (s.set f) := by
  refine ⟨h.sane.idle hf, ?_, h.free⟩
  cases f with
  | address | state => cases hf
  | _ => exact h.whole

theorem Sane.cleared (h : Sane s) : Sane (s.set (.record .empty)) :=
  ⟨h.stopped, h.stored, fun _ => rfl, fun hhalf => ⟨(h.proofs hhalf).proved,
    (h.proofs hhalf).probe, fun _ r hr => (by cases hr)⟩⟩

theorem Calm.cleared (h : Calm s) : Calm (s.set (.record .empty)) :=
  ⟨h.sane.cleared, h.whole, h.free⟩

/-- A record is written, with a proof that its probe pays the address. -/
theorem Sane.recorded (h : Sane s) (hwhole : s.half = false) {r : SweepRecord}
    (hpaid : Live s → r.kind = .probe → (r.txid, s.store.address) ∈ (s.set (.record (.record r))).paid) :
    Sane (s.set (.record (.record r))) := by
  have hmono : ∀ x ∈ s.paid, x ∈ (s.set (.record (.record r))).paid := by
    intro x hx
    simp only [Told.set]
    split
    · exact List.mem_cons_of_mem _ hx
    · exact hx
  have hproofs := h.proofs hwhole
  refine ⟨h.stopped, h.stored, fun hhalf => ?_, fun _ => ⟨hproofs.proved,
    fun hlive ht => hmono _ (hproofs.probe hlive ht), fun hlive q hq hkind => ?_⟩⟩
  · cases hwhole.symm.trans hhalf
  · cases hq
    exact hpaid hlive hkind

theorem Calm.recorded (h : Calm s) {r : SweepRecord}
    (hpaid : Live s → r.kind = .probe → (r.txid, s.store.address) ∈ s.paid) :
    Calm (s.set (.record (.record r))) := by
  refine ⟨h.sane.recorded h.whole fun hlive hkind => ?_, h.whole, h.free⟩
  simpa [Told.set, h.free] using hpaid hlive hkind

/-- The state is written where the address is in use already. -/
theorem Sane.stated (h : Sane s) (hwhole : s.half = false) {st : ForwardState}
    (hlive : s.store.pendingAddress = "" → s.store.address ≠ "" → st ≠ .holding →
      s.store.state ≠ .holding)
    (harmed : st = .armed → Live s → s.proved = true) : Sane (s.set (.state st)) := by
  have hproofs := h.proofs hwhole
  have hbefore : Live (s.set (.state st)) → Live s := fun hnow =>
    ⟨hnow.1, hnow.2.1, hlive hnow.1 hnow.2.1 hnow.2.2⟩
  refine ⟨h.stopped, h.stored, fun hhalf => (by cases hhalf), fun _ => ⟨fun hnow hproof => ?_,
    fun hnow => hproofs.probe (hbefore hnow), fun hnow => hproofs.record (hbefore hnow)⟩⟩
  obtain hstate | hconfirmed := hproof
  · exact harmed hstate (hbefore hnow)
  · exact hproofs.proved (hbefore hnow) (.inr hconfirmed)

theorem Calm.stated (h : Calm s) {st : ForwardState}
    (hlive : s.store.pendingAddress = "" → s.store.address ≠ "" → st ≠ .holding →
      s.store.state ≠ .holding)
    (harmed : st = .armed → Live s → s.proved = true) : Calm (s.set (.state st)) :=
  ⟨h.sane.stated h.whole hlive harmed, rfl, h.free⟩

/-- The probe is named. -/
theorem Sane.probed (h : Sane s) {t : String}
    (hpaid : s.half = false → Live s → t ≠ "" → (t, s.store.address) ∈ s.paid) :
    Sane (s.set (.probeTxid t)) :=
  ⟨h.stopped, h.stored, h.halfway, fun hhalf => ⟨(h.proofs hhalf).proved, hpaid hhalf,
    (h.proofs hhalf).record⟩⟩

theorem Calm.probed (h : Calm s) {t : String}
    (hpaid : Live s → t ≠ "" → (t, s.store.address) ∈ s.paid) : Calm (s.set (.probeTxid t)) :=
  ⟨h.sane.probed fun _ => hpaid, h.whole, h.free⟩

/-- The probe is confirmed, or no longer. -/
theorem Sane.confirmed (h : Sane s) {b : Bool}
    (hproved : s.half = false → Live s → b = true → s.proved = true) :
    Sane (s.set (.probeConfirmed b)) :=
  ⟨h.stopped, h.stored, h.halfway, fun hhalf => ⟨fun hlive hproof => hproof.elim
    (fun hstate => (h.proofs hhalf).proved hlive (.inl hstate)) (hproved hhalf hlive),
    (h.proofs hhalf).probe, (h.proofs hhalf).record⟩⟩

theorem Calm.confirmed (h : Calm s) {b : Bool} (hproved : Live s → b = true → s.proved = true) :
    Calm (s.set (.probeConfirmed b)) :=
  ⟨h.sane.confirmed fun _ => hproved, h.whole, h.free⟩

/-- An observed settlement only adds to the proof. -/
theorem Calm.settled (h : Calm s) (r : SweepRecord) : Calm (s.settled r) := by
  have hproofs := h.proofs
  exact ⟨⟨h.sane.stopped, h.sane.stored, h.sane.halfway, fun _ =>
    ⟨fun hlive hproof => Bool.or_eq_true_iff.mpr (.inl (hproofs.proved hlive hproof)),
      hproofs.probe, hproofs.record⟩⟩, h.whole, h.free⟩

end Writes

end pcoin.forward
