import PCoin.Forward.Guards

namespace pcoin.forward

open run Surroundings

namespace solo

/-- An engine over its store, and the rest of its work. -/
structure State where
  watched : Watched
  running : Option (Engine Unit) := none

/-- A pass, a bring-up, an action of the engine with what it meets, or the end of the process. -/
inductive Event
  | evaluate (needed : Bool) (stats : NodeStats) (loaded alive : Bool)
  | nodeReady (loaded : Bool)
  | resume (o : Oracle)
  | kill

def Event.kills : Event → Bool
  | kill => true
  | _ => false

def State.start (s : State) (p : Engine Unit) : Option State :=
  if s.running.isNone then some { s with running := remaining p } else none

def State.step (port : Port) (s : State) : Event → Option State
  | .evaluate needed stats loaded alive => s.start (runEvaluation port needed stats loaded alive)
  | .nodeReady loaded => s.start (onNodeReady port loaded)
  | .resume o => match s.running with
    | some (.act a k) =>
      some ⟨s.watched.after a, remaining (k (o.reply ⟨s.watched.store, false⟩ a))⟩
    | _ => none
  | .kill => some { s with running := none }

/-- A store whose record, if it has one, is under way and without a sighting. -/
def Blob.unseen : Blob → Prop
  | .record r => r.terminal = false ∧ r.conflictSeenAtMs = 0
  | _ => True

/-- Nothing has been observed yet. -/
def idle (store : Store) : State := { watched := { store := store } }

/-- The tray has no healthy observation of a record that holds the sighting of a conflict, and
the phone is not killed between such an observation and the write that erases the sighting. -/
def Heeded (port : Port) (s : State) (e : Event) : Prop :=
  s.watched.overtaken = true → port = .android ∧ e.kills = false

instance (port : Port) (s : State) (e : Event) : Decidable (Heeded port s e) :=
  inferInstanceAs (Decidable (_ → _ ∧ _))

/-- What the claim asks of an action. -/
def Sound (s : State) : Event → Prop
  | .resume _ => match s.running with
    | some (.act a _) => Meets s.watched a
    | _ => True
  | _ => True

structure Inv (port : Port) (s : State) : Prop where
  fine : s.running = none → Fine port s.watched
  ready : ∀ p ∈ s.running, Guards port p s.watched

variable {port : Port} {s t : State} {e : Event}

theorem inv_remaining {p : Engine Unit} {w : Watched} (h : Guards port p w) :
    Inv port ⟨w, remaining p⟩ := by
  cases p with
  | done => exact ⟨fun _ => h, fun q hq => by cases hq⟩
  | fail => exact ⟨fun _ => h, fun q hq => by cases hq⟩
  | act a k =>
    refine ⟨fun hnone => (by cases hnone), fun q hq => ?_⟩
    obtain rfl := Option.some.inj hq
    exact h

theorem Inv.start {p : Engine Unit} (h : Inv port s)
    (hp : Fine port s.watched → Guards port p s.watched) (hstep : s.start p = some t) :
    Inv port t := by
  unfold State.start at hstep
  split at hstep
  next hnone =>
    cases hstep
    exact inv_remaining (hp (h.fine (Option.isNone_iff_eq_none.mp hnone)))
  · cases hstep

/-- The engine takes the action it is at: it meets what it has to, and goes on as it should. -/
theorem Inv.taken (h : Inv port s) {a : Act} {k : a.Reply → Engine Unit}
    (hrun : s.running = some (.act a k)) {o : Oracle} (hok : Heeded port s (.resume o)) :
    Meets s.watched a ∧
      Guards port (k (o.reply ⟨s.watched.store, false⟩ a)) (s.watched.after a) := by
  refine (h.ready _ hrun s.watched rfl).2 _ _ ⟨fun hovertaken => (hok hovertaken).1, ?_, rfl⟩
  cases a <;> first | rfl | trivial

theorem Inv.step (h : Inv port s) (hok : Heeded port s e) (hstep : s.step port e = some t) :
    Inv port t := by
  cases e with
  | evaluate needed stats loaded alive =>
    exact h.start (guards_runEvaluation needed stats loaded alive) hstep
  | nodeReady loaded => exact h.start (guards_onNodeReady loaded) hstep
  | resume o =>
    simp only [State.step] at hstep
    split at hstep
    next a k hrun =>
      cases hstep
      exact inv_remaining (h.taken hrun hok).2
    · cases hstep
  | kill =>
    cases hstep
    refine ⟨fun _ => ?_, fun p hp => by cases hp⟩
    match hrun : s.running with
    | none => exact h.fine hrun
    | some p =>
      have hready := h.ready p hrun
      cases p with
      | done => exact hready
      | fail => exact hready
      | act a k =>
        obtain hkept | hovertaken := (hready s.watched rfl).1
        · exact .inl hkept
        · cases (hok hovertaken).2

theorem inv_idle {store : Store} (h : Blob.unseen store.record) : Inv port (idle store) := by
  refine ⟨fun _ => .inl ?_, fun p hp => by cases hp⟩
  change Kept store.record []
  cases hrecord : store.record with
  | empty => rfl
  | garbled => trivial
  | record r =>
    rw [hrecord] at h
    exact kept_fresh h.1 h.2

/-- In every run that does not leave a sighting overtaken, one transaction is under way at a time,
and its record is on the disk before it is broadcast and cleared on proof. -/
theorem cleared_on_proof {port : Port} {store : Store} {s : State} {e : Event}
    (hstore : Blob.unseen store.record)
    (hrun : Steps (State.step port) (Heeded port) (idle store) s) (hok : Heeded port s e) :
    Sound s e := by
  have hinv : Inv port s :=
    hrun.invariant (fun _ _ _ h hok hstep => h.step hok hstep) (inv_idle hstore)
  cases e with
  | resume o =>
    simp only [Sound]
    split
    next a k hrun => exact (hinv.taken hrun hok).1
    · trivial
  | _ => trivial

/-- A sweep under way. -/
def sweeping : Store where
  address := "A"
  state := .armed
  probeTxid := "p"
  probeConfirmed := true
  record := .record
    { txid := "t", hex := "00", inputs := [⟨"u", 0⟩], amountSat := 4999999890, feeSat := 110,
      address := "A", state := .broadcast, kind := .sweep, createdAtMs := 1000,
      broadcastAtMs := 1000 }

/-- A wallet that has the transaction at some confirmations. -/
def showing (confirmations now : Int) : Oracle where
  call
    | .gettransaction _ _ => .ok (some ⟨some confirmations, some "00"⟩)
    | .getmempoolentry _ => .error { transport := false, code := some (-5), message := "" }
    | _ => .error { message := "no answer" }
  clock := now
  reads := true

def pass : Event := .evaluate false ⟨100, 100, false, 1⟩ true true

/-- A sweep that has settled, up to the write that clears its record. -/
def settling : List Event := pass :: List.replicate 8 (.resume (showing 6 2000))

theorem cleared_on_proof_settled :
    ∃ s, exec (State.step .windows) (idle sweeping) settling = some s ∧
      Sound s (.resume (showing 6 2000)) :=
  ⟨_, rfl, @cleared_on_proof .windows sweeping _ _ ⟨rfl, rfl⟩
    (steps_of_exec settling rfl (by decide +kernel)) (by decide +kernel)⟩

/-- A conflict that was seen, a block with the transaction, and a conflict again: the tray counts
the interval from the first. -/
def overtaken : List Event :=
  pass :: List.replicate 10 (.resume (showing (-1) 1000000)) ++
    pass :: List.replicate 9 (.resume (showing 3 1300000)) ++
    pass :: List.replicate 8 (.resume (showing (-1) 1700000))

theorem sighting_outlives : ¬∀ (port : Port) (store : Store) (s : State) (e : Event),
    Blob.unseen store.record → Steps (State.step port) (fun _ _ => True) (idle store) s →
      Sound s e := by
  intro h
  obtain ⟨s, hs⟩ : ∃ s, exec (State.step .windows) (idle sweeping) overtaken = some s := ⟨_, rfl⟩
  obtain rfl := Option.some.inj hs
  have hsound : Lawful _ _ := h .windows sweeping _ (.resume (showing (-1) 1700000)) ⟨rfl, rfl⟩
    (steps_of_exec overtaken rfl (meets_true _ _))
  have hproved : Proved [⟨⟨true, true, -1, true, false, true⟩, 1700000⟩,
      ⟨⟨true, true, 3, false, false, true⟩, 1300000⟩,
      ⟨⟨true, true, -1, true, false, true⟩, 1000000⟩] :=
    hsound.clears (by decide +kernel) (by decide +kernel)
  obtain ⟨o, ho, hsettles⟩ | ⟨last, middle, first, rest, hseen, -, hneg, -, hmiddle⟩ := hproved
  · simp only [List.mem_cons, List.not_mem_nil, or_false] at ho
    obtain rfl | rfl | rfl := ho <;> cases hsettles
  · cases middle with
    | nil =>
      simp only [List.cons_append, List.nil_append, List.cons.injEq] at hseen
      obtain ⟨-, rfl, -⟩ := hseen
      cases hneg
    | cons o middle =>
      simp only [List.cons_append, List.cons.injEq] at hseen
      obtain ⟨-, rfl, -⟩ := hseen
      cases hmiddle _ List.mem_cons_self

end solo

end pcoin.forward
