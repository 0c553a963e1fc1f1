import PCoin.Forward.Commits
import PCoin.Run.Basic

namespace pcoin.forward

open run Surroundings

namespace phone

/-- The preferences of the phone, and the rest of the engine's work. -/
structure State where
  told : Told := {}
  running : Option (Engine Unit) := none

/-- A pass, a bring-up, an action of the engine with what it meets, a command of the user, one that
the end of the process cuts off, and the end of the process. -/
inductive Event
  | evaluate (needed : Bool) (stats : NodeStats) (loaded alive : Bool)
  | nodeReady (loaded : Bool)
  | resume (o : Oracle)
  | command (c : Command)
  | cut (c : Command) (n : Nat)
  | kill

def State.start (s : State) (p : Engine Unit) : Option State :=
  if s.running.isNone then some { s with running := remaining p } else none

/-- A command waits for the lock. -/
def State.step (s : State) : Event → Option State
  | .evaluate needed stats loaded alive => s.start (runEvaluation .android needed stats loaded alive)
  | .nodeReady loaded => s.start (onNodeReady .android loaded)
  | .resume o => match s.running with
    | some (.act a k) => some ⟨s.told.after a, remaining (k (o.reply ⟨s.told.store, false⟩ a))⟩
    | _ => none
  | .command c => if s.told.held then none else some { s with told := s.told.told c }
  | .cut c n => if s.told.held then none else some { told := s.told.cut c n }
  | .kill => some { told := s.told.killed }

/-- The end of the process leaves no address with the proof of another. -/
def Heeded (s : State) : Event → Prop
  | .command c => match s.running with
    | some (.act a _) => Heeds s.told a c
    | _ => True
  | .cut c n => n + 1 < (c.fields s.told.store).length →
    (s.told.cut c n).store.pendingAddress = "" ∧
      ((s.told.cut c n).store.address = "" ∨ (s.told.cut c n).store.bare = true)
  | .kill => s.told.half = true →
    s.told.store.pendingAddress ≠ "" ∨ s.told.store.bare = true
  | _ => True

/-- What is asked of an action: a record is committed where the user's last word and the
proof of its address allow it. -/
def Sound (s : State) : Event → Prop
  | .resume _ => match s.running with
    | some (.act a _) => Obeys s.told a
    | _ => True
  | _ => True

structure Inv (s : State) : Prop where
  calm : s.running = none → Calm s.told
  ready : ∀ p ∈ s.running, Tells p s.told

section Told

variable {s : Told}

theorem proofs_of_bare (hrecord : s.store.record = .empty) (hbare : s.store.bare = true) :
    Proofs s := by
  simp only [Store.bare, Bool.or_eq_true, Bool.and_eq_true, Bool.not_eq_true', decide_eq_true_eq]
    at hbare
  obtain hholding | ⟨⟨hprobe, hconfirmed⟩, harmed⟩ := hbare
  · exact ⟨fun hlive => absurd hholding hlive.2.2, fun hlive => absurd hholding hlive.2.2,
      fun hlive => absurd hholding hlive.2.2⟩
  · refine ⟨fun _ hproof => ?_, fun _ ht => absurd hprobe ht, fun _ r hr => ?_⟩
    · obtain hstate | htrue := hproof
      · exact absurd hstate harmed
      · cases hconfirmed.symm.trans htrue
    · cases hrecord.symm.trans hr

/-- What the end of the process leaves is in order, if it comes at a point where it may. -/
theorem calm_killed (h : Sane s)
    (hok : s.half = true → s.store.pendingAddress ≠ "" ∨ s.store.bare = true) :
    Calm s.killed := by
  refine ⟨⟨h.stopped, h.stored, fun hhalf => (by cases hhalf), fun _ => ?_⟩, rfl, rfl⟩
  cases hhalf : s.half with
  | false =>
    have hproofs := h.proofs hhalf
    exact ⟨hproofs.proved, hproofs.probe, hproofs.record⟩
  | true =>
    obtain hpending | hbare := hok hhalf
    · exact ⟨fun hlive => absurd hlive.1 hpending, fun hlive => absurd hlive.1 hpending,
        fun hlive => absurd hlive.1 hpending⟩
    · exact proofs_of_bare (h.halfway hhalf) hbare

/-- A command that is carried out leaves nothing half done. -/
theorem told_whole (h : Sane s) (c : Command) : (s.told c).half = false := by
  cases c with
  | store a given =>
    by_cases hrecord : s.store.record = .empty
    · rw [told_direct hrecord]
    · rw [told_queued hrecord]
      exact (Bool.not_eq_true _).mp fun hhalf => hrecord (h.halfway hhalf)
  | stopForwarding => rfl

theorem cut_whole {c : Command} {n : Nat} (hn : (c.fields s.store).length ≤ n + 1) :
    s.cut c n = (s.told c).killed := by
  rw [Told.cut, List.take_of_length_le hn]
  cases c with
  | store a given =>
    by_cases hrecord : s.store.record = .empty <;> simp [Told.told, hrecord]
  | stopForwarding => rfl

/-- What is written first of a command that is cut off: the address. -/
theorem cut_store {c : Command} {n : Nat} (hn : n + 1 < (c.fields s.store).length) :
    (s.cut c n).store.record = s.store.record ∧
      match c with
      | .store a _ => s.store.record = .empty ∧ (s.cut c n).store.address = a ∧
          (s.cut c n).word = .store a
      | .stopForwarding => (s.cut c n).store.address = "" ∧ (s.cut c n).word = .stop := by
  cases c with
  | store a given =>
    by_cases hrecord : s.store.record = .empty
    · simp only [Command.fields, hrecord, ne_eq, not_true_eq_false, if_false, Port.reprobe,
        List.length_cons, List.length_nil] at hn
      simp only [Told.cut, Told.told, Told.killed, Command.fields, hrecord, ne_eq,
        not_true_eq_false, if_false, Port.reprobe]
      obtain rfl | rfl | rfl | rfl : n = 0 ∨ n = 1 ∨ n = 2 ∨ n = 3 := by omega
      all_goals exact ⟨hrecord, trivial, rfl, trivial⟩
    · simp [Command.fields, hrecord] at hn
  | stopForwarding =>
    simp only [Command.fields, List.length_cons, List.length_nil] at hn
    obtain rfl | rfl | rfl | rfl : n = 0 ∨ n = 1 ∨ n = 2 ∨ n = 3 := by omega
    all_goals exact ⟨rfl, rfl, rfl⟩

theorem calm_cut (h : Sane s) {c : Command} {n : Nat}
    (hok : n + 1 < (c.fields s.store).length → (s.cut c n).store.pendingAddress = "" ∧
      ((s.cut c n).store.address = "" ∨ (s.cut c n).store.bare = true)) :
    Calm (s.cut c n) := by
  by_cases hn : n + 1 < (c.fields s.store).length
  · obtain ⟨hpending, hlast⟩ := hok hn
    obtain ⟨hrecord, hfirst⟩ := cut_store hn
    cases c with
    | store a given =>
      obtain ⟨hempty, haddress, hword⟩ := hfirst
      have hbare := hlast.resolve_left fun h => given (haddress.symm.trans h)
      refine ⟨⟨fun hstop => (by cases hword.symm.trans hstop), fun b hb => ?_,
        fun hhalf => (by cases hhalf), fun _ => proofs_of_bare (hrecord.trans hempty) hbare⟩, rfl, rfl⟩
      cases hword.symm.trans hb
      exact ⟨haddress, hpending⟩
    | stopForwarding =>
      obtain ⟨haddress, hword⟩ := hfirst
      exact ⟨⟨fun _ => ⟨haddress, hpending⟩, fun b hb => (by cases hword.symm.trans hb),
        fun hhalf => (by cases hhalf), fun _ => ⟨fun hlive => absurd haddress hlive.2.1,
          fun hlive => absurd haddress hlive.2.1, fun hlive => absurd haddress hlive.2.1⟩⟩, rfl, rfl⟩
  · rw [cut_whole (Nat.le_of_not_lt hn)]
    refine calm_killed (h.told c) fun hhalf => ?_
    cases (told_whole h c).symm.trans hhalf

end Told

section Runs

variable {s t : State} {e : Event}

theorem inv_remaining {p : Engine Unit} {w : Told} (h : Tells p w) : Inv ⟨w, remaining p⟩ := by
  cases p with
  | done => exact ⟨fun _ => h, fun q hq => by cases hq⟩
  | fail => exact ⟨fun _ => h, fun q hq => by cases hq⟩
  | act a k =>
    refine ⟨fun hnone => (by cases hnone), fun q hq => ?_⟩
    obtain rfl := Option.some.inj hq
    exact h

theorem Inv.start {p : Engine Unit} (h : Inv s) (hp : Calm s.told → Tells p s.told)
    (hstep : s.start p = some t) : Inv t := by
  unfold State.start at hstep
  split at hstep
  next hnone =>
    cases hstep
    exact inv_remaining (hp (h.calm (Option.isNone_iff_eq_none.mp hnone)))
  · cases hstep

/-- The engine takes the action it is at: it meets what it has to, and goes on as it should. -/
theorem Inv.taken (h : Inv s) {a : Act} {k : a.Reply → Engine Unit}
    (hrun : s.running = some (.act a k)) (o : Oracle) :
    Obeys s.told a ∧ Tells (k (o.reply ⟨s.told.store, false⟩ a)) (s.told.after a) := by
  refine (h.ready _ hrun s.told .refl).2 _ _ ⟨?_, rfl⟩
  cases a <;> first | rfl | trivial

/-- Wherever the engine is, the preferences are in order. -/
theorem Inv.sane (h : Inv s) : Sane s.told := by
  match hrun : s.running with
  | none => exact (h.calm hrun).sane
  | some (.done a) => exact (h.ready _ hrun : Calm s.told).sane
  | some (.fail e) => exact (h.ready _ hrun : Calm s.told).sane
  | some (.act a k) => exact (h.ready _ hrun s.told .refl).1

theorem Inv.command (h : Inv s) {c : Command} (hok : Heeded s (.command c))
    (hfree : s.told.held = false) : Inv { s with told := s.told.told c } := by
  refine ⟨fun hnone => (h.calm hnone).told c, fun p hp => ?_⟩
  have hready := h.ready p hp
  cases p with
  | done => exact (hready : Calm s.told).told c
  | fail => exact (hready : Calm s.told).told c
  | act a k =>
    have hrun : s.running = some (.act a k) := hp
    simp only [Heeded, hrun] at hok
    exact Ensures.rely (fun u hu => .head ⟨hfree, c, hok, rfl⟩ hu) hready

theorem Inv.step (h : Inv s) (hok : Heeded s e) (hstep : s.step e = some t) : Inv t := by
  have hended : ∀ w : Told, Calm w → Inv { told := w } := fun w hw =>
    ⟨fun _ => hw, fun p hp => by cases hp⟩
  cases e with
  | evaluate needed stats loaded alive =>
    exact h.start (tells_runEvaluation needed stats loaded alive) hstep
  | nodeReady loaded => exact h.start (tells_onNodeReady loaded) hstep
  | resume o =>
    simp only [State.step] at hstep
    split at hstep
    next a k hrun =>
      cases hstep
      exact inv_remaining (h.taken hrun o).2
    · cases hstep
  | command c =>
    simp only [State.step] at hstep
    split at hstep
    · cases hstep
    next hfree =>
      cases hstep
      exact h.command hok ((Bool.not_eq_true _).mp hfree)
  | cut c n =>
    simp only [State.step] at hstep
    split at hstep
    · cases hstep
    · cases hstep
      exact hended _ (calm_cut h.sane hok)
  | kill =>
    cases hstep
    exact hended _ (calm_killed h.sane hok)

theorem inv_fresh : Inv {} :=
  ⟨fun _ => ⟨⟨fun h => (by cases h), fun _ h => (by cases h), fun _ => rfl, fun _ =>
    ⟨fun hlive => absurd rfl hlive.2.1, fun hlive => absurd rfl hlive.2.1,
      fun hlive => absurd rfl hlive.2.1⟩⟩, rfl, rfl⟩, fun p hp => by cases hp⟩

end Runs

/-- In every run from a fresh install whose commands meet no write of an older intent, a sweep is
committed only to a proved address, and the user's last word is kept. -/
theorem last_word_kept {s : State} {e : Event} (hrun : Steps State.step Heeded {} s) :
    Sound s e := by
  have hinv : Inv s := hrun.invariant (fun _ _ _ h hok hstep => h.step hok hstep) inv_fresh
  cases e with
  | resume o =>
    simp only [Sound]
    split
    next a k hrun => exact (hinv.taken hrun o).1
    · trivial
  | _ => trivial

/-- A wallet with one send under way and one coin to send. -/
def payer : Oracle where
  call
    | .listtransactions => .ok (some [⟨some "send", some 0, none, some "t"⟩])
    | .gettransaction _ _ => .ok (some ⟨some 6, some "00"⟩)
    | .decoderawtransaction hex =>
      if hex = "00" then .ok (some ⟨some "t", [], []⟩)
      else .ok (some ⟨some "p", [⟨some "u", some 0⟩],
        [⟨some "P", some "51", some 1⟩, ⟨some "C", some "52", some (4899999890 / 100000000)⟩]⟩)
    | .getaddressinfo a => .ok (some ⟨some (decide (a = "C")), some true⟩)
    | .getwalletinfo => .ok (some ())
    | .validateaddress _ => .ok (some ⟨some true, some true, some 0, some "51"⟩)
    | .listunspent => .ok (some [⟨some "u", some 0, some 50, some 200, some true, some true⟩])
    | .generated txids => .ok (txids.map fun _ => some (some true))
    | .getpeerinfo => .ok (some [⟨some true, none⟩])
    | .send _ _ _ => .ok (some ⟨some true, some "p", some "01"⟩)
    | .testmempoolaccept _ => .ok (some ⟨some true, none⟩)
    | _ => .error { message := "no answer" }
  clock := 1000
  reads := true

def pass (needed : Bool) : Event := .evaluate needed ⟨100, 100, false, 1⟩ true true

def storing (a : String) (given : a ≠ "" := by decide) : Event := .command (.store a given)

/-- A wallet whose test payment has settled. -/
def sweeper : Oracle where
  call
    | .gettransaction _ _ => .ok (some ⟨some 6, some "01"⟩)
    | .decoderawtransaction hex =>
      if hex = "01" then payer.call (.decoderawtransaction hex)
      else .ok (some ⟨some "s", [⟨some "u", some 0⟩],
        [⟨some "P", some "51", some (4999999890 / 100000000)⟩]⟩)
    | .sendrawtransaction _ => .ok (some "p")
    | .sendall _ _ => .ok (some ⟨some true, some "s", some "02"⟩)
    | c => payer.call c
  clock := 2000
  reads := true

def resumed (o : Oracle) (n : Nat) : List Event := List.replicate n (.resume o)

/-- An address is stored, the probe to it is sent, settles, and the sweep is about to be committed. -/
def sweeping : List Event :=
  storing "P" :: pass false :: resumed sweeper 32 ++ pass false :: resumed sweeper 12 ++
    pass false :: resumed sweeper 21

/-- A sweep is about to be committed. -/
def State.sweeps (s : State) : Bool :=
  match s.running with
  | some (.act (.write [.record (.record r)]) _) => s.told.held && decide (r.kind = .sweep)
  | _ => false

/-- The engine at work alone meets no command. -/
theorem meets_resumed (o : Oracle) (n : Nat) {es : List Event}
    (h : ∀ s, run.Meets State.step Heeded s es) (s : State) :
    run.Meets State.step Heeded s (resumed o n ++ es) := by
  induction n generalizing s with
  | zero => exact h s
  | succ n ih => exact ⟨trivial, fun t _ => ih t⟩

theorem last_word_kept_probed : ∃ s, exec State.step {} sweeping = some s ∧ s.sweeps = true ∧
    Sound s (.resume sweeper) := by
  obtain ⟨s, hs, hsweeps⟩ := (Option.any_eq_true _ _).mp
    (show (exec State.step {} sweeping).any State.sweeps = true by decide +kernel)
  have hend (s : State) : run.Meets State.step Heeded s [] := trivial
  have hlast (s : State) : run.Meets State.step Heeded s (pass false :: resumed sweeper 21) :=
    ⟨trivial, fun t _ => meets_resumed sweeper 21 hend t⟩
  have hsettles (s : State) : run.Meets State.step Heeded s
      (pass false :: (resumed sweeper 12 ++ pass false :: resumed sweeper 21)) :=
    ⟨trivial, fun t _ => meets_resumed sweeper 12 hlast t⟩
  exact ⟨s, hs, hsweeps, last_word_kept (steps_of_exec sweeping hs
    ⟨trivial, fun _ _ => ⟨trivial, fun t _ => meets_resumed sweeper 32 hsettles t⟩⟩)⟩

/-- A send is adopted, an address is queued behind it, and the user stops forwarding when the engine
is about to set it. -/
def overruled : List Event :=
  storing "A" :: pass true :: resumed payer 11 ++ storing "P" :: resumed payer 14 ++
    pass false :: resumed payer 2 ++ .command .stopForwarding :: resumed payer 23

/-- A record is about to be committed after the user's stop. -/
def State.deaf (s : State) : Bool :=
  match s.running with
  | some (.act (.write [.record (.record _)]) _) => s.told.held && decide (s.told.word = .stop)
  | _ => false

theorem State.deaf_unsound {s : State} (h : s.deaf = true) (o : Oracle) : ¬Sound s (.resume o) := by
  unfold State.deaf at h
  split at h
  next r k hrun =>
    simp only [Bool.and_eq_true, decide_eq_true_eq] at h
    simp only [Sound, hrun]
    exact fun hsound => (hsound h.1 r List.mem_cons_self).stopped h.2
  · cases h

theorem queued_address_wins : ¬∀ (s : State) (e : Event),
    Steps State.step (fun _ _ => True) {} s → Sound s e := by
  intro h
  have hdeaf : (exec State.step {} overruled).any State.deaf = true := by decide +kernel
  obtain ⟨s, hs, hdeaf⟩ := (Option.any_eq_true _ _).mp hdeaf
  exact State.deaf_unsound hdeaf payer (h s _ (steps_of_exec overruled hs (meets_true _ _)))

end phone

end pcoin.forward
