import PCoin.Forward.Free

namespace pcoin.forward

open run Surroundings

/-- One tray over its file. -/
structure Single where
  tray : Tray := {}
  file : Option Store

def Single.step (s : Single) (e : Event) : Option Single :=
  (s.tray.step s.file e).map fun (tray, file) => ⟨tray, file⟩

/-- No process runs yet. -/
def closed (file : Option Store) : Single := { file := file }

/-- A record that the file holds, and that may be under way, is in the memory as well. -/
def Knows (file : Option Store) (v : View) : Prop :=
  ∀ s ∈ file, s.record.inFlight = true → v.store.record = s.record

/-- The save of `fs` from a memory `v` keeps the record of the file, or is the clearing of the
very record that the memory holds. -/
def Keeps (file : Option Store) (v : View) (fs : List Field) : Prop :=
  ∀ s ∈ file, s.record.inFlight = true →
    s.record.sameTx (v.assign fs).store.record = true ∨
      (v.store.record = s.record ∧ .record .empty ∈ fs)

/-- Nothing under way is lost by a save, and nothing is built beside it. -/
def Sound (s : Single) (e : Event) : Prop :=
  (∀ fs ∈ s.tray.saves e, Keeps s.file s.tray.mem fs) ∧
    (s.tray.builds e = true → ∀ f ∈ s.file, f.record.inFlight = false)

/-- The reading of the file, where the event is one, succeeds, or the memory holds what the file
has under way. -/
def Heeded (s : Single) : Event → Prop
  | .launch reads => reads = true ∨ Knows s.file {}
  | .resume o => match s.tray.running with
    | some (.act .reload _) => o.reads = true ∨ Knows s.file s.tray.mem
    | _ => True
  | _ => True

/-- The engine of a tray goes on as it should. -/
def Ready (t : Tray) : Prop := ∀ p ∈ t.running, Frees p t.mem

/-- What holds in every state of a run. -/
structure Inv (s : Single) : Prop where
  knows : s.tray.up = true → Knows s.file s.tray.mem
  ready : Ready s.tray

/-- A part of the store that a batch changes is set by the batch. -/
theorem Store.batch_mem {β : Type} {p : Store → β} {c : β → Field}
    (hset : ∀ s f, p (Store.set s f) = p s ∨ f = c (p (Store.set s f))) (s : Store) (fs : List Field) :
    p (s.batch fs) = p s ∨ c (p (s.batch fs)) ∈ fs := by
  induction fs generalizing s with
  | nil => exact .inl rfl
  | cons f fs ih =>
    obtain h | h := ih (s.set f)
    · change p ((s.set f).batch fs) = p s ∨ c (p ((s.set f).batch fs)) ∈ f :: fs
      rw [h]
      exact (hset s f).imp_right fun hf => List.mem_cons.mpr (.inl hf.symm)
    · exact .inr (List.mem_cons_of_mem _ h)

theorem Store.batch_record_mem (s : Store) (fs : List Field) :
    (s.batch fs).record = s.record ∨ .record (s.batch fs).record ∈ fs := by
  refine Store.batch_mem (p := Store.record) (c := Field.record) (fun s f => ?_) s fs
  cases f <;> first | exact .inl rfl | exact .inr rfl

theorem Blob.sameTx_self {b : Blob} (h : b.inFlight = true) : b.sameTx b = true := by
  cases b with
  | empty => cases h
  | garbled => rfl
  | record r => exact decide_eq_true rfl

theorem Frees.rely {p : Engine Unit} {v w : View} (h : Frees p v)
    (hw : w.store.record = v.store.record ∨ w.store.record = .empty) : Frees p w := by
  refine Ensures.relies (fun _ u hu => ?_) h
  obtain hu | hu := hu
  · obtain hw | hw := hw
    · exact .inl (hu.trans hw)
    · exact .inr (hu.trans hw)
  · exact .inr hu

/-- What is left to do of a program does what the program does. -/
theorem ensures_remaining {E : Surroundings Act Act.Reply View} {post : Unit → View → Prop}
    {failed : Failure → View → Prop} {p : Engine Unit} {v : View} (h : E.Ensures post failed p v) :
    ∀ q ∈ remaining p, E.Ensures post failed q v := by
  cases p with
  | done => exact fun q hq => by cases hq
  | fail => exact fun q hq => by cases hq
  | act a k =>
    rintro q hq
    obtain rfl := Option.some.inj hq
    exact h

theorem Knows.reload {file : Option Store} {v : View} {reads : Bool}
    (h : reads = true ∨ Knows file v) : Knows file (v.reload file reads) := by
  rintro s hs hflight
  obtain rfl := hs
  obtain rfl | h := h
  · rfl
  · have hv := h s rfl hflight
    cases reads with
    | true => rfl
    | false => exact hv

theorem knows_saved (v : View) : Knows (some v.store) v := by
  rintro s hs _
  obtain rfl := Option.some.inj hs
  rfl

/-- What the surroundings do with an action is what `Free` says of it. -/
theorem free_step (file : Option Store) (o : Oracle) (v : View) (a : Act) :
    Free.step v a (o.reply v a) (v.after file o a) := by
  cases a <;> first | exact ⟨rfl, rfl⟩ | trivial

section Tray

variable {t u : Tray} {file file' : Option Store} {e : Event}

theorem ready_start {p : Engine Unit} (h : Frees p t.mem) : Ready (t.start p) :=
  fun q hq => ensures_remaining h q hq

/-- The engine takes the action it is at: it meets what it has to, and goes on as it should. -/
theorem Ready.taken (h : Ready t) {a : Act} {k : a.Reply → Engine Unit}
    (hrun : t.running = some (.act a k)) (file : Option Store) (o : Oracle) :
    Free.meet t.mem a (o.reply t.mem a) ∧ Frees (k (o.reply t.mem a)) (t.mem.after file o a) :=
  (h _ hrun t.mem (.inl rfl)).2 _ _ (free_step file o t.mem a)

/-- Whatever a tray goes through, its engine builds and records only where its memory allows. -/
theorem Ready.step (h : Ready t) (hstep : t.step file e = some (u, file')) : Ready u := by
  cases Tray.took_of_step hstep with
  | launch | exit => exact fun p hp => by cases hp
  | evaluate needed stats loaded alive =>
    exact ready_start (frees_runEvaluation needed stats loaded alive _)
  | nodeReady loaded => exact ready_start (frees_onNodeReady loaded _)
  | resume o _ hrun => exact ensures_remaining (h.taken hrun file o).2
  | edit e => exact fun p hp => (h p hp : Frees p t.mem).rely (e.record t.mem.store)

/-- An engine builds only where its memory has nothing under way. -/
theorem Ready.vacant (h : Ready t) (hbuilds : t.builds e = true) :
    t.mem.store.record.inFlight = false := by
  cases e with
  | resume o =>
    simp only [Tray.builds] at hbuilds
    split at hbuilds
    next c k hrun => exact (h.taken hrun none o).1 hbuilds
    · cases hbuilds
  | _ => cases hbuilds

/-- A save sets the record to nothing, or to a version of the one the memory has under way. -/
theorem Ready.meets (h : Ready t) {fs : List Field} (hsaves : fs ∈ t.saves e) {b : Blob}
    (hb : .record b ∈ fs) (hflight : t.mem.store.record.inFlight = true) :
    b = .empty ∨ t.mem.store.record.sameTx b = true := by
  cases e with
  | resume o =>
    simp only [Tray.saves] at hsaves
    split at hsaves
    next gs k hrun =>
      obtain rfl := Option.some.inj hsaves
      exact (h.taken hrun none o).1 b hb hflight
    · cases hsaves
  | edit e =>
    obtain rfl := Option.some.inj hsaves
    cases e with
    | storeAddress a =>
      simp only [Edit.fields] at hb
      split at hb <;> simp [Port.reprobe] at hb
    | clearStuckRecord => exact .inl (by simpa [Edit.fields] using hb)
    | shown | stopForwarding | acknowledgeProbe => simp [Edit.fields] at hb
  | _ => cases hsaves

/-- A save from a memory that has the record of the file keeps it, or clears it. -/
theorem Ready.keeps (h : Ready t) (hknows : Knows file t.mem) {fs : List Field}
    (hsaves : fs ∈ t.saves e) : Keeps file t.mem fs := by
  intro s hs hflight
  have hmem := hknows s hs hflight
  obtain hkept | hset := t.mem.store.batch_record_mem fs
  · refine .inl ?_
    change s.record.sameTx (t.mem.store.batch fs).record = true
    rw [hkept, hmem]
    exact Blob.sameTx_self hflight
  · have hmeet := h.meets hsaves hset (hmem ▸ hflight)
    rw [hmem] at hmeet
    obtain hempty | hsame := hmeet
    · exact .inr ⟨hmem, hempty ▸ hset⟩
    · exact .inl hsame

end Tray

/-- A heeded event keeps the memory in step with the record of the file. -/
theorem Inv.step {s t : Single} {e : Event} (h : Inv s) (hok : Heeded s e)
    (hstep : s.step e = some t) : Inv t := by
  obtain ⟨⟨u, file⟩, hu, rfl⟩ := Option.map_eq_some_iff.mp hstep
  refine ⟨fun hup => ?_, h.ready.step hu⟩
  cases Tray.took_of_step hu with
  | launch reads => exact Knows.reload hok
  | exit => cases hup
  | evaluate | nodeReady => exact h.knows hup
  | @resume o a k _ hrun =>
    cases a with
    | write fs => exact knows_saved _
    | reload =>
      simp only [Heeded, hrun] at hok
      exact Knows.reload hok
    | _ => exact h.knows hup
  | edit e => exact knows_saved _

theorem inv_closed (file : Option Store) : Inv (closed file) :=
  ⟨fun h => (by cases h), fun p hp => (by cases hp)⟩

theorem Steps.inv {file : Option Store} {s : Single}
    (hrun : Steps Single.step Heeded (closed file) s) : Inv s :=
  hrun.invariant (fun _ _ _ h hok hstep => h.step hok hstep) (inv_closed file)

/-- In every run whose readings are heeded, no save loses what may be under way, and nothing is
built beside it. -/
theorem unreadable_kept {file : Option Store} {s t : Single} {e : Event}
    (hrun : Steps Single.step Heeded (closed file) s) (hok : Heeded s e)
    (hstep : s.step e = some t) : Sound s e := by
  have hinv := Steps.inv hrun
  obtain ⟨⟨u, file'⟩, hu, -⟩ := Option.map_eq_some_iff.mp hstep
  obtain hup | ⟨reads, rfl⟩ := Tray.up_of_step hu
  · refine ⟨fun fs hfs => hinv.ready.keeps (hinv.knows hup) hfs, fun hbuilds f hf => ?_⟩
    by_contra hflight
    rw [Bool.not_eq_false] at hflight
    have hmem := hinv.knows hup f hf hflight
    rw [← hmem, hinv.ready.vacant hbuilds] at hflight
    cases hflight
  · exact ⟨fun fs hfs => (by cases hfs), fun hbuilds => (by cases hbuilds)⟩

/-- A sweep that was broadcast, and waits for a peer. -/
def flying : SweepRecord where
  txid := "t"
  hex := "00"
  inputs := [⟨"u", 0⟩]
  amountSat := 4999999890
  feeSat := 110
  address := "A"
  state := .broadcast
  kind := .sweep
  createdAtMs := 1000
  broadcastAtMs := 1000

def flyingStore : Store where
  address := "A"
  state := .armed
  probeTxid := "p"
  probeConfirmed := true
  record := .record flying

def silent (reads : Bool) : Oracle where
  call _ := .error { message := "no answer" }
  clock := 2000
  reads := reads

/-- The file is read at the launch, and cannot be read at the start of a pass. -/
def unreadLater : List Event :=
  [.launch true, .evaluate true ⟨100, 100, false, 1⟩ true true, .resume (silent false)] ++
    List.replicate 5 (.resume (silent true))

/-- What is noted of the record then is saved from the memory that has it. -/
theorem unreadable_kept_acknowledged :
    ∃ s, exec Single.step (closed (some flyingStore)) unreadLater = some s ∧
      s.tray.mem.unreadable = true ∧ s.tray.saves (.resume (silent true)) =
        some [.blockedReason (ForwardBlock.reason .windows .pendingSweep)] ∧
      Sound s (.resume (silent true)) := by
  obtain ⟨s, hs⟩ : ∃ s, exec Single.step (closed (some flyingStore)) unreadLater = some s := ⟨_, rfl⟩
  have hmeets : run.Meets Single.step Heeded (closed (some flyingStore)) unreadLater := by
    refine ⟨.inl rfl, ?_⟩
    rintro _ ⟨⟩
    refine ⟨trivial, ?_⟩
    rintro _ ⟨⟩
    refine ⟨.inr fun f hf _ => by cases hf; rfl, ?_⟩
    rintro _ ⟨⟩
    -- the reading of the record, and the calls about it, that are not answered
    iterate 5
      refine ⟨trivial, ?_⟩
      rintro _ ⟨⟩
    trivial
  have hrun := steps_of_exec unreadLater hs hmeets
  obtain rfl := Option.some.inj hs
  exact ⟨_, rfl, rfl, rfl, unreadable_kept hrun trivial rfl⟩

/-- The file of a sweep under way cannot be read after a restart: what is noted about it is saved
over it. -/
def lostRecord : List Event :=
  [.launch false, .evaluate true ⟨100, 100, false, 1⟩ true true, .resume (silent false),
    .resume (silent true), .resume (silent true)]

theorem record_lost : ¬∀ (file : Option Store) (s t : Single) (e : Event),
    Steps Single.step (fun _ _ => True) (closed file) s → s.step e = some t → Sound s e := by
  intro h
  obtain ⟨s, hs⟩ : ∃ s, exec Single.step (closed (some flyingStore)) lostRecord = some s := ⟨_, rfl⟩
  obtain rfl := Option.some.inj hs
  obtain ⟨hkeeps, -⟩ := h (some flyingStore) _ _ (.resume (silent true))
    (steps_of_exec lostRecord rfl (meets_true _ _)) rfl
  obtain hsame | ⟨-, hclears⟩ := hkeeps _ rfl flyingStore rfl rfl
  · cases hsame
  · simp at hclears

end pcoin.forward
