import PCoin.Forward.Guarded

namespace pcoin.forward

open run Routine Surroundings

section Resolution

variable {port : Port} {r : SweepRecord} {past seen : List Sighting} {o : Sighting} {w : Watched}

theorem guards_publishPending (q : SweepRecord) (confirmations : Int) {b : Blob}
    (hkept : Kept b seen) (hw : At b seen w) : Guards port (publishPending port q confirmations) w :=
  guards_of_shows (publishPending_shows _ q confirmations) hkept hw

/-- A version of the record is stored over it. -/
theorem at_version {q : SweepRecord} (htxid : q.txid = r.txid) (hhex : q.hex = r.hex)
    (hspoken : Spoken seen) (hkept : Kept (.record r) seen) (hw : At (.record r) seen w) :
    (Guarded port).Ensures (fun _ => At (.record q) seen) (fun _ => Fine port) (writeRecord q) w :=
  at_writeRecord (fun p hp => by cases hp; exact ⟨htxid, hhex⟩) hspoken hkept hw

theorem guards_advance (state : SweepState) (hstate : state.terminal = false)
    (confirmations now : Int) (hspoken : Spoken seen) (hkept : Kept (.record r) seen)
    (hw : At (.record r) seen w) : Guards port (advance port r state confirmations now) w := by
  have hadvanced : Kept (.record (r.advanced state now)) seen := hkept.version hstate rfl
  unfold advance writeIf
  split
  · exact (at_version (q := r.advanced state now) (r := r) rfl rfl hspoken hkept hw).bind fun _ w hw =>
      guards_publishPending _ _ hadvanced hw
  · exact guards_publishPending _ _ hkept hw

theorem guards_noteConflict {obs : TxObservation} {now : Int} (hneg : obs.negative = true)
    (confirmations : Int) (hspoken : Spoken (⟨obs, now⟩ :: past))
    (hkept : Kept (.record r) (⟨obs, now⟩ :: past))
    (hw : At (.record r) (⟨obs, now⟩ :: past) w) :
    Guards port (noteConflict port r confirmations now) w := by
  have hnoted : Kept (.record (r.noted now)) (⟨obs, now⟩ :: past) := by
    refine ⟨hkept.1, fun _ => ?_⟩
    by_cases hc : r.conflictSeenAtMs = 0
    · simpa [SweepRecord.noted, hc] using backed_head hneg
    · simpa [SweepRecord.noted, hc] using hkept.2 hc
  exact (at_version (q := r.noted now) (r := r) rfl rfl hspoken hkept hw).bind fun _ w hw =>
    guards_publishPending _ _ hnoted hw

theorem at_settled {b : Blob} (r : SweepRecord) (hspoken : Spoken seen) (hkept : Kept b seen)
    (hw : At b seen w) :
    (Guarded port).Ensures (fun _ => At b seen) (fun _ => Fine port) (settled port r) w := by
  unfold settled
  split
  · exact (at_nowMs hkept hw).bind fun now w hw =>
      at_assign_other (by simp [Field.other]) hspoken hkept hw
  · cases port with
    | android =>
      have hwriteIf : ∀ (c : Bool) (f : Field) (w : Watched), f.other = true → At b seen w →
          (Guarded .android).Ensures (fun _ => At b seen) (fun _ => Fine .android)
            (writeIf c [f]) w := by
        intro c f w hf hw
        unfold writeIf
        split
        · exact at_write_other (by simpa using hf) hspoken hkept hw
        · exact hw
      refine at_read hkept hw ((hwriteIf _ _ _ rfl hw).bind fun _ w hw => ?_)
      refine at_read hkept hw ((hwriteIf _ _ _ rfl hw).bind fun _ w hw => ?_)
      exact at_write_other (by simp [Field.other]) hspoken hkept hw
    | windows =>
      refine at_read hkept hw (at_write_other (fun f hf => ?_) hspoken hkept hw)
      simp only [List.mem_append] at hf
      obtain (hf | hf) | hf := hf
      · split at hf <;> simp_all [Field.other]
      · split at hf <;> simp_all [Field.other]
      · simp_all [Field.other]

theorem guards_settle {b : Blob} (hproved : Proved seen) (hspoken : Spoken seen)
    (hkept : Kept b seen) (hw : At b seen w) : Guards port (settle port r) w := by
  refine (at_of_asks (unlockInputs_asks port r.inputs) hkept hw).bind fun _ w hw => ?_
  refine (at_settled r hspoken hkept hw).bind fun _ w hw => ?_
  refine (at_clear (by simp) hproved hspoken hkept hw).bind fun _ w hw => ?_
  exact guards_of_shows (publish_shows _ _) kept_empty hw

theorem dropProbe_other (r : SweepRecord) (s : Store) :
    ∀ f ∈ (if r.awaited s then dropProbe else []), f.other = true := by
  intro f hf
  split at hf
  · simp only [dropProbe, List.mem_cons, List.not_mem_nil, or_false] at hf
    obtain rfl | rfl | rfl := hf <;> rfl
  · cases hf

theorem at_drop {b : Blob} (hproved : Proved seen) (hspoken : Spoken seen) (hkept : Kept b seen)
    (hw : At b seen w) :
    (Guarded port).Ensures (fun _ => At .empty []) (fun _ => Fine port) (drop port r) w := by
  cases port with
  | android =>
    refine (at_clear (by simp) hproved hspoken hkept hw).bind fun _ w hw => ?_
    refine at_read kept_empty hw ?_
    refine Ensures.bind (m := fun _ => At .empty []) ?_ fun _ w hw =>
      at_write_other (by simp [Field.other]) spoken_nil kept_empty hw
    exact at_assign_other (dropProbe_other r w.store) spoken_nil kept_empty hw
  | windows =>
    refine at_read hkept hw (at_clear (fun f hf => ?_) hproved hspoken hkept hw)
    obtain hf | hf := List.mem_append.mp hf
    · exact dropProbe_other r w.store f hf
    · obtain rfl := List.mem_singleton.mp hf
      rfl

theorem guards_dropConflicted {b : Blob} (hproved : Proved seen) (hspoken : Spoken seen)
    (hkept : Kept b seen) (hw : At b seen w) : Guards port (dropConflicted port r) w := by
  refine (at_of_asks (unlockInputs_asks port r.inputs) hkept hw).bind fun _ w hw => ?_
  refine (at_drop hproved hspoken hkept hw).bind fun _ w hw => ?_
  exact guards_of_shows (publish_shows _ _) kept_empty hw

/-- What is broadcast again is what the record on the disk holds. -/
theorem guards_rebroadcast {again : SweepRecord → Engine Unit}
    (hagain : ∀ (next : SweepRecord) (w : Watched), Kept (.record next) seen →
      At (.record next) seen w → Guards port (again next) w)
    (now : Int) (hspoken : Spoken seen) (hkept : Kept (.record r) seen)
    (hw : At (.record r) seen w) : Guards port (rebroadcast port r now again) w := by
  have hattempted : Kept (.record (r.attempted now)) seen := hkept.version hkept.1 rfl
  refine (at_version (q := r.attempted now) (r := r) rfl rfl hspoken hkept hw).bind fun _ w hw => ?_
  have hmeet : Meets w (.call (.sendrawtransaction r.hex)) := ⟨r.attempted now, hw.1, rfl⟩
  refine at_ask hmeet hattempted hw fun reply => ?_
  cases reply with
  | ok _ =>
    have hannounced : Kept (.record ((r.attempted now).announced now)) seen := hkept.version rfl rfl
    exact (at_version (q := (r.attempted now).announced now) (r := r.attempted now) rfl rfl hspoken
      hattempted hw).bind fun _ w hw => guards_publishPending _ _ hannounced hw
  | error e =>
    dsimp only
    split
    · exact hagain _ w hattempted hw
    · split
      · exact hw.fine hattempted
      · have hfailed : Kept (.record { r.attempted now with lastError := shorten e.message }) seen :=
          hkept.version hkept.1 rfl
        exact (at_version (q := { r.attempted now with lastError := shorten e.message })
          (r := r.attempted now) rfl rfl hspoken hattempted hw).bind fun _ w hw =>
            guards_publishPending _ _ hfailed hw

theorem guards_follow {again : SweepRecord → Engine Unit} {obs : TxObservation} {now : Int}
    (hagain : ∀ (next : SweepRecord) (w : Watched), Kept (.record next) (⟨obs, now⟩ :: past) →
      At (.record next) (⟨obs, now⟩ :: past) w → Guards port (again next) w)
    (hpast : r.conflictSeenAtMs ≠ 0 → obs.negative = true → Backed r.conflictSeenAtMs past)
    (hkept : Kept (.record r) (⟨obs, now⟩ :: past)) (hw : At (.record r) (⟨obs, now⟩ :: past) w) :
    Guards port (follow port obs r now again (resolve port obs r now)) w := by
  have hled := led_resolve port obs r now
  have hspoken : resolve port obs r now ≠ .unresolved → Spoken (⟨obs, now⟩ :: past) := by
    rintro hres p hp
    obtain rfl := Option.some.inj hp
    by_contra hsilent
    exact hres (resolve_silent (by simpa using hsilent))
  generalize resolve port obs r now = res at hled hspoken
  cases res with
  | unresolved => exact guards_publishPending _ _ hkept hw
  | rebroadcast => exact guards_rebroadcast hagain now (hspoken (by simp)) hkept hw
  | markBroadcast => exact guards_advance _ rfl _ _ (hspoken (by simp)) hkept hw
  | markAccepted => exact guards_advance _ rfl _ _ (hspoken (by simp)) hkept hw
  | markConfirmed => exact guards_advance _ rfl _ _ (hspoken (by simp)) hkept hw
  | markSettled =>
    exact guards_settle (.inl ⟨⟨obs, now⟩, List.mem_cons_self, hled⟩) (hspoken (by simp)) hkept hw
  | noteConflict => exact guards_noteConflict hled _ (hspoken (by simp)) hkept hw
  | markConflicted =>
    obtain ⟨hneg, hc, hlate⟩ := hled
    exact guards_dropConflicted ((hpast hc hneg).proved hneg hlate) (hspoken (by simp)) hkept hw

/-- An observation leaves the record backed, or overtakes what it says of a conflict. -/
theorem kept_or_overtaken (hkept : Kept (.record r) past) (hw : At (.record r) (o :: past) w) :
    Kept (.record r) (o :: past) ∨ (r.conflictSeenAtMs ≠ 0 ∧ o.obs.healthy = true ∧ w.overtaken = true) := by
  by_cases hc : r.conflictSeenAtMs = 0
  · exact .inl (kept_fresh hkept.1 hc)
  · by_cases hhealthy : o.obs.healthy = true
    · by_cases hsettled : ∃ p ∈ o :: past, p.obs.settles = true
      · obtain ⟨p, hp, hsettles⟩ := hsettled
        exact .inl ⟨hkept.1, fun _ => backed_of_settles hp hsettles⟩
      · push Not at hsettled
        refine .inr ⟨hc, hhealthy, ?_⟩
        simp only [Watched.overtaken, hw.1, hw.2]
        simpa [hc, hhealthy] using hsettled
    · exact .inl ⟨hkept.1, fun hc => (hkept.2 hc).cons (by simpa using hhealthy)⟩

theorem guards_resolveOnce {again : SweepRecord → Engine Unit}
    (hagain : ∀ (next : SweepRecord) (seen : List Sighting) (w : Watched),
      Kept (.record next) seen → At (.record next) seen w → Guards port (again next) w)
    (hkept : Kept (.record r) past) (hw : At (.record r) past w) :
    Guards port (resolveOnce port again r) w := by
  refine (at_of_asks (observe_asks port r.txid) hkept hw).bind fun obs w hw => ?_
  refine (at_nowMs hkept hw).bind fun now w hw => ?_
  refine guarded_act hw (.inl hkept) trivial fun _ _ => ?_
  generalize hwatched : w.after (.log (.resolved obs r now _)) = u
  have hu : At (.record r) (⟨obs, now⟩ :: past) u := by
    subst hwatched
    exact ⟨hw.1, congrArg _ hw.2⟩
  by_cases hclears : clearsConflict port obs r = true
  · -- The phone erases the sighting, whether or not it is overtaken.
    have hseen : r.seen port obs = { r with conflictSeenAtMs := 0 } := if_pos hclears
    have hfresh : Kept (.record (r.seen port obs)) (⟨obs, now⟩ :: past) := by
      rw [hseen]
      exact kept_fresh hkept.1 rfl
    obtain rfl : port = .android := by
      cases port with
      | android => rfl
      | windows => cases hclears
    have hhealthy : obs.healthy = true := (Bool.and_eq_true_iff.mp hclears).2
    rw [hclears]
    have hspoken : Spoken (⟨obs, now⟩ :: past) := by
      rintro p hp
      obtain rfl := Option.some.inj hp
      simp_all [TxObservation.healthy, TxObservation.silent]
    have herase : (Guarded .android).Ensures
        (fun _ => At (.record (r.seen .android obs)) (⟨obs, now⟩ :: past)) (fun _ => Fine .android)
        (writeIf true [.record (.record (r.seen .android obs))]) u := by
      refine at_write_record (by simp) (fun q hq => ?_) hspoken
        ((kept_or_overtaken hkept hu).imp_right fun h => h.2.2) hu
      cases hq
      rw [hseen]
      exact ⟨rfl, rfl⟩
    refine herase.bind fun _ w hw => guards_follow (hagain · _) (fun hc _ => ?_) hfresh hw
    rw [hseen] at hc
    exact absurd rfl hc
  · have hseen : r.seen port obs = r := if_neg hclears
    rw [hseen, (Bool.not_eq_true _).mp hclears]
    obtain hnow | ⟨hc, hhealthy, hovertaken⟩ := kept_or_overtaken hkept hu
    · exact guards_follow (hagain · _) (fun hc _ => hkept.2 hc) hnow hu
    · refine guards_stuck _ ?_ hovertaken
      cases port with
      | android => simp_all [clearsConflict]
      | windows => rfl

end Resolution

theorem guards_resolveRecord {port : Port} (left : Nat) {r : SweepRecord} {seen : List Sighting}
    {w : Watched} (hkept : Kept (.record r) seen) (hw : At (.record r) seen w) :
    Guards port (resolveRecord port left r) w := by
  induction left generalizing r seen w with
  | zero =>
    exact guards_resolveOnce (fun next _ _ hkept hw => guards_publishPending next (-1) hkept hw)
      hkept hw
  | succ left ih => exact guards_resolveOnce (fun _ _ _ hkept hw => ih hkept hw) hkept hw

section Sending

variable {port : Port} {w : Watched}

/-- An adopted record is of a transaction that is under way, without a sighting. -/
theorem adoptInFlightSend_yields (port : Port) :
    (adoptInFlightSend port).Yields fun found =>
      ∀ r ∈ found, r.terminal = false ∧ r.conflictSeenAtMs = 0 := by
  have hfrom : ∀ txs, (adoptFrom port txs).Yields fun found =>
      ∀ r ∈ found, r.terminal = false ∧ r.conflictSeenAtMs = 0 := by
    intro txs
    induction txs with
    | nil => exact fun r hr => by cases hr
    | cons tx txs ih =>
      unfold adoptFrom
      split
      · refine (yields_true _).bind fun full _ => ?_
        split
        · exact ih
        · split
          · exact ih
          · refine Yields.bind (Q := fun r => r.terminal = false ∧ r.conflictSeenAtMs = 0) ?_
              fun r hr q hq => by cases hq; exact hr
            refine (yields_true _).bind fun _ _ => (yields_true _).bind fun _ _ => ?_
            exact (yields_true _).bind fun _ _ => (yields_true _).bind fun _ _ _ => ⟨rfl, rfl⟩
      · exact ih
  refine (yields_true _).bind fun list _ => ?_
  split
  · trivial
  · exact hfrom _

theorem guards_adopt (hw : At .empty [] w) : Guards port (adopt port) w := by
  refine ((at_of_asks (adoptInFlightSend_asks port) kept_empty hw).yields
    (adoptInFlightSend_yields port)).bind fun found w ⟨hw, hr⟩ => ?_
  cases found with
  | none => exact guards_of_shows (shows_of_asks (releaseStaleLocks_asks port)) kept_empty hw
  | some r =>
    have hkept : Kept (.record r) [] := kept_fresh (hr r rfl).1 (hr r rfl).2
    refine guarded_act hw (.inl kept_empty) trivial fun _ _ => ?_
    refine (at_writeRecord (b := .empty) (by simp) spoken_nil kept_empty hw).bind fun _ w hw => ?_
    cases port with
    | android => exact hw.fine hkept
    | windows => exact guards_publishPending r (-1) hkept hw

/-- What is broadcast first is what the record on the disk holds. -/
theorem Kept.failed {r : SweepRecord} (h : Kept (.record r) seen) (message : String) :
    Kept (.record { r with lastError := message }) seen :=
  h.version h.1 rfl

theorem guards_send {r : SweepRecord} (hkept : Kept (.record r) []) (hw : At (.record r) [] w) :
    Guards port (send port r) w := by
  refine (at_of_asks (lockunspent_asks false _) hkept hw).bind fun _ w hw => ?_
  have hmeet : Meets w (.call (.sendrawtransaction r.hex)) := ⟨r, hw.1, rfl⟩
  refine at_ask hmeet hkept hw fun reply => ?_
  cases reply with
  | error e =>
    have hfailed := hkept.failed (shorten e.message)
    refine (at_version (q := { r with lastError := shorten e.message }) (r := r) rfl rfl spoken_nil
      hkept hw).bind fun _ w hw => ?_
    refine Ensures.bind (m := fun _ => Fine port) (guards_publishPending r (-1) hfailed hw)
      fun _ w hw => hw
  | ok returned =>
    dsimp only
    split
    · have hfailed := hkept.failed "the node returned a different transaction id"
      exact (at_version (q := { r with lastError := "the node returned a different transaction id" })
        (r := r) rfl rfl spoken_nil hkept hw).bind fun _ w hw =>
          guards_publishPending r (-1) hfailed hw
    · refine (at_nowMs hkept hw).bind fun now w hw => ?_
      have hannounced : Kept (.record (r.announced now)) [] := hkept.version rfl rfl
      have hsame : ∀ q, Blob.record r = .record q →
          (r.announced now).txid = q.txid ∧ (r.announced now).hex = q.hex := by
        rintro q hq
        cases hq
        exact ⟨rfl, rfl⟩
      refine Ensures.bind (m := fun _ => At (.record (r.announced now)) []) ?_ fun _ w hw =>
        guards_publishPending _ _ hannounced hw
      cases port with
      | windows =>
        exact at_write_record (by simp [Field.other]) hsame spoken_nil (.inl hkept) hw
      | android =>
        refine (at_writeRecord hsame spoken_nil hkept hw).bind fun _ w hw => ?_
        change (Guarded .android).Ensures _ _ (assign .android [.lastError ""]) w
        exact at_assign_other (by simp [Field.other]) spoken_nil hannounced hw

theorem commitFields_cons (r : SweepRecord) :
    ∃ fs, commitFields r = .record (.record r) :: fs ∧ ∀ f ∈ fs, f.other = true := by
  unfold commitFields
  split
  · exact ⟨[], rfl, by simp⟩
  · exact ⟨_, rfl, by simp [Field.other]⟩

/-- The record that a commit leaves, if it goes through. -/
def Committed (r : SweepRecord) (committed : Bool) : Watched → Prop :=
  At (if committed then .record r else .empty) []

theorem at_commit {r : SweepRecord} (hkept : Kept (.record r) []) (hw : At .empty [] w)
    (expected : ForwardState) :
    (Guarded port).Ensures (Committed r) (fun _ => Fine port) (commit port r expected) w := by
  refine guarded_act hw (.inl kept_empty) trivial fun _ _ => at_read kept_empty hw ?_
  split
  · obtain ⟨fs, hcommit, hfs⟩ := commitFields_cons r
    rw [hcommit]
    refine Ensures.bind (m := fun _ => At (.record r) []) ?_ fun _ w hw =>
      guarded_act hw (.inl hkept) trivial fun _ _ => hw
    cases port with
    | windows => exact at_write_record hfs (by simp) spoken_nil (.inl kept_empty) hw
    | android =>
      refine (at_writeRecord (r := r) (b := .empty) (by simp) spoken_nil kept_empty hw).bind
        fun _ w hw => ?_
      exact at_assign_other hfs spoken_nil hkept hw
  · refine Ensures.bind (m := fun _ => At .empty []) ?_ fun _ w hw =>
      guarded_act hw (.inl kept_empty) trivial fun _ _ => hw
    exact (at_of_shows (abort_shows port _) kept_empty hw).mono (fun _ _ h => h) fun _ _ h =>
      h.fine kept_empty

theorem guards_commitAndSend {r : SweepRecord} (hkept : Kept (.record r) []) (hw : At .empty [] w)
    (expected : ForwardState) : Guards port (commitAndSend port r expected) w := by
  refine guarded_act hw (.inl kept_empty) trivial fun _ _ => ?_
  refine (at_commit hkept hw expected).bind fun committed w hw => ?_
  cases committed with
  | true => exact guards_send hkept hw
  | false => exact At.fine hw kept_empty

theorem guards_vet (kind : SweepKind) (inputs : List Utxo) (destination script : String)
    (expected : ForwardState) (now : Int) (built : Built) (hw : At .empty [] w) :
    Guards port (vet port kind inputs destination script expected now built) w := by
  refine (at_of_asks (decodeBuilt_asks port kind destination built.hex) kept_empty hw).bind
    fun decoded w hw => ?_
  split
  · exact guards_of_shows (refuse_shows _ _ _ _) kept_empty hw
  · refine (at_of_asks (testAccept_asks port built.hex) kept_empty hw).bind fun rejection w hw => ?_
    split
    · exact guards_of_shows (refuse_shows _ _ _ _) kept_empty hw
    · exact guards_commitAndSend (kept_fresh rfl rfl) hw expected

/-- The node builds where nothing is recorded. -/
theorem at_build (kind : SweepKind) (inputs : List Utxo) (destination : String)
    (hw : At .empty [] w) :
    (Guarded port).Ensures (fun _ => At .empty []) (fun _ => Fine port)
      (build kind inputs destination) w := by
  cases kind <;>
  · refine guarded_act hw (.inl kept_empty) (fun _ => by rw [hw.1]; rfl) fun reply _ => ?_
    cases reply with
    | error e => exact At.fine hw kept_empty
    | ok b => exact hw

theorem guards_buildAndSend (kind : SweepKind) (inputs : List Utxo) (destination script : String)
    (expected : ForwardState) (hw : At .empty [] w) :
    Guards port (buildAndSend port kind inputs destination script expected) w := by
  unfold buildAndSend
  split
  · exact hw.fine kept_empty
  · refine (at_nowMs kept_empty hw).bind fun now w hw => ?_
    refine (at_build kind inputs destination hw).bind fun built w hw => ?_
    split
    · exact guards_of_shows (refuse_shows _ _ _ _) kept_empty hw
    · exact guards_vet kind inputs destination script expected now built hw

end Sending

section Evaluation

variable {port : Port} {w : Watched}

theorem at_applyPendingAddress (hw : At .empty [] w) :
    (Guarded port).Ensures (fun _ => At .empty []) (fun _ => Fine port) (applyPendingAddress port)
      w := by
  refine at_read kept_empty hw ?_
  split
  · exact hw
  · exact at_assign_other (by cases port <;> simp [Field.other, Port.reprobe]) spoken_nil kept_empty
      hw

theorem at_arm (state : ForwardState) (hw : At .empty [] w) :
    (Guarded port).Ensures (fun _ => At .empty []) (fun _ => Fine port) (arm state) w := by
  unfold arm
  split
  · refine at_read kept_empty hw ?_
    split
    · exact (at_write_other (by simp [Field.other]) spoken_nil kept_empty hw).bind fun _ _ hw => hw
    · exact hw
  · exact hw

theorem guards_consider (stats : NodeStats) (loaded alive : Bool) (state : ForwardState)
    (destination : String) (hw : At .empty [] w) :
    Guards port (consider port stats loaded alive state destination) w := by
  refine (at_of_asks (gatherLoaded_asks loaded) kept_empty hw).bind fun walletLoaded w hw => ?_
  refine (at_of_asks (gatherFacts_asks port walletLoaded destination) kept_empty hw).bind
    fun facts w hw => ?_
  refine (at_of_asks (gatherCandidates_asks port facts) kept_empty hw).bind
    fun candidates w hw => ?_
  refine (at_nowMs kept_empty hw).bind fun now w hw => ?_
  refine (at_of_asks relayPeers_asks kept_empty hw).bind fun peers w hw => ?_
  refine guarded_act hw (.inl kept_empty) trivial fun _ _ => ?_
  split
  · exact guards_of_shows (publish_shows _ _) kept_empty hw
  · exact guards_buildAndSend _ _ _ _ _ hw
  · exact guards_buildAndSend _ _ _ _ _ hw

theorem guards_proceed (stats : NodeStats) (loaded alive : Bool) (hw : At .empty [] w) :
    Guards port (proceed port stats loaded alive) w := by
  refine (at_applyPendingAddress hw).bind fun _ w hw => at_read kept_empty hw ?_
  split
  · exact guards_of_shows (publish_shows _ _) kept_empty hw
  · refine (at_arm w.store.state hw).bind fun state w hw => at_read kept_empty hw ?_
    split
    · exact (at_write_other (by simp [Field.other]) spoken_nil kept_empty hw).bind fun _ w hw =>
        guards_of_shows (publish_shows _ _) kept_empty hw
    · exact guards_consider stats loaded alive state w.store.address hw

/-- What the reading of the record says about it. -/
def Reads (found : Option (Option SweepRecord)) (w : Watched) : Prop :=
  Kept w.store.record w.seen ∧ match found with
  | none => True
  | some none => w.store.record = .empty
  | some (some r) => w.store.record = .record r

theorem reads_readRecord (hkept : Kept w.store.record w.seen) :
    (Guarded port).Ensures Reads (fun _ => Fine port) readRecord w := by
  have hw : At w.store.record w.seen w := ⟨rfl, rfl⟩
  refine at_read hkept hw ?_
  unfold recordIn
  split
  next r hr => exact ⟨hkept, hr⟩
  next hr =>
    have hparked : parked.Only Act.Shows :=
      (write_shows (by simp)).bind fun _ => trivial
    have hnone : parked.Yields fun found => found = none := fun _ => rfl
    refine ((at_of_shows hparked hkept hw).yields hnone).mono (fun found u ⟨hu, hfound⟩ => ?_)
      fun _ _ h => h.fine hkept
    rw [hfound]
    exact ⟨by rw [hu.1, hu.2]; exact hkept, trivial⟩
  next hr => exact ⟨hkept, hr⟩

theorem at_vacant (hkept : Kept w.store.record w.seen) (hw : w.store.record = .empty) :
    At .empty [] w := by
  rw [hw] at hkept
  exact ⟨hw, hkept⟩

theorem guards_evaluate (stats : NodeStats) (loaded alive : Bool)
    (hkept : Kept w.store.record w.seen) : Guards port (evaluate port stats loaded alive) w := by
  refine (reads_readRecord hkept).bind fun found w ⟨hkept, hfound⟩ => ?_
  match found, hfound with
  | none, _ => exact guards_of_shows (publish_shows _ _) hkept ⟨rfl, rfl⟩
  | some none, hw => exact guards_proceed stats loaded alive (at_vacant hkept hw)
  | some (some r), hw =>
    rw [hw] at hkept
    dsimp only
    rw [if_neg (by simp [hkept.1])]
    exact guards_resolveRecord _ hkept ⟨hw, rfl⟩

theorem guards_reconcile (loaded : Bool) (hkept : Kept w.store.record w.seen) :
    Guards port (reconcile port loaded) w := by
  refine at_read hkept ⟨rfl, rfl⟩ ?_
  split
  · exact guards_of_shows (publish_shows _ _) hkept ⟨rfl, rfl⟩
  · split
    · exact Ensures.bind (m := fun _ => Fine port)
        (guards_of_shows (publish_shows _ _) hkept ⟨rfl, rfl⟩) fun _ _ h => h
    · refine (reads_readRecord hkept).bind fun found w ⟨hkept, hfound⟩ => ?_
      match found, hfound with
      | none, _ => exact guards_of_shows (publish_shows _ _) hkept ⟨rfl, rfl⟩
      | some none, hw => exact guards_adopt (at_vacant hkept hw)
      | some (some r), hw =>
        rw [hw] at hkept
        dsimp only
        rw [if_neg (by simp [hkept.1])]
        exact guards_resolveRecord _ hkept ⟨hw, rfl⟩

/-- From wherever a process may be, it goes on, or a tray is stuck. -/
theorem guards_from {p : Engine Unit} (hw : Fine port w)
    (hp : Kept w.store.record w.seen → Guards port p w) : Guards port p w :=
  hw.elim hp fun ⟨hport, hovertaken⟩ => guards_stuck p hport hovertaken

theorem guards_reload {p : Engine Unit} (hkept : Kept w.store.record w.seen)
    (hp : Guards port p w) : Guards port (reload port >>= fun _ => p) w := by
  cases port with
  | android => exact hp
  | windows => exact guarded_act ⟨rfl, rfl⟩ (.inl hkept) trivial fun _ _ => hp

theorem guards_reconciled (hw : Fine port w) :
    Guards port (Routine.act .reconciled .done : Engine Unit) w :=
  guards_from hw fun hkept => guarded_act ⟨rfl, rfl⟩ (.inl hkept) trivial fun _ _ => .inl hkept

theorem guards_runEvaluation (needed : Bool) (stats : NodeStats) (loaded alive : Bool)
    (hw : Fine port w) : Guards port (runEvaluation port needed stats loaded alive) w := by
  refine guards_from hw fun hkept => ?_
  refine Ensures.attempt (m := fun _ => Fine port) (guards_reload hkept ?_) fun e w hw =>
    guards_from hw fun hkept => guards_of_shows (failed_shows _ e) hkept ⟨rfl, rfl⟩
  refine Ensures.bind (m := fun _ => Fine port) ?_ fun _ w hw => guards_from hw fun hkept =>
    Ensures.bind (m := fun _ => Fine port) (guards_evaluate stats loaded alive hkept) fun _ w hw =>
      guards_from hw fun hkept =>
        guards_of_shows (write_shows (by simp)) hkept ⟨rfl, rfl⟩
  unfold reconcileIf
  split
  · exact Ensures.bind (m := fun _ => Fine port) (guards_reconcile loaded hkept) fun _ _ hw =>
      guards_reconciled hw
  · exact .inl hkept

theorem guards_onNodeReady (loaded : Bool) (hw : Fine port w) :
    Guards port (onNodeReady port loaded) w := by
  refine guards_from hw fun hkept => ?_
  refine Ensures.attempt (m := fun _ => Fine port) (guards_reload hkept ?_) fun e w hw =>
    guards_from hw fun hkept => guards_of_shows (publish_shows _ _) hkept ⟨rfl, rfl⟩
  exact Ensures.bind (m := fun _ => Fine port) (guards_reconcile loaded hkept) fun _ _ hw =>
    guards_reconciled hw

end Evaluation

end pcoin.forward
