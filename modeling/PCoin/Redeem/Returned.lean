import PCoin.Redeem.Watch
import PCoin.Run.Basic

/-! What the watcher lists of the return claims. -/

namespace pcoin.redeem

variable {cfg : Config} {s t : State} {w : World} {c : Chain} {st st' : Ledger} {tasks returned : List Task}
  {final_head : Int} {receipt : String → Lookup} {check : String → Verdict} {paid : List String}

/-- The key of a log. -/
def logKey (log : String × Nat) : String := log.1 ++ ":" ++ toString log.2

/-- The transfer that a claim names, and its log. -/
def Claim.names (cfg : Config) (receipt : String → Lookup) (c : Claim) :
    Option ((String × Nat) × Transfer) :=
  match receipt (lowerCase c.txhash) with
  | .found rc => (rc.log c.logIndex).bind fun lg =>
    (lg.transfer cfg).map fun t => ((rc.transactionHash, lg.logIndex), t)
  | _ => none

/-- A claim that the sender of its transfer has signed is kept under the key of the log, with the
amount of the transfer. -/
def Claim.Kept (cfg : Config) (receipt : String → Lookup) (key : String) (c : Claim) : Prop :=
  ∀ x ∈ c.names cfg receipt,
    cfg.recover (return_message cfg (lowerCase c.txhash) c.pcoinAddress) c.signature = some x.2.sender →
      key = logKey x.1 ∧ c.wpcn = some (.num x.2.value)

instance (key : String) (c : Claim) : Decidable (c.Kept cfg receipt key) :=
  inferInstanceAs (Decidable (∀ x ∈ c.names cfg receipt,
    cfg.recover (return_message cfg (lowerCase c.txhash) c.pcoinAddress) c.signature = some x.2.sender →
      key = logKey x.1 ∧ c.wpcn = some (.num x.2.value)))

def Entry.Kept (cfg : Config) (receipt : String → Lookup) (key : String) : Entry → Prop
  | .claim c => c.Kept cfg receipt key
  | _ => True

instance (key : String) : (e : Entry) → Decidable (e.Kept cfg receipt key)
  | .claim c => inferInstanceAs (Decidable (c.Kept cfg receipt key))
  | .empty | .other => .isTrue trivial

def ReturnsFile.Kept (cfg : Config) (receipt : String → Lookup) : ReturnsFile → Prop
  | .claims entries _ => ∀ e ∈ entries, e.2.Kept cfg receipt e.1
  | _ => True

instance : (file : ReturnsFile) → Decidable (file.Kept cfg receipt)
  | .claims entries _ => inferInstanceAs (Decidable (∀ e ∈ entries, e.2.Kept cfg receipt e.1))
  | .missing | .unreadable | .malformed => .isTrue trivial

/-- The returns file that a run reads is kept. -/
def FileKept (cfg : Config) : Event → Prop
  | .run w => w.connects = true → w.head.isSome = true → w.returns.Kept cfg w.receipt
  | _ => True

instance : (e : Event) → Decidable (FileKept cfg e)
  | .run w => inferInstanceAs (Decidable
      (w.connects = true → w.head.isSome = true → w.returns.Kept cfg w.receipt))
  | .finalizes .. | .dies .. | .paid .. => .isTrue trivial

/-- A payment is owed: for a finalized transfer of its amount to the inventory, whose sender has
signed for the destination. -/
def Owed (cfg : Config) (rep : Report) (send : Send) : Prop :=
  ∃ txhash rc lg t signature, rep.receipt txhash = .found rc ∧ rc.status = 1 ∧
    (rc.blockNumber : Int) ≤ rep.final_head ∧ lg ∈ rc.logs ∧ lg.transfer cfg = some t ∧
    t.dest = cfg.INVENTORY ∧ send.log = (rc.transactionHash, lg.logIndex) ∧
    cfg.recover (return_message cfg txhash send.dest) signature = some t.sender ∧ send.amt = .num t.value

/-- What is promised of the return claims. -/
structure ReturnsExact (cfg : Config) (s : State) : Prop where
  owed : ∀ rep ∈ s.reports, ∀ task ∈ rep.returned, ∀ send ∈ task.send, Owed cfg rep send
  /-- A log is listed under one key, and not when one that it is listed under is paid. -/
  once : ∀ rep ∈ s.reports, ∀ task ∈ rep.returned, ∀ send ∈ task.send,
    ∀ rep' ∈ s.reports, ∀ task' ∈ rep'.returned, ∀ send' ∈ task'.send, send.log = send'.log →
      task.key = task'.key ∧ task.key ∉ rep'.paid

/-- What the watcher has checked of a claim that it lists. -/
theorem judge_owed {c : Claim} {amt : Amount} {send : Send}
    (h : c.judge cfg final_head receipt check amt = .owed send) :
    send.dest = c.pcoinAddress ∧ send.amt = amt ∧
      ∃ rc lg t, receipt (lowerCase c.txhash) = .found rc ∧ rc.status = 1 ∧
        (rc.blockNumber : Int) ≤ final_head ∧ rc.log c.logIndex = some lg ∧ lg.transfer cfg = some t ∧
        t.dest = cfg.INVENTORY ∧ send.log = (rc.transactionHash, lg.logIndex) ∧
        cfg.recover (return_message cfg (lowerCase c.txhash) c.pcoinAddress) c.signature = some t.sender := by
  unfold Claim.judge at h
  simp only at h
  split at h
  · cases h
  rename_i hsigned
  split at h
  · cases h
  · cases h
  rename_i rc hrc
  split at h
  · cases h
  rename_i hstatus
  split at h
  · cases h
  rename_i lg hlg
  split at h
  · cases h
  rename_i t ht
  split at h
  · cases h
  rename_i hsame
  split at h
  · cases h
  rename_i hfinal
  split at h
  · cases h
  obtain rfl := Judged.owed.inj h
  simp only [Bool.or_eq_true, decide_eq_true_eq, not_or, ne_eq, not_not] at hsame
  obtain ⟨⟨hdest, hsender⟩, -⟩ := hsame
  refine ⟨rfl, rfl, rc, lg, t, hrc, not_not.mp hstatus, not_lt.mp hfinal, hlg, ht, hdest, rfl, ?_⟩
  rw [hsender]
  exact not_not.mp hsigned

theorem task_send {key : String} {j : Judged} {send : Send} (h : (j.task key).send = some send) :
    j = .owed send := by
  cases j with
  | owed send' => exact congrArg Judged.owed (Option.some.inj h)
  | rejected | held | badDestination => cases h

theorem task_key (key : String) (j : Judged) : (j.task key).key = key := by
  cases j <;> rfl

/-- What is sent for the return claims is owed for an unpaid claim of the file. -/
theorem returns_send {file : ReturnsFile} (h : returns cfg final_head receipt check paid file = some returned)
    {task : Task} (htask : task ∈ returned) {send : Send} (hsend : task.send = some send) :
    ∃ entries nodup c amt, file = .claims entries nodup ∧ (task.key, .claim c) ∈ entries ∧
      task.key ∉ paid ∧ c.wpcn = some amt ∧ c.judge cfg final_head receipt check amt = .owed send := by
  cases file with
  | missing =>
    obtain rfl := Option.some.inj h
    cases htask
  | unreadable =>
    obtain rfl := Option.some.inj h
    rw [List.mem_singleton.mp htask] at hsend
    cases hsend
  | malformed => cases h
  | claims entries nodup =>
    obtain ⟨lists, hlists, rfl⟩ := Option.map_eq_some_iff.mp h
    obtain ⟨list, hlist, htask⟩ := List.mem_flatten.mp htask
    obtain ⟨⟨key, e⟩, he, hentry⟩ := run.exists_of_mem_mapM _ hlists list hlist
    have hmem := (List.mem_insertionSort _).mp he
    cases e with
    | empty =>
      obtain rfl := Option.some.inj hentry
      cases htask
    | other => cases hentry
    | claim c =>
      simp only [Entry.task] at hentry
      split at hentry
      · obtain rfl := Option.some.inj hentry
        cases htask
      · rename_i hpaid
        obtain ⟨amt, hamt, rfl⟩ := Option.map_eq_some_iff.mp hentry
        rw [List.mem_singleton.mp htask] at hsend ⊢
        rw [task_key]
        exact ⟨entries, nodup, c, amt, rfl, hmem, hpaid, hamt, task_send hsend⟩

/-- What is promised of the return claims of one run. -/
def Report.Sound (cfg : Config) (rep : Report) : Prop :=
  ∀ task ∈ rep.returned, ∀ send ∈ task.send,
    Owed cfg rep send ∧ task.key = logKey send.log ∧ task.key ∉ rep.paid

/-- A run lists what is owed, if the file that it reads is kept. -/
theorem returns_sound {rep : Report} (hkept : w.returns.Kept cfg rep.receipt)
    (h : returns cfg rep.final_head rep.receipt check rep.paid w.returns = some rep.returned) :
    rep.Sound cfg := by
  intro task htask send hsend
  obtain ⟨entries, nodup, c, amt, hfile, hmem, hpaid, hamt, hjudge⟩ := returns_send h htask hsend
  obtain ⟨hdest, hsame, rc, lg, t, hrc, hstatus, hfinal, hlg, ht, hinventory, hlog, hsigned⟩ :=
    judge_owed hjudge
  have hnames : c.names cfg rep.receipt = some ((rc.transactionHash, lg.logIndex), t) := by
    simp only [Claim.names, hrc, hlg, ht, Option.bind_some, Option.map_some]
  rw [hfile] at hkept
  obtain ⟨hkey, hvalue⟩ := hkept _ hmem _ hnames hsigned
  have hsendAmt : send.amt = .num t.value := hsame.trans (Option.some.inj (hamt.symm.trans hvalue))
  refine ⟨⟨_, rc, lg, t, c.signature, hrc, hstatus, hfinal, List.mem_of_find?_eq_some hlg, ht, hinventory,
    hlog, ?_, hsendAmt⟩, ?_, hpaid⟩
  · rw [hdest]
    exact hsigned
  · rw [hlog]
    exact hkey

/-- What a run that completes made of the return claims. -/
theorem main_returns (h : main cfg w c st = .completes st' tasks returned) :
    w.connects = true ∧ w.head.isSome = true ∧
      returns cfg (w.head.getD 0) w.receipt w.check_address st'.paid w.returns = some returned := by
  unfold main at h
  split at h
  · cases h
  rename_i hconnects
  split at h
  · cases h
  rename_i head hhead
  simp only at h
  split at h
  · cases h
  rename_i hreturns
  cases h
  rw [hhead]
  exact ⟨by simpa using hconnects, rfl, hreturns⟩

theorem sound_step {e : Event} (h : ∀ rep ∈ s.reports, rep.Sound cfg) (hok : FileKept cfg e)
    (hstep : step cfg s e = some t) : ∀ rep ∈ t.reports, rep.Sound cfg := by
  cases e with
  | finalizes n new =>
    obtain ⟨c, -, hstep⟩ := Option.bind_eq_some_iff.mp hstep
    cases hstep
    exact h
  | run w =>
    obtain ⟨_, -, hstep⟩ := Option.bind_eq_some_iff.mp hstep
    split at hstep
    · cases hstep
      exact h
    · cases hstep
    · rename_i hmain
      cases hstep
      obtain ⟨hconnects, hhead, hreturns⟩ := main_returns hmain
      intro rep hrep
      obtain hrep | hrep := List.mem_append.mp hrep
      · exact h rep hrep
      · obtain rfl := List.mem_singleton.mp hrep
        exact returns_sound (hok hconnects hhead) hreturns
  | dies w n =>
    obtain ⟨_, -, hstep⟩ := Option.bind_eq_some_iff.mp hstep
    cases hstep
    exact h
  | paid key =>
    cases hstep
    exact h

/-- What is listed of the return claims is owed, and each transfer is listed under one key, if the
files that the runs read are kept. -/
theorem returned_once (hrun : run.Steps (step cfg) (fun _ e => FileKept cfg e) {} s) :
    ReturnsExact cfg s := by
  have hsound : ∀ rep ∈ s.reports, rep.Sound cfg :=
    hrun.invariant (fun _ _ _ h hok hstep => sound_step h hok hstep) fun rep hrep => (by cases hrep)
  refine ⟨fun rep hrep task htask send hsend => (hsound rep hrep task htask send hsend).1, ?_⟩
  intro rep hrep task htask send hsend rep' hrep' task' htask' send' hsend' hlog
  have hkey : task.key = task'.key := by
    rw [(hsound rep hrep task htask send hsend).2.1, (hsound rep' hrep' task' htask' send' hsend').2.1, hlog]
  exact ⟨hkey, hkey ▸ (hsound rep' hrep' task' htask' send' hsend').2.2⟩

end pcoin.redeem
