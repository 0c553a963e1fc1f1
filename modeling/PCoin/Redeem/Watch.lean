import PCoin.Redeem.Returns
import PCoin.Run.Basic
import PCoin.Table.Evolves

/-! The redemption watcher: its ledger, its runs and what they list. -/

namespace pcoin.redeem

/-- An amount of `seen`. -/
structure Seen where
  key : String
  amt : ℚ
deriving DecidableEq

/-- `redeem.json`. -/
structure Ledger where
  paid : List String := []
  seen : List Seen := []
  scanned_to : Int := 0
deriving DecidableEq

/-- What a run meets. -/
structure World where
  connects : Bool := true
  /-- The finalized block, if the endpoint serves it. -/
  head : Option Nat
  /-- How many endpoints for logs answer. -/
  logs_conns : Nat := 1
  answers : Nat → Answer := fun _ => .serves
  check_address : String → Verdict := fun _ => .unknown
  returns : ReturnsFile := .missing
  receipt : String → Lookup := fun _ => .missing

/-- The end of a run. -/
inductive Outcome
  | unverified
  | dies
  /-- The ledger is saved, and the tasks are printed: those of the burns, and those of the return
  claims. -/
  | completes (st : Ledger) (tasks returned : List Task)

variable (cfg : Config) (w : World) (c : Chain) (st : Ledger)

def start : Int := max cfg.FROM_BLOCK st.scanned_to

/-- What a run scans. -/
def scanned (final_head : Nat) : Scan :=
  if w.logs_conns = 0 then { events := [], final := start cfg st - 1, gap := true }
  else scan cfg.toChunk c w.answers (start cfg st) final_head 0

/-- `st["seen"][key] = amt`. -/
def record (seen : List Seen) (ev : Redeem) : List Seen :=
  table.upsert Seen.key ev.key (fun _ => ⟨ev.key, ev.amt⟩) ⟨ev.key, ev.amt⟩ seen

/-- The task of an event that is not paid. -/
def Redeem.task (ev : Redeem) : Task :=
  if w.check_address ev.pcoinAddress = .bad then { key := ev.key, urgency := .action }
  else
    { key := ev.key, urgency := .action,
      send := some ⟨.num ev.amt, ev.pcoinAddress, ev.transactionHash, ev.logIndex⟩ }

/-- A run. -/
def main : Outcome :=
  if !w.connects then .unverified
  else match w.head with
    | none => .unverified
    | some final_head =>
      let r := scanned cfg w c st final_head
      let gaps := if r.gap then [{ key := "scan_gap", urgency := .warn }] else []
      let owed := (r.events.filter (·.key ∉ st.paid)).map (Redeem.task w)
      match returns cfg final_head w.receipt w.check_address st.paid w.returns with
      | none => .dies
      | some returned => .completes
        { st with
          seen := r.events.foldl record st.seen
          scanned_to := if start cfg st ≤ r.final then r.final + 1 else st.scanned_to }
        (gaps ++ owed) returned

/-- What a run has listed, with what it met: what had been read and what was paid by then, the
finalized block, and the receipts of the node. -/
structure Report where
  tasks : List Task
  returned : List Task
  read : List Redeem
  paid : List String
  final_head : Int
  receipt : String → Lookup

/-- The chain, the ledger, what runs have read of the chain, and what they have listed. -/
structure State where
  chain : Chain := {}
  st : Ledger := {}
  read : List Redeem := []
  reports : List Report := []

inductive Event
  | finalizes (n : Nat) (new : List Redeem)
  | run (w : World)
  /-- The run dies before the ledger is saved. `n` of the events have been read. -/
  | dies (w : World) (n : Nat)
  | paid (key : String)

/-- What a run reads of the chain. -/
def reads (s : State) : List Redeem :=
  if w.connects then (w.head.map fun head => (scanned cfg w s.chain s.st head).events).getD [] else []

def step (s : State) : Event → Option State
  | .finalizes n new => do
    let chain ← s.chain.finalizes n new
    return { s with chain := chain }
  | .run w => do
    guard (∀ head ∈ w.head, head ≤ s.chain.finalized)
    match main cfg w s.chain s.st with
    | .unverified => return s
    -- see `dies`
    | .dies => none
    | .completes st tasks returned =>
      let rep : Report :=
        { tasks := tasks, returned := returned, read := s.read ++ reads cfg w s, paid := st.paid,
          final_head := w.head.getD 0, receipt := w.receipt }
      return { s with st := st, read := rep.read, reports := s.reports ++ [rep] }
  | .dies w n => do
    guard (∀ head ∈ w.head, head ≤ s.chain.finalized)
    return { s with read := s.read ++ (reads cfg w s).take n }
  | .paid key => some { s with st := { s.st with paid := s.st.paid ++ [key] } }

/-- What was read by then and is not paid is an action of the run. -/
def Report.Whole (rep : Report) : Prop :=
  ∀ ev ∈ rep.read, ev.key ∉ rep.paid → ∃ task ∈ rep.tasks, task.key = ev.key ∧ task.urgency = .action

instance (rep : Report) : Decidable rep.Whole :=
  inferInstanceAs (Decidable (∀ ev ∈ rep.read, ev.key ∉ rep.paid →
    ∃ task ∈ rep.tasks, task.key = ev.key ∧ task.urgency = .action))

/-- What is promised of the list. -/
structure Exact (s : State) : Prop where
  listed : ∀ rep ∈ s.reports, rep.Whole
  /-- No block is skipped. -/
  seen : ∀ ev ∈ s.chain.events, cfg.FROM_BLOCK ≤ ev.block → ev.block < s.st.scanned_to →
    table.find Seen.key ev.key s.st.seen = some ⟨ev.key, ev.amt⟩

/-- The endpoints for logs answer up to a block, and it is not above the finalized one. -/
def World.Serves (final_head : Nat) (block : Nat) : Prop :=
  block ≤ final_head ∧ w.logs_conns ≠ 0 ∧
    answered w.answers (cfg.toChunk.upTo (start cfg st) block) 0 = true

instance (final_head block : Nat) : Decidable (w.Serves cfg st final_head block) :=
  inferInstanceAs (Decidable (block ≤ final_head ∧ w.logs_conns ≠ 0 ∧
    answered w.answers (cfg.toChunk.upTo (start cfg st) block) 0 = true))

/-- What the ledger has recorded is paid, and what has been read only by runs that died is served
again, if it is not paid. -/
def Again (s : State) (w : World) : Prop :=
  (∀ x ∈ s.st.seen, x.key ∈ s.st.paid) ∧
    ∀ head ∈ w.head, ∀ ev ∈ s.read, start cfg s.st ≤ ev.block → ev.key ∉ s.st.paid →
      w.Serves cfg s.st head ev.block

instance (s : State) (w : World) : Decidable (Again cfg s w) :=
  inferInstanceAs (Decidable ((∀ x ∈ s.st.seen, x.key ∈ s.st.paid) ∧
    ∀ head ∈ w.head, ∀ ev ∈ s.read, start cfg s.st ≤ ev.block → ev.key ∉ s.st.paid →
      w.Serves cfg s.st head ev.block))

def Heeded (s : State) : Event → Prop
  | .run w => w.connects = true → w.head.isSome = true → Again cfg s w
  | _ => True

instance (s : State) : (e : Event) → Decidable (Heeded cfg s e)
  | .run w => inferInstanceAs (Decidable (w.connects = true → w.head.isSome = true → Again cfg s w))
  | .finalizes .. | .dies .. | .paid .. => .isTrue trivial

variable {cfg : Config} {s t : State} {w : World} {c : Chain} {st st' : Ledger} {tasks returned : List Task}

theorem find_record_self (seen : List Seen) (ev : Redeem) :
    table.find Seen.key ev.key (record seen ev) = some ⟨ev.key, ev.amt⟩ := by
  unfold record
  exact table.find_upsert (by rfl) seen

theorem find_record {seen : List Seen} {ev : Redeem} {key : String} {amt : ℚ}
    (h : table.find Seen.key key seen = some ⟨key, amt⟩) (hamt : ev.key = key → ev.amt = amt) :
    table.find Seen.key key (record seen ev) = some ⟨key, amt⟩ := by
  by_cases hkey : ev.key = key
  · rw [← hamt hkey, ← hkey]
    exact find_record_self seen ev
  · unfold record
    rw [table.find_upsert_of_ne (Ne.symm hkey) (by rfl), h]

/-- What is in the ledger stays there, if its events agree with it. -/
theorem find_records {events : List Redeem} {seen : List Seen} {key : String} {amt : ℚ}
    (h : table.find Seen.key key seen = some ⟨key, amt⟩)
    (hamt : ∀ ev ∈ events, ev.key = key → ev.amt = amt) :
    table.find Seen.key key (events.foldl record seen) = some ⟨key, amt⟩ := by
  induction events generalizing seen with
  | nil => exact h
  | cons ev events ih =>
    exact ih (find_record h (hamt ev List.mem_cons_self)) fun x hx => hamt x (List.mem_cons_of_mem _ hx)

/-- Every event is in the ledger with its amount. -/
theorem find_records_of_mem {events : List Redeem} {seen : List Seen} {ev : Redeem} (hev : ev ∈ events)
    (hamt : ∀ ev' ∈ events, ev'.key = ev.key → ev'.amt = ev.amt) :
    table.find Seen.key ev.key (events.foldl record seen) = some ⟨ev.key, ev.amt⟩ := by
  induction events generalizing seen with
  | nil => cases hev
  | cons x events ih =>
    have hrest : ∀ ev' ∈ events, ev'.key = ev.key → ev'.amt = ev.amt := fun ev' hev' =>
      hamt ev' (List.mem_cons_of_mem _ hev')
    rw [List.foldl_cons]
    obtain rfl | hev := List.mem_cons.mp hev
    · exact find_records (find_record_self seen ev) hrest
    · exact ih hev hrest

/-- A run scans the events from its start up to where it has come. -/
theorem mem_scanned {final_head : Nat} {ev : Redeem} :
    ev ∈ (scanned cfg w c st final_head).events ↔ ev ∈ c.events ∧ start cfg st ≤ ev.block ∧
      ev.block ≤ (scanned cfg w c st final_head).final := by
  unfold scanned
  split
  · refine ⟨fun hev => (by cases hev), ?_⟩
    rintro ⟨-, hlo, hhi⟩
    simp only at hhi
    omega
  · exact (scan_covers _ _ _).mem ev

theorem scanned_le {final_head : Nat}
    (h : start cfg st ≤ (scanned cfg w c st final_head).final) :
    (scanned cfg w c st final_head).final ≤ final_head := by
  unfold scanned at h ⊢
  split at h
  · simp only at h
    omega
  · rename_i hconns
    rw [if_neg hconns]
    exact (scan_covers _ _ _).le

theorem mem_reads {ev : Redeem} (h : ev ∈ reads cfg w s) :
    ev ∈ s.chain.events ∧ cfg.FROM_BLOCK ≤ ev.block := by
  unfold reads at h
  split at h
  · cases hhead : w.head with
    | none =>
      rw [hhead] at h
      cases h
    | some head =>
      rw [hhead] at h
      obtain ⟨hev, hstart, -⟩ := mem_scanned.mp h
      exact ⟨hev, le_trans (le_max_left _ _) hstart⟩
  · cases h

/-- A run comes to a block, if the endpoints answer up to it. -/
theorem scanned_reaches {final_head block : Nat} (hstart : start cfg st ≤ block)
    (h : w.Serves cfg st final_head block) :
    (block : Int) ≤ (scanned cfg w c st final_head).final := by
  obtain ⟨hhead, hconns, hanswered⟩ := h
  unfold scanned
  rw [if_neg hconns]
  exact scan_reaches hstart (by omega) hanswered

/-- A run that completes. -/
theorem main_completes (h : main cfg w c st = .completes st' tasks returned) :
    ∃ head ∈ w.head, w.connects = true ∧
      let r := scanned cfg w c st head
      st'.paid = st.paid ∧ st'.seen = r.events.foldl record st.seen ∧
      st'.scanned_to = (if start cfg st ≤ r.final then r.final + 1 else st.scanned_to) ∧
      ∀ ev ∈ r.events, ev.key ∉ st.paid → ∃ task ∈ tasks, task.key = ev.key ∧ task.urgency = .action := by
  unfold main at h
  split at h
  · cases h
  rename_i hconnects
  split at h
  · cases h
  rename_i head hhead
  simp only at h
  split at h
  · cases h
  cases h
  refine ⟨head, hhead, by simpa using hconnects, rfl, rfl, rfl, fun ev hev hpaid => ?_⟩
  have hmem : ev ∈ (scanned cfg w c st head).events.filter (·.key ∉ st.paid) :=
    List.mem_filter.mpr ⟨hev, decide_eq_true hpaid⟩
  refine ⟨ev.task w, List.mem_append_right _ (List.mem_map_of_mem hmem), ?_⟩
  unfold Redeem.task
  split
  · exact ⟨rfl, rfl⟩
  · exact ⟨rfl, rfl⟩

/-- What holds of the watcher, whatever it has listed. -/
structure Inv (cfg : Config) (s : State) : Prop where
  seen : ∀ ev ∈ s.chain.events, cfg.FROM_BLOCK ≤ ev.block → ev.block < s.st.scanned_to →
    table.find Seen.key ev.key s.st.seen = some ⟨ev.key, ev.amt⟩
  read : ∀ ev ∈ s.read, ev ∈ s.chain.events ∧ cfg.FROM_BLOCK ≤ ev.block
  below : s.st.scanned_to ≤ s.chain.finalized + 1

namespace Inv

/-- A run that completes keeps the ledger whole. -/
theorem run {new : List Report} (h : Inv cfg s) (hhead : ∀ head ∈ w.head, head ≤ s.chain.finalized)
    (hmain : main cfg w s.chain s.st = .completes st' tasks returned) :
    Inv cfg { s with st := st', read := s.read ++ reads cfg w s, reports := new } := by
  obtain ⟨head, hmem, -, -, hseen, hscanned, -⟩ := main_completes hmain
  have hfinal := hhead head hmem
  refine ⟨fun ev hev hfrom hbelow => ?_, fun ev hev => ?_, ?_⟩
  · -- an event has one amount
    have hamt : ∀ ev' ∈ (scanned cfg w s.chain s.st head).events, ev'.key = ev.key → ev'.amt = ev.amt :=
      fun ev' hev' hkey => by rw [Chain.eq_of_key (mem_scanned.mp hev').1 hev hkey]
    simp only [hseen]
    by_cases hold : (ev.block : Int) < s.st.scanned_to
    · exact find_records (h.seen ev hev hfrom hold) hamt
    · refine find_records_of_mem (mem_scanned.mpr ⟨hev, max_le hfrom (by omega), ?_⟩) hamt
      simp only [hscanned] at hbelow
      split at hbelow
      · omega
      · omega
  · obtain hev | hev := List.mem_append.mp hev
    · exact h.read ev hev
    · exact (mem_reads hev :)
  · have hle := h.below
    simp only [hscanned]
    split
    · rename_i hstart
      have := scanned_le hstart
      omega
    · exact hle

theorem step {e : Event} (h : Inv cfg s) (hstep : redeem.step cfg s e = some t) : Inv cfg t := by
  cases e with
  | finalizes n new =>
    obtain ⟨c, hc, hstep⟩ := Option.bind_eq_some_iff.mp hstep
    cases hstep
    obtain ⟨hle, hevents, hnew⟩ := Chain.finalizes_spec hc
    have hbelow := h.below
    refine ⟨fun ev hev hfrom hlt => ?_, fun ev hev => ?_, ?_⟩
    · simp only [hevents] at hev
      obtain hev | hev := List.mem_append.mp hev
      · exact h.seen ev hev hfrom hlt
      · have := hnew ev hev
        simp only at hlt
        omega
    · obtain ⟨hmem, hfrom⟩ := h.read ev hev
      simp only [hevents]
      exact ⟨List.mem_append_left _ hmem, hfrom⟩
    · simp only
      omega
  | run w =>
    obtain ⟨_, hhead, hstep⟩ := Option.bind_eq_some_iff.mp hstep
    replace hhead := (Option.guard_eq_some' _).mp hhead
    split at hstep
    · cases hstep
      exact h
    · cases hstep
    · rename_i hmain
      cases hstep
      exact h.run hhead hmain
  | dies w n =>
    obtain ⟨_, -, hstep⟩ := Option.bind_eq_some_iff.mp hstep
    cases hstep
    refine { h with read := fun ev hev => ?_ }
    obtain hev | hev := List.mem_append.mp hev
    · exact h.read ev hev
    · exact mem_reads (List.mem_of_mem_take hev)
  | paid key =>
    cases hstep
    exact { h with }

theorem init (cfg : Config) : Inv cfg {} where
  seen ev hev := by cases hev
  read ev hev := by cases hev
  below := by decide

end Inv

/-- What has been read and is not paid is scanned again. -/
theorem Again.scanned {head : Nat} {ev : Redeem} (h : Inv cfg s) (hagain : Again cfg s w)
    (hhead : head ∈ w.head) (hev : ev ∈ s.read) (hunpaid : ev.key ∉ s.st.paid) :
    ev ∈ (scanned cfg w s.chain s.st head).events := by
  obtain ⟨hsettled, hserved⟩ := hagain
  obtain ⟨hchain, hfrom⟩ := h.read ev hev
  by_cases hbelow : (ev.block : Int) < s.st.scanned_to
  · -- a run that completed has recorded it
    obtain ⟨hseen, -⟩ := table.find_spec (h.seen ev hchain hfrom hbelow)
    exact absurd (hsettled _ hseen) hunpaid
  · have hstart : start cfg s.st ≤ ev.block := max_le hfrom (not_lt.mp hbelow)
    exact mem_scanned.mpr ⟨hchain, hstart,
      scanned_reaches hstart (hserved head hhead ev hev hstart hunpaid)⟩

/-- A run that reads again what is owed lists it. -/
theorem run_whole {rep : Report} (h : Inv cfg s)
    (hok : w.connects = true → w.head.isSome = true → Again cfg s w)
    (hmain : main cfg w s.chain s.st = .completes st' rep.tasks returned)
    (hread : rep.read = s.read ++ reads cfg w s) (hrep : rep.paid = st'.paid) : rep.Whole := by
  obtain ⟨head, hmem, hconnects, hpaid, -, -, hlisted⟩ := main_completes hmain
  have hagain := hok hconnects (Option.isSome_of_mem hmem)
  have hreads : reads cfg w s = (scanned cfg w s.chain s.st head).events := by
    rw [reads, if_pos hconnects, Option.mem_def.mp hmem]
    rfl
  intro ev hev hunpaid
  rw [hrep, hpaid] at hunpaid
  rw [hread] at hev
  obtain hev | hev := List.mem_append.mp hev
  · exact hlisted ev (hagain.scanned h hmem hev hunpaid) hunpaid
  · exact hlisted ev (hreads ▸ hev) hunpaid

/-- What holds, if the runs list what is owed. -/
structure Listed (cfg : Config) (s : State) : Prop extends Inv cfg s where
  listed : ∀ rep ∈ s.reports, rep.Whole

theorem Listed.step {e : Event} (h : Listed cfg s) (hok : Heeded cfg s e)
    (hstep : redeem.step cfg s e = some t) : Listed cfg t := by
  refine ⟨h.toInv.step hstep, ?_⟩
  cases e with
  | finalizes n new =>
    obtain ⟨c, -, hstep⟩ := Option.bind_eq_some_iff.mp hstep
    cases hstep
    exact h.listed
  | run w =>
    obtain ⟨_, -, hstep⟩ := Option.bind_eq_some_iff.mp hstep
    split at hstep
    · cases hstep
      exact h.listed
    · cases hstep
    · rename_i hmain
      cases hstep
      intro rep hrep
      obtain hrep | hrep := List.mem_append.mp hrep
      · exact h.listed rep hrep
      · rw [List.mem_singleton.mp hrep]
        exact run_whole h.toInv hok hmain rfl rfl
  | dies w n =>
    obtain ⟨_, -, hstep⟩ := Option.bind_eq_some_iff.mp hstep
    cases hstep
    exact h.listed
  | paid key =>
    cases hstep
    exact h.listed

/-- No block is skipped, whatever the runs meet. -/
theorem seen_of_steps {ok : State → Event → Prop} (hrun : run.Steps (step cfg) ok {} s) : Inv cfg s :=
  hrun.invariant (fun _ _ _ h _ hstep => h.step hstep) (Inv.init cfg)

/-- What is read is listed until it is paid, if each run that reads a head finds the ledger paid
and what dead runs have read served again. No block is skipped. -/
theorem listed_until_paid (cfg : Config) (s : State) (hrun : run.Steps (step cfg) (Heeded cfg) {} s) :
    Exact cfg s := by
  have hlisted : Listed cfg s := hrun.invariant (fun _ _ _ h hok hstep => h.step hok hstep)
    ⟨Inv.init cfg, fun rep hrep => (by cases hrep)⟩
  exact ⟨hlisted.listed, hlisted.seen⟩

namespace sample

def config : Config :=
  { CHUNK := 4000, pos := by decide, TOKEN := "0xtoken", INVENTORY := "0xinventory", FROM_BLOCK := 0,
    recover := fun _ _ => none }

/-- Two burns of one transaction. -/
def burns : List Redeem :=
  [⟨5, "0xburn", 0, "0xalice", 100000000, "pc1alice"⟩, ⟨5, "0xburn", 3, "0xbob", 200000000, "pc1bob"⟩]

end sample

open sample in
theorem listed_until_paid_run :
    ∃ s, run.exec (step config) {} [.finalizes 9 burns, .dies { head := some 9 } 1,
        .run { head := some 9 }, .paid "0xburn:0", .paid "0xburn:3", .finalizes 12 [],
        .run { head := some 12 }] = some s ∧
      s.reports.map (fun rep => rep.tasks.map Task.key) = [["0xburn:0", "0xburn:3"], []] ∧
      Exact config s := by
  have hrun : ((run.exec (step config) {} [.finalizes 9 burns, .dies { head := some 9 } 1,
      .run { head := some 9 }, .paid "0xburn:0", .paid "0xburn:3", .finalizes 12 [],
      .run { head := some 12 }]).map fun s => s.reports.map fun rep => rep.tasks.map Task.key) =
        some [["0xburn:0", "0xburn:3"], []] := by
    decide +kernel
  obtain ⟨s, hexec, hreports⟩ := Option.map_eq_some_iff.mp hrun
  refine ⟨s, hexec, hreports, listed_until_paid config s (run.steps_of_exec _ hexec ?_)⟩
  decide +kernel

open sample in
/-- The scan has gone on, and the burns are owed still. -/
theorem listed_by_one_run_only :
    ¬∀ cfg s, run.Steps (step cfg) (fun _ _ => True) {} s → Exact cfg s := by
  have hrun : ((run.exec (step config) {} [.finalizes 9 burns, .run { head := some 9 },
      .finalizes 12 [], .run { head := some 12 }]).map fun s =>
        (s.reports.map fun rep => rep.tasks.map Task.key, decide (∀ rep ∈ s.reports, rep.Whole))) =
          some ([["0xburn:0", "0xburn:3"], []], false) := by
    decide +kernel
  obtain ⟨s, hexec, heq⟩ := Option.map_eq_some_iff.mp hrun
  intro hall
  have hexact := hall config s (run.steps_of_exec _ hexec (run.meets_true _ _))
  exact of_decide_eq_false (Prod.mk.inj heq).2 hexact.listed

end pcoin.redeem
