import PCoin.Keeper.Peg
import PCoin.Redeem.Runs
import PCoin.Run.Basic
import PCoin.Wrapdesk.Request
import PCoin.Wrapdesk.Runs

/-! The ledgers of the wrap desk, its watchers and the keeper, whose loads may fail. -/

namespace pcoin.ledgers

open run (Files)
open run.Prog (Works)
open wrapdesk

structure Config where
  desk : wrapdesk.desk.Config
  returns : wrapdesk.returns.Config
  watch : wrapdesk.watch.Config
  redeem : redeem.Config

/-- The five files. -/
structure State where
  requests : Files desk.File String := {}
  returns : Files (List returns.Record) Empty := {}
  wraps : Files wrapdesk.watch.Ledger watch.Act := {}
  redeems : Files redeem.Ledger String := {}
  keeper : Files peg.Ledger peg.Trade := {}

/-- A run of a program. The loads that fail of those that it makes are `false`. -/
inductive Event
  | request (p : desk.Post) (reads : List Bool)
  | post (b : returns.Body) (answers : Bool) (node : returns.Node) (reads : List Bool)
  | watch (r : wrapdesk.watch.Run) (reads : List Bool)
  | redeem (r : redeem.Run) (reads : List Bool)
  | keeper (w : peg.World) (reads : List Bool)

variable (cfg : Config)

def step (s : State) : Event → Option State
  | .request p reads =>
    some { s with requests := s.requests.after {} (wrapdesk.desk.request cfg.desk p) reads }
  | .post b answers node reads =>
    some { s with returns := s.returns.after [] (wrapdesk.returns.postRun cfg.returns b answers node) reads }
  | .watch r reads => some { s with wraps := s.wraps.after {} (r.prog cfg.watch) reads }
  | .redeem r reads => some { s with redeems := s.redeems.after {} (r.prog cfg.redeem) reads }
  | .keeper w reads => do
    -- the clock does not go back
    guard (w.Follows s.keeper.file)
    return { s with keeper := s.keeper.after {} (peg.main w) reads }

/-- What is promised of the files: what was saved is in them, and a run that could not read one has
not written it, and done no harm. -/
structure Exact (s : State) : Prop where
  requests : s.requests.Sound desk.Extends fun _ _ => True
  returns : s.returns.Sound returns.Keeps fun _ _ => True
  wraps : s.wraps.Sound watch.Keeps watch.Bad
  redeems : s.redeems.Sound redeem.Keeps redeem.Bad
  keeper : s.keeper.Sound peg.Keeps fun _ _ => True

/-- The loads of the run work, or it is one that comes to nothing without its ledger. -/
def Heeded (s : State) : Event → Prop
  | .request p reads => Works reads ∨ p.Refused cfg.desk reads
  | .post b answers node reads => Works reads ∨ wrapdesk.returns.received cfg.returns b answers node = none
  | .watch r reads => Works reads ∨ r.Spared s.wraps.file
  | .redeem r reads => Works reads ∨ r.Spared cfg.redeem
  | .keeper w reads => Works reads ∨ w.Spared reads

instance (s : State) : (e : Event) → Decidable (Heeded cfg s e)
  | .request p reads => inferInstanceAs (Decidable (Works reads ∨ p.Refused cfg.desk reads))
  | .post b answers node reads =>
    decidable_of_iff (Works reads ∨ (wrapdesk.returns.received cfg.returns b answers node).isNone = true)
      (or_congr_right Option.isNone_iff_eq_none)
  | .watch r reads => inferInstanceAs (Decidable (Works reads ∨ r.Spared s.wraps.file))
  | .redeem r reads => inferInstanceAs (Decidable (Works reads ∨ r.Spared cfg.redeem))
  | .keeper w reads => inferInstanceAs (Decidable (Works reads ∨ w.Spared reads))

variable {cfg} {s t : State}

theorem Exact.init : Exact {} := ⟨.init, .init, .init, .init, .init⟩

theorem Exact.step {e : Event} (h : Exact s) (hok : Heeded cfg s e) (hstep : ledgers.step cfg s e = some t) :
    Exact t := by
  cases e with
  | request p reads =>
    cases hstep
    exact { h with
      requests := h.requests.after desk.Extends.refl desk.Extends.trans (desk.request_keeps p _)
        (hok.imp_right fun hrefused _ => (desk.request_same hrefused).harmless) }
  | post b answers node reads =>
    cases hstep
    exact { h with
      returns := h.returns.after returns.Keeps.refl returns.Keeps.trans (returns.postRun_keeps _)
        (hok.imp_right fun hrefused _ => (returns.postRun_same hrefused).harmless) }
  | watch r reads =>
    cases hstep
    exact { h with
      wraps := h.wraps.after watch.Keeps.refl watch.Keeps.trans (watch.prog_keeps r _)
        (hok.imp_right watch.prog_harmless) }
  | redeem r reads =>
    cases hstep
    exact { h with
      redeems := h.redeems.after redeem.Keeps.refl redeem.Keeps.trans (redeem.prog_keeps r _)
        (hok.imp_right redeem.prog_harmless) }
  | keeper w reads =>
    obtain ⟨_, hclock, hstep⟩ := Option.bind_eq_some_iff.mp hstep
    cases hstep
    exact { h with
      keeper := h.keeper.after peg.Keeps.refl peg.Keeps.trans
        (peg.main_keeps ((Option.guard_eq_some' _).mp hclock))
        (hok.imp_right fun hspared _ => (peg.main_same hspared).harmless) }

/-- Nothing that was saved is lost, and no run acts on a ledger that it cannot read, if the loads
work except in runs that come to nothing without their ledger. -/
theorem unreadable_left_alone (cfg : Config) (s : State)
    (hrun : run.Steps (step cfg) (Heeded cfg) {} s) : Exact s :=
  hrun.invariant (fun _ _ _ h hok hstep => h.step hok hstep) Exact.init

namespace sample

theorem chunk_pos : (0 : Int) < 4000 := by decide

def config : Config :=
  { desk := desk.sample.config
    returns := { TOKEN := "", INVENTORY := "", recover := fun _ _ => none, receipt := fun _ => none }
    watch :=
      { TOKEN := "0xtoken", PER_PERSON := 250, TOTAL_ALLOC := 9000, MAX_SEND := 250, FEE_PCT := 5,
        SEND_DAILY_CAP := 1000, CONFIRMATIONS := 100, OPENED_AT_HEIGHT := 1, CLOSED_AT_HEIGHT := 0 }
    redeem :=
      { CHUNK := 4000, pos := chunk_pos, TOKEN := "", INVENTORY := "", FROM_BLOCK := 0,
        recover := fun _ _ => none } }

def asks (a : desk.Ask) : desk.Post := { ask := a, before := { now := 0 }, after := { now := 0 } }

/-- A run of the keeper that only alerts. -/
def broken : peg.World :=
  { tuning := none, posted := none, pool := none, now := 86400, today := 1, float := none }

def tuning : peg.Tuning :=
  { dead_band := 3 / 100, sanity_ratio := 5, daily_usdt_cap := 25, daily_wpcn_cap := 2000, min_usdt := 5,
    min_wpcn := 200, buy := true, buy_floor_usd := 0, sell := true, anchor_index := false,
    max_usdt_per_run := 10, max_wpcn_per_run := 400 }

def pays : watch.Pays :=
  { arg := "t1", day := "2026-10-01", have_ := 0, bnb := 0, nonce := 0, gas := 0, gasPrice := 0,
    receipt := none }

/-- Each program, once with its ledger, and once without it. -/
def events : List Event :=
  [.request (asks desk.sample.first) [], .request (asks { desk.sample.first with bsc := "0x" }) [false],
    .watch (.refunded "t1:pc1a" none) [], .watch (.send pays) [false],
    .redeem (.paid "0xburn:0") [], .redeem (.watch { connects := false, head := none } {}) [false],
    .keeper broken [], .keeper { broken with tuning := some tuning, connects := false } [false],
    .post { txhash := "", pcoinAddress := "", sender := "", signature := "" } true .answers [false]]

end sample

open sample in
theorem unreadable_left_alone_run :
    ∃ s, run.exec (step config) {} events = some s ∧
      s.requests.file.map (fun f => f.requests.map desk.Req.address) = some ["pc1one"] ∧
      s.redeems.file.map redeem.Ledger.paid = some ["0xburn:0"] ∧ Exact s := by
  have hrun : ((run.exec (step config) {} events).map fun s =>
      (s.requests.file.map (fun f => f.requests.map desk.Req.address), s.redeems.file.map redeem.Ledger.paid,
        decide (run.Meets (step config) (Heeded config) {} events))) =
      some (some ["pc1one"], some ["0xburn:0"], true) := by
    decide +kernel
  obtain ⟨s, hexec, heq⟩ := Option.map_eq_some_iff.mp hrun
  obtain ⟨hrequests, hrest⟩ := Prod.mk.inj heq
  obtain ⟨hpaid, hmeets⟩ := Prod.mk.inj hrest
  exact ⟨s, hexec, hrequests, hpaid,
    unreadable_left_alone config s (run.steps_of_exec _ hexec (of_decide_eq_true hmeets))⟩

open sample in
/-- A request that cannot read the file writes it anew, with its own record only, and gives out the
address of the one that was there. -/
theorem unreadable_file_written :
    ¬∀ cfg s, run.Steps (step cfg) (fun _ _ => True) {} s → Exact s := by
  have hrun : ((run.exec (step config) {} [.request (asks desk.sample.first) [],
      .request (asks desk.sample.second) [true, false]]).map fun s =>
        (s.requests.blinds.map fun t => t.saved.length, s.requests.blinds.flatMap run.Trace.seen)) =
      some ([1], ["pc1one"]) := by
    decide +kernel
  obtain ⟨s, hexec, heq⟩ := Option.map_eq_some_iff.mp hrun
  intro hall
  have hexact := hall config s (run.steps_of_exec _ hexec (run.meets_true _ _))
  have hlengths : ∀ n ∈ s.requests.blinds.map fun t => t.saved.length, n = 0 := by
    intro n hn
    obtain ⟨t, ht, rfl⟩ := List.mem_map.mp hn
    rw [(hexact.requests.blinds t ht).saved, List.length_nil]
  rw [(Prod.mk.inj heq).1] at hlengths
  exact absurd (hlengths 1 List.mem_cons_self) Nat.one_ne_zero

end pcoin.ledgers
