import PCoin.Redeem.Watch
import PCoin.Wpcn.Token
import Mathlib.Tactic.FieldSimp
import Mathlib.Tactic.Linarith

/-! The audit of the redemption watcher, against the contract that it watches. -/

namespace pcoin.redeem

def missedRedemptions : Task := { key := "INVARIANT", urgency := .action }

/-- The audit: what the contract says was ever burned, and what is recorded. -/
def audit (issued outstanding : ℚ) (seen : List Seen) : List Task :=
  let burned_ever := issued - outstanding
  let accounted := (seen.map Seen.amt).sum
  if burned_ever - accounted > 1 / 10 ^ 8 then [missedRedemptions]
  else if accounted - burned_ever > 1 / 10 ^ 8 then [{ key := "INVARIANT_HIGH", urgency := .warn }]
  else []

/-- A call of the contract in a block, and the index of its Redeem log if it emits one. -/
structure Tx where
  sender : wpcn.Address
  call : wpcn.Call
  block : Nat
  transactionHash : String
  logIndex : Nat

/-- The contract, and those who watch it. -/
structure System where
  contract : wpcn.Deployed
  watch : State

inductive Happens
  | block (n : Nat) (txs : List Tx)
  | watch (e : Event)

section

-- How the web3 library writes addresses and decodes the strings of a log.
variable (name : wpcn.Address → String) (text : store.Bytes → String)

/-- A log as the watcher reads it. -/
def Tx.event (tx : Tx) : wpcn.Log → Option Redeem
  | .redeem sender value pcoinAddress => some
    { block := tx.block
      transactionHash := tx.transactionHash
      logIndex := tx.logIndex
      sender := name sender
      value := value.val
      pcoinAddress := text pcoinAddress }
  | _ => none

/-- The calls of a block, and the Redeem events they leave. -/
def executes (d : wpcn.Deployed) : List Tx → wpcn.Deployed × List Redeem
  | [] => (d, [])
  | tx :: txs =>
    let (d', events) := executes (d.after tx.sender tx.call) txs
    (d', (d.emits tx.sender tx.call).filterMap (tx.event name text) ++ events)

def System.step (cfg : Config) (s : System) : Happens → Option System
  | .block n txs => do
    let (contract, new) := executes name text s.contract txs
    let chain ← s.watch.chain.finalizes n new
    return { contract, watch := { s.watch with chain } }
  -- the chain grows by blocks only
  | .watch (.finalizes _ _) => none
  | .watch e => do
    let watch ← redeem.step cfg s.watch e
    return { s with watch }

end

/-! ### What is recorded -/

/-- Everything recorded is an event of the chain, once and with its amount. -/
structure Recorded (c : Chain) (seen : List Seen) : Prop where
  nodup : (seen.map Seen.key).Nodup
  mem : ∀ v ∈ seen, ∃ ev ∈ c.events, v = ⟨ev.key, ev.amt⟩

variable {c : Chain} {seen : List Seen}

theorem Recorded.record (h : Recorded c seen) {ev : Redeem} (hev : ev ∈ c.events) :
    Recorded c (record seen ev) where
  nodup := by
    rw [redeem.record, table.upsert]
    split
    case isTrue =>
      have hkeys : (table.update Seen.key ev.key (fun _ => ⟨ev.key, ev.amt⟩) seen).map Seen.key =
          seen.map Seen.key :=
        @table.keys_update _ _ _ Seen.key ev.key _ (fun _ hkey => Eq.symm hkey) seen
      rw [hkeys]
      exact h.nodup
    case isFalse hnew => exact table.nodup_append h.nodup hnew
  mem v hv := by
    rcases table.mem_upsert hv with rfl | hv
    · exact ⟨ev, hev, rfl⟩
    · exact h.mem v hv

theorem Recorded.records (h : Recorded c seen) {events : List Redeem}
    (hevents : ∀ ev ∈ events, ev ∈ c.events) : Recorded c (events.foldl redeem.record seen) := by
  induction events generalizing seen with
  | nil => exact h
  | cons ev events ih =>
    exact ih (h.record (hevents ev List.mem_cons_self)) fun x hx => hevents x (List.mem_cons_of_mem _ hx)

/-- What the chain has emitted and nothing records. -/
def lacking (c : Chain) (seen : List Seen) : List Redeem :=
  c.events.filter fun ev => ev.key ∉ seen.map Seen.key

/-- The amounts recorded are those of the events that are not lacking. -/
theorem Recorded.sum_add (h : Recorded c seen) :
    (seen.map Seen.amt).sum + ((lacking c seen).map Redeem.amt).sum = (c.events.map Redeem.amt).sum := by
  have hperm : seen.Perm
      ((c.events.filter fun ev => ev.key ∈ seen.map Seen.key).map fun ev => ⟨ev.key, ev.amt⟩) := by
    refine (List.perm_ext_iff_of_nodup h.nodup.of_map ?_).mpr fun v => ?_
    · refine List.Nodup.of_map Seen.key ?_
      rw [List.map_map]
      exact c.nodup.sublist (List.filter_sublist.map _)
    · rw [List.mem_map]
      constructor
      · intro hv
        obtain ⟨ev, hev, rfl⟩ := h.mem v hv
        exact ⟨ev, List.mem_filter.mpr ⟨hev, decide_eq_true (List.mem_map_of_mem hv)⟩, rfl⟩
      · rintro ⟨ev, hev, rfl⟩
        obtain ⟨hev, hkey⟩ := List.mem_filter.mp hev
        obtain ⟨v, hv, hkeys⟩ := List.mem_map.mp (of_decide_eq_true hkey)
        obtain ⟨ev', hev', rfl⟩ := h.mem v hv
        rwa [Chain.eq_of_key hev hev' hkeys.symm]
  rw [(hperm.map Seen.amt).sum_eq, List.map_map, lacking, table.sum_filter, table.sum_filter,
    ← List.sum_map_add]
  refine congrArg List.sum (List.map_congr_left fun ev _ => ?_)
  by_cases hkey : ev.key ∈ seen.map Seen.key
  · simp [hkey]
  · simp [hkey]

theorem sum_amt (events : List Redeem) :
    (events.map Redeem.amt).sum = ((events.map Redeem.value).sum : Nat) / 10 ^ 8 := by
  induction events with
  | nil => simp
  | cons ev events ih =>
    rw [List.map_cons, List.sum_cons, ih, List.map_cons, List.sum_cons, Redeem.amt]
    push_cast
    ring

/-- The alarm is raised when what is lacking is worth more than a unit. -/
theorem Recorded.audit_iff (h : Recorded c seen) {issued outstanding : Nat}
    (hemitted : outstanding + (c.events.map Redeem.value).sum = issued) :
    missedRedemptions ∈ audit (issued / 10 ^ 8) (outstanding / 10 ^ 8) seen ↔
      1 < ((lacking c seen).map Redeem.value).sum := by
  have hsum := h.sum_add
  rw [sum_amt, sum_amt] at hsum
  have hburned : (issued : ℚ) / 10 ^ 8 - outstanding / 10 ^ 8 - (seen.map Seen.amt).sum =
      (((lacking c seen).map Redeem.value).sum : Nat) / 10 ^ 8 := by
    rw [← hemitted]
    push_cast at hsum ⊢
    linarith
  have hhigh : missedRedemptions ≠ { key := "INVARIANT_HIGH", urgency := .warn } := by decide
  have hiff : (issued : ℚ) / 10 ^ 8 - outstanding / 10 ^ 8 - (seen.map Seen.amt).sum > 1 / 10 ^ 8 ↔
      1 < ((lacking c seen).map Redeem.value).sum := by
    rw [hburned, gt_iff_lt, div_lt_div_iff_of_pos_right (by norm_num)]
    exact Nat.one_lt_cast
  rw [audit, ← hiff]
  split
  case isTrue hlt => exact iff_of_true (List.mem_singleton.mpr rfl) hlt
  case isFalse hlt =>
    refine iff_of_false (fun hmem => ?_) hlt
    split at hmem
    · exact hhigh (List.mem_singleton.mp hmem)
    · cases hmem

/-! ### The contract and the chain -/

variable {name : wpcn.Address → String} {text : store.Bytes → String}

theorem sum_event (tx : Tx) (logs : List wpcn.Log) :
    ((logs.filterMap (tx.event name text)).map Redeem.value).sum = wpcn.redeemed logs := by
  induction logs with
  | nil => rfl
  | cons log logs ih =>
    rw [wpcn.redeemed] at ih ⊢
    cases log with
    | redeem sender value pcoinAddress => simpa [Tx.event, wpcn.Log.redeemed] using ih
    | transfer | approval | deployed =>
      rw [List.filterMap_cons_none rfl]
      simpa [wpcn.Log.redeemed] using ih

theorem logs_after (d : wpcn.Deployed) (sender : wpcn.Address) (call : wpcn.Call) :
    (d.after sender call).logs = d.logs ++ d.emits sender call := by
  rw [wpcn.Deployed.after, wpcn.Deployed.emits]
  cases d.token.call sender call with
  | ok r => rfl
  | error f => exact (List.append_nil _).symm

/-- A block leaves the events of what it redeems. -/
theorem executes_spec {d : wpcn.Deployed} (h : wpcn.Conserved d) (txs : List Tx) :
    wpcn.Conserved (executes name text d txs).1 ∧
      wpcn.redeemed (executes name text d txs).1.logs =
        wpcn.redeemed d.logs + ((executes name text d txs).2.map Redeem.value).sum := by
  induction txs generalizing d with
  | nil => exact ⟨h, rfl⟩
  | cons tx txs ih =>
    obtain ⟨hconserved, hlogs⟩ := ih (wpcn.conserved_after h tx.sender tx.call)
    refine ⟨hconserved, ?_⟩
    simp only [executes]
    rw [hlogs, logs_after, wpcn.redeemed_append, List.map_append, List.sum_append, sum_event,
      Nat.add_assoc]

structure System.Inv (s : System) : Prop where
  conserved : wpcn.Conserved s.contract
  emitted : (s.watch.chain.events.map Redeem.value).sum = wpcn.redeemed s.contract.logs
  recorded : Recorded s.watch.chain s.watch.st.seen

variable {cfg : Config} {s t : State}

theorem recorded_completes {w : World} {st' : Ledger} {tasks returned : List Task}
    (h : Recorded s.chain s.st.seen)
    (hmain : main cfg w s.chain s.st = .completes st' tasks returned) : Recorded s.chain st'.seen := by
  obtain ⟨head, -, -, -, hseen, -⟩ := main_completes hmain
  rw [hseen]
  exact h.records fun ev hev => (mem_scanned.mp hev).1

/-- The watcher's own steps record events only. -/
theorem recorded_step {e : Event} (hblocks : ∀ n new, e ≠ .finalizes n new)
    (h : Recorded s.chain s.st.seen) (hstep : step cfg s e = some t) :
    t.chain = s.chain ∧ Recorded t.chain t.st.seen := by
  cases e with
  | finalizes n new => exact absurd rfl (hblocks n new)
  | run w =>
    obtain ⟨_, -, hstep⟩ := Option.bind_eq_some_iff.mp hstep
    split at hstep
    · cases hstep
      exact ⟨rfl, h⟩
    · cases hstep
    · rename_i hmain
      cases hstep
      have hrecorded := recorded_completes h hmain
      exact ⟨rfl, hrecorded⟩
  | dies w n =>
    obtain ⟨_, -, hstep⟩ := Option.bind_eq_some_iff.mp hstep
    cases hstep
    exact ⟨rfl, h⟩
  | paid key =>
    cases hstep
    exact ⟨rfl, h⟩

theorem System.Inv.step {s t : System} {e : Happens} (h : s.Inv)
    (hstep : System.step name text cfg s e = some t) : t.Inv := by
  cases e with
  | block n txs =>
    obtain ⟨chain, hchain, hstep⟩ := Option.bind_eq_some_iff.mp hstep
    cases hstep
    obtain ⟨-, hevents, -⟩ := Chain.finalizes_spec hchain
    obtain ⟨hconserved, hlogs⟩ := @executes_spec name text _ h.conserved txs
    refine ⟨hconserved, ?_, h.recorded.nodup, fun v hv => ?_⟩
    · dsimp only
      rw [hevents, List.map_append, List.sum_append, h.emitted, hlogs]
    · obtain ⟨ev, hev, hv⟩ := h.recorded.mem v hv
      exact ⟨ev, hevents ▸ List.mem_append_left _ hev, hv⟩
  | watch e =>
    have hblocks : ∀ n new, e ≠ .finalizes n new := by
      rintro n new rfl
      cases hstep
    have hwatch : ∃ watch, redeem.step cfg s.watch e = some watch ∧ t = { s with watch } := by
      cases e with
      | finalizes n new => exact absurd rfl (hblocks n new)
      | paid key =>
        cases hstep
        exact ⟨_, rfl, rfl⟩
      | run | dies =>
        obtain ⟨watch, hwatch, hstep⟩ := Option.bind_eq_some_iff.mp hstep
        exact ⟨watch, hwatch, (Option.some.inj hstep).symm⟩
    obtain ⟨watch, hwatch, rfl⟩ := hwatch
    obtain ⟨hchain, hrecorded⟩ := recorded_step hblocks h.recorded hwatch
    exact ⟨h.conserved, hchain ▸ h.emitted, hrecorded⟩

/-- The supply is conserved by every call, and the audit misses nothing that is worth more than a
unit. -/
theorem supply_conserved_and_audited (cfg : Config) (name : wpcn.Address → String)
    (text : store.Bytes → String) {sender : wpcn.Address} {supply_ : wpcn.Uint256}
    {reserveAddress_ : store.Bytes} {token : wpcn.Token} {logs : List wpcn.Log}
    (hdeploy : wpcn.constructor sender supply_ reserveAddress_ = .ok (token, logs)) :
    (∀ calls : List (wpcn.Address × wpcn.Call),
      let d := wpcn.Deployed.run ⟨token, logs⟩ calls
      wpcn.total d.token.balanceOf = d.token.totalSupply.val ∧
        d.token.totalSupply ≤ d.token.issuedSupply ∧ d.token.issuedSupply ≤ wpcn.cap ∧
        d.token.issuedSupply.val - d.token.totalSupply.val = wpcn.redeemed d.logs ∧
        ∀ sender call, d.token.call sender call ≠ .error .panic ∧
          ∀ f, d.token.call sender call = .error f → d.after sender call = d) ∧
    ∀ s, run.Steps (System.step name text cfg) (fun _ _ => True) ⟨⟨token, logs⟩, {}⟩ s →
      (s.watch.chain.events.map Redeem.value).sum = wpcn.redeemed s.contract.logs ∧
      ∀ w st' tasks returned, main cfg w s.watch.chain s.watch.st = .completes st' tasks returned →
        (missedRedemptions ∈ audit (s.contract.token.issuedSupply.val / 10 ^ 8)
            (s.contract.token.totalSupply.val / 10 ^ 8) st'.seen ↔
          1 < ((lacking s.watch.chain st'.seen).map Redeem.value).sum) := by
  have hdeployed := wpcn.conserved_constructor hdeploy
  refine ⟨fun calls => ?_, fun s hrun => ?_⟩
  · have h := wpcn.conserved_calls hdeployed calls
    have hburned := h.burned
    refine ⟨h.sum, Fin.le_def.mpr (by omega), h.capped, by omega, fun sender call =>
      ⟨wpcn.call_ne_panic h sender call, fun f hf => ?_⟩⟩
    rw [wpcn.Deployed.after, hf]
  · have hredeemed : wpcn.redeemed logs = 0 := by
      obtain ⟨-, h⟩ := wpcn.ok_of_require hdeploy
      obtain ⟨-, h⟩ := wpcn.ok_of_require h
      obtain ⟨-, h⟩ := wpcn.ok_of_require h
      cases h
      rfl
    have hinit : System.Inv ⟨⟨token, logs⟩, {}⟩ :=
      ⟨hdeployed, hredeemed.symm, List.nodup_nil, fun v hv => (by cases hv)⟩
    have h : s.Inv := hrun.invariant (fun _ _ _ h _ hstep => h.step hstep) hinit
    refine ⟨h.emitted, fun w st' tasks returned hmain => ?_⟩
    refine (recorded_completes h.recorded hmain).audit_iff ?_
    rw [h.emitted]
    exact h.conserved.burned

namespace sample

theorem address_neZero : NeZero (2 ^ 160) := ⟨by decide⟩

theorem uint256_neZero : NeZero (2 ^ 256) := ⟨by decide⟩

attribute [local instance] address_neZero uint256_neZero

/-- A thousand units. -/
def deployment : wpcn.Deployed where
  token :=
    { totalSupply := 1000
      issuedSupply := 1000
      reserveAddress := [112]
      balanceOf := Function.update (fun _ => 0) 1 1000
      allowance := fun _ _ => 0 }
  logs := [.transfer 0 1 1000, .deployed 1000 [112]]

def redeemsTen : Happens := .block 7 [⟨1, .redeem 10 [112], 7, "0xburn", 0⟩]

end sample

open sample in
/-- Ten units are redeemed in a block whose logs no endpoint serves. -/
theorem supply_conserved_and_audited_ten :
    ∃ s, run.exec (System.step (fun _ => "0xholder") (fun _ => "pc1holder") config) ⟨deployment, {}⟩
        [redeemsTen] = some s ∧
      ∃ st' tasks returned, main config { head := some 7, logs_conns := 0 } s.watch.chain s.watch.st =
          .completes st' tasks returned ∧
        missedRedemptions ∈ audit (s.contract.token.issuedSupply.val / 10 ^ 8)
          (s.contract.token.totalSupply.val / 10 ^ 8) st'.seen := by
  have hdeploy : wpcn.constructor 1 1000 [112] = .ok (deployment.token, deployment.logs) := rfl
  have hrun : ((run.exec (System.step (fun _ => "0xholder") (fun _ => "pc1holder") config)
      ⟨deployment, {}⟩ [redeemsTen]).map fun s => (s.watch.chain.events.map Redeem.value, s.watch.st)) =
        some ([10], {}) := by decide +kernel
  obtain ⟨s, hexec, heq⟩ := Option.map_eq_some_iff.mp hrun
  obtain ⟨hvalues, hst⟩ := Prod.mk.inj heq
  have haudit := ((supply_conserved_and_audited config (fun _ => "0xholder") (fun _ => "pc1holder")
    hdeploy).2 s (run.steps_of_exec _ hexec (run.meets_true _ _))).2 { head := some 7, logs_conns := 0 }
  have hlacking : lacking s.watch.chain [] = s.watch.chain.events := by simp [lacking]
  refine ⟨s, hexec, _, _, _, rfl, (haudit _ _ _ rfl).mpr ?_⟩
  change 1 < ((lacking s.watch.chain s.watch.st.seen).map Redeem.value).sum
  rw [hst, hlacking, hvalues]
  decide

end pcoin.redeem
