import PCoin.Run.Ledger
import PCoin.Table.Evolves
import Mathlib.Algebra.Order.Ring.Rat
import Mathlib.Tactic.Linarith

/-! `pcoin-wpcn-keeper`, which trades in the pool, as runs over its ledger. -/

namespace pcoin.peg

open run (Prog)

/-- The settings that a run uses. -/
structure Tuning where
  dead_band : ℚ
  sanity_ratio : ℚ
  daily_usdt_cap : ℚ
  daily_wpcn_cap : ℚ
  min_usdt : ℚ
  min_wpcn : ℚ
  buy : Bool
  buy_floor_usd : ℚ
  sell : Bool
  anchor_index : Bool
  max_usdt_per_run : ℚ
  max_wpcn_per_run : ℚ

def NAG_SECONDS : Int := 21600

def FEE_NUM : ℚ := 9975

def FEE_DEN : ℚ := 10000

inductive Alert
  | tuning_broken
  | index_unusable
  | posted_unreadable
  | pool_unreadable
  | implausible_gap
  | floor_defence
  | blocked
deriving DecidableEq

structure Nagged where
  alert : Alert
  time : Int
deriving DecidableEq

structure Trade where
  buying : Bool
  amount : ℚ
deriving DecidableEq

/-- `keeper.json`. A day is `none` when it is empty. -/
structure Ledger where
  day : Option Nat := none
  usdt_spent : ℚ := 0
  wpcn_spent : ℚ := 0
  trades : List Trade := []
  nagged : List Nagged := []
deriving DecidableEq

/-- What a run meets. -/
structure World where
  /-- The settings, unless their file is broken. -/
  tuning : Option Tuning
  /-- The key is there, and the chain answers. -/
  connects : Bool := true
  posted : Option ℚ
  /-- The reserves of the pool, in wPCN and USDT. -/
  pool : Option (ℚ × ℚ)
  now : Int
  today : Nat
  /-- What the keeper has, in USDT and wPCN. -/
  float : Option (ℚ × ℚ)
  live : Bool := true
  /-- Whether the swap has its receipt, of a success. -/
  swaps : Bool := true

/-- `decide`: whether to buy or to sell, and the price to aim at. -/
def decide (t : Tuning) (pool ladder : ℚ) : Option (Bool × ℚ) :=
  let buy_target := if t.buy_floor_usd ≤ 0 then ladder else min ladder t.buy_floor_usd
  if ladder * (1 + t.dead_band) < pool then some (false, ladder)
  else if pool < buy_target * (1 - t.dead_band) then some (true, buy_target)
  else none

def amount_out (amount_in reserve_in reserve_out : ℚ) : ℚ :=
  let ain := amount_in * FEE_NUM
  ain * reserve_out / (reserve_in * FEE_DEN + ain)

def price_after (reserve_in reserve_out : ℚ) (buying_out : Bool) (x : ℚ) : ℚ :=
  let ri := reserve_in + x
  let ro := reserve_out - amount_out x reserve_in reserve_out
  if buying_out then ri / ro else ro / ri

/-- The passes of `solve_trade`. -/
def bisect (price : ℚ → ℚ) (target_price : ℚ) (buying_out : Bool) : Nat → ℚ → ℚ → ℚ
  | 0, lo, _ => lo
  | n + 1, lo, hi =>
    let mid := (lo + hi) / 2
    if mid ≤ 0 then lo
    else if if buying_out then price mid < target_price else target_price < price mid then
      bisect price target_price buying_out n mid hi
    else bisect price target_price buying_out n lo mid

def solve_trade (reserve_in reserve_out target_price : ℚ) (buying_out : Bool) : ℚ :=
  bisect (price_after reserve_in reserve_out buying_out) target_price buying_out 200 0 (reserve_in * 10)

def run_budget (t : Tuning) (buying : Bool) (want spent_today have_ : ℚ) : ℚ :=
  if buying then
    min want (min t.max_usdt_per_run (min (t.daily_usdt_cap - spent_today) (max 0 (have_ - t.min_usdt))))
  else
    min want (min t.max_wpcn_per_run (min (t.daily_wpcn_cap - spent_today) (max 0 (have_ - t.min_wpcn))))

/-- `notify_throttled`, which loads and saves the ledger on its own. -/
def notify_throttled (w : World) (alert : Alert) (next : Prog Ledger Trade) : Prog Ledger Trade :=
  .load fun st =>
    let last := ((table.find Nagged.alert alert st.nagged).map Nagged.time).getD 0
    if w.now - last < NAG_SECONDS then next
    else .save { st with
      nagged := table.upsert Nagged.alert alert (fun _ => ⟨alert, w.now⟩) ⟨alert, w.now⟩ st.nagged } next

/-- The ledger of the day. -/
def Ledger.on (st : Ledger) (today : Nat) : Ledger :=
  if st.day = some today then st
  else
    { day := some today, trades := st.trades.drop (st.trades.length - 50), nagged := st.nagged }

def Ledger.spent (st : Ledger) (buying : Bool) : ℚ := if buying then st.usdt_spent else st.wpcn_spent

def Ledger.spend (st : Ledger) (buying : Bool) (budget : ℚ) : Ledger :=
  { st with
    usdt_spent := if buying then st.usdt_spent + budget else st.usdt_spent
    wpcn_spent := if buying then st.wpcn_spent else st.wpcn_spent + budget
    trades := st.trades ++ [⟨buying, budget⟩] }

/-- What a run may trade. -/
def budget (t : Tuning) (w_res u_res : ℚ) (buying : Bool) (target : ℚ) (st : Ledger) (have_ : ℚ × ℚ) : ℚ :=
  let want := if buying then solve_trade u_res w_res target true else solve_trade w_res u_res target false
  run_budget t buying want (st.spent buying) (if buying then have_.1 else have_.2)

/-- A run from its budget on. -/
def trade (w : World) (buying : Bool) (budget : ℚ) (st : Ledger) : Prog Ledger Trade :=
  if budget ≤ 0 then notify_throttled w .blocked .done
  else if !w.live then .done
  else .emit ⟨buying, budget⟩ <| if w.swaps then .save (st.spend buying budget) .done else .done

/-- Whether a side of the keeper is on. -/
def Tuning.on (t : Tuning) (buying : Bool) : Bool := if buying then t.buy else t.sell

/-- A run from its load of the ledger on. -/
def act (w : World) (t : Tuning) (w_res u_res : ℚ) (buying : Bool) (target : ℚ) (st : Ledger) :
    Prog Ledger Trade :=
  let st := st.on w.today
  match w.float with
  | none => .done
  | some have_ =>
    if !t.on buying then .done
    else
      let rest := trade w buying (budget t w_res u_res buying target st have_) st
      if buying && 0 < t.buy_floor_usd then notify_throttled w .floor_defence rest else rest

/-- What a run comes to before it loads the ledger. -/
inductive Aim
  | stops
  | alerts (alert : Alert)
  | trades (t : Tuning) (w_res u_res : ℚ) (buying : Bool) (target : ℚ)

/-- The first part of `main`. A division by zero raises. -/
def aim (w : World) : Aim :=
  match w.tuning with
  | none => .alerts .tuning_broken
  | some t =>
    if !w.connects then .stops
    else match w.posted with
      | none => .alerts (if t.anchor_index then .index_unusable else .posted_unreadable)
      | some posted => match w.pool with
        | none => .alerts .pool_unreadable
        | some (w_res, u_res) =>
          let pool := u_res / w_res
          if w_res = 0 ∨ min pool posted = 0 then .stops
          else if t.sanity_ratio < max pool posted / min pool posted then .alerts .implausible_gap
          else match decide t pool posted with
            | none => .stops
            | some (buying, target) => .trades t w_res u_res buying target

def main (w : World) : Prog Ledger Trade :=
  match aim w with
  | .stops => .done
  | .alerts alert => notify_throttled w alert .done
  | .trades t w_res u_res buying target => .load (act w t w_res u_res buying target)

/-- What was spent on the last day is. -/
def Keeps (st st' : Ledger) : Prop :=
  ∀ d ∈ st.day, (st'.day = some d ∧ st.usdt_spent ≤ st'.usdt_spent ∧ st.wpcn_spent ≤ st'.wpcn_spent) ∨
    ∃ d' ∈ st'.day, d < d'

/-- The ledger is not of a later day. -/
def World.Follows (w : World) (file : Option Ledger) : Prop := ∀ st ∈ file, ∀ d ∈ st.day, d ≤ w.today

instance (w : World) (file : Option Ledger) : Decidable (w.Follows file) :=
  inferInstanceAs (Decidable (∀ st ∈ file, ∀ d ∈ st.day, d ≤ w.today))

/-- A run that neither alerts nor trades, although it cannot read the ledger. -/
def World.Spared (w : World) (reads : List Bool) : Prop :=
  match aim w with
  | .stops => True
  | .alerts _ => False
  | .trades t w_res u_res buying target => ∀ have_ ∈ w.float,
    t.on buying = false ∨
    (reads.headD true = false ∧ w.live = false ∧ (buying && 0 < t.buy_floor_usd) = false ∧
      0 < budget t w_res u_res buying target (Ledger.on {} w.today) have_)

instance (w : World) (reads : List Bool) : Decidable (w.Spared reads) := by
  unfold World.Spared
  cases aim w <;> infer_instance

variable {w : World} {st st' st'' : Ledger} {file : Option Ledger} {reads : List Bool}
  {next : Prog Ledger Trade}

theorem Keeps.refl (st : Ledger) : Keeps st st := fun _ h => .inl ⟨h, le_refl _, le_refl _⟩

theorem Keeps.trans (h : Keeps st st') (h' : Keeps st' st'') : Keeps st st'' := by
  intro d hd
  obtain ⟨hsame, husdt, hwpcn⟩ | ⟨d', hd', hlt⟩ := h d hd
  · obtain ⟨hsame', husdt', hwpcn'⟩ | hlater := h' d hsame
    · exact .inl ⟨hsame', le_trans husdt husdt', le_trans hwpcn hwpcn'⟩
    · exact .inr hlater
  · obtain ⟨hsame', -, -⟩ | ⟨d'', hd'', hlt'⟩ := h' d' hd'
    · exact .inr ⟨d', hsame', hlt⟩
    · exact .inr ⟨d'', hd'', lt_trans hlt hlt'⟩

theorem on_keeps (h : ∀ d ∈ st.day, d ≤ w.today) : Keeps st (st.on w.today) := by
  unfold Ledger.on
  split
  · exact .refl st
  · rename_i hother
    intro d hd
    refine .inr ⟨w.today, rfl, lt_of_le_of_ne (h d hd) fun heq => hother ?_⟩
    rw [← heq]
    exact hd

theorem spend_keeps (st : Ledger) (buying : Bool) {budget : ℚ} (h : 0 < budget) :
    Keeps st (st.spend buying budget) := by
  intro d hd
  refine .inl ⟨hd, ?_, ?_⟩
  · show st.usdt_spent ≤ if buying then st.usdt_spent + budget else st.usdt_spent
    split <;> linarith
  · show st.wpcn_spent ≤ if buying then st.wpcn_spent else st.wpcn_spent + budget
    split <;> linarith

/-- An alert changes nothing of what is spent. -/
theorem notify_keeps {alert : Alert} (h : next.Keeps Keeps {} file)
    (hnagged : ∀ nagged, next.Keeps Keeps {} (some { file.getD {} with nagged := nagged })) :
    (notify_throttled w alert next).Keeps Keeps {} file := by
  show Prog.Keeps Keeps {} file (if _ then _ else _)
  split
  · exact h
  · refine ⟨fun b hb => ?_, hnagged _⟩
    rw [hb]
    exact Keeps.refl b

theorem alert_keeps (w : World) (alert : Alert) (file : Option Ledger) :
    (notify_throttled w alert .done).Keeps Keeps {} file :=
  notify_keeps trivial fun _ => trivial

theorem trade_keeps {buying : Bool} {budget : ℚ} (h : ∀ b ∈ file, Keeps b st) :
    (trade w buying budget st).Keeps Keeps {} file := by
  unfold trade
  split
  · exact alert_keeps w .blocked file
  rename_i hbudget
  split
  · trivial
  show Prog.Keeps Keeps {} file (if w.swaps then _ else _)
  split
  · exact ⟨fun b hb => (h b hb).trans (spend_keeps st buying (not_le.mp hbudget)), trivial⟩
  · trivial

theorem act_keeps {t : Tuning} {w_res u_res : ℚ} {buying : Bool} {target : ℚ}
    (h : ∀ d ∈ st.day, d ≤ w.today) :
    (act w t w_res u_res buying target st).Keeps Keeps {} (some st) := by
  have hon : Keeps st (st.on w.today) := on_keeps h
  unfold act
  simp only
  split
  · trivial
  split
  · trivial
  split
  · refine notify_keeps ?_ fun nagged => ?_
    · exact trade_keeps fun b hb => Option.some.inj hb ▸ hon
    -- the alert leaves the day and what is spent as they are
    · exact trade_keeps fun b hb => Option.some.inj hb ▸ hon
  · exact trade_keeps fun b hb => Option.some.inj hb ▸ hon

/-- A run keeps what was spent, unless the clock goes back. -/
theorem main_keeps (h : w.Follows file) : (main w).Keeps Keeps {} file := by
  unfold main
  split
  · trivial
  · exact alert_keeps w _ file
  · refine .load fun st hst => act_keeps fun d hd => ?_
    obtain hst | rfl := hst
    · exact h st hst d hd
    · cases hd

/-- A run that is spared neither saves nor trades. -/
theorem main_same {t : run.Trace Ledger Trade} (h : w.Spared reads) :
    ((main w).exec {} reads t).Same t := by
  unfold World.Spared at h
  unfold main
  split
  · exact ⟨rfl, rfl, rfl⟩
  · rename_i alert haim
    rw [haim] at h
    exact h.elim
  · rename_i t' w_res u_res buying target haim
    rw [haim] at h
    simp only at h
    cases hfloat : w.float with
    | none =>
      have hsilent : ∀ st, (act w t' w_res u_res buying target st).Silent := by
        intro st
        unfold act
        simp only [hfloat]
        trivial
      exact Prog.Silent.exec (p := .load _) hsilent reads t
    | some have_ =>
      obtain hoff | ⟨hreads, hlive, hfloor, hbudget⟩ := h have_ hfloat
      · have hsilent : ∀ st, (act w t' w_res u_res buying target st).Silent := by
          intro st
          unfold act
          simp only [hfloat, hoff, Bool.not_false, if_true]
          trivial
        exact Prog.Silent.exec (p := .load _) hsilent reads t
      · refine Prog.Silent.exec_load ?_ hreads t
        unfold act trade
        simp only [hfloat, hfloor, Bool.false_eq_true, if_false, hlive, Bool.not_false, if_true,
          if_neg (not_le.mpr hbudget)]
        split <;> trivial

end pcoin.peg
