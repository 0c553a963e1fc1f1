import PCoin.Keeper.Peg
import PCoin.Search.Basic
import Mathlib.Tactic.Positivity
import Mathlib.Tactic.GCongr

/-! What the trades of the keeper do to the price of the pool. -/

namespace pcoin.peg

variable {reserve_in reserve_out : ℚ}

/-! ### The price after a trade -/

theorem price_after_buying (hin : 0 < reserve_in) (hout : 0 < reserve_out) {x : ℚ} (hx : 0 ≤ x) :
    price_after reserve_in reserve_out true x =
      (reserve_in + x) * (reserve_in * FEE_DEN + x * FEE_NUM) / (reserve_in * FEE_DEN * reserve_out) := by
  have hden : 0 < reserve_in * FEE_DEN + x * FEE_NUM := by
    unfold FEE_DEN FEE_NUM
    positivity
  have hleft : reserve_out - amount_out x reserve_in reserve_out =
      reserve_in * FEE_DEN * reserve_out / (reserve_in * FEE_DEN + x * FEE_NUM) := by
    unfold amount_out
    field_simp
    ring
  dsimp only [price_after]
  rw [if_pos rfl, hleft, div_div_eq_mul_div]

theorem price_after_selling (hin : 0 < reserve_in) (hout : 0 < reserve_out) {x : ℚ} (hx : 0 ≤ x) :
    price_after reserve_in reserve_out false x =
      reserve_in * FEE_DEN * reserve_out / ((reserve_in + x) * (reserve_in * FEE_DEN + x * FEE_NUM)) := by
  have hden : 0 < reserve_in * FEE_DEN + x * FEE_NUM := by
    unfold FEE_DEN FEE_NUM
    positivity
  have hleft : reserve_out - amount_out x reserve_in reserve_out =
      reserve_in * FEE_DEN * reserve_out / (reserve_in * FEE_DEN + x * FEE_NUM) := by
    unfold amount_out
    field_simp
    ring
  dsimp only [price_after]
  rw [if_neg Bool.false_ne_true, hleft, div_div, mul_comm (reserve_in + x)]

/-- What a trade multiplies and divides the price by grows with the trade. -/
theorem factor_lt (hin : 0 < reserve_in) {x y : ℚ} (hx : 0 ≤ x) (hxy : x < y) :
    (reserve_in + x) * (reserve_in * FEE_DEN + x * FEE_NUM) <
      (reserve_in + y) * (reserve_in * FEE_DEN + y * FEE_NUM) := by
  unfold FEE_DEN FEE_NUM
  apply mul_lt_mul'' <;> first | positivity | linarith

/-- `p` has not come as far as `q`, for a side of the keeper. -/
def Short (buying : Bool) (p q : ℚ) : Prop := if buying then p < q else q < p

instance (buying : Bool) (p q : ℚ) : Decidable (Short buying p q) :=
  inferInstanceAs (Decidable (if buying = true then p < q else q < p))

theorem Short.trans {buying : Bool} {p q r : ℚ} (h : Short buying p q) (h' : Short buying q r) :
    Short buying p r := by
  cases buying with
  | true => exact lt_trans (a := p) h h'
  | false => exact lt_trans (b := q) h' h

theorem not_short_self (buying : Bool) (p : ℚ) : ¬ Short buying p p := by
  cases buying <;> exact lt_irrefl p

/-- A larger trade moves the price further. -/
theorem price_after_short (hin : 0 < reserve_in) (hout : 0 < reserve_out) (buying : Bool) {x y : ℚ}
    (hx : 0 ≤ x) (hxy : x < y) :
    Short buying (price_after reserve_in reserve_out buying x)
      (price_after reserve_in reserve_out buying y) := by
  have hlt := factor_lt hin hx hxy
  have hdepth : 0 < reserve_in * FEE_DEN * reserve_out := by
    unfold FEE_DEN
    positivity
  cases buying with
  | true =>
    show price_after _ _ true x < price_after _ _ true y
    rw [price_after_buying hin hout hx, price_after_buying hin hout (hx.trans hxy.le)]
    exact div_lt_div_of_pos_right hlt hdepth
  | false =>
    show price_after _ _ false y < price_after _ _ false x
    rw [price_after_selling hin hout hx, price_after_selling hin hout (hx.trans hxy.le)]
    have hfactor : 0 < (reserve_in + x) * (reserve_in * FEE_DEN + x * FEE_NUM) := by
      unfold FEE_DEN FEE_NUM
      positivity
    exact div_lt_div_of_pos_left hdepth hfactor hlt

theorem price_after_not_back (hin : 0 < reserve_in) (hout : 0 < reserve_out) (buying : Bool) {x y : ℚ}
    (hx : 0 ≤ x) (hxy : x ≤ y) :
    ¬ Short buying (price_after reserve_in reserve_out buying y)
      (price_after reserve_in reserve_out buying x) := by
  intro hback
  obtain rfl | hlt := hxy.eq_or_lt
  · exact not_short_self buying _ hback
  · exact not_short_self buying _ ((price_after_short hin hout buying hx hlt).trans hback)

theorem price_after_pos (hin : 0 < reserve_in) (hout : 0 < reserve_out) (buying : Bool) {x : ℚ}
    (hx : 0 ≤ x) : 0 < price_after reserve_in reserve_out buying x := by
  have hfactor : 0 < (reserve_in + x) * (reserve_in * FEE_DEN + x * FEE_NUM) := by
    unfold FEE_DEN FEE_NUM
    positivity
  have hdepth : 0 < reserve_in * FEE_DEN * reserve_out := by
    unfold FEE_DEN
    positivity
  cases buying with
  | true =>
    rw [price_after_buying hin hout hx]
    exact div_pos hfactor hdepth
  | false =>
    rw [price_after_selling hin hout hx]
    exact div_pos hdepth hfactor

/-! ### The bisection -/

/-- The passes of `solve_trade` halve a bracket, as its middle is above zero. -/
theorem bisect_eq (price : ℚ → ℚ) (target : ℚ) (buying : Bool) (n : Nat) {lo hi : ℚ} (hlo : 0 ≤ lo)
    (hhi : 0 < hi) : bisect price target buying n lo hi =
      (search.bisect (fun x => Decidable.decide (Short buying (price x) target)) n lo hi).1 := by
  induction n generalizing lo hi with
  | zero => rfl
  | succ n ih =>
    have hmid : 0 < (lo + hi) / 2 := by linarith
    rw [bisect, search.bisect]
    rw [if_neg (not_le.mpr hmid)]
    show (if Short buying (price ((lo + hi) / 2)) target then _ else _) = _
    by_cases hshort : Short buying (price ((lo + hi) / 2)) target
    · rw [if_pos hshort, if_pos (decide_eq_true hshort)]
      exact ih hmid.le hhi
    · rw [if_neg hshort, if_neg fun htrue => hshort (of_decide_eq_true htrue)]
      exact ih hlo hmid

/-- The upper end of the bracket of `solve_trade`. -/
def top (reserve_in : ℚ) : ℚ := reserve_in * 10

/-- The last width of the bracket. -/
def width (reserve_in : ℚ) : ℚ := top reserve_in / 2 ^ 200

/-- What `solve_trade` finds when the price is short of the target. -/
structure Solved (reserve_in reserve_out target : ℚ) (buying : Bool) (x : ℚ) : Prop where
  nonneg : 0 ≤ x
  short : Short buying (price_after reserve_in reserve_out buying x) target
  long : Short buying (price_after reserve_in reserve_out buying (top reserve_in)) target ∨
    ¬ Short buying (price_after reserve_in reserve_out buying (x + width reserve_in)) target

theorem solve_trade_solved (hin : 0 < reserve_in) {target : ℚ} {buying : Bool}
    (h : Short buying (price_after reserve_in reserve_out buying 0) target) :
    Solved reserve_in reserve_out target buying
      (solve_trade reserve_in reserve_out target buying) := by
  have hdepth : 0 < reserve_in * 10 := by positivity
  rw [solve_trade, bisect_eq _ _ _ _ (le_refl 0) hdepth]
  obtain ⟨hlower, -, -, hwidth, hbelow, habove⟩ := search.bisect_bracket
    (fun x => Decidable.decide (Short buying (price_after reserve_in reserve_out buying x) target)) 200
    hdepth.le
  refine ⟨hlower, of_decide_eq_true (hbelow (decide_eq_true h)), ?_⟩
  rw [sub_zero, sub_eq_iff_eq_add'] at hwidth
  have hend : _ + width reserve_in = _ := hwidth.symm
  rw [hend]
  obtain heq | hlong := habove
  · rw [heq]
    exact em _
  · exact .inr (of_decide_eq_false hlong)

/-! ### The decision -/

variable {t : Tuning} {pool ladder target : ℚ} {buying : Bool}

theorem decide_sell (h : decide t pool ladder = some (false, target)) :
    target = ladder ∧ ladder * (1 + t.dead_band) < pool := by
  dsimp only [decide] at h
  generalize (if t.buy_floor_usd ≤ 0 then ladder else min ladder t.buy_floor_usd) = buy_target at h
  split at h
  · rename_i hsell
    cases h
    exact ⟨rfl, hsell⟩
  · split at h <;> cases h

theorem decide_buy (h : decide t pool ladder = some (true, target)) :
    target ≤ ladder ∧ pool < target * (1 - t.dead_band) := by
  have hladder : (if t.buy_floor_usd ≤ 0 then ladder else min ladder t.buy_floor_usd) ≤ ladder := by
    split
    · exact le_refl _
    · exact min_le_left _ _
  dsimp only [decide] at h
  generalize (if t.buy_floor_usd ≤ 0 then ladder else min ladder t.buy_floor_usd) = buy_target at h hladder
  split at h
  · cases h
  · split at h
    · rename_i hbuy
      cases h
      exact ⟨hladder, hbuy⟩
    · cases h

/-- The target of a side is ahead of the price, and not past the ladder. -/
theorem decide_short (hpool : 0 < pool) (hband : 0 ≤ t.dead_band) (hband' : t.dead_band < 1)
    (h : decide t pool ladder = some (buying, target)) :
    Short buying pool target ∧ ¬ Short buying ladder target := by
  cases buying with
  | true =>
    obtain ⟨hladder, hbuy⟩ := decide_buy h
    have htarget : 0 < target := by
      by_contra hnot
      nlinarith
    refine ⟨?_, not_lt.mpr hladder⟩
    show pool < target
    nlinarith
  | false =>
    obtain ⟨rfl, hsell⟩ := decide_sell h
    refine ⟨?_, lt_irrefl target⟩
    show target < pool
    obtain hneg | hpos := le_total target 0
    · exact hneg.trans_lt hpool
    · nlinarith

/-- At a price that has not passed the target of a side, nothing is asked of the other side. -/
theorem decide_same (hband : 0 ≤ t.dead_band) (hband' : t.dead_band < 1) {after : ℚ}
    (hafter : 0 < after) (hladder : ¬ Short buying ladder after) :
    ∀ d ∈ decide t after ladder, d.1 = buying := by
  rintro ⟨other, aim⟩ hd
  obtain ⟨hshort, hpast⟩ := decide_short hafter hband hband' hd
  by_contra hne
  cases buying with
  | true =>
    obtain rfl := Bool.eq_false_of_not_eq_true hne
    exact hladder (lt_of_le_of_lt (not_lt.mp hpast) hshort)
  | false =>
    obtain rfl := Bool.eq_true_of_not_eq_false hne
    exact hladder (lt_of_lt_of_le hshort (not_lt.mp hpast))

/-! ### A run -/

/-- The reserve that a side pays into, and the one that it takes from. -/
def reserves (w_res u_res : ℚ) (buying : Bool) : ℚ × ℚ :=
  if buying then (u_res, w_res) else (w_res, u_res)

/-- The trade that `main` wants. -/
def want (w_res u_res target : ℚ) (buying : Bool) : ℚ :=
  solve_trade (reserves w_res u_res buying).1 (reserves w_res u_res buying).2 target buying

/-- The price of the pool after a trade of `x`. -/
def poolAfter (w_res u_res : ℚ) (buying : Bool) (x : ℚ) : ℚ :=
  price_after (reserves w_res u_res buying).1 (reserves w_res u_res buying).2 buying x

variable {w_res u_res : ℚ}

theorem budget_eq (st : Ledger) (have_ : ℚ × ℚ) :
    budget t w_res u_res buying target st have_ =
      run_budget t buying (want w_res u_res target buying) (st.spent buying)
        (if buying then have_.1 else have_.2) := by
  unfold budget want reserves
  cases buying <;> simp only [if_true, if_false, Bool.false_eq_true]

theorem reserves_pos (hw : 0 < w_res) (hu : 0 < u_res) (buying : Bool) :
    0 < (reserves w_res u_res buying).1 ∧ 0 < (reserves w_res u_res buying).2 := by
  cases buying
  · exact ⟨hw, hu⟩
  · exact ⟨hu, hw⟩

theorem poolAfter_zero (w_res u_res : ℚ) (buying : Bool) : poolAfter w_res u_res buying 0 = u_res / w_res := by
  unfold poolAfter reserves price_after amount_out
  cases buying <;> simp

/-- What a run does to the price of the pool, and within what. -/
structure Careful (t : Tuning) (w_res u_res ladder target : ℚ) (buying : Bool) : Prop where
  nonneg : 0 ≤ want w_res u_res target buying
  /-- A larger trade moves the price further. -/
  monotone : ∀ x y, 0 ≤ x → x < y →
    if buying then poolAfter w_res u_res buying x < poolAfter w_res u_res buying y
    else poolAfter w_res u_res buying y < poolAfter w_res u_res buying x
  between : ∀ x, 0 ≤ x → x ≤ want w_res u_res target buying →
    poolAfter w_res u_res buying x ∈ Set.uIcc (u_res / w_res) target
  within : ∀ x, 0 ≤ x → x ≤ want w_res u_res target buying →
    if buying then poolAfter w_res u_res buying x ≤ ladder else ladder ≤ poolAfter w_res u_res buying x
  /-- The trade is the largest one, up to the last width of the bracket. -/
  largest : (∀ x, 0 ≤ x → poolAfter w_res u_res buying x ∈ Set.uIcc (u_res / w_res) target →
      x ≤ want w_res u_res target buying + width (reserves w_res u_res buying).1) ∨
    if buying then poolAfter w_res u_res buying (top (reserves w_res u_res buying).1) < target
    else target < poolAfter w_res u_res buying (top (reserves w_res u_res buying).1)
  limits : ∀ spent_today have_,
    let amount := run_budget t buying (want w_res u_res target buying) spent_today have_
    amount ≤ want w_res u_res target buying ∧
      if buying then
        amount ≤ t.max_usdt_per_run ∧ amount ≤ t.daily_usdt_cap - spent_today ∧
          amount ≤ max 0 (have_ - t.min_usdt)
      else
        amount ≤ t.max_wpcn_per_run ∧ amount ≤ t.daily_wpcn_cap - spent_today ∧
          amount ≤ max 0 (have_ - t.min_wpcn)
  /-- After the trade of a run, the next run is not asked for the opposite. -/
  settled : ∀ spent_today have_,
    let amount := run_budget t buying (want w_res u_res target buying) spent_today have_
    0 < amount → ∀ d ∈ decide t (poolAfter w_res u_res buying amount) ladder, d.1 = buying

theorem run_budget_limits (t : Tuning) (buying : Bool) (want spent_today have_ : ℚ) :
    run_budget t buying want spent_today have_ ≤ want ∧
      if buying then
        run_budget t buying want spent_today have_ ≤ t.max_usdt_per_run ∧
          run_budget t buying want spent_today have_ ≤ t.daily_usdt_cap - spent_today ∧
          run_budget t buying want spent_today have_ ≤ max 0 (have_ - t.min_usdt)
      else
        run_budget t buying want spent_today have_ ≤ t.max_wpcn_per_run ∧
          run_budget t buying want spent_today have_ ≤ t.daily_wpcn_cap - spent_today ∧
          run_budget t buying want spent_today have_ ≤ max 0 (have_ - t.min_wpcn) := by
  unfold run_budget
  cases buying <;> simp only [Bool.false_eq_true, if_false, if_true]
  all_goals
    refine ⟨min_le_left _ _, (min_le_right _ _).trans (min_le_left _ _), ?_, ?_⟩
    · exact (min_le_right _ _).trans ((min_le_right _ _).trans (min_le_left _ _))
    · exact (min_le_right _ _).trans ((min_le_right _ _).trans (min_le_right _ _))

/-- The prices between two, for a side that moves from the one towards the other. -/
theorem mem_uIcc_iff {p q r : ℚ} (h : Short buying p q) :
    r ∈ Set.uIcc p q ↔ ¬ Short buying r p ∧ ¬ Short buying q r := by
  cases buying with
  | true =>
    have hpq : p < q := h
    rw [Set.uIcc_of_le hpq.le, Set.mem_Icc]
    exact and_congr not_lt.symm not_lt.symm
  | false =>
    have hqp : q < p := h
    rw [Set.uIcc_of_ge hqp.le, Set.mem_Icc, and_comm]
    exact and_congr not_lt.symm not_lt.symm

/-- The keeper does not trade through its target. -/
theorem decide_careful (hw : 0 < w_res) (hu : 0 < u_res) (hband : 0 ≤ t.dead_band)
    (hband' : t.dead_band < 1) (h : decide t (u_res / w_res) ladder = some (buying, target)) :
    Careful t w_res u_res ladder target buying := by
  obtain ⟨hin, hout⟩ := reserves_pos hw hu buying
  obtain ⟨hahead, hladder⟩ := decide_short (div_pos hu hw) hband hband' h
  have hzero := poolAfter_zero w_res u_res buying
  have hstart : Short buying (poolAfter w_res u_res buying 0) target := by
    rw [hzero]
    exact hahead
  have hsolved : Solved _ _ target buying (want w_res u_res target buying) :=
    solve_trade_solved hin hstart
  have hmonotone : ∀ x y, 0 ≤ x → x < y →
      Short buying (poolAfter w_res u_res buying x) (poolAfter w_res u_res buying y) :=
    fun x y hx hxy => price_after_short hin hout buying hx hxy
  have hbetween : ∀ x, 0 ≤ x → x ≤ want w_res u_res target buying →
      poolAfter w_res u_res buying x ∈ Set.uIcc (u_res / w_res) target := by
    intro x hx hle
    apply (mem_uIcc_iff hahead).mpr
    constructor
    · rw [← hzero]
      exact price_after_not_back hin hout buying (le_refl 0) hx
    · intro hpast
      exact price_after_not_back hin hout buying hx hle (Short.trans hsolved.short hpast)
  have hwithin : ∀ x, 0 ≤ x → x ≤ want w_res u_res target buying →
      ¬ Short buying ladder (poolAfter w_res u_res buying x) := by
    intro x hx hle hpast
    have hnot := ((mem_uIcc_iff hahead).mp (hbetween x hx hle)).2
    cases buying with
    | true => exact hnot (lt_of_le_of_lt (not_lt.mp hladder) hpast)
    | false => exact hnot (lt_of_lt_of_le hpast (not_lt.mp hladder))
  refine ⟨hsolved.nonneg, ?_, hbetween, ?_, ?_, run_budget_limits t buying _, ?_⟩
  · exact hmonotone
  · intro x hx hle
    have hnot := hwithin x hx hle
    cases buying
    · exact not_lt.mp hnot
    · exact not_lt.mp hnot
  · obtain hshort | hlong := hsolved.long
    · exact .inr hshort
    · refine .inl fun x hx hmem => ?_
      by_contra hlt
      have hpast := ((mem_uIcc_iff hahead).mp hmem).2
      have hwidth : 0 < width (reserves w_res u_res buying).1 := by
        unfold width top
        positivity
      have hfurther := hmonotone _ x (add_nonneg hsolved.nonneg hwidth.le) (not_le.mp hlt)
      cases buying with
      | true => exact hpast (lt_of_le_of_lt (not_lt.mp hlong) hfurther)
      | false => exact hpast (lt_of_lt_of_le hfurther (not_lt.mp hlong))
  · intro spent_today have_ amount hpos
    apply decide_same hband hband' (price_after_pos hin hout buying hpos.le)
    exact hwithin amount hpos.le (run_budget_limits t buying _ spent_today have_).1

namespace sample

def floor : Tuning where
  dead_band := 3 / 100
  sanity_ratio := 50
  daily_usdt_cap := 60
  daily_wpcn_cap := 3000
  min_usdt := 20
  min_wpcn := 100
  buy := true
  buy_floor_usd := 15 / 1000
  sell := true
  anchor_index := true
  max_usdt_per_run := 10
  max_wpcn_per_run := 500

end sample

/-- A pool at a cent is bought up to the floor. -/
theorem careful_floor : Careful sample.floor 20000 200 (336 / 10000) (15 / 1000) true :=
  decide_careful (by norm_num) (by norm_num) (by decide +kernel) (by decide +kernel) (by decide +kernel)

end pcoin.peg
