import Mathlib.Algebra.Order.Field.Basic
import Mathlib.Tactic.Linarith
import Mathlib.Tactic.Positivity

/-! A constant-product curve that sells from a reserve `X`, with `k` the product and a floor under the
price of what it sells. -/

namespace product

variable {K : Type*} [Field K] [LinearOrder K]

/-- The coins that `u` of money buys. -/
def coins (X k floor u : K) : K :=
  if 0 < floor then min (X - k / (k / X + u)) (u / floor) else X - k / (k / X + u)

/-- The money that `p` coins cost. -/
def cost (X k floor p : K) : K := max (k / (X - p) - k / X) (p * floor)

/-- The price of the next coin. -/
def price (X k floor : K) : K := max (k / X / X) floor

theorem coins_le_curve (X k floor u : K) : coins X k floor u ≤ X - k / (k / X + u) := by
  unfold coins
  split
  · exact min_le_left _ _
  · exact le_refl _

theorem coins_le_floor {floor : K} (hfloor : 0 < floor) (X k u : K) : coins X k floor u ≤ u / floor := by
  unfold coins
  rw [if_pos hfloor]
  exact min_le_right _ _

theorem curve_le_cost (X k floor p : K) : k / (X - p) - k / X ≤ cost X k floor p := le_max_left _ _

theorem floor_le_cost (X k floor p : K) : p * floor ≤ cost X k floor p := le_max_right _ _

variable [IsStrictOrderedRing K] {X k floor : K}

/-- Coins that are taken in two parts cost no less. -/
theorem cost_add_le (X k floor p q : K) :
    cost X k floor (p + q) ≤ cost X k floor p + cost (X - p) k floor q := by
  apply max_le
  · have hfirst := curve_le_cost X k floor p
    have hsecond := curve_le_cost (X - p) k floor q
    rw [sub_sub] at hsecond
    linarith
  · have hfirst := floor_le_cost X k floor p
    have hsecond := floor_le_cost (X - p) k floor q
    linarith

section

variable (hk : 0 < k)
include hk

theorem curve_cost_pos {p : K} (hp : 0 < p) (hlt : p < X) : 0 < k / (X - p) - k / X := by
  have hless : k / X < k / (X - p) := by
    apply div_lt_div_of_pos_left hk (sub_pos.mpr hlt)
    linarith
  linarith

theorem cost_pos {p : K} (hp : 0 < p) (hlt : p < X) : 0 < cost X k floor p :=
  (curve_cost_pos hk hp hlt).trans_le (curve_le_cost X k floor p)

/-- The cost of some coins buys these coins. -/
theorem coins_cost (hfloor : 0 ≤ floor) {p : K} (hp : 0 < p) (hlt : p < X) :
    coins X k floor (cost X k floor p) = p := by
  have hleft : 0 < X - p := sub_pos.mpr hlt
  have hcurve : X - k / (k / X + (k / (X - p) - k / X)) = p := by
    rw [add_sub_cancel, div_div_cancel₀ hk.ne', sub_sub_cancel]
  have hmore : p ≤ X - k / (k / X + cost X k floor p) := by
    have hless : k / (k / X + cost X k floor p) ≤ k / (k / X + (k / (X - p) - k / X)) := by
      apply div_le_div_of_nonneg_left hk.le
      · rw [add_sub_cancel]
        positivity
      · linarith [curve_le_cost X k floor p]
    linarith
  unfold coins
  split
  · rename_i hpos
    have hpays : p ≤ cost X k floor p / floor := (le_div_iff₀ hpos).mpr (floor_le_cost X k floor p)
    apply le_antisymm _ (le_min hmore hpays)
    -- the cost is that of the curve or that of the floor
    obtain heq | heq := max_choice (k / (X - p) - k / X) (p * floor)
    · rw [show cost X k floor p = k / (X - p) - k / X from heq, hcurve]
      exact min_le_left _ _
    · rw [show cost X k floor p = p * floor from heq, mul_div_cancel_right₀ _ hpos.ne']
      exact min_le_right _ _
  · rename_i hnone
    obtain rfl : floor = 0 := le_antisymm (not_lt.mp hnone) hfloor
    have heq : cost X k 0 p = k / (X - p) - k / X := by
      rw [cost, mul_zero, max_eq_left (curve_cost_pos hk hp hlt).le]
    rw [heq, hcurve]

/-- The price rises as the reserve is sold. -/
theorem price_le {Y : K} (hY : 0 < Y) (hle : Y ≤ X) : price X k floor ≤ price Y k floor := by
  apply max_le_max_right
  rw [div_div, div_div]
  apply div_le_div_of_nonneg_left hk.le (by positivity)
  exact mul_le_mul hle hle hY.le (hY.le.trans hle)

variable (hX : 0 < X)
include hX

theorem curve_pos {u : K} (hu : 0 < u) : 0 < X - k / (k / X + u) := by
  have hlt : k / (k / X + u) < k / (k / X) := by
    apply div_lt_div_of_pos_left hk (by positivity)
    linarith
  rw [div_div_cancel₀ hk.ne'] at hlt
  linarith

theorem coins_pos {u : K} (hu : 0 < u) : 0 < coins X k floor u := by
  unfold coins
  split
  · rename_i hfloor
    exact lt_min (curve_pos hk hX hu) (div_pos hu hfloor)
  · exact curve_pos hk hX hu

/-- The curve never sells all of the reserve. -/
theorem coins_lt {u : K} (hu : 0 ≤ u) : coins X k floor u < X := by
  have hrest : 0 < k / (k / X + u) := by positivity
  linarith [coins_le_curve X k floor u]

/-- The coins that some money buys cost this money. -/
theorem cost_coins (hfloor : 0 ≤ floor) {u : K} (hu : 0 < u) :
    cost X k floor (coins X k floor u) = u := by
  have hcurve : k / (X - (X - k / (k / X + u))) - k / X = u := by
    rw [sub_sub_cancel, div_div_cancel₀ hk.ne', add_sub_cancel_left]
  have hless : k / (X - coins X k floor u) - k / X ≤ u := by
    have hrest : k / (k / X + u) ≤ X - coins X k floor u := by
      linarith [coins_le_curve X k floor u]
    have hle : k / (X - coins X k floor u) ≤ k / (k / (k / X + u)) :=
      div_le_div_of_nonneg_left hk.le (by positivity) hrest
    rw [div_div_cancel₀ hk.ne'] at hle
    linarith
  by_cases hpos : 0 < floor
  · have hpays : coins X k floor u * floor ≤ u :=
      (le_div_iff₀ hpos).mp (coins_le_floor hpos X k u)
    apply le_antisymm (max_le hless hpays)
    -- the coins are those of the curve or those of the floor
    have htotal : coins X k floor u = min (X - k / (k / X + u)) (u / floor) := if_pos hpos
    obtain heq | heq := min_choice (X - k / (k / X + u)) (u / floor)
    · have hcost := curve_le_cost X k floor (coins X k floor u)
      rwa [htotal, heq, hcurve, ← heq, ← htotal] at hcost
    · have hcost := floor_le_cost X k floor (coins X k floor u)
      rwa [htotal, heq, div_mul_cancel₀ _ hpos.ne', ← heq, ← htotal] at hcost
  · obtain rfl : floor = 0 := le_antisymm (not_lt.mp hpos) hfloor
    have htotal : coins X k 0 u = X - k / (k / X + u) := if_neg (lt_irrefl 0)
    rw [cost, mul_zero, htotal, hcurve, max_eq_left hu.le]

/-- Money that is spent in two parts buys no more. -/
theorem coins_add_le {u v : K} (hu : 0 < u) (hv : 0 < v) :
    coins X k floor u + coins (X - coins X k floor u) k floor v ≤ coins X k floor (u + v) := by
  have hrest : 0 < X - coins X k floor u := sub_pos.mpr (coins_lt hk hX hu.le)
  have hcurve : coins X k floor u + coins (X - coins X k floor u) k floor v ≤
      X - k / (k / X + (u + v)) := by
    have hsecond := coins_le_curve (X - coins X k floor u) k floor v
    -- after the first part the price is no higher than on the curve alone
    have hstate : k / (X - coins X k floor u) ≤ k / X + u := by
      have hleft : k / (k / X + u) ≤ X - coins X k floor u := by
        linarith [coins_le_curve X k floor u]
      rw [div_le_iff₀ hrest]
      rw [div_le_iff₀ (by positivity)] at hleft
      linarith
    have hless : k / (k / X + (u + v)) ≤ k / (k / (X - coins X k floor u) + v) := by
      apply div_le_div_of_nonneg_left hk.le
      · positivity
      · linarith
    linarith
  by_cases hfloor : 0 < floor
  · have hfirst := coins_le_floor hfloor X k u
    have hsecond := coins_le_floor hfloor (X - coins X k floor u) k v
    have htotal : coins X k floor (u + v) = min (X - k / (k / X + (u + v))) ((u + v) / floor) :=
      if_pos hfloor
    rw [htotal, add_div]
    exact le_min hcurve (add_le_add hfirst hsecond)
  · have htotal : coins X k floor (u + v) = X - k / (k / X + (u + v)) := if_neg hfloor
    rw [htotal]
    exact hcurve

end

end product
