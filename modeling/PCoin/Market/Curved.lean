import PCoin.Market.Alike

/-! What the curve of `ammWalk` sells for. Over exact rationals it cannot be gamed; in satoshis it rounds
to the nearest one. -/

namespace pcoin.market.walk

open drain

section

variable {α : Type} [CommRing α]

/-- `UPDATE ladder_rungs SET qty_reserved = qty_reserved + ?`. -/
def reserveFill (f : Fill α) (rungs : List (Rung α)) : List (Rung α) :=
  rungs.map fun r =>
    if r.rung_no = f.rungNo then { r with qty_reserved := r.qty_reserved + f.units } else r

/-- The rungs after `reserveLadder` has reserved the fills of an order. -/
def reserve (fills : List (Fill α)) (rungs : List (Rung α)) : List (Rung α) :=
  fills.foldl (fun rungs f => reserveFill f rungs) rungs

theorem bins_reserveFill (f : Fill α) (rungs : List (Rung α)) :
    bins (reserveFill f rungs) = rest (bins rungs) (pairs [f]) := by
  unfold bins reserveFill rest
  rw [List.map_map, List.map_map]
  apply List.map_congr_left
  intro r _
  dsimp only [Function.comp_apply]
  by_cases hno : r.rung_no = f.rungNo
  · have hdrawn : drawn (pairs [f]) r.rung_no = f.units := by
      simp [drawn, pairs, hno]
    rw [if_pos hno, hdrawn]
    ext
    · rfl
    · simp only [availUnits]
      ring
  · have hdrawn : drawn (pairs [f]) r.rung_no = 0 := by
      apply drawn_of_not_mem
      simpa [pairs] using hno
    rw [if_neg hno, hdrawn, sub_zero]

theorem bins_reserve (fills : List (Fill α)) (rungs : List (Rung α)) :
    bins (reserve fills rungs) = rest (bins rungs) (pairs fills) := by
  induction fills generalizing rungs with
  | nil => simp [reserve, rest, pairs]
  | cons f fills ih =>
    have hstep : bins (reserve fills (reserveFill f rungs)) = _ := ih (reserveFill f rungs)
    rw [bins_reserveFill, rest, rest, List.map_map] at hstep
    rw [reserve, List.foldl_cons]
    apply hstep.trans
    apply List.map_congr_left
    intro b _
    have hfirst : drawn (pairs (f :: fills)) b.1 = drawn (pairs [f]) b.1 + drawn (pairs fills) b.1 := by
      by_cases hno : f.rungNo = b.1
      · simp [drawn, pairs, hno]
      · simp [drawn, pairs, hno]
    dsimp only [Function.comp_apply]
    rw [hfirst, sub_sub]

end

/-! ### Over exact rationals -/

/-- The coins that the rungs still have. -/
def coinsLeft (rungs : List (Rung ℚ)) : ℚ := exact.fromUnits (remUnits rungs)

/-- The curve's price of the next coin. -/
def priceOf (rungs : List (Rung ℚ)) (k virt floor : ℚ) : ℚ :=
  product.price (coinsLeft rungs + virt) k floor

/-- What a walk gives for the coins wanted and their cost. -/
structure Buys (rungs : List (Rung ℚ)) (k virt floor wantPcn cost : ℚ) (w : Walk ℚ) : Prop where
  drains : Drains (bins rungs) (pairs w.fills)
  left : w.pcn = total (pairs w.fills) / UNITS
  pcn : w.pcn = min wantPcn (coinsLeft rungs)
  cost : w.cost * wantPcn = cost * w.pcn
  avgPrice : w.avgPrice = w.cost / w.pcn
  marginalAfter : w.marginalAfter = some (product.price (coinsLeft rungs + virt - w.pcn) k floor)

section

variable {rungs : List (Rung ℚ)} {k virt floor wantPcn cost : ℚ} {req : Request} {w : Walk ℚ}

theorem coinsLeft_eq (rungs : List (Rung ℚ)) : coinsLeft rungs = stock (bins rungs) / UNITS := by
  rw [coinsLeft, remUnits_eq]
  rfl

theorem exact_toUnits (pcn : ℚ) : exact.toUnits pcn = pcn * UNITS := rfl

theorem exact_fromUnits (u : ℚ) : exact.fromUnits u = u / UNITS := rfl

theorem got_exact (rungs : List (Rung ℚ)) (hpos : 0 ≤ wantPcn) :
    got rungs (exact.toUnits wantPcn) = min wantPcn (coinsLeft rungs) * UNITS := by
  have hwant : 0 ≤ wantPcn * UNITS := mul_nonneg hpos units_pos.le
  have hstock : stock (bins rungs) = coinsLeft rungs * UNITS := by
    rw [coinsLeft_eq, div_mul_cancel₀ _ units_pos.ne']
  rw [got, total_greedy, exact_toUnits, max_eq_left hwant, hstock, min_mul_of_nonneg _ _ units_pos.le]

theorem Priced.floor_le (hfloor : 0 ≤ floor) (h : Priced (coinsLeft rungs) req k virt floor wantPcn cost) :
    wantPcn * floor ≤ cost := by
  obtain ⟨-, -, hcoins, hmoney, -, hpos, -⟩ := h
  obtain ⟨usd, pcn⟩ := req
  cases usd with
  | some usd =>
    obtain rfl : cost = usd := hmoney
    have hcoins : wantPcn = product.coins (coinsLeft rungs + virt) k floor cost := hcoins
    obtain rfl | hfloor := hfloor.eq_or_lt
    · rw [mul_zero]
      exact hpos.le
    · rw [hcoins, ← le_div_iff₀ hfloor]
      exact product.coins_le_floor hfloor _ _ _
  | none =>
    have hcoins : wantPcn = pcn.getD 0 := hcoins
    have hmoney : cost = product.cost (coinsLeft rungs + virt) k floor (pcn.getD 0) := hmoney
    rw [hmoney, hcoins]
    exact product.floor_le_cost _ _ _ _

theorem AmmSpec.buys (hfloor : 0 ≤ floor) (hprice : Priced (coinsLeft rungs) req k virt floor wantPcn cost)
    (h : AmmSpec exact rungs req k virt floor wantPcn cost w) :
    Buys rungs k virt floor wantPcn cost w := by
  have hgot := got_exact rungs hprice.coins_pos.le
  have hmin : 0 < min wantPcn (coinsLeft rungs) := lt_min hprice.coins_pos hprice.stock
  have hpcn : w.pcn = min wantPcn (coinsLeft rungs) := by
    rw [h.pcn, hgot, exact_fromUnits, mul_div_cancel_right₀ _ units_pos.ne']
  have hpos : 0 < w.pcn := hpcn ▸ hmin
  have hless : 0 < coinsLeft rungs + virt - w.pcn := by
    rw [hpcn]
    linarith [min_le_left wantPcn (coinsLeft rungs), hprice.within]
  refine ⟨h.fills ▸ greedy_drains _ _, ?_, hpcn, ?_, ?_, ?_⟩
  · rw [h.fills, h.pcn]
    rfl
  · have hcost := h.cost
    have hwant : wantPcn * UNITS ≠ 0 := (mul_pos hprice.coins_pos units_pos).ne'
    rw [hgot, ← hpcn, exact_toUnits, orOne, if_neg hwant] at hcost
    rw [hcost]
    split
    · have hratio : exact.num (w.pcn * UNITS) / exact.num (wantPcn * UNITS) = w.pcn / wantPcn :=
        mul_div_mul_right _ _ units_pos.ne'
      rw [hratio, mul_assoc, div_mul_cancel₀ _ hprice.coins_pos.ne']
    · rename_i hall
      have hsame : w.pcn = wantPcn := by
        apply le_antisymm (hpcn ▸ min_le_left _ _)
        rw [not_lt, sub_nonpos] at hall
        exact le_of_mul_le_mul_right hall units_pos
      rw [hsame]
  · rw [h.avgPrice, hgot, if_neg (mul_pos hmin units_pos).ne']
  · have hafter := h.marginalAfter
    dsimp only at hafter
    rw [← coinsLeft, if_pos hless, Option.map_some] at hafter
    rw [hafter, product.price]
    split
    · rfl
    · rename_i hnone
      have hzero : floor = 0 := le_antisymm (not_lt.mp hnone) hfloor
      have hraw : 0 < k / (coinsLeft rungs + virt - w.pcn) / (coinsLeft rungs + virt - w.pcn) :=
        div_pos (div_pos hprice.k_pos hless) hless
      rw [hzero, max_eq_left hraw.le]

theorem ammWalk_buys (hvirt : 0 ≤ virt) (hfloor : 0 ≤ floor)
    (h : ammWalk exact rungs req k virt floor = some w) :
    ∃ wantPcn cost, Priced (coinsLeft rungs) req k virt floor wantPcn cost ∧
      Buys rungs k virt floor wantPcn cost w := by
  obtain ⟨wantPcn, cost, hprice, hspec⟩ := ammWalk_spec h
  have hpriced := ammPrice_priced hvirt hprice
  exact ⟨wantPcn, cost, hpriced, hspec.buys hfloor hpriced⟩

/-- What the curve prices is sold. -/
theorem ammWalk_of_price (hvirt : 0 ≤ virt) (hfloor : 0 ≤ floor)
    (h : ammPrice (coinsLeft rungs) req k virt floor = some (wantPcn, cost)) :
    ∃ w, ammWalk exact rungs req k virt floor = some w ∧ Buys rungs k virt floor wantPcn cost w := by
  have hsome : (ammWalk exact rungs req k virt floor).isSome := by
    rw [coinsLeft] at h
    simp [ammWalk, h]
  obtain ⟨w, hw⟩ := Option.isSome_iff_exists.mp hsome
  obtain ⟨wantPcn', cost', hprice, hspec⟩ := ammWalk_spec hw
  rw [← coinsLeft, h] at hprice
  obtain ⟨rfl, rfl⟩ := Prod.mk.inj (Option.some.inj hprice)
  exact ⟨w, hw, hspec.buys hfloor (ammPrice_priced hvirt h)⟩

theorem Buys.all (h : Buys rungs k virt floor wantPcn cost w) (hpos : 0 < wantPcn)
    (hle : wantPcn ≤ coinsLeft rungs) : w.pcn = wantPcn ∧ w.cost = cost := by
  have hpcn : w.pcn = wantPcn := by rw [h.pcn, min_eq_left hle]
  have hcost := h.cost
  rw [hpcn] at hcost
  exact ⟨hpcn, mul_right_cancel₀ hpos.ne' hcost⟩

theorem coinsLeft_reserve (hnodup : (rungs.map Rung.rung_no).Nodup)
    (h : Buys rungs k virt floor wantPcn cost w) :
    coinsLeft (reserve w.fills rungs) = coinsLeft rungs - w.pcn := by
  have hbins : ((bins rungs).map Prod.fst).Nodup := by
    rw [bins, List.map_map]
    exact hnodup
  rw [coinsLeft_eq, bins_reserve, stock_rest h.drains hbins, sub_div, ← h.left, ← coinsLeft_eq]

end

/-- There is stock for all of the coins that are asked for. -/
def Suffices (rungs : List (Rung ℚ)) (k virt floor : ℚ) (req : Request) : Prop :=
  coinsOf (coinsLeft rungs + virt) k floor req ≤ coinsLeft rungs

/-- The curve cannot be gamed. -/
structure Fair (rungs : List (Rung ℚ)) (k virt floor : ℚ) : Prop where
  pcn_usd : ∀ pcn w, Suffices rungs k virt floor { pcn := some pcn } →
    ammWalk exact rungs { pcn := some pcn } k virt floor = some w →
    w.pcn = pcn ∧ ∃ w', ammWalk exact rungs { usd := some w.cost } k virt floor = some w' ∧
      w'.pcn = pcn ∧ w'.cost = w.cost
  usd_pcn : ∀ usd w, Suffices rungs k virt floor { usd := some usd } →
    ammWalk exact rungs { usd := some usd } k virt floor = some w →
    w.cost = usd ∧ ∃ w', ammWalk exact rungs { pcn := some w.pcn } k virt floor = some w' ∧
      w'.cost = usd ∧ w'.pcn = w.pcn
  usd_split : ∀ u v w₁ w₂, ammWalk exact rungs { usd := some u } k virt floor = some w₁ →
    ammWalk exact (reserve w₁.fills rungs) { usd := some v } k virt floor = some w₂ →
    ∃ w, ammWalk exact rungs { usd := some (u + v) } k virt floor = some w ∧ w₁.pcn + w₂.pcn ≤ w.pcn
  pcn_split : ∀ p q w₁ w₂, Suffices rungs k virt floor { pcn := some (p + q) } →
    ammWalk exact rungs { pcn := some p } k virt floor = some w₁ →
    ammWalk exact (reserve w₁.fills rungs) { pcn := some q } k virt floor = some w₂ →
    ∃ w, ammWalk exact rungs { pcn := some (p + q) } k virt floor = some w ∧ w.cost ≤ w₁.cost + w₂.cost
  average : ∀ req w, ammWalk exact rungs req k virt floor = some w → floor ≤ w.avgPrice
  after : ∀ req w, ammWalk exact rungs req k virt floor = some w →
    w.marginalAfter = some (priceOf (reserve w.fills rungs) k virt floor) ∧
      priceOf rungs k virt floor ≤ priceOf (reserve w.fills rungs) k virt floor

section

variable {rungs : List (Rung ℚ)} {k virt floor : ℚ} (hvirt : 0 ≤ virt) (hfloor : 0 ≤ floor)
include hvirt hfloor

theorem ammWalk_pcn {pcn : ℚ} {w : Walk ℚ} (hle : pcn ≤ coinsLeft rungs)
    (h : ammWalk exact rungs { pcn := some pcn } k virt floor = some w) :
    Priced (coinsLeft rungs) { pcn := some pcn } k virt floor pcn
      (product.cost (coinsLeft rungs + virt) k floor pcn) ∧ w.pcn = pcn ∧
      w.cost = product.cost (coinsLeft rungs + virt) k floor pcn ∧
      Buys rungs k virt floor pcn (product.cost (coinsLeft rungs + virt) k floor pcn) w := by
  obtain ⟨wantPcn, cost, hpriced, hbuys⟩ := ammWalk_buys hvirt hfloor h
  obtain rfl : wantPcn = pcn := hpriced.coins
  obtain rfl : cost = product.cost (coinsLeft rungs + virt) k floor wantPcn := hpriced.money
  obtain ⟨hpcn, hcost⟩ := hbuys.all hpriced.coins_pos hle
  exact ⟨hpriced, hpcn, hcost, hbuys⟩

theorem ammWalk_pcn_usd {pcn : ℚ} {w : Walk ℚ} (hle : pcn ≤ coinsLeft rungs)
    (h : ammWalk exact rungs { pcn := some pcn } k virt floor = some w) :
    w.pcn = pcn ∧ ∃ w', ammWalk exact rungs { usd := some w.cost } k virt floor = some w' ∧
      w'.pcn = pcn ∧ w'.cost = w.cost := by
  obtain ⟨hpriced, hpcn, hcost, -⟩ := ammWalk_pcn hvirt hfloor hle h
  have hback : product.coins (coinsLeft rungs + virt) k floor w.cost = pcn := by
    rw [hcost]
    exact product.coins_cost hpriced.k_pos hfloor hpriced.coins_pos hpriced.within
  have hprice : ammPrice (coinsLeft rungs) { usd := some w.cost } k virt floor = some (pcn, w.cost) := by
    rw [ammPrice_usd hpriced.stock hpriced.k_pos hvirt, hback, if_pos (hcost ▸ hpriced.money_pos)]
  obtain ⟨w', hw', hbuys⟩ := ammWalk_of_price hvirt hfloor hprice
  exact ⟨hpcn, w', hw', hbuys.all hpriced.coins_pos hle⟩

theorem ammWalk_usd_pcn {usd : ℚ} {w : Walk ℚ}
    (hle : product.coins (coinsLeft rungs + virt) k floor usd ≤ coinsLeft rungs)
    (h : ammWalk exact rungs { usd := some usd } k virt floor = some w) :
    w.cost = usd ∧ ∃ w', ammWalk exact rungs { pcn := some w.pcn } k virt floor = some w' ∧
      w'.cost = usd ∧ w'.pcn = w.pcn := by
  obtain ⟨wantPcn, cost, hpriced, hbuys⟩ := ammWalk_buys hvirt hfloor h
  obtain rfl : wantPcn = product.coins (coinsLeft rungs + virt) k floor usd := hpriced.coins
  obtain rfl : cost = usd := hpriced.money
  obtain ⟨hpcn, hcost⟩ := hbuys.all hpriced.coins_pos hle
  have hX : 0 < coinsLeft rungs + virt := add_pos_of_pos_of_nonneg hpriced.stock hvirt
  have hback : product.cost (coinsLeft rungs + virt) k floor w.pcn = cost := by
    rw [hpcn]
    exact product.cost_coins hpriced.k_pos hX hfloor hpriced.money_pos
  have hprice : ammPrice (coinsLeft rungs) { pcn := some w.pcn } k virt floor = some (w.pcn, cost) := by
    rw [ammPrice_pcn hpriced.stock hpriced.k_pos, hback,
      if_pos ⟨hpcn ▸ hpriced.coins_pos, hpcn ▸ hpriced.within⟩]
  obtain ⟨w', hw', hbuys'⟩ := ammWalk_of_price hvirt hfloor hprice
  obtain ⟨hpcn', hcost'⟩ := hbuys'.all (hpcn ▸ hpriced.coins_pos) (hpcn ▸ hle)
  exact ⟨hcost, w', hw', hcost', hpcn'⟩

theorem ammWalk_floor_le {req : Request} {w : Walk ℚ}
    (h : ammWalk exact rungs req k virt floor = some w) : floor ≤ w.avgPrice := by
  obtain ⟨wantPcn, cost, hpriced, hbuys⟩ := ammWalk_buys hvirt hfloor h
  have hpcn : 0 < w.pcn := by
    rw [hbuys.pcn]
    exact lt_min hpriced.coins_pos hpriced.stock
  rw [hbuys.avgPrice, le_div_iff₀ hpcn]
  apply le_of_mul_le_mul_right _ hpriced.coins_pos
  calc floor * w.pcn * wantPcn = wantPcn * floor * w.pcn := by ring
    _ ≤ cost * w.pcn := mul_le_mul_of_nonneg_right (hpriced.floor_le hfloor) hpcn.le
    _ = w.cost * wantPcn := hbuys.cost.symm

variable (hnodup : (rungs.map Rung.rung_no).Nodup)
include hnodup

theorem ammWalk_usd_split {u v : ℚ} {w₁ w₂ : Walk ℚ}
    (h₁ : ammWalk exact rungs { usd := some u } k virt floor = some w₁)
    (h₂ : ammWalk exact (reserve w₁.fills rungs) { usd := some v } k virt floor = some w₂) :
    ∃ w, ammWalk exact rungs { usd := some (u + v) } k virt floor = some w ∧
      w₁.pcn + w₂.pcn ≤ w.pcn := by
  obtain ⟨c₁, u', hpriced₁, hbuys₁⟩ := ammWalk_buys hvirt hfloor h₁
  obtain rfl : u' = u := hpriced₁.money
  obtain ⟨c₂, v', hpriced₂, hbuys₂⟩ := ammWalk_buys hvirt hfloor h₂
  obtain rfl : v' = v := hpriced₂.money
  have hleft := coinsLeft_reserve hnodup hbuys₁
  have hstock := hpriced₂.stock
  have hX : 0 < coinsLeft rungs + virt := add_pos_of_pos_of_nonneg hpriced₁.stock hvirt
  -- the first walk leaves some stock, so it had all that it wanted
  have hfirst : w₁.pcn = product.coins (coinsLeft rungs + virt) k floor u' := by
    have hcoins : c₁ = product.coins (coinsLeft rungs + virt) k floor u' := hpriced₁.coins
    have hpcn := hbuys₁.pcn
    rw [← hcoins]
    obtain hle | hgt := le_or_gt c₁ (coinsLeft rungs)
    · rwa [min_eq_left hle] at hpcn
    · rw [min_eq_right hgt.le] at hpcn
      linarith
  have hsecond : c₂ = product.coins (coinsLeft rungs + virt - w₁.pcn) k floor v' := by
    have hcoins : c₂ = product.coins (coinsLeft (reserve w₁.fills rungs) + virt) k floor v' :=
      hpriced₂.coins
    rw [hcoins, hleft, sub_add_eq_add_sub]
  have hprice : ammPrice (coinsLeft rungs) { usd := some (u' + v') } k virt floor =
      some (product.coins (coinsLeft rungs + virt) k floor (u' + v'), u' + v') := by
    rw [ammPrice_usd hpriced₁.stock hpriced₁.k_pos hvirt,
      if_pos (add_pos hpriced₁.money_pos hpriced₂.money_pos)]
  obtain ⟨w, hw, hbuys⟩ := ammWalk_of_price hvirt hfloor hprice
  refine ⟨w, hw, ?_⟩
  have hcurve : product.coins (coinsLeft rungs + virt) k floor u' +
      product.coins (coinsLeft rungs + virt - product.coins (coinsLeft rungs + virt) k floor u') k floor v' ≤
      product.coins (coinsLeft rungs + virt) k floor (u' + v') :=
    product.coins_add_le hpriced₁.k_pos hX hpriced₁.money_pos hpriced₂.money_pos
  have hwant := min_le_left c₂ (coinsLeft (reserve w₁.fills rungs))
  have hhave := min_le_right c₂ (coinsLeft (reserve w₁.fills rungs))
  rw [← hbuys₂.pcn] at hwant hhave
  rw [← hfirst, ← hsecond] at hcurve
  rw [hbuys.pcn]
  apply le_min
  · linarith
  · linarith

theorem ammWalk_pcn_split {p q : ℚ} {w₁ w₂ : Walk ℚ} (hle : p + q ≤ coinsLeft rungs)
    (h₁ : ammWalk exact rungs { pcn := some p } k virt floor = some w₁)
    (h₂ : ammWalk exact (reserve w₁.fills rungs) { pcn := some q } k virt floor = some w₂) :
    ∃ w, ammWalk exact rungs { pcn := some (p + q) } k virt floor = some w ∧
      w.cost ≤ w₁.cost + w₂.cost := by
  have hq : 0 < q := by
    obtain ⟨_, _, hpriced, -⟩ := ammWalk_buys hvirt hfloor h₂
    obtain rfl := hpriced.coins
    exact hpriced.coins_pos
  obtain ⟨hpriced₁, hpcn₁, hcost₁, hbuys₁⟩ := ammWalk_pcn hvirt hfloor (by linarith) h₁
  have hleft := coinsLeft_reserve hnodup hbuys₁
  rw [hpcn₁] at hleft
  obtain ⟨hpriced₂, -, hcost₂, -⟩ := ammWalk_pcn hvirt hfloor (by linarith) h₂
  have hrest : coinsLeft (reserve w₁.fills rungs) + virt = coinsLeft rungs + virt - p := by
    rw [hleft]
    ring
  have hwithin := hpriced₂.within
  rw [hrest] at hwithin hcost₂
  have hprice : ammPrice (coinsLeft rungs) { pcn := some (p + q) } k virt floor =
      some (p + q, product.cost (coinsLeft rungs + virt) k floor (p + q)) := by
    rw [ammPrice_pcn hpriced₁.stock hpriced₁.k_pos,
      if_pos ⟨add_pos hpriced₁.coins_pos hq, by linarith⟩]
  obtain ⟨w, hw, hbuys⟩ := ammWalk_of_price hvirt hfloor hprice
  refine ⟨w, hw, ?_⟩
  rw [(hbuys.all (add_pos hpriced₁.coins_pos hq) hle).2, hcost₁, hcost₂]
  exact product.cost_add_le _ _ _ _ _

theorem ammWalk_after {req : Request} {w : Walk ℚ}
    (h : ammWalk exact rungs req k virt floor = some w) :
    w.marginalAfter = some (priceOf (reserve w.fills rungs) k virt floor) ∧
      priceOf rungs k virt floor ≤ priceOf (reserve w.fills rungs) k virt floor := by
  obtain ⟨wantPcn, cost, hpriced, hbuys⟩ := ammWalk_buys hvirt hfloor h
  have hrest : coinsLeft (reserve w.fills rungs) + virt = coinsLeft rungs + virt - w.pcn := by
    rw [coinsLeft_reserve hnodup hbuys]
    ring
  have hpos : 0 < w.pcn := by
    rw [hbuys.pcn]
    exact lt_min hpriced.coins_pos hpriced.stock
  have hwant : w.pcn ≤ wantPcn := by
    rw [hbuys.pcn]
    exact min_le_left _ _
  have hwithin := hpriced.within
  unfold priceOf
  rw [hrest]
  refine ⟨hbuys.marginalAfter, ?_⟩
  apply product.price_le hpriced.k_pos
  · linarith
  · linarith

theorem fair : Fair rungs k virt floor where
  pcn_usd _ _ hle h := ammWalk_pcn_usd hvirt hfloor hle h
  usd_pcn _ _ hle h := ammWalk_usd_pcn hvirt hfloor hle h
  usd_split _ _ _ _ h₁ h₂ := ammWalk_usd_split hvirt hfloor hnodup h₁ h₂
  pcn_split _ _ _ _ hle h₁ h₂ := ammWalk_pcn_split hvirt hfloor hnodup hle h₁ h₂
  average _ _ h := ammWalk_floor_le hvirt hfloor h
  after _ _ h := ammWalk_after hvirt hfloor hnodup h

end

/-! ### In satoshis -/

/-- The nearest satoshi is no more than what the floor gives: the coins of the money, or the coins named,
lie less than half a satoshi over whole ones, or the curve sets the price and leaves room. -/
def RoundsWithin (X k floor : ℚ) (req : Request) : Prop :=
  match req.usd with
  | some usd =>
    Int.fract (usd / floor * UNITS) < 1 / 2 ∨
      (X - k / (k / X + usd)) * UNITS < ⌊usd / floor * UNITS⌋ + 1 / 2
  | none =>
    Int.fract (req.pcn.getD 0 * UNITS) < 1 / 2 ∨
      ⌊req.pcn.getD 0 * UNITS⌋ + 1 ≤
        (k / (X - req.pcn.getD 0) - k / X) / floor * UNITS

theorem round_le_iff (x y : ℚ) : ((⌊x + 1 / 2⌋ : ℤ) : ℚ) ≤ y ↔ x < ⌊y⌋ + 1 / 2 := by
  rw [← Int.le_floor, ← Int.lt_add_one_iff, Int.floor_lt, Int.cast_add, Int.cast_one]
  constructor
  · intro h
    linarith
  · intro h
    linarith

theorem round_le_self_iff (x : ℚ) : ((⌊x + 1 / 2⌋ : ℤ) : ℚ) ≤ x ↔ Int.fract x < 1 / 2 := by
  rw [round_le_iff, Int.fract, sub_lt_iff_lt_add']

theorem round_eq_of_not_fract_lt {x : ℚ} (h : ¬Int.fract x < 1 / 2) : ⌊x + 1 / 2⌋ = ⌊x⌋ + 1 := by
  have hlt := Int.fract_lt_one x
  have hself := Int.self_sub_floor x
  rw [Int.floor_eq_iff, Int.cast_add, Int.cast_one]
  constructor
  · linarith
  · linarith

theorem satoshis_toUnits (pcn : ℚ) : satoshis.toUnits pcn = ⌊pcn * UNITS + 1 / 2⌋ := rfl

section

variable {rungs : List (Rung ℤ)} {k virt floor wantPcn cost : ℚ} {req : Request} {w : Walk ℤ}

/-- What is asked for is within what the money buys at the floor. -/
theorem units_le_iff {X : ℚ} (hfloor : 0 < floor) (hcoins : wantPcn = coinsOf X k floor req)
    (hmoney : cost = moneyOf X k floor req) :
    (satoshis.toUnits wantPcn : ℚ) * floor ≤ cost * UNITS ↔ RoundsWithin X k floor req := by
  rw [satoshis_toUnits, ← le_div_iff₀ hfloor, mul_div_right_comm]
  obtain ⟨usd, pcn⟩ := req
  cases usd with
  | some usd =>
    obtain rfl : cost = usd := hmoney
    have htotal : wantPcn * UNITS =
        min ((X - k / (k / X + cost)) * UNITS) (cost / floor * UNITS) := by
      have hmin : wantPcn = min (X - k / (k / X + cost)) (cost / floor) := by
        rw [hcoins]
        exact if_pos hfloor
      rw [hmin, min_mul_of_nonneg _ _ units_pos.le]
    rw [htotal, round_le_iff, min_lt_iff, ← sub_lt_iff_lt_add' (a := cost / floor * UNITS)]
    exact or_comm
  | none =>
    obtain rfl : wantPcn = pcn.getD 0 := hcoins
    have htotal : cost / floor * UNITS =
        max ((k / (X - pcn.getD 0) - k / X) / floor * UNITS) (pcn.getD 0 * UNITS) := by
      have hmax : cost = max (k / (X - pcn.getD 0) - k / X) (pcn.getD 0 * floor) := hmoney
      rw [hmax, ← max_div_div_right hfloor.le, mul_div_cancel_right₀ _ hfloor.ne',
        max_mul_of_nonneg _ _ units_pos.le]
    rw [htotal, le_max_iff, round_le_self_iff, or_comm]
    apply or_congr_right'
    intro hfract
    rw [round_eq_of_not_fract_lt hfract, Int.cast_add, Int.cast_one]

/-- The coins handed out are within what the money buys at the floor just when the units are that were
asked for. -/
theorem AmmSpec.floor_le_iff (hprice : Priced (satoshis.fromUnits (remUnits rungs)) req k virt floor wantPcn cost)
    (h : AmmSpec satoshis rungs req k virt floor wantPcn cost w) :
    w.pcn * floor ≤ w.cost ↔ (satoshis.toUnits wantPcn : ℚ) * floor ≤ cost * UNITS := by
  have hstock : 0 < stock (bins rungs) := by
    have hrem := hprice.stock
    rw [remUnits_eq] at hrem
    exact Int.cast_pos.mp ((div_pos_iff_of_pos_right units_pos).mp hrem)
  have hwant : 0 ≤ satoshis.toUnits wantPcn := by
    have hcoins : 0 < wantPcn * UNITS := mul_pos hprice.coins_pos units_pos
    rw [satoshis_toUnits]
    apply Int.floor_nonneg.mpr
    linarith
  have hgot := got_eq rungs (satoshis.toUnits wantPcn)
  have hpcn := h.pcn
  have hcost := h.cost
  generalize satoshis.toUnits wantPcn = want at hwant hgot hpcn hcost ⊢
  generalize got rungs want = units at hgot hpcn hcost
  rw [max_eq_left hwant] at hgot
  rw [hpcn, fromUnits_satoshis, div_mul_eq_mul_div, div_le_iff₀ units_pos]
  obtain rfl | hwant := hwant.eq_or_lt
  · -- nothing is asked for, and all of the money is kept
    obtain rfl : units = 0 := by omega
    rw [hcost, if_neg (by omega)]
  · have hpos : 0 < units := by omega
    have hratio : w.cost = cost * (units / want) := by
      rw [hcost, orOne, if_neg hwant.ne']
      split
      · rfl
      · obtain rfl : units = want := by omega
        rw [div_self (Int.cast_ne_zero.mpr hwant.ne'), mul_one]
    have hunits : (0 : ℚ) < units := Int.cast_pos.mpr hpos
    have hwanted : (0 : ℚ) < want := Int.cast_pos.mpr hwant
    have hleft : cost * (units / want) * UNITS = cost * UNITS * units / want := by ring
    rw [hratio, hleft, le_div_iff₀ hwanted, mul_right_comm, mul_assoc, mul_comm (units : ℚ),
      mul_le_mul_iff_left₀ hunits]

theorem ammWalk_rounds_iff (hvirt : 0 ≤ virt) (hfloor : 0 ≤ floor)
    (h : ammWalk satoshis rungs req k virt floor = some w) :
    w.pcn * floor ≤ w.cost ↔
      floor = 0 ∨ RoundsWithin (satoshis.fromUnits (remUnits rungs) + virt) k floor req := by
  obtain ⟨wantPcn, cost, hprice, hspec⟩ := ammWalk_spec h
  have hpriced := ammPrice_priced hvirt hprice
  rw [hspec.floor_le_iff hpriced]
  obtain rfl | hpos := hfloor.eq_or_lt
  · have hmoney := mul_nonneg hpriced.money_pos.le units_pos.le
    simpa using hmoney
  · rw [units_le_iff hpos hpriced.coins hpriced.money, or_iff_right hpos.ne']

end

/-- The curve cannot be gamed but for what rounding to the nearest satoshi gives beyond the floor. -/
theorem curve_fair_iff {k virt floor : ℚ} (hvirt : 0 ≤ virt) (hfloor : 0 ≤ floor) :
    (∀ rungs : List (Rung ℚ), (rungs.map Rung.rung_no).Nodup → Fair rungs k virt floor) ∧
    ∀ (rungs : List (Rung ℤ)) (req : Request) (w : Walk ℤ),
      ammWalk satoshis rungs req k virt floor = some w →
      (w.pcn * floor ≤ w.cost ↔
        floor = 0 ∨ RoundsWithin (satoshis.fromUnits (remUnits rungs) + virt) k floor req) :=
  ⟨fun _ hnodup => fair hvirt hfloor hnodup, fun _ _ _ h => ammWalk_rounds_iff hvirt hfloor h⟩

namespace sample

/-- Two thousand coins. -/
def book : List (Rung ℤ) := [rung 1 (15 / 1000) 200000000000]

end sample

/-- Nine dollars buy six hundred coins at the floor. -/
theorem ammWalk_nine_dollars :
    ∃ w, ammWalk satoshis sample.book { usd := some 9 } 20000 0 (15 / 1000) = some w ∧
      w.pcn = 600 ∧ w.pcn * (15 / 1000) ≤ w.cost := by
  have hwalk : (ammWalk satoshis sample.book { usd := some 9 } 20000 0 (15 / 1000)).map Walk.pcn =
      some 600 := by decide +kernel
  obtain ⟨w, hw, hpcn⟩ := Option.map_eq_some_iff.mp hwalk
  refine ⟨w, hw, hpcn, ?_⟩
  apply ((curve_fair_iff (by decide) (by decide +kernel)).2 _ _ w hw).mpr
  right
  left
  decide +kernel

/-- Ten dollars buy a part of a satoshi more than at the floor. -/
theorem ammWalk_ten_dollars :
    ¬∀ (k virt floor : ℚ) (rungs : List (Rung ℤ)) (req : Request) (w : Walk ℤ),
      0 < k → 0 ≤ virt → 0 ≤ floor → (rungs.map Rung.rung_no).Nodup →
      ammWalk satoshis rungs req k virt floor = some w → w.pcn * floor ≤ w.cost := by
  intro hall
  have hwalk : (ammWalk satoshis sample.book { usd := some 10 } 20000 0 (15 / 1000)).map (fun w =>
      (w.pcn, w.cost)) = some (66666666667 / 100000000, 10) := by
    decide +kernel
  obtain ⟨w, hw, hsame⟩ := Option.map_eq_some_iff.mp hwalk
  obtain ⟨hpcn, hcost⟩ := Prod.mk.inj hsame
  have hle := hall 20000 0 (15 / 1000) _ _ w (by decide) (by decide) (by decide +kernel) (by decide) hw
  rw [hpcn, hcost] at hle
  norm_num at hle

end pcoin.market.walk
