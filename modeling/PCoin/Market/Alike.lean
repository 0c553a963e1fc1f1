import PCoin.Amm.Product
import PCoin.Market.Walks
import PCoin.Table.Basic
import Mathlib.Tactic.Positivity

/-! What the four walks have in common. -/

namespace pcoin.market.walk

open drain

section

variable {α : Type} [CommRing α]

def bins (rungs : List (Rung α)) : List (Nat × α) := rungs.map fun r => (r.rung_no, availUnits r)

def pairs (fills : List (Fill α)) : List (Nat × α) := fills.map fun f => (f.rungNo, f.units)

theorem bins_cons (r : Rung α) (rungs : List (Rung α)) :
    bins (r :: rungs) = (r.rung_no, availUnits r) :: bins rungs := rfl

variable [LinearOrder α]

theorem remUnits_eq (rungs : List (Rung α)) : remUnits rungs = stock (bins rungs) := by
  have hfold : ∀ rem : α,
      rungs.foldl (fun rem r => if 0 < availUnits r then rem + availUnits r else rem) rem =
        rem + stock (bins rungs) := by
    induction rungs with
    | nil => simp [bins]
    | cons r rungs ih =>
      intro rem
      rw [List.foldl_cons, ih, bins_cons, stock_cons]
      dsimp only
      split
      · rename_i hpos
        rw [max_eq_left hpos.le, add_assoc]
      · rename_i hpos
        rw [max_eq_right (not_lt.mp hpos), zero_add]
  rw [remUnits, hfold, zero_add]

/-- What a loop of units takes: the greedy draws. -/
structure TakesGreedy (rungs : List (Rung α)) (s t : Taken α) : Prop where
  fills : pairs t.fills = pairs s.fills ++ greedy s.left (bins rungs)
  got : t.gotUnits = s.gotUnits + total (greedy s.left (bins rungs))
  left : t.left = s.left - total (greedy s.left (bins rungs))

section

variable {r : Rung α} {rungs : List (Rung α)} {s t : Taken α}

theorem TakesGreedy.stop (hleft : s.left ≤ 0) : TakesGreedy rungs s s := by
  have hnone := greedy_of_nonpos hleft (bins rungs)
  exact ⟨by simp [hnone, pairs], by simp [hnone], by simp [hnone]⟩

theorem TakesGreedy.skip (hleft : ¬ s.left ≤ 0) (havail : availUnits r ≤ 0)
    (h : TakesGreedy rungs s t) : TakesGreedy (r :: rungs) s t := by
  have hskip : greedy s.left (bins (r :: rungs)) = greedy s.left (bins rungs) := by
    rw [bins_cons, greedy, if_neg hleft, if_pos havail]
  obtain ⟨hfills, hgot, hrest⟩ := h
  exact ⟨by rw [hskip, hfills], by rw [hskip, hgot], by rw [hskip, hrest]⟩

theorem TakesGreedy.take (hleft : ¬ s.left ≤ 0) (havail : ¬ availUnits r ≤ 0) {price : ℚ}
    (h : TakesGreedy rungs
      { fills := s.fills ++ [⟨r.rung_no, min (availUnits r) s.left, price⟩]
        gotUnits := s.gotUnits + min (availUnits r) s.left
        left := s.left - min (availUnits r) s.left } t) : TakesGreedy (r :: rungs) s t := by
  have htake : greedy s.left (bins (r :: rungs)) =
      (r.rung_no, min (availUnits r) s.left) ::
        greedy (s.left - min (availUnits r) s.left) (bins rungs) := by
    rw [bins_cons, greedy, if_neg hleft, if_neg havail]
  obtain ⟨hfills, hgot, hrest⟩ := h
  refine ⟨?_, ?_, ?_⟩
  · rw [hfills, htake]
    simp [pairs]
  · rw [hgot, htake, total_cons, add_assoc]
  · rw [hrest, htake, total_cons, sub_sub]

end

theorem takeUnits_greedy (price : ℚ) (rungs : List (Rung α)) (s : Taken α) :
    TakesGreedy rungs s (takeUnits price rungs s) := by
  induction rungs generalizing s with
  | nil => exact ⟨by simp [takeUnits, bins, greedy], by simp [takeUnits, bins, greedy],
      by simp [takeUnits, bins, greedy]⟩
  | cons r rungs ih =>
    by_cases hleft : s.left ≤ 0
    · rw [takeUnits, if_pos hleft]
      exact .stop hleft
    · rw [takeUnits, if_neg hleft]
      by_cases havail : availUnits r ≤ 0
      · exact if_pos havail ▸ .skip hleft havail (ih s)
      · exact if_neg havail ▸ .take hleft havail (ih _)

/-- What the rungs give of what is wanted. -/
def got (rungs : List (Rung α)) (want : α) : α := total (greedy want (bins rungs))

/-- What `ammWalk` returns for the coins wanted and their cost. -/
structure AmmSpec (S : Scale α) (rungs : List (Rung α)) (req : Request) (k virt floor wantPcn cost : ℚ)
    (w : Walk α) : Prop where
  fills : pairs w.fills = greedy (S.toUnits wantPcn) (bins rungs)
  pcn : w.pcn = S.fromUnits (got rungs (S.toUnits wantPcn))
  cost : w.cost = if 0 < S.toUnits wantPcn - got rungs (S.toUnits wantPcn) then
      cost * (S.num (got rungs (S.toUnits wantPcn)) / S.num (orOne (S.toUnits wantPcn)))
    else cost
  avgPrice : w.avgPrice = if got rungs (S.toUnits wantPcn) = 0 then 0 else w.cost / w.pcn
  marginalAfter : w.marginalAfter =
    let X1 := S.fromUnits (remUnits rungs) + virt - w.pcn
    (if 0 < X1 then some (k / X1 / X1) else none).map fun raw => if 0 < floor then max raw floor else raw
  pcnUnfilled : w.pcnUnfilled =
    if req.pcn.isSome ∧ 0 < S.toUnits wantPcn - got rungs (S.toUnits wantPcn) then
      S.fromUnits (S.toUnits wantPcn - got rungs (S.toUnits wantPcn))
    else 0
  exhausted : w.exhausted = decide (S.fromUnits (remUnits rungs) + virt - w.pcn ≤ 0)

theorem ammWalk_spec {S : Scale α} {rungs : List (Rung α)} {req : Request} {k virt floor : ℚ} {w : Walk α}
    (h : ammWalk S rungs req k virt floor = some w) :
    ∃ wantPcn cost, ammPrice (S.fromUnits (remUnits rungs)) req k virt floor = some (wantPcn, cost) ∧
      AmmSpec S rungs req k virt floor wantPcn cost w := by
  obtain ⟨⟨wantPcn, cost⟩, hprice, h⟩ := Option.bind_eq_some_iff.mp h
  obtain rfl := Option.some.inj h
  obtain ⟨hfills, hgot, hleft⟩ := takeUnits_greedy
    (cost / S.fromUnits (orOne (S.toUnits wantPcn))) rungs { gotUnits := 0, left := S.toUnits wantPcn }
  rw [zero_add] at hgot
  refine ⟨wantPcn, cost, hprice, ?_⟩
  rw [hgot, hleft]
  exact ⟨hfills, rfl, rfl, rfl, rfl, rfl, rfl⟩

end

/-! ### What `ammWalk` is asked for -/

/-- The coins that a request is for, over a reserve `X`. -/
def coinsOf (X k floor : ℚ) (req : Request) : ℚ :=
  match req.usd with
  | some usd => product.coins X k floor usd
  | none => req.pcn.getD 0

/-- The money that a request is for. -/
def moneyOf (X k floor : ℚ) (req : Request) : ℚ :=
  match req.usd with
  | some usd => usd
  | none => product.cost X k floor (req.pcn.getD 0)

/-- What `ammPrice` finds: the coins and the money of the request, above zero and within the reserve. -/
structure Priced (rem : ℚ) (req : Request) (k virt floor wantPcn cost : ℚ) : Prop where
  stock : 0 < rem
  k_pos : 0 < k
  coins : wantPcn = coinsOf (rem + virt) k floor req
  money : cost = moneyOf (rem + virt) k floor req
  coins_pos : 0 < wantPcn
  money_pos : 0 < cost
  within : wantPcn < rem + virt

section

variable {rem k virt floor : ℚ}

theorem guard_bind {β : Type} {p : Prop} [Decidable p] (h : p) (f : Unit → Option β) :
    (guard p : Option Unit).bind f = f () := by
  simp [guard, h]

theorem ammPrice_usd (hrem : 0 < rem) (hk : 0 < k) (hvirt : 0 ≤ virt) (usd : ℚ) (pcn : Option ℚ) :
    ammPrice rem { usd := some usd, pcn := pcn } k virt floor =
      if 0 < usd then some (product.coins (rem + virt) k floor usd, usd) else none := by
  have hX : 0 < rem + virt := by linarith
  simp only [ammPrice, curve, floored, Option.bind_eq_bind, Option.bind_some]
  rw [guard_bind ⟨hrem, hk⟩]
  by_cases husd : 0 < usd
  · rw [if_pos husd, guard_bind ⟨product.curve_pos hk hX husd, husd⟩]
    by_cases hfloor : 0 < floor
    · have hcoins : (if usd / floor < rem + virt - k / (k / (rem + virt) + usd) then usd / floor
          else rem + virt - k / (k / (rem + virt) + usd)) = product.coins (rem + virt) k floor usd := by
        rw [product.coins, if_pos hfloor, min_comm, min_def_lt]
      rw [if_pos hfloor, hcoins, guard_bind ⟨product.coins_pos hk hX husd, husd⟩]
      rfl
    · rw [if_neg hfloor, product.coins, if_neg hfloor]
      rfl
  · rw [if_neg husd, guard, if_neg fun h => husd h.2]
    rfl

theorem floored_pcn (pcn cost : ℚ) :
    floored floor { pcn := some pcn } pcn cost = (pcn, max cost (pcn * floor)) := by
  simp only [floored, max_def_lt]

theorem ammPrice_pcn (hrem : 0 < rem) (hk : 0 < k) (pcn : ℚ) :
    ammPrice rem { pcn := some pcn } k virt floor =
      if 0 < pcn ∧ pcn < rem + virt then some (pcn, product.cost (rem + virt) k floor pcn) else none := by
  simp only [ammPrice, curve, Option.bind_eq_bind]
  rw [guard_bind ⟨hrem, hk⟩]
  by_cases hpcn : 0 < pcn ∧ pcn < rem + virt
  · have hcurve := product.curve_cost_pos hk hpcn.1 hpcn.2
    simp only [if_pos hpcn, Option.bind_some, floored_pcn]
    rw [guard_bind ⟨hpcn.1, hcurve⟩, ← product.cost]
    by_cases hfloor : 0 < floor
    · rw [if_pos hfloor, guard_bind ⟨hpcn.1, product.cost_pos hk hpcn.1 hpcn.2⟩]
      rfl
    · have hless : pcn * floor ≤ k / (rem + virt - pcn) - k / (rem + virt) :=
        (mul_nonpos_of_nonneg_of_nonpos hpcn.1.le (not_lt.mp hfloor)).trans hcurve.le
      rw [if_neg hfloor, product.cost, max_eq_left hless]
      rfl
  · rw [if_neg hpcn, if_neg hpcn]
    rfl

theorem ammPrice_priced (hvirt : 0 ≤ virt) {req : Request} {wantPcn cost : ℚ}
    (h : ammPrice rem req k virt floor = some (wantPcn, cost)) :
    Priced rem req k virt floor wantPcn cost := by
  obtain ⟨_, hguard, -⟩ := Option.bind_eq_some_iff.mp h
  obtain ⟨hrem, hk⟩ := (Option.guard_eq_some' _).mp hguard
  have hX : 0 < rem + virt := by linarith
  obtain ⟨usd, pcn⟩ := req
  cases usd with
  | some usd =>
    rw [ammPrice_usd hrem hk hvirt] at h
    split at h
    · rename_i husd
      obtain ⟨rfl, rfl⟩ := Prod.mk.inj (Option.some.inj h)
      exact ⟨hrem, hk, rfl, rfl, product.coins_pos hk hX husd, husd, product.coins_lt hk hX husd.le⟩
    · cases h
  | none =>
    cases pcn with
    | some pcn =>
      rw [ammPrice_pcn hrem hk] at h
      split at h
      · rename_i hpcn
        obtain ⟨rfl, rfl⟩ := Prod.mk.inj (Option.some.inj h)
        exact ⟨hrem, hk, rfl, rfl, hpcn.1, product.cost_pos hk hpcn.1 hpcn.2, hpcn.2⟩
      · cases h
    | none =>
      obtain ⟨_, -, h⟩ := Option.bind_eq_some_iff.mp h
      cases h

end

/-- `walkPcn` as a loop of units. -/
def Needed.taken (s : Needed) : Taken ℤ :=
  { fills := s.fills, gotUnits := s.gotUnits, left := s.needUnits }

theorem takePcn_greedy (askCap : Option ℚ) (rungs : List (Rung ℤ)) (s : Needed) :
    TakesGreedy rungs s.taken (takePcn askCap rungs s).taken := by
  induction rungs generalizing s with
  | nil => exact ⟨by simp [takePcn, bins, greedy], by simp [takePcn, bins, greedy],
      by simp [takePcn, bins, greedy]⟩
  | cons r rungs ih =>
    by_cases hleft : s.needUnits ≤ 0
    · rw [takePcn, if_pos hleft]
      exact .stop hleft
    · rw [takePcn, if_neg hleft]
      by_cases havail : availUnits r ≤ 0
      · exact if_pos havail ▸ .skip hleft havail (ih s)
      · rw [if_neg havail]
        exact .take hleft havail (ih { fills := _, gotUnits := _, cost := _, needUnits := _ })

/-! ### What the fills are -/

/-- What a rung has after the fills. -/
def leftOn (fills : List (Fill ℤ)) (r : Rung ℤ) : ℤ :=
  availUnits r - ((fills.filter (·.rungNo = r.rung_no)).map Fill.units).sum

/-- No rung has stock after the fills of a walk. -/
def NoStock (rungs : List (Rung ℤ)) (w : Walk ℤ) : Prop := ∀ r ∈ rungs, leftOn w.fills r ≤ 0

def sold (w : Walk ℤ) : ℤ := (w.fills.map Fill.units).sum

/-- The fills empty the rungs in their order, and are what is reported. -/
structure Allocated (rungs : List (Rung ℤ)) (w : Walk ℤ) : Prop where
  order : (w.fills.map Fill.rungNo).Sublist (rungs.map Rung.rung_no)
  once : (w.fills.map Fill.rungNo).Nodup
  range : ∀ f ∈ w.fills, ∃ r ∈ rungs, r.rung_no = f.rungNo ∧ 1 ≤ f.units ∧ f.units ≤ availUnits r
  before : ∀ pre r post f, rungs = pre ++ r :: post → w.fills.getLast? = some f →
    f.rungNo = r.rung_no → ∀ x ∈ pre, leftOn w.fills x ≤ 0
  sum : w.pcn = sold w / UNITS

/-- What is reported of the stock after a walk is so. -/
structure Tells (rungs : List (Rung ℤ)) (w : Walk ℤ) : Prop where
  exhausted : w.exhausted = true ↔ NoStock rungs w
  marginal : w.marginalAfter = none ↔ NoStock rungs w

theorem map_fst_bins {α : Type} [CommRing α] (rungs : List (Rung α)) :
    (bins rungs).map Prod.fst = rungs.map Rung.rung_no := by
  simp [bins]

theorem map_fst_pairs {α : Type} (fills : List (Fill α)) :
    (pairs fills).map Prod.fst = fills.map Fill.rungNo := by
  simp [pairs]

theorem total_pairs (w : Walk ℤ) : total (pairs w.fills) = sold w := by
  simp [total, pairs, sold, Function.comp_def]

theorem leftOn_eq (fills : List (Fill ℤ)) (r : Rung ℤ) :
    leftOn fills r = availUnits r - drawn (pairs fills) r.rung_no := by
  rw [leftOn, drawn, pairs, List.filter_map, List.map_map]
  rfl

variable {rungs : List (Rung ℤ)} {w : Walk ℤ} (hnodup : (rungs.map Rung.rung_no).Nodup)
include hnodup

theorem noStock_iff (h : Drains (bins rungs) (pairs w.fills)) :
    NoStock rungs w ↔ sold w = stock (bins rungs) := by
  rw [← total_pairs, ← h.left_iff (by rwa [map_fst_bins])]
  unfold NoStock bins
  rw [List.forall_mem_map]
  exact forall₂_congr fun r _ => by rw [leftOn_eq]

theorem allocated_of_drains (h : Drains (bins rungs) (pairs w.fills))
    (hpcn : w.pcn = satoshis.fromUnits (sold w)) : Allocated rungs w where
  order := by
    have hkeys := h.keys
    rwa [map_fst_bins, map_fst_pairs] at hkeys
  once := by
    have hkeys := h.keys
    rw [map_fst_bins, map_fst_pairs] at hkeys
    exact hkeys.nodup hnodup
  range := by
    intro f hf
    obtain ⟨b, hb, hkey, hpos, hle⟩ := h.mem _ (List.mem_map_of_mem hf)
    obtain ⟨r, hr, rfl⟩ := List.mem_map.mp hb
    exact ⟨r, hr, hkey, hpos, hle⟩
  before := by
    intro pre r post f hrungs hlast hkey x hx
    have hbins : bins rungs = bins pre ++ (r.rung_no, availUnits r) :: bins post := by
      simp [hrungs, bins]
    have hpair : (pairs w.fills).getLast? = some (f.rungNo, f.units) := by
      rw [pairs, List.getLast?_map, hlast]
      rfl
    have hbefore := h.before (by rwa [map_fst_bins]) hbins hpair hkey _ (List.mem_map_of_mem hx)
    rw [leftOn_eq]
    exact hbefore
  sum := hpcn

omit hnodup

/-! ### `finish` -/

theorem takenOf_eq {fills : List (Fill ℤ)} (h : (fills.map Fill.rungNo).Nodup) (rungNo : Nat) :
    takenOf fills rungNo = ((fills.filter (·.rungNo = rungNo)).map Fill.units).sum := by
  have hreverse : (fills.reverse.map Fill.rungNo).Nodup := by
    rw [List.map_reverse]
    exact List.nodup_reverse.mpr h
  unfold takenOf
  by_cases hmem : rungNo ∈ fills.map Fill.rungNo
  · obtain ⟨f, hf, rfl⟩ := List.mem_map.mp hmem
    have hfind : fills.reverse.find? (·.rungNo = f.rungNo) = some f :=
      table.find_eq_some hreverse (List.mem_reverse.mpr hf)
    rw [hfind, table.filter_key_of_mem h hf]
    simp
  · have hnone : fills.reverse.find? (·.rungNo = rungNo) = none := by
      rw [List.find?_eq_none]
      intro f hf hno
      exact hmem (List.mem_map.mpr ⟨f, List.mem_reverse.mp hf, of_decide_eq_true hno⟩)
    rw [hnone, table.filter_eq_nil hmem]
    rfl

theorem finish_tells {fills : List (Fill ℤ)} (h : (fills.map Fill.rungNo).Nodup) (gotUnits : ℤ)
    (cost usdLeft pcnShort : ℚ) (askCap : Option ℚ) :
    Tells rungs (finish rungs fills gotUnits cost usdLeft pcnShort askCap) := by
  have hnext : rungs.find? (fun r => 0 < availUnits r - takenOf fills r.rung_no) = none ↔
      ∀ r ∈ rungs, leftOn fills r ≤ 0 := by
    rw [List.find?_eq_none]
    refine forall₂_congr fun r _ => ?_
    rw [takenOf_eq h, decide_eq_true_eq, not_lt, leftOn]
  constructor
  · exact (Option.isNone_iff_eq_none.trans Option.map_eq_none_iff).trans hnext
  · exact Option.map_eq_none_iff.trans hnext

/-! ### `walkUsd` -/

/-- A price that leaves no money for one more unit. -/
def Dear (left price : ℚ) : Prop := left < price / UNITS

theorem units_pos : 0 < UNITS := by
  unfold UNITS
  positivity

theorem fromUnits_satoshis (u : ℤ) : satoshis.fromUnits u = u / UNITS := rfl

theorem fromUnits_le {u v : ℤ} (h : u ≤ v) : satoshis.fromUnits u ≤ satoshis.fromUnits v :=
  div_le_div_of_nonneg_right (Int.cast_le.mpr h) units_pos.le

theorem floor_le_zero_iff {left price : ℚ} (hprice : 0 < price) :
    ⌊left / price * UNITS⌋ ≤ 0 ↔ Dear left price := by
  rw [← Int.lt_add_one_iff, zero_add, Int.floor_lt, Dear, lt_div_iff₀ units_pos, Int.cast_one,
    div_mul_eq_mul_div, div_lt_one hprice]

/-- No money is left for one more unit of what is on sale. -/
def Stuck (askCap : Option ℚ) (rungs : List (Rung ℤ)) (fills : List (Fill ℤ)) (left : ℚ) : Prop :=
  ∀ r ∈ rungs, 0 < leftOn fills r → Dear left (capped askCap r.price)

theorem stuck_cons {askCap : Option ℚ} {r : Rung ℤ} {rungs : List (Rung ℤ)} {fills : List (Fill ℤ)}
    {left : ℚ} : Stuck askCap (r :: rungs) fills left ↔
      (0 < leftOn fills r → Dear left (capped askCap r.price)) ∧ Stuck askCap rungs fills left :=
  List.forall_mem_cons

/-- What `walkUsd` has bought of the rungs. -/
structure Spends (askCap : Option ℚ) (rungs : List (Rung ℤ)) (s t : Spent) (new : List (Fill ℤ)) :
    Prop where
  fills : t.fills = s.fills ++ new
  drains : Drains (bins rungs) (pairs new)
  got : t.gotUnits = s.gotUnits + (new.map Fill.units).sum
  money : t.cost + t.left = s.cost + s.left
  left : 0 ≤ s.left → 0 ≤ t.left
  unspent : s.left < 0 → t = s
  stuck : Stuck askCap rungs new t.left

theorem spendUsd_dear {askCap : Option ℚ} {rungs : List (Rung ℤ)} {s : Spent}
    (hpositive : ∀ r ∈ rungs, 0 < capped askCap r.price)
    (hdear : ∀ r ∈ rungs, Dear s.left (capped askCap r.price)) : spendUsd askCap rungs s = s := by
  induction rungs with
  | nil => rfl
  | cons r rungs ih =>
    rw [List.forall_mem_cons] at hpositive hdear
    have hwant := (floor_le_zero_iff hpositive.1).mpr hdear.1
    rw [spendUsd]
    dsimp only
    split
    · exact ih hpositive.2 hdear.2
    · rw [if_pos ((min_le_right _ _).trans hwant)]

theorem leftOn_of_not_mem {fills : List (Fill ℤ)} {r : Rung ℤ} (h : r.rung_no ∉ fills.map Fill.rungNo) :
    leftOn fills r = availUnits r := by
  rw [leftOn, table.filter_eq_nil h]
  simp

theorem leftOn_cons_self {f : Fill ℤ} {r : Rung ℤ} (hno : f.rungNo = r.rung_no) (fills : List (Fill ℤ)) :
    leftOn (f :: fills) r = leftOn fills r - f.units := by
  simp [leftOn, hno]
  ring

theorem leftOn_cons_of_ne {f : Fill ℤ} {r : Rung ℤ} (hno : f.rungNo ≠ r.rung_no) (fills : List (Fill ℤ)) :
    leftOn (f :: fills) r = leftOn fills r := by
  simp [leftOn, hno]

/-- Each rung is a rung of its own, of a positive price that no later rung goes below. -/
structure Ladder (askCap : Option ℚ) (rungs : List (Rung ℤ)) : Prop where
  rung_nos : (rungs.map Rung.rung_no).Nodup
  positive : ∀ r ∈ rungs, 0 < capped askCap r.price
  rising : rungs.Pairwise fun r x => capped askCap r.price ≤ capped askCap x.price

theorem spendUsd_spends {askCap : Option ℚ} (h : Ladder askCap rungs) (s : Spent) :
    ∃ new, Spends askCap rungs s (spendUsd askCap rungs s) new := by
  induction rungs generalizing s with
  | nil => exact ⟨[], by simp [spendUsd], .stop _, by simp [spendUsd], rfl, id, fun _ => rfl, nofun⟩
  | cons r rungs ih =>
    obtain ⟨hnos, hpositive, hrising⟩ := h
    rw [List.map_cons, List.nodup_cons] at hnos
    rw [List.forall_mem_cons] at hpositive
    rw [List.pairwise_cons] at hrising
    have hladder : Ladder askCap rungs := ⟨hnos.2, hpositive.2, hrising.2⟩
    have hfirst : ∀ new : List (Fill ℤ), Drains (bins rungs) (pairs new) → leftOn new r = availUnits r := by
      intro new hdrains
      apply leftOn_of_not_mem
      have hkeys := hdrains.keys
      rw [map_fst_bins, map_fst_pairs] at hkeys
      exact fun hmem => hnos.1 (hkeys.subset hmem)
    rw [spendUsd]
    dsimp only
    by_cases havail : availUnits r ≤ 0
    · rw [if_pos havail]
      obtain ⟨new, hfills, hdrains, hgot, hmoney, hleft, hunspent, hstuck⟩ := ih hladder s
      refine ⟨new, hfills, .skip havail hdrains, hgot, hmoney, hleft, hunspent, ?_⟩
      apply stuck_cons.mpr
      refine ⟨fun hpos => ?_, hstuck⟩
      rw [hfirst new hdrains] at hpos
      omega
    rw [if_neg havail]
    have hlater : ∀ {left : ℚ}, Dear left (capped askCap r.price) →
        ∀ x ∈ rungs, Dear left (capped askCap x.price) := fun hdear x hx =>
      hdear.trans_le (div_le_div_of_nonneg_right (hrising.1 x hx) units_pos.le)
    have hfloor : ⌊s.left / capped askCap r.price * UNITS⌋ ≤ 0 ↔ Dear s.left (capped askCap r.price) :=
      floor_le_zero_iff hpositive.1
    generalize hwant : ⌊s.left / capped askCap r.price * UNITS⌋ = want at hfloor ⊢
    by_cases htake : min (availUnits r) want ≤ 0
    · rw [if_pos htake]
      have hdear : Dear s.left (capped askCap r.price) := hfloor.mp (by omega)
      refine ⟨[], by simp, .stop _, by simp, rfl, id, fun _ => rfl, ?_⟩
      apply stuck_cons.mpr
      exact ⟨fun _ => hdear, fun x hx _ => hlater hdear x hx⟩
    rw [if_neg htake]
    have hwantPos : 0 < want := by omega
    have hpay : satoshis.fromUnits want * capped askCap r.price ≤ s.left := by
      have hle := Int.floor_le (s.left / capped askCap r.price * UNITS)
      rw [hwant, ← div_le_iff₀ units_pos, le_div_iff₀ hpositive.1] at hle
      exact hle
    have hmoneyPos : 0 < s.left := by
      have hunits : 0 < satoshis.fromUnits want := div_pos (Int.cast_pos.mpr hwantPos) units_pos
      exact (mul_pos hunits hpositive.1).trans_le hpay
    have hno : ∀ x ∈ rungs, r.rung_no ≠ x.rung_no := fun x hx heq =>
      hnos.1 (heq ▸ List.mem_map_of_mem hx)
    obtain hwhole | hpart := le_or_gt (availUnits r) want
    · -- the rung is emptied, and the rest of the money goes on
      rw [min_eq_left hwhole]
      obtain ⟨new, hfills, hdrains, hgot, hmoney, hleft, -, hstuck⟩ := ih hladder
        { fills := s.fills ++ [⟨r.rung_no, availUnits r, capped askCap r.price⟩]
          gotUnits := s.gotUnits + availUnits r
          cost := s.cost + satoshis.fromUnits (availUnits r) * capped askCap r.price
          left := s.left - satoshis.fromUnits (availUnits r) * capped askCap r.price }
      refine ⟨⟨r.rung_no, availUnits r, capped askCap r.price⟩ :: new, ?_, ?_, ?_, ?_, ?_, ?_, ?_⟩
      · rw [hfills, List.append_assoc]
        rfl
      · exact .whole (not_le.mp havail) hdrains
      · rw [hgot, List.map_cons, List.sum_cons, add_assoc]
      · rw [hmoney]
        ring
      · intro _
        apply hleft
        have hless : satoshis.fromUnits (availUnits r) * capped askCap r.price ≤
            satoshis.fromUnits want * capped askCap r.price :=
          mul_le_mul_of_nonneg_right (fromUnits_le hwhole) hpositive.1.le
        exact sub_nonneg.mpr (hless.trans hpay)
      · exact fun hneg => absurd hneg hmoneyPos.not_gt
      · apply stuck_cons.mpr
        constructor
        · intro hpos
          rw [leftOn_cons_self rfl, hfirst new hdrains, sub_self] at hpos
          exact absurd hpos (lt_irrefl 0)
        · intro x hx hpos
          rw [leftOn_cons_of_ne (hno x hx)] at hpos
          exact hstuck x hx hpos
    · -- the money that is left buys no unit, here or at any later price
      rw [min_eq_right hpart.le]
      have hdear : Dear (s.left - satoshis.fromUnits want * capped askCap r.price)
          (capped askCap r.price) := by
        have hlt := Int.lt_floor_add_one (s.left / capped askCap r.price * UNITS)
        rw [hwant, ← lt_div_iff₀ units_pos, div_lt_iff₀ hpositive.1] at hlt
        have hone : (want + 1 : ℚ) / UNITS * capped askCap r.price =
            want / UNITS * capped askCap r.price + capped askCap r.price / UNITS := by
          ring
        rw [Dear, fromUnits_satoshis]
        linarith
      rw [spendUsd_dear hpositive.2 (hlater hdear)]
      refine ⟨[⟨r.rung_no, want, capped askCap r.price⟩], rfl, .part hwantPos hpart, ?_, ?_, ?_, ?_, ?_⟩
      · simp
      · dsimp only
        ring
      · exact fun _ => sub_nonneg.mpr hpay
      · exact fun hneg => absurd hneg hmoneyPos.not_gt
      · exact stuck_cons.mpr ⟨fun _ => hdear, fun x hx _ => hlater hdear x hx⟩

/-! ### The walks -/

/-- What holds of a walk that wants so many units, for no more than the money named. -/
structure ByUnits (rungs : List (Rung ℤ)) (wanted : ℤ) (usd : Option ℚ) (w : Walk ℤ) : Prop where
  allocated : Allocated rungs w
  short : sold w < wanted → NoStock rungs w
  money : ∀ u ∈ usd, w.cost ≤ u

/-- What holds of a walk that spends money on units at the prices of the rungs. -/
structure ByMoney (rungs : List (Rung ℤ)) (w : Walk ℤ) : Prop where
  allocated : Allocated rungs w
  spent : ∀ price ∈ w.marginalAfter, price / UNITS ≤ w.usdUnfilled → NoStock rungs w

theorem sold_greedy {wanted : ℤ} (h : pairs w.fills = greedy wanted (bins rungs)) :
    sold w = min (max wanted 0) (stock (bins rungs)) := by
  rw [← total_pairs, h, total_greedy]

theorem drains_greedy {wanted : ℤ} (h : pairs w.fills = greedy wanted (bins rungs)) :
    Drains (bins rungs) (pairs w.fills) :=
  h ▸ greedy_drains wanted (bins rungs)

theorem got_eq (rungs : List (Rung ℤ)) (wanted : ℤ) : got rungs wanted = min (max wanted 0) (stock (bins rungs)) :=
  total_greedy wanted (bins rungs)

theorem short_greedy (hnodup : (rungs.map Rung.rung_no).Nodup) {wanted : ℤ}
    (h : pairs w.fills = greedy wanted (bins rungs)) (hshort : sold w < wanted) : NoStock rungs w := by
  rw [noStock_iff hnodup (drains_greedy h)]
  rw [sold_greedy h] at hshort ⊢
  omega

theorem walkPcn_byUnits (hnodup : (rungs.map Rung.rung_no).Nodup) (pcn : ℚ) (askCap : Option ℚ) :
    ByUnits rungs (satoshis.toUnits pcn) none (walkPcn rungs pcn askCap) ∧
      Tells rungs (walkPcn rungs pcn askCap) := by
  have hgreedy := takePcn_greedy askCap rungs { needUnits := satoshis.toUnits pcn }
  have hfills : pairs (walkPcn rungs pcn askCap).fills =
      greedy (satoshis.toUnits pcn) (bins rungs) := hgreedy.fills
  have hpcn : (walkPcn rungs pcn askCap).pcn =
      satoshis.fromUnits (sold (walkPcn rungs pcn askCap)) := by
    have hgot : (takePcn askCap rungs { needUnits := satoshis.toUnits pcn }).gotUnits =
        0 + total (greedy (satoshis.toUnits pcn) (bins rungs)) := hgreedy.got
    rw [← total_pairs, hfills, ← zero_add (total _), ← hgot]
    rfl
  have hallocated := allocated_of_drains hnodup (drains_greedy hfills) hpcn
  exact ⟨⟨hallocated, short_greedy hnodup hfills, nofun⟩, finish_tells hallocated.once _ _ _ _ _⟩

theorem walkUsd_byMoney {askCap : Option ℚ} (h : Ladder askCap rungs) (usd : ℚ) :
    ByMoney rungs (walkUsd rungs usd askCap) ∧ Tells rungs (walkUsd rungs usd askCap) ∧
      ((walkUsd rungs usd askCap).cost ≤ usd ↔ 0 ≤ usd) := by
  obtain ⟨new, hfills, hdrains, hgot, hmoney, hleft, hunspent, hstuck⟩ :=
    spendUsd_spends h { left := usd }
  have hnew : (walkUsd rungs usd askCap).fills = new := hfills
  have hcost : (walkUsd rungs usd askCap).cost + (walkUsd rungs usd askCap).usdUnfilled = usd :=
    hmoney.trans (zero_add usd)
  have hpcn : (walkUsd rungs usd askCap).pcn =
      satoshis.fromUnits (sold (walkUsd rungs usd askCap)) := by
    rw [sold, hnew, ← zero_add (new.map Fill.units).sum, ← hgot]
    rfl
  have hallocated := allocated_of_drains h.rung_nos (hnew ▸ hdrains) hpcn
  refine ⟨⟨hallocated, fun price hprice hle => ?_⟩, finish_tells hallocated.once _ _ _ _ _, ?_⟩
  · obtain ⟨r, hr, rfl⟩ := Option.map_eq_some_iff.mp hprice
    have hstock := List.find?_some hr
    rw [decide_eq_true_eq, hfills, takenOf_eq (hnew ▸ hallocated.once)] at hstock
    have hdear := hstuck r (List.mem_of_find?_eq_some hr) hstock
    exact absurd hle hdear.not_ge
  · constructor
    · intro hcosts
      by_contra hneg
      rw [not_le] at hneg
      have hzero : (walkUsd rungs usd askCap).cost = 0 := congrArg Spent.cost (hunspent hneg)
      rw [hzero] at hcosts
      exact absurd hneg hcosts.not_gt
    · intro hnonneg
      have hrest : 0 ≤ (walkUsd rungs usd askCap).usdUnfilled := hleft hnonneg
      linarith

/-- What `flatWalk` returns for the units wanted. -/
structure FlatSpec (rungs : List (Rung ℤ)) (req : Request) (unitPrice : ℚ) (wanted : ℤ) (w : Walk ℤ) :
    Prop where
  fills : pairs w.fills = greedy wanted (bins rungs)
  pcn : w.pcn = satoshis.fromUnits (got rungs wanted)
  cost : w.cost = match req.usd with
    | some usd =>
      if wanted - got rungs wanted ≤ 0 ∧ 0 < got rungs wanted then usd
      else satoshis.fromUnits (got rungs wanted) * unitPrice
    | none => satoshis.fromUnits (got rungs wanted) * unitPrice
  exhausted : w.exhausted = decide (remUnits rungs - got rungs wanted ≤ 0)
  marginalAfter : w.marginalAfter = if w.exhausted then none else some unitPrice

theorem flatWalk_spec {req : Request} {unitPrice : ℚ} (h : flatWalk rungs req unitPrice = some w) :
    ∃ wanted, flatWant req unitPrice = some wanted ∧ FlatSpec rungs req unitPrice wanted w := by
  obtain ⟨wanted, hwant, h⟩ := Option.bind_eq_some_iff.mp h
  obtain rfl := Option.some.inj h
  obtain ⟨hfills, hgot, hleft⟩ := takeUnits_greedy unitPrice rungs { gotUnits := 0, left := wanted }
  rw [zero_add] at hgot
  refine ⟨wanted, hwant, ?_⟩
  rw [hgot, hleft]
  exact ⟨hfills, rfl, rfl, rfl, rfl⟩

theorem sold_eq_got {wanted : ℤ} (h : pairs w.fills = greedy wanted (bins rungs)) :
    sold w = got rungs wanted := by
  rw [sold_greedy h, got_eq]

/-- Money buys no more units than it pays for. -/
theorem flatWant_usd {req : Request} {unitPrice usd : ℚ} {wanted : ℤ} (husd : req.usd = some usd)
    (h : flatWant req unitPrice = some wanted) :
    0 < unitPrice ∧ 0 < usd ∧ satoshis.fromUnits wanted * unitPrice ≤ usd := by
  obtain ⟨_, hprice, h⟩ := Option.bind_eq_some_iff.mp h
  have hprice : 0 < unitPrice := (Option.guard_eq_some' _).mp hprice
  rw [husd] at h
  dsimp only at h
  split at h
  · rename_i hpos
    obtain rfl := Option.some.inj h
    have hle := Int.floor_le (usd / unitPrice * UNITS)
    rw [← div_le_iff₀ units_pos, le_div_iff₀ hprice] at hle
    exact ⟨hprice, hpos, hle⟩
  · cases h

theorem flatWalk_byUnits (hnodup : (rungs.map Rung.rung_no).Nodup) {req : Request} {unitPrice : ℚ}
    {wanted : ℤ} (hwant : flatWant req unitPrice = some wanted)
    (h : flatWalk rungs req unitPrice = some w) : ByUnits rungs wanted req.usd w ∧ Tells rungs w := by
  obtain ⟨wanted', hwant', hspec⟩ := flatWalk_spec h
  obtain rfl := Option.some.inj (hwant.symm.trans hwant')
  have hdrains := drains_greedy hspec.fills
  have hsold := sold_eq_got hspec.fills
  have hallocated := allocated_of_drains hnodup hdrains (hsold ▸ hspec.pcn)
  have htells : w.exhausted = true ↔ NoStock rungs w := by
    have hle := hdrains.total_le_stock
    rw [total_pairs] at hle
    rw [noStock_iff hnodup hdrains, hspec.exhausted, decide_eq_true_eq, remUnits_eq, ← hsold]
    omega
  refine ⟨⟨hallocated, short_greedy hnodup hspec.fills, fun usd husd => ?_⟩, htells, ?_⟩
  · obtain ⟨hprice, hpos, hpays⟩ := flatWant_usd husd hwant
    rw [hspec.cost, show req.usd = some usd from husd]
    dsimp only
    split
    · exact le_refl usd
    · -- what is allocated is paid at the price, and is no more than was wanted
      rw [got_eq]
      obtain hneg | hnonneg := le_total wanted 0
      · have hstock := stock_nonneg (bins rungs)
        rw [max_eq_right hneg, min_eq_left hstock, fromUnits_satoshis, Int.cast_zero, zero_div, zero_mul]
        exact hpos.le
      · have hless : satoshis.fromUnits (min (max wanted 0) (stock (bins rungs))) ≤
            satoshis.fromUnits wanted :=
          fromUnits_le ((min_le_left _ _).trans (max_eq_left hnonneg).le)
        exact (mul_le_mul_of_nonneg_right hless hprice.le).trans hpays
  · rw [hspec.marginalAfter, ← htells]
    cases w.exhausted <;> simp

/-- The units that `ammWalk` is asked for: the coins named, or what the money buys on the curve and at
the floor. -/
def ammWanted (rungs : List (Rung ℤ)) (req : Request) (k virt floor : ℚ) : ℤ :=
  satoshis.toUnits (coinsOf (satoshis.fromUnits (remUnits rungs) + virt) k floor req)

section

variable {req : Request} {k virt floor : ℚ}

theorem ammWalk_byUnits (hnodup : (rungs.map Rung.rung_no).Nodup) (hvirt : 0 ≤ virt)
    (h : ammWalk satoshis rungs req k virt floor = some w) :
    ByUnits rungs (ammWanted rungs req k virt floor) req.usd w := by
  obtain ⟨wantPcn, cost, hprice, hspec⟩ := ammWalk_spec h
  have hpriced := ammPrice_priced hvirt hprice
  rw [ammWanted, ← hpriced.coins]
  have hgot := got_eq rungs (satoshis.toUnits wantPcn)
  have hstock := stock_nonneg (bins rungs)
  have hallocated := allocated_of_drains hnodup (drains_greedy hspec.fills)
    (sold_eq_got hspec.fills ▸ hspec.pcn)
  refine ⟨hallocated, short_greedy hnodup hspec.fills, fun usd husd => ?_⟩
  have hcost := hpriced.money_pos
  have hnamed : cost = usd := by
    rw [hpriced.money, moneyOf, show req.usd = some usd from husd]
  rw [hspec.cost, ← hnamed]
  split
  · rename_i hshort
    have hwant : 0 < satoshis.toUnits wantPcn := by omega
    have hle : got rungs (satoshis.toUnits wantPcn) ≤ satoshis.toUnits wantPcn := by omega
    rw [orOne, if_neg hwant.ne']
    have hratio : satoshis.num (got rungs (satoshis.toUnits wantPcn)) /
        satoshis.num (satoshis.toUnits wantPcn) ≤ 1 :=
      (div_le_one (Int.cast_pos.mpr hwant)).mpr (Int.cast_le.mpr hle)
    exact mul_le_of_le_one_right hcost.le hratio
  · exact le_refl cost

/-- With a virtual reserve the curve is never exhausted, and so it has to leave some stock. -/
theorem ammWalk_tells_iff (hnodup : (rungs.map Rung.rung_no).Nodup) (hvirt : 0 ≤ virt)
    (h : ammWalk satoshis rungs req k virt floor = some w) :
    Tells rungs w ↔ virt = 0 ∨ ammWanted rungs req k virt floor < remUnits rungs := by
  obtain ⟨wantPcn, cost, hprice, hspec⟩ := ammWalk_spec h
  have hpriced := ammPrice_priced hvirt hprice
  rw [ammWanted, ← hpriced.coins]
  have hdrains := drains_greedy hspec.fills
  have hsold := sold_eq_got hspec.fills
  have hgot := got_eq rungs (satoshis.toUnits wantPcn)
  have hempty : satoshis.fromUnits (remUnits rungs) + virt - w.pcn ≤ 0 ↔
      virt = 0 ∧ sold w = stock (bins rungs) := by
    have hless : satoshis.fromUnits (got rungs (satoshis.toUnits wantPcn)) ≤
        satoshis.fromUnits (remUnits rungs) := by
      rw [remUnits_eq]
      exact fromUnits_le (by omega)
    rw [hspec.pcn, hsold]
    constructor
    · intro hle
      refine ⟨by linarith, ?_⟩
      have hsame : satoshis.fromUnits (got rungs (satoshis.toUnits wantPcn)) =
          satoshis.fromUnits (remUnits rungs) := by linarith
      rw [fromUnits_satoshis, fromUnits_satoshis, div_left_inj' units_pos.ne', Int.cast_inj] at hsame
      rw [hsame, remUnits_eq]
    · rintro ⟨rfl, hall⟩
      rw [hall, remUnits_eq]
      simp
  have hexhausted : w.exhausted = true ↔ virt = 0 ∧ sold w = stock (bins rungs) := by
    rw [hspec.exhausted, decide_eq_true_eq, hempty]
  have hmarginal : w.marginalAfter = none ↔ virt = 0 ∧ sold w = stock (bins rungs) := by
    rw [hspec.marginalAfter, ← hempty]
    dsimp only
    rw [Option.map_eq_none_iff, ← not_lt]
    split <;> simp_all
  have hpositive : 0 < stock (bins rungs) := by
    have hrem := hpriced.stock
    rw [remUnits_eq] at hrem
    exact Int.cast_pos.mp ((div_pos_iff_of_pos_right units_pos).mp hrem)
  rw [remUnits_eq]
  constructor
  · intro htells
    by_contra hnot
    push Not at hnot
    have hall : sold w = stock (bins rungs) := by
      rw [hsold, hgot]
      omega
    have hno := (noStock_iff hnodup hdrains).mpr hall
    exact hnot.1 (hexhausted.mp (htells.exhausted.mpr hno)).1
  · intro hcond
    have hiff : virt = 0 ∧ sold w = stock (bins rungs) ↔ NoStock rungs w := by
      rw [noStock_iff hnodup hdrains]
      refine and_iff_right_of_imp fun hall => hcond.resolve_right ?_
      rw [hsold, hgot] at hall
      omega
    exact ⟨hexhausted.trans hiff, hmarginal.trans hiff⟩

end

/-- The walks that want a number of units. -/
inductive WalkFor (rungs : List (Rung ℤ)) : ℤ → Walk ℤ → Prop
  | amm {req : Request} {k virt floor : ℚ} {w : Walk ℤ} (hvirt : 0 ≤ virt)
    (h : ammWalk satoshis rungs req k virt floor = some w) :
    WalkFor rungs (ammWanted rungs req k virt floor) w
  | flat {req : Request} {unitPrice : ℚ} {wanted : ℤ} {w : Walk ℤ}
    (hwant : flatWant req unitPrice = some wanted) (h : flatWalk rungs req unitPrice = some w) :
    WalkFor rungs wanted w
  | pcn (pcn : ℚ) (askCap : Option ℚ) : WalkFor rungs (satoshis.toUnits pcn) (walkPcn rungs pcn askCap)

theorem WalkFor.fills {wanted : ℤ} (h : WalkFor rungs wanted w) :
    pairs w.fills = greedy wanted (bins rungs) := by
  cases h with
  | amm hvirt h =>
    obtain ⟨wantPcn, cost, hprice, hspec⟩ := ammWalk_spec h
    rw [ammWanted, ← (ammPrice_priced hvirt hprice).coins]
    exact hspec.fills
  | flat hwant h =>
    obtain ⟨_, hwant', hspec⟩ := flatWalk_spec h
    obtain rfl := Option.some.inj (hwant.symm.trans hwant')
    exact hspec.fills
  | pcn pcn askCap => exact (takePcn_greedy askCap rungs { needUnits := satoshis.toUnits pcn }).fills

theorem ladder_of_prices (hnodup : (rungs.map Rung.rung_no).Nodup) (hpositive : ∀ r ∈ rungs, 0 < r.price)
    (hrising : rungs.Pairwise fun r x => r.price ≤ x.price) {askCap : Option ℚ}
    (hcap : ∀ cap ∈ askCap, 0 < cap) : Ladder askCap rungs := by
  cases askCap with
  | none => exact ⟨hnodup, hpositive, hrising⟩
  | some cap =>
    exact ⟨hnodup, fun r hr => lt_min (hpositive r hr) (hcap cap rfl),
      hrising.imp fun hle => min_le_min_right cap hle⟩

/-- The walks allocate alike, and tell what is left but for the curve over a virtual reserve when all
of the stock is wanted. -/
theorem walks_alike (hnodup : (rungs.map Rung.rung_no).Nodup) (hpositive : ∀ r ∈ rungs, 0 < r.price)
    (hrising : rungs.Pairwise fun r x => r.price ≤ x.price) :
    (∀ (req : Request) (k virt floor : ℚ) (w : Walk ℤ), 0 ≤ virt →
      ammWalk satoshis rungs req k virt floor = some w →
      ByUnits rungs (ammWanted rungs req k virt floor) req.usd w ∧
        (Tells rungs w ↔ virt = 0 ∨ ammWanted rungs req k virt floor < remUnits rungs)) ∧
    (∀ (req : Request) (unitPrice : ℚ) (wanted : ℤ) (w : Walk ℤ),
      flatWant req unitPrice = some wanted → flatWalk rungs req unitPrice = some w →
      ByUnits rungs wanted req.usd w ∧ Tells rungs w) ∧
    (∀ (pcn : ℚ) (askCap : Option ℚ),
      ByUnits rungs (satoshis.toUnits pcn) none (walkPcn rungs pcn askCap) ∧
        Tells rungs (walkPcn rungs pcn askCap)) ∧
    (∀ (usd : ℚ) (askCap : Option ℚ), (∀ cap ∈ askCap, 0 < cap) →
      ByMoney rungs (walkUsd rungs usd askCap) ∧ Tells rungs (walkUsd rungs usd askCap) ∧
        ((walkUsd rungs usd askCap).cost ≤ usd ↔ 0 ≤ usd)) ∧
    ∀ (wanted : ℤ) (w w' : Walk ℤ), WalkFor rungs wanted w → WalkFor rungs wanted w' →
      pairs w.fills = pairs w'.fills :=
  ⟨fun _ _ _ _ _ hvirt h => ⟨ammWalk_byUnits hnodup hvirt h, ammWalk_tells_iff hnodup hvirt h⟩,
    fun _ _ _ _ hwant h => flatWalk_byUnits hnodup hwant h, walkPcn_byUnits hnodup,
    fun usd _ hcap => walkUsd_byMoney (ladder_of_prices hnodup hpositive hrising hcap) usd,
    fun _ _ _ h h' => h.fills.trans h'.fills.symm⟩

namespace sample

def rung (no : Nat) (price : ℚ) (units : ℤ) : Rung ℤ := ⟨no, price, units, 0, 0, 0⟩

/-- Two coins, and a rung between them that is sold twice over. -/
def stocked : List (Rung ℤ) :=
  [rung 1 (15 / 1000) 100000000, ⟨2, 16 / 1000, 100000000, 100000000, 100000000, 0⟩,
    rung 3 (17 / 1000) 100000000]

end sample

/-- Three cents buy the first coin, and not all of the second. -/
theorem walkUsd_three_cents :
    ByMoney sample.stocked (walkUsd sample.stocked (3 / 100) none) ∧
      pairs (walkUsd sample.stocked (3 / 100) none).fills = [(1, 100000000), (3, 88235294)] := by
  refine ⟨?_, by decide +kernel⟩
  exact ((walks_alike (by decide) (by decide +kernel) (by decide +kernel)).2.2.2.1 (3 / 100) none
    nofun).1

/-- Both coins are sold, and the curve over one more coin does not say so. -/
theorem ammWalk_never_exhausted :
    ¬∀ (rungs : List (Rung ℤ)) (req : Request) (k virt floor : ℚ) (w : Walk ℤ),
      (rungs.map Rung.rung_no).Nodup → (∀ r ∈ rungs, 0 < r.price) →
      (rungs.Pairwise fun r x => r.price ≤ x.price) → 0 ≤ virt →
      ammWalk satoshis rungs req k virt floor = some w → Tells rungs w := by
  intro hall
  have hwalk : (ammWalk satoshis sample.stocked { pcn := some 2 } 1 1 0).map (fun w =>
      (pairs w.fills, w.exhausted)) = some ([(1, 100000000), (3, 100000000)], false) := by
    decide +kernel
  obtain ⟨w, hw, hsame⟩ := Option.map_eq_some_iff.mp hwalk
  obtain ⟨hfills, hexhausted⟩ := Prod.mk.inj hsame
  have htells := hall _ _ _ _ _ w (by decide) (by decide +kernel) (by decide +kernel) (by decide) hw
  have hno : NoStock sample.stocked w := by
    intro r hr
    rw [leftOn_eq, hfills]
    revert r
    decide +kernel
  rw [htells.exhausted.mpr hno] at hexhausted
  cases hexhausted

end pcoin.market.walk
