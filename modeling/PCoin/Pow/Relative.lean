import PCoin.Pow.Monotone
import PCoin.Pow.RuleChain

/-! The next target of mainnet against the average target of the window. -/

open pcoin.arith_uint256

namespace pcoin.pow

/-- The mean target of a window. -/
def averageTarget (w : List CBlockIndex) : ℚ := (w.map decodedTarget).sum / w.length

/-- `nBits` that `GetCompact` gives for the target they decode to. -/
def Canonical (nBits : UInt32) : Prop := getCompact (setCompact nBits).value false = some nBits

/-- The weight of the last place of the mantissa of `nBits`. -/
def ulp (nBits : UInt32) : Nat := 256 ^ (nBits.toNat / 2 ^ 24 - 3)

/-- Every solvetime is exactly `T`. -/
def OnTime (T : Nat) (w : List CBlockIndex) : Prop :=
  (w.map CBlockIndex.getBlockTime).IsChain fun x y : Int => y = x + T

theorem two_mul_weightedSum_onTime {T ST : Nat} (hle : T ≤ ST) (i : Nat) (prev : Int) {xs : List Int}
    (h : (prev :: xs).IsChain fun x y : Int => y = x + T) :
    2 * weightedSum ST i prev xs = T * (xs.length * (2 * i + xs.length - 1)) := by
  induction xs generalizing i prev with
  | nil => simp [weightedSum]
  | cons x xs ih =>
    obtain ⟨rfl, hrest⟩ := List.isChain_cons_cons.mp h
    have hmax : max (prev + T) prev = prev + T := by omega
    have hmin : min (ST : Int) (prev + T - prev) = T := by omega
    have htail := ih (i + 1) (prev + T) hrest
    simp only [weightedSum, hmax, hmin, List.length_cons]
    push_cast at htail ⊢
    linarith

/-- Every solvetime on time: the weighted sum is `k`. -/
theorem weightedSum_onTime {N T ST : Nat} (hle : T ≤ ST) {w0 : CBlockIndex} {w : List CBlockIndex}
    (hlen : w.length = N) (h : OnTime T (w0 :: w)) :
    weightedSum ST 1 w0.getBlockTime (w.map CBlockIndex.getBlockTime) = lwmaK N T := by
  have hsum := two_mul_weightedSum_onTime hle 1 w0.getBlockTime h
  have hk := two_mul_lwmaK N T
  rw [List.length_map, hlen] at hsum
  zify at hk
  push_cast at hsum
  linarith

theorem targetSum_const {denom : Nat} {nBits : UInt32} {w : List CBlockIndex}
    (h : ∀ q ∈ w, q.nBits = nBits) : targetSum denom w = w.length * (decoded nBits / denom) := by
  have hmap : (w.map fun q => lwma_ref.set_compact q.nBits.toNat / denom) =
      List.replicate w.length (decoded nBits / denom) := by
    rw [List.eq_replicate_iff]
    refine ⟨List.length_map _, fun x hx => ?_⟩
    obtain ⟨q, hq, rfl⟩ := List.mem_map.mp hx
    rw [h q hq, decoded, toNat_setCompact]
  rw [targetSum, hmap, List.sum_replicate, smul_eq_mul]

/-- A canonical target is its mantissa in units of the last place. -/
theorem decoded_canonical {nBits : UInt32} (hcanon : Canonical nBits) (hpos : 0 < decoded nBits)
    (hulp : 1 < ulp nBits) : ∃ m, m < 2 ^ 23 ∧ decoded nBits = m * ulp nBits := by
  obtain ⟨r, hr, hval⟩ := getCompact_eq (setCompact nBits).value
  obtain rfl : r = nBits := Option.some.inj (hr.symm.trans hcanon)
  obtain ⟨m, e, j, hc, _, hm, _, _, _, _, hdec⟩ :=
    lwma_ref.get_compact_spec hpos (setCompact r).value.toNat_lt
  have he : r.toNat / 2 ^ 24 = e := by
    have := hval.trans hc
    omega
  have hword : r.toNat % 2 ^ 23 = m := by
    have := hval.trans hc
    omega
  have hexp : 3 < e := by
    by_contra hsmall
    rw [ulp, he, Nat.sub_eq_zero_of_le (by omega), pow_zero] at hulp
    omega
  rw [if_neg (by omega)] at hdec
  have hfit : m * 256 ^ (e - 3) < 2 ^ 256 :=
    hdec ▸ (Nat.div_mul_le_self _ _).trans_lt (setCompact r).value.toNat_lt
  refine ⟨m, hm, ?_⟩
  rw [decoded, toNat_setCompact, lwma_ref.set_compact_eq, he, hword, if_neg (by omega), ulp, he,
    Nat.mod_eq_of_lt hfit]

/-- What the roundings of the rule leave of a window: the compact encoding of the
exact target is below it by less than one part in `2 ^ 15`. -/
theorem decoded_bounds {target : Nat} {nBits : UInt32} (hpos : 0 < target)
    (hfit : target < 2 ^ 256) (h : nBits.toNat = lwma_ref.get_compact target) :
    decoded nBits ≤ target ∧ 2 ^ 15 * target < (2 ^ 15 + 1) * decoded nBits := by
  rw [decoded, toNat_setCompact, h]
  exact ⟨lwma_ref.set_compact_get_compact_le hpos hfit,
    lwma_ref.lt_set_compact_get_compact hpos hfit⟩

namespace Params.LwmaSane

variable {params : Params} {N T ST : Nat} (hs : params.LwmaSane N T ST) {w0 : CBlockIndex}
  {w : List CBlockIndex} (hlen : w.length = N)

include hs hlen

/-- The target over the integers is at most `ST / T` times the average. -/
theorem lwmaTarget_le_average {limit : Nat} (hlimit : 0 < limit)
    (hpos : ∀ q ∈ w, 0 < decodedTarget q) :
    lwmaTarget limit N T ST w0 w ≤ limit ∧
      (lwmaTarget limit N T ST w0 w : ℚ) ≤ (ST / T : Nat) * averageTarget w := by
  obtain ⟨t, ht, htpos, htle⟩ := hs.clamped_bounds w0.getBlockTime
    (show (w.map CBlockIndex.getBlockTime).length = N by simpa using hlen)
  have hsum := (targetSum_bounds (lwmaK N T * N) hs.denom_pos w).1
  have hcard := List.card_nsmul_le_sum (w.map decodedTarget) 1 (by
    intro target htarget
    obtain ⟨q, hq, rfl⟩ := List.mem_map.mp htarget
    exact hpos q hq)
  rw [List.length_map, hlen, smul_eq_mul, mul_one] at hcard
  have hratio : 1 ≤ ST / T := (Nat.one_le_div_iff hs.T_pos).mpr hs.le
  have hk : 0 < lwmaK N T := by have := hs.k_ge; omega
  have hproduct : N * (targetSum (lwmaK N T * N) w * t) ≤ ST / T * (w.map decodedTarget).sum := by
    calc N * (targetSum (lwmaK N T * N) w * t)
        ≤ N * (targetSum (lwmaK N T * N) w * (ST / T * lwmaK N T)) :=
          Nat.mul_le_mul_left _ (Nat.mul_le_mul_left _ htle)
      _ = ST / T * (targetSum (lwmaK N T * N) w * (lwmaK N T * N)) := by ring
      _ ≤ ST / T * (w.map decodedTarget).sum := Nat.mul_le_mul_left _ hsum
  have hmax : N * max 1 (min limit (targetSum (lwmaK N T * N) w * t)) ≤
      ST / T * (w.map decodedTarget).sum := by
    rw [← Nat.mul_max_mul_left, max_le_iff, mul_one]
    exact ⟨hcard.trans (Nat.le_mul_of_pos_left _ hratio),
      (Nat.mul_le_mul_left N (min_le_right _ _)).trans hproduct⟩
  rw [lwmaTarget, ht, Int.toNat_natCast]
  refine ⟨max_le hlimit (min_le_left _ _), ?_⟩
  have hN : (0 : ℚ) < N := Nat.cast_pos.mpr hs.N_pos
  rw [averageTarget, hlen, mul_div_assoc', le_div_iff₀ hN, mul_comm]
  exact_mod_cast hmax

/-- The target over the integers is at least a third of the average, less what the
divisions lose. -/
theorem average_le_lwmaTarget (limit : Nat) (hthird : 3 ∣ lwmaK N T) :
    min (limit : ℚ) (averageTarget w / 3 - N * lwmaK N T / 3) ≤ lwmaTarget limit N T ST w0 w := by
  obtain ⟨t, ht, htpos, htle⟩ := hs.clamped_bounds w0.getBlockTime
    (show (w.map CBlockIndex.getBlockTime).length = N by simpa using hlen)
  have hsum := (targetSum_bounds (lwmaK N T * N) hs.denom_pos w).2
  have hlow : lwmaK N T / 3 ≤ t := by omega
  have hN : (0 : ℚ) < N := Nat.cast_pos.mpr hs.N_pos
  have hk : lwmaK N T / 3 * 3 = lwmaK N T := Nat.div_mul_cancel hthird
  have hproduct : averageTarget w / 3 - N * lwmaK N T / 3 ≤
      (targetSum (lwmaK N T * N) w * t : Nat) := by
    have hscaled : (w.map decodedTarget).sum ≤
        3 * N * (targetSum (lwmaK N T * N) w * t) + N * (N * lwmaK N T) := by
      calc (w.map decodedTarget).sum
          ≤ targetSum (lwmaK N T * N) w * (lwmaK N T * N) + w.length * (lwmaK N T * N) := hsum
        _ = 3 * N * (targetSum (lwmaK N T * N) w * (lwmaK N T / 3)) + N * (N * lwmaK N T) := by
          rw [hlen]
          nth_rewrite 2 [← hk]
          ring
        _ ≤ 3 * N * (targetSum (lwmaK N T * N) w * t) + N * (N * lwmaK N T) :=
          Nat.add_le_add_right (Nat.mul_le_mul_left _ (Nat.mul_le_mul_left _ hlow)) _
    have hcast : ((w.map decodedTarget).sum : ℚ) ≤
        3 * N * (targetSum (lwmaK N T * N) w * t : Nat) + N * (N * lwmaK N T) := by
      exact_mod_cast hscaled
    have haverage : averageTarget w ≤ 3 * (targetSum (lwmaK N T * N) w * t : Nat) + N * lwmaK N T := by
      rw [averageTarget, hlen, div_le_iff₀ hN]
      linarith
    linarith
  rw [lwmaTarget, ht, Int.toNat_natCast]
  push_cast at hproduct ⊢
  exact (min_le_min_left _ hproduct).trans (le_max_right _ _)

/-- All targets equal and every solvetime on time: the target over the integers is
the common one, less what the divisions lose. -/
theorem lwmaTarget_steady {limit : Nat} {nBits : UInt32} (hbits : ∀ q ∈ w, q.nBits = nBits)
    (htimes : OnTime T (w0 :: w)) (hpos : 0 < decoded nBits) (hlimit : decoded nBits ≤ limit) :
    lwmaTarget limit N T ST w0 w ≤ decoded nBits ∧
      decoded nBits < lwmaTarget limit N T ST w0 w + lwmaK N T * N := by
  have hsum := weightedSum_onTime hs.le hlen htimes
  have hmax : max (weightedSum ST 1 w0.getBlockTime (w.map CBlockIndex.getBlockTime))
      (lwmaK N T / 3 : Nat) = (lwmaK N T : Nat) := by
    rw [hsum]
    omega
  have hproduct : targetSum (lwmaK N T * N) w * lwmaK N T =
      decoded nBits / (lwmaK N T * N) * (lwmaK N T * N) := by
    rw [targetSum_const hbits, hlen]
    ring
  have hlow := Nat.div_mul_le_self (decoded nBits) (lwmaK N T * N)
  have hhigh := Nat.lt_div_mul_add hs.denom_pos (a := decoded nBits)
  rw [lwmaTarget, hmax, Int.toNat_natCast, hproduct]
  omega

end Params.LwmaSane

/-- With the targets equal to one canonical target the next one is that target, or
below it by at most a unit in its last place. -/
theorem decoded_steady {params : Params} {N T ST : Nat} (hs : params.LwmaSane N T ST)
    {w0 : CBlockIndex} {w : List CBlockIndex} (hlen : w.length = N) {limit : Nat}
    (hfit : limit < 2 ^ 256) {nBits next : UInt32} (hbits : ∀ q ∈ w, q.nBits = nBits)
    (htimes : OnTime T (w0 :: w)) (hcanon : Canonical nBits) (hpos : 0 < decoded nBits)
    (hlimit : decoded nBits ≤ limit) (hulp : lwmaK N T * N ≤ ulp nBits)
    (hnext : next.toNat = lwma_ref.get_compact (lwmaTarget limit N T ST w0 w)) :
    decoded next ≤ decoded nBits ∧ decoded nBits ≤ decoded next + ulp nBits := by
  obtain ⟨hupper, hlower⟩ := hs.lwmaTarget_steady hlen hbits htimes hpos hlimit
  have htpos := lwmaTarget_pos limit N T ST w0 w
  have htfit := lwmaTarget_lt hfit N T ST w0 w
  have hdenom : 1 < lwmaK N T * N :=
    (show 1 < lwmaK N T by have := hs.k_ge; omega).trans_le (Nat.le_mul_of_pos_right _ hs.N_pos)
  obtain ⟨m, hm, hvalue⟩ := decoded_canonical hcanon hpos (hdenom.trans_le hulp)
  refine ⟨(decoded_bounds htpos htfit hnext).1.trans hupper, ?_⟩
  rcases Nat.lt_or_ge 1 m with hone | hone
  · -- one unit less is encoded exactly, and the encoding keeps the order
    have hbelow : decoded nBits = (m - 1) * ulp nBits + ulp nBits := by
      rw [hvalue, ← Nat.succ_mul, Nat.succ_eq_add_one, Nat.sub_add_cancel hone.le]
    have hlt : (m - 1) * ulp nBits < 2 ^ 256 := by
      have := (setCompact nBits).value.toNat_lt
      unfold decoded at hbelow
      omega
    have hunit : 0 < (m - 1) * ulp nBits := Nat.mul_pos (by omega) (by omega)
    have hmono := lwma_ref.set_compact_get_compact_mono hunit
      (show (m - 1) * ulp nBits ≤ lwmaTarget limit N T ST w0 w by omega) htfit
    rw [ulp] at hunit hlt hmono hbelow
    rw [lwma_ref.set_compact_get_compact_of_dvd hunit (by omega) hlt, ← hnext, ← toNat_setCompact] at hmono
    rw [hbelow]
    exact Nat.add_le_add_right hmono _
  · rw [hvalue]
    exact (mul_le_of_le_one_left (Nat.zero_le _) hone).trans (Nat.le_add_left _ _)

/-- Mainnet: the next target never exceeds the limit nor twelve times the average
target of the window, and never falls below a third of that average by more than the
roundings take; and a window of one canonical target on time keeps it, or gives it
less one unit in its last place. -/
theorem main_retarget_bounds {p w0 : CBlockIndex} {w : List CBlockIndex}
    (hw : p.window 60 = some (w0 :: w)) (haccepted : ∀ q ∈ w, Accepted mainParams q.nBits) :
    ∃ next, lwmaGetNextWorkRequired p mainParams = some next ∧
      (decoded next : ℚ) ≤ min (mainParams.powLimit.toNat : ℚ) (7200 / 600 * averageTarget w) ∧
      (1 - 1 / 2 ^ 15) * min (mainParams.powLimit.toNat : ℚ)
        (averageTarget w / 3 - 60 * lwmaK 60 600 / 3) ≤ decoded next ∧
      1 ≤ decoded next ∧
      ∀ nBits, (∀ q ∈ w, q.nBits = nBits) → Canonical nBits → lwmaK 60 600 * 60 ≤ ulp nBits →
        OnTime 600 (w0 :: w) →
        decoded next ≤ decoded nBits ∧ decoded nBits ≤ decoded next + ulp nBits := by
  have hlen : w.length = 60 := by simpa using (CBlockIndex.le_nHeight_of_window hw).2
  have hrange : ∀ q ∈ w, 0 < decodedTarget q ∧ decodedTarget q ≤ mainParams.powLimit.toNat := by
    intro q hq
    obtain ⟨target, htarget⟩ := haccepted q hq
    obtain ⟨rfl, _, hpos, hle⟩ := deriveTarget_eq_some htarget
    exact ⟨hpos, hle⟩
  have hfit := mainParams.powLimit.toNat_lt
  obtain ⟨bnNew, next, hnext, hbits, hval⟩ := lwmaGetNextWorkRequired_eq mainParams_sane rfl hw
  obtain ⟨r, hr, hround⟩ := getCompact_eq bnNew
  obtain rfl : r = next := Option.some.inj (hr.symm.trans hbits)
  rw [hval] at hround
  obtain ⟨hupper, hlower⟩ := decoded_bounds (lwmaTarget_pos _ _ _ _ _ _)
    (lwmaTarget_lt hfit _ _ _ _ _) hround
  obtain ⟨hlimit, haverage⟩ :
      lwmaTarget mainParams.powLimit.toNat 60 600 7200 w0 w ≤ mainParams.powLimit.toNat ∧
        (lwmaTarget mainParams.powLimit.toNat 60 600 7200 w0 w : ℚ) ≤
          (7200 / 600 : Nat) * averageTarget w := mainParams_sane.lwmaTarget_le_average hlen
    (show 0 < mainParams.powLimit.toNat by rw [toNat_mainLimit]; norm_num)
    fun q hq => (hrange q hq).1
  have hthird : min (mainParams.powLimit.toNat : ℚ) (averageTarget w / 3 - (60 : Nat) * lwmaK 60 600 / 3) ≤
      lwmaTarget mainParams.powLimit.toNat 60 600 7200 w0 w :=
    mainParams_sane.average_le_lwmaTarget hlen mainParams.powLimit.toNat (by rw [mainK]; norm_num)
  refine ⟨r, hnext, ?_, ?_, by omega, ?_⟩
  · have hcast : (decoded r : ℚ) ≤ lwmaTarget mainParams.powLimit.toNat 60 600 7200 w0 w := by
      exact_mod_cast hupper
    refine le_min ?_ ?_
    · exact_mod_cast hupper.trans hlimit
    · refine hcast.trans (haverage.trans_eq ?_)
      norm_num
  · have hcast : (2 ^ 15 : ℚ) * lwmaTarget mainParams.powLimit.toNat 60 600 7200 w0 w <
        (2 ^ 15 + 1) * decoded r := by exact_mod_cast hlower
    have hscaled := mul_le_mul_of_nonneg_left hthird (show (0 : ℚ) ≤ 1 - 1 / 2 ^ 15 by norm_num)
    have hnonneg : (0 : ℚ) ≤ lwmaTarget mainParams.powLimit.toNat 60 600 7200 w0 w :=
      Nat.cast_nonneg _
    exact hscaled.trans (by linarith)
  · intro nBits hequal hcanon hulp htimes
    obtain ⟨q, hq⟩ := List.exists_mem_of_length_pos (show 0 < w.length by omega)
    obtain ⟨hpos, hle⟩ := hrange q hq
    rw [decodedTarget, hequal q hq] at hpos hle
    exact decoded_steady mainParams_sane hlen hfit hequal htimes hcanon hpos hle hulp hround

/-- A window of the original target on time. -/
theorem main_retarget_bounds_on_time :
    ∃ p next, lwmaGetNextWorkRequired p mainParams = some next ∧ 1 ≤ decoded next ∧
      decoded next ≤ decoded 0x1d00ffff ∧
        decoded 0x1d00ffff ≤ decoded next + ulp 0x1d00ffff := by
  obtain ⟨w, hw, htimes, hbits⟩ := window_extend 0x1d00ffff (.genesis 1000000000 0x1d00ffff)
    ((List.range' 1 60).map fun i => UInt32.ofNat (1000000000 + 600 * i))
  rw [List.length_map, List.length_range'] at hw
  obtain ⟨next, hnext, _, _, hpos, hsteady⟩ := main_retarget_bounds hw fun q hq => by
    rw [hbits q hq]
    exact ⟨(setCompact 0x1d00ffff).value, by decide +kernel⟩
  have honTime : OnTime 600 (.genesis 1000000000 0x1d00ffff :: w) := by
    rw [OnTime, map_getBlockTime, List.map_cons, htimes]
    decide +kernel
  exact ⟨_, next, hnext, hpos,
    hsteady 0x1d00ffff hbits (by unfold Canonical; decide +kernel) (by decide +kernel) honTime⟩

end pcoin.pow
