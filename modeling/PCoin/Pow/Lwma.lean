import PCoin.Pow.Chain

open pcoin.arith_uint256

namespace pcoin.pow

/-- `std::numeric_limits<uint32_t>::max()`. -/
def uint32Max : Int := 2 ^ 32 - 1

/-- The accumulation loop of `LwmaGetNextWorkRequired` over `w[i..N]`: the
weighted solvetime sum `t`, measured against the running maximum `prevTime` of
the timestamps, and the sum of the targets, each divided by `denom` first. -/
def accumulate (ST : Int) (denom : ArithUint256) :
    Nat → Int → List CBlockIndex → Int → ArithUint256 → Option (Int × ArithUint256)
  | _, _, [], t, sumTarget => some (t, sumTarget)
  | i, prevTime, p :: w, t, sumTarget => do
    let rawTime := p.getBlockTime
    let curTime := if rawTime > prevTime then rawTime else prevTime
    let solvetime := curTime - prevTime
    let solvetime := if solvetime > ST then ST else solvetime
    let target ← (setCompact p.nBits).value.div denom
    accumulate ST denom (i + 1) curTime w (t + solvetime * i) (sumTarget.add target)

/-- The guarded multiply and the two clamps that end `LwmaGetNextWorkRequired`,
for a `t` that passed its assertion. -/
def nextTarget (powLimit sumTarget : ArithUint256) (t : Int) : Option ArithUint256 := do
  let max_uint := (ArithUint256.ofUInt64 0).not
  let bound ← max_uint.div (.ofUInt64 (UInt64.ofNat t.toNat))
  let bnNew := if sumTarget.gt bound then powLimit else sumTarget.mulUInt32 (UInt32.ofNat t.toNat)
  let bnNew := if bnNew.gt powLimit then powLimit else bnNew
  return if bnNew.isZero then .ofUInt64 1 else bnNew

/-- `LwmaGetNextWorkRequired`; `none` is a failed assertion or a division by
zero. The `int64_t` arithmetic stays in range once `denom` passed its assertion,
so it is computed over the integers. -/
def lwmaGetNextWorkRequired (pindexLast : CBlockIndex) (params : Params) : Option UInt32 :=
  if params.fPowNoRetargeting then some pindexLast.nBits
  else do
    let N := params.nLwmaAveragingWindow
    let T := params.nPowTargetSpacing
    let ST := params.nLwmaMaxSolvetime
    guard (N > 0 ∧ T > 0 ∧ ST ≥ T)
    if pindexLast.nHeight < N then getCompact params.powLimit false
    else do
      let k := N * (N + 1) * T / 2
      let denom := k * N
      guard (denom > 0 ∧ denom ≤ uint32Max)
      match ← pindexLast.window N.toNat with
      | [] => none
      | w0 :: w => do
        let (t, sumTarget) ← accumulate ST (.ofUInt64 (UInt64.ofNat denom.toNat)) 1
          w0.getBlockTime w 0 (.ofUInt64 0)
        let t := if t < k / 3 then k / 3 else t
        guard (t > 0 ∧ t ≤ uint32Max)
        let bnNew ← nextTarget params.powLimit sumTarget t
        getCompact bnNew false

/-- `k = N * (N + 1) * T / 2`: the weighted sum of a window of on-time blocks. -/
def lwmaK (N T : Nat) : Nat := N * (N + 1) * T / 2

theorem two_mul_lwmaK (N T : Nat) : 2 * lwmaK N T = N * (N + 1) * T := by
  have heven : 2 ∣ N * (N + 1) * T := Dvd.dvd.mul_right (Nat.even_mul_succ_self N).two_dvd T
  unfold lwmaK
  omega

/-- The sanity conditions on an averaging window `N`, a spacing `T` and a
solvetime cap `ST` under which no assertion of the rule can fire. -/
structure Params.LwmaSane (params : Params) (N T ST : Nat) : Prop where
  window : params.nLwmaAveragingWindow = N
  spacing : params.nPowTargetSpacing = T
  solvetime : params.nLwmaMaxSolvetime = ST
  N_pos : 0 < N
  T_pos : 0 < T
  dvd : T ∣ ST
  le : T ≤ ST
  k_ge : 3 ≤ lwmaK N T
  denom_le : lwmaK N T * N ≤ 2 ^ 32 - 1
  cap_le : ST / T * lwmaK N T ≤ 2 ^ 32 - 1

/-- The weighted solvetime sum over the integers: solvetimes against the running
maximum `prev`, capped at `ST`, weighted `i, i + 1, ...`. -/
def weightedSum (ST : Int) : Nat → Int → List Int → Int
  | _, _, [] => 0
  | i, prev, x :: xs =>
    min ST (max x prev - prev) * i + weightedSum ST (i + 1) (max x prev) xs

/-- The sum of the targets of a window, each divided by `denom` first, over the
integers. -/
def targetSum (denom : Nat) (w : List CBlockIndex) : Nat :=
  (w.map fun p => lwma_ref.set_compact p.nBits.toNat / denom).sum

/-- The rule over the integers for a window `w0 :: w`: the averaged target times
the weighted solvetime sum, clamped to a third of `k` from below and to the limit
from above, and never zero. -/
def lwmaTarget (limit N T ST : Nat) (w0 : CBlockIndex) (w : List CBlockIndex) : Nat :=
  let t := max (weightedSum ST 1 w0.getBlockTime (w.map CBlockIndex.getBlockTime))
    (lwmaK N T / 3 : Nat)
  max 1 (min limit (targetSum (lwmaK N T * N) w * t.toNat))

/-- Every solvetime is at most `ST`, so the weighted sum is at most `ST` times
the sum of the weights. -/
theorem two_mul_weightedSum_le (ST : Int) (i : Nat) (prev : Int) (xs : List Int) :
    2 * weightedSum ST i prev xs ≤ ST * (xs.length * (2 * i + xs.length - 1)) := by
  induction xs generalizing i prev with
  | nil => simp [weightedSum]
  | cons x xs ih =>
    have hhead : min ST (max x prev - prev) * i ≤ ST * i :=
      mul_le_mul_of_nonneg_right (min_le_left _ _) (Int.natCast_nonneg i)
    have hrest := ih (i + 1) (max x prev)
    simp only [weightedSum, List.length_cons]
    push_cast at hrest ⊢
    linarith

theorem CBlockIndex.le_nHeight_of_window {p : CBlockIndex} {n : Nat} {w : List CBlockIndex}
    (hw : p.window n = some w) : n ≤ p.nHeight ∧ w.length = n + 1 := by
  induction n generalizing p w with
  | zero =>
    obtain rfl : [p] = w := by
      unfold window at hw
      simpa using hw
    simp
  | succ n ih =>
    cases p with
    | genesis t b => simp [window] at hw
    | child q t b =>
      simp only [window, Option.map_eq_some_iff] at hw
      obtain ⟨v, hv, rfl⟩ := hw
      obtain ⟨hle, hlen⟩ := ih hv
      simp [nHeight, hle, hlen]

/-- The accumulation loop computes the two sums over the integers whenever the
sum of targets fits 256 bits. -/
theorem accumulate_eq (ST : Int) {denom : ArithUint256} {d : Nat} (hd : denom.toNat = d)
    (hpos : 0 < d) (i : Nat) (prev : Int) (w : List CBlockIndex) (t : Int)
    (sumTarget : ArithUint256) (hfit : sumTarget.toNat + targetSum d w < 2 ^ 256) :
    ∃ sum, accumulate ST denom i prev w t sumTarget =
        some (t + weightedSum ST i prev (w.map CBlockIndex.getBlockTime), sum) ∧
      sum.toNat = sumTarget.toNat + targetSum d w := by
  induction w generalizing i prev t sumTarget with
  | nil => exact ⟨sumTarget, by simp [accumulate, weightedSum], by simp [targetSum]⟩
  | cons p w ih =>
    obtain ⟨target, hdiv, htarget⟩ :=
      ArithUint256.div_eq_some (setCompact p.nBits).value (hd.symm ▸ hpos)
    rw [hd, toNat_setCompact] at htarget
    have hsplit : targetSum d (p :: w) = target.toNat + targetSum d w := by
      simp [targetSum, htarget]
    have hadd : (sumTarget.add target).toNat = sumTarget.toNat + target.toNat := by
      rw [ArithUint256.toNat_add]
      exact Nat.mod_eq_of_lt (by omega)
    have hcur : (if p.getBlockTime > prev then p.getBlockTime else prev) =
        max p.getBlockTime prev := by
      split <;> omega
    have hst : (if max p.getBlockTime prev - prev > ST then ST
        else max p.getBlockTime prev - prev) = min ST (max p.getBlockTime prev - prev) := by
      split <;> omega
    obtain ⟨sum, hrun, hsum⟩ := ih (i + 1) (max p.getBlockTime prev)
      (t + min ST (max p.getBlockTime prev - prev) * i) (sumTarget.add target) (by omega)
    refine ⟨sum, ?_, by omega⟩
    simp only [accumulate, hdiv, hcur, hst, Option.bind_eq_bind, Option.bind_some, hrun,
      List.map_cons, weightedSum, Option.some.injEq, Prod.mk.injEq, and_true]
    ring

/-- The bound `max_uint / t` that the product is checked against. -/
theorem toNat_guardBound {t : Nat} (ht : 0 < t) (htle : t ≤ 2 ^ 32 - 1) :
    ∃ bound, (ArithUint256.ofUInt64 0).not.div (.ofUInt64 (UInt64.ofNat t)) = some bound ∧
      bound.toNat = (2 ^ 256 - 1) / t := by
  have ht64 : (ArithUint256.ofUInt64 (UInt64.ofNat t)).toNat = t := by
    rw [ArithUint256.toNat_ofUInt64, UInt64.toNat_ofNat']
    exact Nat.mod_eq_of_lt (by omega)
  have hmax : (ArithUint256.ofUInt64 0).not.toNat = 2 ^ 256 - 1 := by
    rw [ArithUint256.toNat_not, ArithUint256.toNat_ofUInt64]
    rfl
  obtain ⟨bound, hdiv, hbound⟩ :=
    ArithUint256.div_eq_some (ArithUint256.ofUInt64 0).not (ht64.symm ▸ ht)
  exact ⟨bound, hdiv, by rw [hbound, ht64, hmax]⟩

/-- The overflow guard is exact: it fires precisely when the product leaves
256 bits. -/
theorem guard_iff {sumTarget bound : ArithUint256} {t : Nat} (ht : 0 < t)
    (hbound : bound.toNat = (2 ^ 256 - 1) / t) :
    sumTarget.gt bound = true ↔ 2 ^ 256 ≤ sumTarget.toNat * t := by
  rw [ArithUint256.gt_iff, hbound, Nat.div_lt_iff_lt_mul ht]
  omega

/-- A product that the guard lets through is exact. -/
theorem toNat_mulUInt32_of_guard {sumTarget bound : ArithUint256} {t : Nat} (ht : 0 < t)
    (htle : t ≤ 2 ^ 32 - 1)
    (hbound : (ArithUint256.ofUInt64 0).not.div (.ofUInt64 (UInt64.ofNat t)) = some bound)
    (hpass : sumTarget.gt bound = false) :
    (sumTarget.mulUInt32 (UInt32.ofNat t)).toNat = sumTarget.toNat * t := by
  obtain ⟨b, hb, hval⟩ := toNat_guardBound ht htle
  obtain rfl : b = bound := by simpa [hb] using hbound
  rw [← Bool.not_eq_true, guard_iff ht hval] at hpass
  have ht32 : (UInt32.ofNat t).toNat = t := by
    rw [UInt32.toNat_ofNat']
    exact Nat.mod_eq_of_lt (by omega)
  rw [ArithUint256.toNat_mulUInt32, ht32, Nat.mod_eq_of_lt (by omega)]

/-- The guarded multiply and clamps compute the clamped product over the
integers. -/
theorem nextTarget_eq (powLimit sumTarget : ArithUint256) {t : Nat} (ht : 0 < t)
    (htle : t ≤ 2 ^ 32 - 1) :
    ∃ bnNew, nextTarget powLimit sumTarget t = some bnNew ∧
      bnNew.toNat = max 1 (min powLimit.toNat (sumTarget.toNat * t)) := by
  obtain ⟨bound, hdiv, hbound⟩ := toNat_guardBound ht htle
  obtain ⟨bnNew, hnew, hval⟩ : ∃ bnNew, bnNew = (if sumTarget.gt bound then powLimit
      else sumTarget.mulUInt32 (UInt32.ofNat t)) ∧
      min powLimit.toNat bnNew.toNat = min powLimit.toNat (sumTarget.toNat * t) := by
    refine ⟨_, rfl, ?_⟩
    have hlt := powLimit.toNat_lt
    split
    · rename_i hfire
      have := (guard_iff ht hbound).mp hfire
      omega
    · rename_i hpass
      rw [toNat_mulUInt32_of_guard ht htle hdiv (Bool.eq_false_iff.mpr hpass)]
  simp only [nextTarget, Int.toNat_natCast, hdiv, Option.bind_eq_bind, Option.bind_some, ← hnew]
  refine ⟨_, rfl, ?_⟩
  have hclamp : (if bnNew.gt powLimit then powLimit else bnNew).toNat =
      min powLimit.toNat (sumTarget.toNat * t) := by
    rw [← hval]
    split
    · rename_i hgt
      rw [ArithUint256.gt_iff] at hgt
      omega
    · rename_i hgt
      rw [ArithUint256.gt_iff] at hgt
      omega
  generalize (if bnNew.gt powLimit then powLimit else bnNew) = clamped at hclamp ⊢
  split
  · rename_i hzero
    rw [ArithUint256.isZero_iff] at hzero
    rw [ArithUint256.toNat_ofUInt64, ← hclamp, hzero]
    rfl
  · rename_i hzero
    rw [ArithUint256.isZero_iff] at hzero
    omega

namespace Params.LwmaSane

variable {params : Params} {N T ST : Nat} (hs : params.LwmaSane N T ST)

include hs

theorem denom_pos : 0 < lwmaK N T * N :=
  Nat.mul_pos (by have := hs.k_ge; omega) hs.N_pos

/-- The weighted sum of a window never exceeds `(ST / T) * k`. -/
theorem weightedSum_le (prev : Int) {xs : List Int} (hlen : xs.length = N) :
    weightedSum ST 1 prev xs ≤ (ST / T * lwmaK N T : Nat) := by
  have h := two_mul_weightedSum_le ST 1 prev xs
  have hk := two_mul_lwmaK N T
  obtain ⟨q, rfl⟩ := hs.dvd
  rw [hlen] at h
  rw [Nat.mul_div_cancel_left q hs.T_pos]
  have hprod : 2 * (q * lwmaK N T) = T * q * (N * (N + 1)) := by
    calc 2 * (q * lwmaK N T) = q * (2 * lwmaK N T) := by ring
      _ = T * q * (N * (N + 1)) := by rw [hk]; ring
  zify at hprod
  push_cast at h ⊢
  linarith

/-- The weighted sum after the low clamp, which is what the rule multiplies by. -/
theorem clamped_bounds (prev : Int) {xs : List Int} (hlen : xs.length = N) :
    ∃ t : Nat, (max (weightedSum ST 1 prev xs) (lwmaK N T / 3 : Nat)) = (t : Int) ∧
      0 < t ∧ t ≤ ST / T * lwmaK N T := by
  have hle := hs.weightedSum_le prev hlen
  have hk := hs.k_ge
  have hq : 1 ≤ ST / T := (Nat.one_le_div_iff hs.T_pos).mpr hs.le
  have hmul := Nat.mul_le_mul_right (lwmaK N T) hq
  refine ⟨(max (weightedSum ST 1 prev xs) (lwmaK N T / 3 : Nat)).toNat, ?_, ?_, ?_⟩
  · omega
  · omega
  · omega

end Params.LwmaSane

/-- `k` times the sum of the divided targets is at most the largest target. -/
theorem targetSum_mul_le {k N limit : Nat} (hN : 0 < N) {w : List CBlockIndex} (hlen : w.length = N)
    (hle : ∀ p ∈ w, lwma_ref.set_compact p.nBits.toNat ≤ limit) :
    targetSum (k * N) w * k ≤ limit := by
  have hgen : ∀ v : List CBlockIndex, (∀ p ∈ v, lwma_ref.set_compact p.nBits.toNat ≤ limit) →
      targetSum (k * N) v * (k * N) ≤ v.length * limit := by
    intro v hv
    induction v with
    | nil => simp [targetSum]
    | cons p v ih =>
      have hhead := Nat.div_mul_le_self (lwma_ref.set_compact p.nBits.toNat) (k * N)
      have hp := hv p (by simp)
      have hrest := ih fun q hq => hv q (List.mem_cons_of_mem _ hq)
      have hsplit : targetSum (k * N) (p :: v) =
          lwma_ref.set_compact p.nBits.toNat / (k * N) + targetSum (k * N) v := by
        simp [targetSum]
      rw [hsplit, Nat.add_mul, List.length_cons, Nat.add_mul]
      omega
  have hmul := hgen w hle
  rw [hlen] at hmul
  apply Nat.le_of_mul_le_mul_left _ hN
  calc N * (targetSum (k * N) w * k) = targetSum (k * N) w * (k * N) := by ring
    _ ≤ N * limit := hmul

/-- The sum of the divided targets fits 256 bits, whatever the targets are. -/
theorem targetSum_lt {k N : Nat} (hk : 0 < k) (hN : 0 < N) {w : List CBlockIndex}
    (hlen : w.length = N) : targetSum (k * N) w < 2 ^ 256 := by
  have hle : ∀ p ∈ w, lwma_ref.set_compact p.nBits.toNat ≤ 2 ^ 256 - 1 := by
    intro p _
    have := (setCompact p.nBits).value.toNat_lt
    rw [toNat_setCompact] at this
    omega
  have hmul := targetSum_mul_le (k := k) hN hlen hle
  have := Nat.le_mul_of_pos_right (targetSum (k * N) w) hk
  omega

/-- The accumulation loop started as the rule starts it. -/
theorem accumulate_window (ST : Int) {k N : Nat} (hk : 0 < k) (hN : 0 < N)
    (hdenom : k * N ≤ 2 ^ 32 - 1) (w0 : CBlockIndex) {w : List CBlockIndex} (hlen : w.length = N) :
    ∃ sumTarget,
      accumulate ST (.ofUInt64 (UInt64.ofNat (k * N))) 1 w0.getBlockTime w 0 (.ofUInt64 0) =
        some (weightedSum ST 1 w0.getBlockTime (w.map CBlockIndex.getBlockTime), sumTarget) ∧
      sumTarget.toNat = targetSum (k * N) w := by
  have hden : (ArithUint256.ofUInt64 (UInt64.ofNat (k * N))).toNat = k * N := by
    rw [ArithUint256.toNat_ofUInt64, UInt64.toNat_ofNat']
    exact Nat.mod_eq_of_lt (by omega)
  have hzero : (ArithUint256.ofUInt64 0).toNat = 0 := ArithUint256.toNat_ofUInt64 0
  have hfit : (ArithUint256.ofUInt64 0).toNat + targetSum (k * N) w < 2 ^ 256 := by
    have := targetSum_lt hk hN hlen
    omega
  obtain ⟨sum, hacc, hsum⟩ :=
    accumulate_eq ST hden (Nat.mul_pos hk hN) 1 w0.getBlockTime w 0 _ hfit
  refine ⟨sum, by simpa using hacc, by omega⟩

/-- On a full window the limb arithmetic computes the rule over the integers: no
assertion fires and nothing wraps. -/
theorem lwmaGetNextWorkRequired_eq {params : Params} {N T ST : Nat} (hs : params.LwmaSane N T ST)
    (hretarget : params.fPowNoRetargeting = false) {pindexLast w0 : CBlockIndex}
    {w : List CBlockIndex} (hw : pindexLast.window N = some (w0 :: w)) :
    ∃ bnNew nBits, lwmaGetNextWorkRequired pindexLast params = some nBits ∧
      getCompact bnNew false = some nBits ∧
      bnNew.toNat = lwmaTarget params.powLimit.toNat N T ST w0 w := by
  obtain ⟨hheight, hlen⟩ := CBlockIndex.le_nHeight_of_window hw
  have hwlen : w.length = N := by simpa using hlen
  obtain ⟨t, ht, htpos, htle⟩ := hs.clamped_bounds w0.getBlockTime
    (show (w.map CBlockIndex.getBlockTime).length = N by simpa using hwlen)
  obtain ⟨sumTarget, hacc, hsum⟩ :=
    accumulate_window ST (by have := hs.k_ge; omega) hs.N_pos hs.denom_le w0 hwlen
  obtain ⟨bnNew, hnext, hval⟩ :=
    nextTarget_eq params.powLimit sumTarget htpos (htle.trans hs.cap_le)
  obtain ⟨nBits, hbits, _⟩ := getCompact_eq bnNew
  refine ⟨bnNew, nBits, ?_, hbits, ?_⟩
  · have hkInt : (N : Int) * (N + 1) * T / 2 = lwmaK N T := by
      rw [lwmaK]
      push_cast
      rfl
    have hclamp : (if weightedSum ST 1 w0.getBlockTime (w.map CBlockIndex.getBlockTime) <
        (lwmaK N T : Int) / 3 then (lwmaK N T : Int) / 3
        else weightedSum ST 1 w0.getBlockTime (w.map CBlockIndex.getBlockTime)) = (t : Int) := by
      rw [← ht]
      push_cast
      split <;> omega
    have hsanity : (N : Int) > 0 ∧ (T : Int) > 0 ∧ (ST : Int) ≥ T := by
      have := hs.N_pos
      have := hs.T_pos
      have := hs.le
      omega
    have hdenomInt : (lwmaK N T : Int) * N > 0 ∧ (lwmaK N T : Int) * N ≤ uint32Max := by
      have := hs.denom_pos
      have := hs.denom_le
      rw [← Nat.cast_mul]
      unfold uint32Max
      omega
    have hdenomNat : ((lwmaK N T : Int) * N).toNat = lwmaK N T * N := by
      rw [← Nat.cast_mul, Int.toNat_natCast]
    have htInt : (t : Int) > 0 ∧ (t : Int) ≤ uint32Max := by
      have := htle.trans hs.cap_le
      unfold uint32Max
      omega
    simp only [lwmaGetNextWorkRequired, hretarget, Bool.false_eq_true, if_false, hs.window,
      hs.spacing, hs.solvetime, hkInt, guard, hsanity, Option.pure_def, Option.bind_eq_bind,
      Option.bind_some, hdenomInt, hdenomNat, Int.toNat_natCast, hw,
      if_neg (show ¬ (pindexLast.nHeight : Int) < N by omega), hacc, hclamp, htInt, hnext]
    simpa using hbits
  · rw [hval, hsum, lwmaTarget, ht, Int.toNat_natCast]

end pcoin.pow

namespace pcoin.pow

/-- The `nBits` that `CalculateNextWorkRequired` scales: the last block's, or
under BIP94 those of the first block of the period. -/
def retargetBits (pindexLast : CBlockIndex) (params : Params) : Option UInt32 :=
  if params.enforce_BIP94 then do
    let nHeightFirst := (pindexLast.nHeight : Int) - (params.difficultyAdjustmentInterval - 1)
    let pindexFirst ← pindexLast.getAncestor nHeightFirst
    return pindexFirst.nBits
  else some pindexLast.nBits

/-- The observed timespan clamped into a quarter to four times the target one. -/
def clampTimespan (timespan nActualTimespan : Int) : Int :=
  let n := if nActualTimespan < timespan.tdiv 4 then timespan.tdiv 4 else nActualTimespan
  if n > timespan * 4 then timespan * 4 else n

/-- `CalculateNextWorkRequired`. `bnNew *= nActualTimespan` selects the
`uint32_t` overload, so the timespan is narrowed to 32 bits before the wrapping
product; `none` is a null ancestor or the division by zero. -/
def calculateNextWorkRequired (pindexLast : CBlockIndex) (nFirstBlockTime : Int)
    (params : Params) : Option UInt32 :=
  if params.fPowNoRetargeting then some pindexLast.nBits
  else do
    let nActualTimespan := clampTimespan params.nPowTargetTimespan
      (pindexLast.getBlockTime - nFirstBlockTime)
    let nBits ← retargetBits pindexLast params
    let bnNew := (setCompact nBits).value.mulUInt32 (UInt32.ofNat (nActualTimespan % 2 ^ 32).toNat)
    let bnNew ← bnNew.div (.ofUInt64 (UInt64.ofNat (params.nPowTargetTimespan % 2 ^ 64).toNat))
    getCompact (if bnNew.gt params.powLimit then params.powLimit else bnNew) false

/-- The testnet walk back to the last block not mined at minimum difficulty. -/
def lastOrdinaryBits (interval : Int) (nProofOfWorkLimit : UInt32) : CBlockIndex → UInt32
  | .genesis _ nBits => nBits
  | .child p t nBits =>
    if ((CBlockIndex.child p t nBits).nHeight : Int).tmod interval ≠ 0 ∧ nBits = nProofOfWorkLimit
    then lastOrdinaryBits interval nProofOfWorkLimit p
    else nBits

/-- `GetNextWorkRequired` for a candidate block of time `blockTime`. -/
def getNextWorkRequired (pindexLast : CBlockIndex) (blockTime : Int) (params : Params) :
    Option UInt32 := do
  let nProofOfWorkLimit ← getCompact params.powLimit false
  if (pindexLast.nHeight : Int) + 1 ≥ params.lwmaHeight then
    lwmaGetNextWorkRequired pindexLast params
  else do
    let interval := params.difficultyAdjustmentInterval
    guard (params.nPowTargetSpacing ≠ 0 ∧ interval ≠ 0)
    if ((pindexLast.nHeight : Int) + 1).tmod interval ≠ 0 then
      if params.fPowAllowMinDifficultyBlocks then
        if blockTime > pindexLast.getBlockTime + params.nPowTargetSpacing * 2 then
          return nProofOfWorkLimit
        else return lastOrdinaryBits interval nProofOfWorkLimit pindexLast
      else return pindexLast.nBits
    else do
      let nHeightFirst := (pindexLast.nHeight : Int) - (interval - 1)
      guard (nHeightFirst ≥ 0)
      let pindexFirst ← pindexLast.getAncestor nHeightFirst
      calculateNextWorkRequired pindexLast pindexFirst.getBlockTime params

end pcoin.pow
