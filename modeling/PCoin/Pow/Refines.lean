import PCoin.Pow.Lwma

open pcoin.arith_uint256

namespace pcoin.pow

/-- The reference loop computes the same two sums. -/
theorem lwmaLoop_eq (ST : Int) (pow_limit denom i : Nat) (prev : Int) (w : List CBlockIndex)
    (t : Int) (sum_target : Nat)
    (hle : ∀ p ∈ w, lwma_ref.set_compact p.nBits.toNat ≤ pow_limit) :
    lwma_ref.lwmaLoop ST pow_limit denom i prev
        ((w.map CBlockIndex.getBlockTime).zip (w.map fun p => p.nBits.toNat)) t sum_target =
      .ok (t + weightedSum ST i prev (w.map CBlockIndex.getBlockTime),
        sum_target + targetSum denom w) := by
  induction w generalizing i prev t sum_target with
  | nil => simp [lwma_ref.lwmaLoop, weightedSum, targetSum]
  | cons p w ih =>
    have hst : (if max p.getBlockTime prev - prev > ST then ST
        else max p.getBlockTime prev - prev) = min ST (max p.getBlockTime prev - prev) := by
      split <;> omega
    have hrest : ∀ q ∈ w, lwma_ref.set_compact q.nBits.toNat ≤ pow_limit :=
      fun q hq => hle q (List.mem_cons_of_mem _ hq)
    simp only [List.map_cons, List.zip_cons_cons, lwma_ref.lwmaLoop, hst,
      if_pos (hle p (by simp)), ih _ _ _ _ hrest, weightedSum, targetSum, List.sum_cons]
    congr 2
    · ring
    · ring

/-- The reference implementation computes the rule over the integers. Its bound
on the product always holds: `(ST / T) * powLimit` is above every product. -/
theorem lwma_eq {params : Params} {N T ST : Nat} (hs : params.LwmaSane N T ST)
    (w0 : CBlockIndex) {w : List CBlockIndex} (hlen : w.length = N) {limit : Nat}
    (hle : ∀ p ∈ w, lwma_ref.set_compact p.nBits.toNat ≤ limit) :
    lwma_ref.lwma ((w0 :: w).map CBlockIndex.getBlockTime)
        ((w0 :: w).map fun p => p.nBits.toNat) N T (some ST) limit =
      .ok (lwma_ref.get_compact (lwmaTarget limit N T ST w0 w)) := by
  obtain ⟨t, ht, htpos, htle⟩ := hs.clamped_bounds w0.getBlockTime
    (show (w.map CBlockIndex.getBlockTime).length = N by simpa using hlen)
  have hdenom := hs.denom_pos
  have hdenomLe := hs.denom_le
  have hloop := lwmaLoop_eq ST limit (lwmaK N T * N) 1 w0.getBlockTime w 0 0 hle
  have hclamp : (if 0 + weightedSum ST 1 w0.getBlockTime (w.map CBlockIndex.getBlockTime) <
      (lwmaK N T / 3 : Nat) then ((lwmaK N T / 3 : Nat) : Int)
      else 0 + weightedSum ST 1 w0.getBlockTime (w.map CBlockIndex.getBlockTime)) = (t : Int) := by
    rw [← ht]
    split <;> omega
  have hproduct : targetSum (lwmaK N T * N) w * t ≤ ST / T * limit := by
    have hmul := targetSum_mul_le (k := lwmaK N T) hs.N_pos hlen hle
    calc targetSum (lwmaK N T * N) w * t
        ≤ targetSum (lwmaK N T * N) w * (ST / T * lwmaK N T) := Nat.mul_le_mul_left _ htle
      _ = ST / T * (targetSum (lwmaK N T * N) w * lwmaK N T) := by ring
      _ ≤ ST / T * limit := Nat.mul_le_mul_left _ hmul
  have hrange : (0 : Int) < t ∧ (t : Int) ≤ 0xffffffff := by
    have := htle.trans hs.cap_le
    omega
  have hfinal : (if (if targetSum (lwmaK N T * N) w * t > limit then limit
        else targetSum (lwmaK N T * N) w * t) = 0 then 1
      else if targetSum (lwmaK N T * N) w * t > limit then limit
        else targetSum (lwmaK N T * N) w * t) = lwmaTarget limit N T ST w0 w := by
    rw [lwmaTarget, ht, Int.toNat_natCast]
    generalize targetSum (lwmaK N T * N) w * t = product
    split_ifs <;> omega
  unfold lwma_ref.lwma
  simp only [List.map_cons, List.length_cons, List.length_map, hlen, and_self, if_true,
    Option.getD_some, List.headD_cons, List.tail_cons,
    show N * (N + 1) * T / 2 = lwmaK N T from rfl,
    show 0 < lwmaK N T * N ∧ lwmaK N T * N ≤ 0xffffffff from ⟨hdenom, by omega⟩, hloop]
  simp only [Bind.bind, Except.bind, hclamp, hrange, and_self, if_true, Nat.zero_add,
    Int.toNat_natCast, hproduct, hfinal, Pure.pure, Except.pure]

/-- A clamped timespan is never negative and at least a quarter of the target. -/
theorem clampTimespan_eq (timespan : Nat) (nActual : Int) :
    ∃ a : Nat, clampTimespan timespan nActual = a ∧ timespan / 4 ≤ a := by
  have hquarter : (timespan : Int).tdiv 4 = (timespan / 4 : Nat) := by
    rw [Int.tdiv_eq_ediv_of_nonneg (Int.natCast_nonneg _)]
    push_cast
    rfl
  refine ⟨(clampTimespan timespan nActual).toNat, ?_, ?_⟩ <;>
  · simp only [clampTimespan, hquarter]
    split_ifs <;> omega

/-- The legacy retarget is the reference `legacy`, wrap included, whenever the
clamped timespan survives the narrowing to 32 bits. -/
theorem calculateNextWorkRequired_eq {params : Params} {timespan : Nat} (htimespan : 0 < timespan)
    (hparams : params.nPowTargetTimespan = timespan) (hretarget : params.fPowNoRetargeting = false)
    {pindexLast : CBlockIndex} {nFirstBlockTime : Int} {nBits : UInt32}
    (hbits : retargetBits pindexLast params = some nBits)
    (hnarrow : clampTimespan timespan (pindexLast.getBlockTime - nFirstBlockTime) < 2 ^ 32) :
    ∃ r, calculateNextWorkRequired pindexLast nFirstBlockTime params = some r ∧
      lwma_ref.legacy nBits.toNat pindexLast.getBlockTime nFirstBlockTime timespan
        params.powLimit.toNat = some r.toNat := by
  obtain ⟨a, ha, hquarter⟩ := clampTimespan_eq timespan (pindexLast.getBlockTime - nFirstBlockTime)
  rw [ha] at hnarrow
  have ha32 : (UInt32.ofNat ((a : Int) % 2 ^ 32).toNat).toNat = a := by
    rw [UInt32.toNat_ofNat']
    omega
  have hts : (ArithUint256.ofUInt64 (UInt64.ofNat ((timespan : Int) % 2 ^ 64).toNat)).toNat =
      timespan := by
    rw [ArithUint256.toNat_ofUInt64, UInt64.toNat_ofNat']
    omega
  obtain ⟨quot, hdiv, hquot⟩ := ArithUint256.div_eq_some
    ((setCompact nBits).value.mulUInt32 (UInt32.ofNat ((a : Int) % 2 ^ 32).toNat))
    (hts.symm ▸ htimespan)
  rw [hts, ArithUint256.toNat_mulUInt32, ha32, toNat_setCompact] at hquot
  obtain ⟨r, hr, hrval⟩ := getCompact_eq
    (if quot.gt params.powLimit then params.powLimit else quot)
  refine ⟨r, ?_, ?_⟩
  · simp only [calculateNextWorkRequired, hretarget, Bool.false_eq_true, if_false, hparams, ha,
      hbits, Option.bind_eq_bind, Option.bind_some, hdiv, hr]
  · have hactual : clampTimespan timespan (pindexLast.getBlockTime - nFirstBlockTime) =
        (let actual := pindexLast.getBlockTime - nFirstBlockTime
         let actual : Int := if actual < (timespan / 4 : Nat) then (timespan / 4 : Nat) else actual
         if actual > (timespan * 4 : Nat) then ((timespan * 4 : Nat) : Int) else actual) := by
      simp only [clampTimespan, Int.tdiv_eq_ediv_of_nonneg (Int.natCast_nonneg _)]
      push_cast
      rfl
    have hwrap : ((lwma_ref.set_compact nBits.toNat : Int) * a % 2 ^ 256).toNat =
        lwma_ref.set_compact nBits.toNat * a % 2 ^ 256 := by
      rw [← Nat.cast_mul]
      omega
    have hclamp : (if quot.gt params.powLimit then params.powLimit else quot).toNat =
        if quot.toNat > params.powLimit.toNat then params.powLimit.toNat else quot.toNat := by
      by_cases hgt : quot.toNat > params.powLimit.toNat
      · rw [if_pos ((ArithUint256.gt_iff _ _).mpr hgt), if_pos hgt]
      · rw [if_neg (fun h => hgt ((ArithUint256.gt_iff _ _).mp h)), if_neg hgt]
    simp only [lwma_ref.legacy, ← hactual, ha, hwrap, if_neg htimespan.ne', ← hquot, hrval, hclamp]

/-- Both work rules against the reference model. On a window whose targets
`DeriveTarget` accepts, the rule returns the encoding of the rule over the
integers and agrees with `lwma`: no assertion fires on either side, the sum of
targets is exact, and a product that the guard lets through never wraps. The
legacy retarget agrees with `legacy` whenever retargeting is enabled and the
clamped timespan fits the 32-bit factor it is narrowed to. -/
theorem work_rules_match_reference :
    (∀ (params : Params) (N T ST : Nat), params.LwmaSane N T ST → 0 < params.powLimit.toNat →
      params.fPowNoRetargeting = false →
      ∀ (pindexLast w0 : CBlockIndex) (w : List CBlockIndex),
        pindexLast.window N = some (w0 :: w) →
        (∀ p ∈ w, ∃ target, deriveTarget p.nBits params.powLimit = some target) →
        ∃ (sumTarget : ArithUint256) (t : Nat) (nBits : UInt32),
          accumulate ST (.ofUInt64 (UInt64.ofNat (lwmaK N T * N))) 1 w0.getBlockTime w 0
              (.ofUInt64 0) =
            some (weightedSum ST 1 w0.getBlockTime (w.map CBlockIndex.getBlockTime), sumTarget) ∧
          sumTarget.toNat = targetSum (lwmaK N T * N) w ∧
          (t : Int) = max (weightedSum ST 1 w0.getBlockTime (w.map CBlockIndex.getBlockTime))
            (lwmaK N T / 3 : Nat) ∧
          (∀ bound, (ArithUint256.ofUInt64 0).not.div (.ofUInt64 (UInt64.ofNat t)) = some bound →
            sumTarget.gt bound = false →
            (sumTarget.mulUInt32 (UInt32.ofNat t)).toNat = sumTarget.toNat * t) ∧
          lwmaGetNextWorkRequired pindexLast params = some nBits ∧
          nBits.toNat = lwma_ref.get_compact
            (max 1 (min params.powLimit.toNat (targetSum (lwmaK N T * N) w * t))) ∧
          lwma_ref.lwma ((w0 :: w).map CBlockIndex.getBlockTime)
            ((w0 :: w).map fun p => p.nBits.toNat) N T (some ST) params.powLimit.toNat =
              .ok nBits.toNat) ∧
    (∀ (params : Params) (timespan : Nat), 0 < timespan →
      params.nPowTargetTimespan = timespan → params.fPowNoRetargeting = false →
      ∀ (pindexLast : CBlockIndex) (nFirstBlockTime : Int) (nBits : UInt32),
        retargetBits pindexLast params = some nBits →
        clampTimespan timespan (pindexLast.getBlockTime - nFirstBlockTime) < 2 ^ 32 →
        ∃ r, calculateNextWorkRequired pindexLast nFirstBlockTime params = some r ∧
          lwma_ref.legacy nBits.toNat pindexLast.getBlockTime nFirstBlockTime timespan
            params.powLimit.toNat = some r.toNat) := by
  constructor
  · intro params N T ST hs hlimit hretarget pindexLast w0 w hw haccept
    have hle : ∀ p ∈ w, lwma_ref.set_compact p.nBits.toNat ≤ params.powLimit.toNat := by
      intro p hp
      obtain ⟨target, htarget⟩ := haccept p hp
      obtain ⟨_, hval, _, hle⟩ := deriveTarget_eq_some htarget
      omega
    have hlen : w.length = N := by simpa using (CBlockIndex.le_nHeight_of_window hw).2
    obtain ⟨t, ht, htpos, htle⟩ := hs.clamped_bounds w0.getBlockTime
      (show (w.map CBlockIndex.getBlockTime).length = N by simpa using hlen)
    obtain ⟨sumTarget, hacc, hsum⟩ :=
      accumulate_window ST (by have := hs.k_ge; omega) hs.N_pos hs.denom_le w0 hlen
    obtain ⟨bnNew, nBits, hnext, hbits, hval⟩ := lwmaGetNextWorkRequired_eq hs hretarget hw
    have hcompact : nBits.toNat = lwma_ref.get_compact (lwmaTarget params.powLimit.toNat N T ST w0 w) := by
      obtain ⟨r, hr, hrval⟩ := getCompact_eq bnNew
      obtain rfl : r = nBits := by simpa [hr] using hbits
      rw [hrval, hval]
    refine ⟨sumTarget, t, nBits, hacc, hsum, ht.symm, ?_, hnext, ?_, ?_⟩
    · exact fun bound hbound hpass =>
        toNat_mulUInt32_of_guard htpos (htle.trans hs.cap_le) hbound hpass
    · rw [hcompact, lwmaTarget, ht, Int.toNat_natCast]
    · rw [hcompact]
      exact lwma_eq hs w0 hlen hle
  · intro params timespan htimespan hparams hretarget pindexLast nFirstBlockTime nBits hbits hnarrow
    exact calculateNextWorkRequired_eq htimespan hparams hretarget hbits hnarrow

/-- A window of one block at the limit, two seconds after its parent, under the
smallest sane parameters; and the mainnet legacy retarget of an on-time period. -/
theorem work_rules_match_reference_one_block :
    (∃ nBits, lwmaGetNextWorkRequired (.child (.genesis 5 0x1f0fffff) 7 0x1f0fffff)
        { mainParams with
          nPowTargetSpacing := 3, nLwmaAveragingWindow := 1, nLwmaMaxSolvetime := 3 } =
      some nBits ∧ lwma_ref.lwma [5, 7] [0x1f0fffff, 0x1f0fffff] 1 3 (some 3)
        mainParams.powLimit.toNat = .ok nBits.toNat) ∧
    (∃ r, calculateNextWorkRequired (.genesis 1209600 0x1f0fffff) 0 mainParams = some r ∧
      lwma_ref.legacy 0x1f0fffff 1209600 0 1209600 mainParams.powLimit.toNat = some r.toNat) := by
  constructor
  · have hs : Params.LwmaSane { mainParams with
        nPowTargetSpacing := 3, nLwmaAveragingWindow := 1, nLwmaMaxSolvetime := 3 } 1 3 3 := by
      constructor <;> decide
    obtain ⟨_, _, nBits, _, _, _, _, hnext, _, href⟩ := work_rules_match_reference.1 _ 1 3 3 hs
      (by decide +kernel) rfl (.child (.genesis 5 0x1f0fffff) 7 0x1f0fffff) (.genesis 5 0x1f0fffff)
      [.child (.genesis 5 0x1f0fffff) 7 0x1f0fffff] rfl (by
        intro p hp
        obtain rfl := List.mem_singleton.mp hp
        exact ⟨(setCompact 0x1f0fffff).value, by decide +kernel⟩)
    exact ⟨nBits, hnext, href⟩
  · exact work_rules_match_reference.2 mainParams 1209600 (by decide) rfl rfl
      (.genesis 1209600 0x1f0fffff) 0 0x1f0fffff rfl (by decide)

/-- `legacy` is not `CalculateNextWorkRequired` on every input: regtest returns
the last `nBits` unchanged, and a timespan whose quarter is `2 ^ 32` is narrowed
to zero, which sends the target to zero. -/
theorem legacy_differs_off_domain :
    (calculateNextWorkRequired (.genesis 0 0x1d00ffff) 0 (regTestParams false false 2147483647)).map
        UInt32.toNat ≠
      lwma_ref.legacy 0x1d00ffff 0 0 86400 (regTestParams false false 2147483647).powLimit.toNat ∧
    (calculateNextWorkRequired (.genesis 0 0x1d00ffff) 0
        { mainParams with nPowTargetTimespan := 2 ^ 34 }).map UInt32.toNat ≠
      lwma_ref.legacy 0x1d00ffff 0 0 (2 ^ 34) mainParams.powLimit.toNat := by
  constructor <;> decide +kernel

end pcoin.pow
