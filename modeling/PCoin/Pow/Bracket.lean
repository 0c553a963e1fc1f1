import PCoin.Pow.Solvetime

open pcoin.arith_uint256

namespace pcoin.pow

/-- What the rule and the two roundings leave of the next target: at most the
average target `sum / 60` times `t / k`, and within a factor `1 - 2 ^ -14` of it or
of the limit. Here `65880000 = 60 * k`. -/
structure Bracket (sum t next : Nat) : Prop where
  le_average : 65880000 * next ≤ sum * t
  le_limit : next ≤ 2 ^ 244 - 1
  ge : (2 ^ 14 - 1) * (2 ^ 244 - 1) ≤ 2 ^ 14 * next ∨
    (2 ^ 14 - 1) * (sum * t) ≤ 2 ^ 14 * (65880000 * next)

/-- The roundings of the rule: `average` is the sum of the divided targets, `exact`
the clamped product and `next` its compact encoding decoded again. -/
theorem bracket_of_rounding {sum t average exact next : Nat} (ht : 0 < t)
    (hlow : average * 65880000 ≤ sum) (hhigh : sum ≤ average * 65880000 + 60 * 65880000)
    (hbig : 60 * 2 ^ 64 ≤ sum) (hexact : exact = max 1 (min (2 ^ 244 - 1) (average * t)))
    (hnext : next ≤ exact) (hround : 2 ^ 15 * exact < (2 ^ 15 + 1) * next) :
    Bracket sum t next := by
  have hpos : 0 < average * t := Nat.mul_pos (by omega) ht
  have hfloor : average * t * 65880000 ≤ sum * t := by
    calc average * t * 65880000 = average * 65880000 * t := by ring
      _ ≤ sum * t := Nat.mul_le_mul_right t hlow
  have hceil : (2 ^ 38 - 1) * (sum * t) ≤ 2 ^ 38 * (average * t * 65880000) := by
    have h : (2 ^ 38 - 1) * sum ≤ 2 ^ 38 * (average * 65880000) := by omega
    calc (2 ^ 38 - 1) * (sum * t) = (2 ^ 38 - 1) * sum * t := by ring
      _ ≤ 2 ^ 38 * (average * 65880000) * t := Nat.mul_le_mul_right t h
      _ = 2 ^ 38 * (average * t * 65880000) := by ring
  have hlimit : 0 < 2 ^ 244 - 1 := by norm_num
  suffices h : 65880000 * next ≤ sum * t ∧ next ≤ 2 ^ 244 - 1 ∧
      ((2 ^ 14 - 1) * (2 ^ 244 - 1) ≤ 2 ^ 14 * next ∨
        (2 ^ 14 - 1) * (sum * t) ≤ 2 ^ 14 * (65880000 * next)) from ⟨h.1, h.2.1, h.2.2⟩
  generalize average * t = product at *
  generalize sum * t = scaled at *
  generalize 2 ^ 244 - 1 = limit at *
  omega

theorem toNat_mainLimit : mainParams.powLimit.toNat = 2 ^ 244 - 1 := by rfl

theorem mainK : lwmaK 60 600 = 1098000 := by norm_num [lwmaK]

/-- Dividing each target first loses less than the divisor per block. -/
theorem targetSum_bounds (d : Nat) (hd : 0 < d) (w : List CBlockIndex) :
    targetSum d w * d ≤ (w.map decodedTarget).sum ∧
      (w.map decodedTarget).sum ≤ targetSum d w * d + w.length * d := by
  induction w with
  | nil => simp [targetSum]
  | cons p w ih =>
    obtain ⟨hlow, hhigh⟩ := ih
    have hsplit : targetSum d (p :: w) = decodedTarget p / d + targetSum d w := by
      simp [targetSum, decodedTarget, toNat_setCompact]
    have hfloor := Nat.div_mul_le_self (decodedTarget p) d
    have hceil := Nat.lt_div_mul_add hd (a := decodedTarget p)
    simp only [hsplit, List.map_cons, List.sum_cons, List.length_cons, Nat.add_mul, Nat.one_mul]
    omega

/-- The targets that the cap speaks about: large enough for the divisor to lose
nothing visible, and within the limit. -/
def Sizeable (p : CBlockIndex) : Prop := 2 ^ 64 ≤ decodedTarget p ∧ decodedTarget p ≤ 2 ^ 244 - 1

theorem sum_decodedTarget_ge {w : List CBlockIndex} (hw : ∀ p ∈ w, Sizeable p) :
    w.length * 2 ^ 64 ≤ (w.map decodedTarget).sum := by
  have h := List.card_nsmul_le_sum (w.map decodedTarget) (2 ^ 64) (by
    intro target htarget
    obtain ⟨p, hp, rfl⟩ := List.mem_map.mp htarget
    exact (hw p hp).1)
  rwa [List.length_map, smul_eq_mul] at h

/-- The clamped sum of a full window as a natural number. -/
theorem clampedSum_bounds (base : Int) {xs : List Int} (hlen : xs.length = 60) :
    ∃ t : Nat, clampedSum base xs = t ∧ 366000 ≤ t ∧ t ≤ 13176000 := by
  have hle := mainParams_sane.weightedSum_le base hlen
  rw [mainK] at hle
  norm_num at hle
  refine ⟨(clampedSum base xs).toNat, ?_, ?_, ?_⟩ <;> simp only [clampedSum] <;> omega

/-- The rule on a full window of sizeable targets, with its roundings. -/
theorem bracket_of_lwma {p w0 : CBlockIndex} {w : List CBlockIndex}
    (hw : p.window 60 = some (w0 :: w)) (hsize : ∀ q ∈ w, Sizeable q) {nBits : UInt32}
    (hnext : lwmaGetNextWorkRequired p mainParams = some nBits) {t : Nat}
    (ht : clampedSum w0.getBlockTime (w.map CBlockIndex.getBlockTime) = t) :
    Bracket (w.map decodedTarget).sum t (setCompact nBits).value.toNat := by
  have hlen : w.length = 60 := by
    have := (CBlockIndex.le_nHeight_of_window hw).2
    simpa using this
  obtain ⟨t', ht', htlow, hthigh⟩ := clampedSum_bounds w0.getBlockTime
    (show (w.map CBlockIndex.getBlockTime).length = 60 by simpa using hlen)
  obtain rfl : t = t' := by omega
  obtain ⟨bnNew, r, hr, hcompact, hval⟩ := lwmaGetNextWorkRequired_eq mainParams_sane rfl hw
  obtain rfl : r = nBits := by simpa [hr] using hnext
  obtain ⟨s, hs, hround⟩ := getCompact_eq bnNew
  obtain rfl : s = r := by simpa [hs] using hcompact
  obtain ⟨hsumlow, hsumhigh⟩ := targetSum_bounds 65880000 (by norm_num) w
  have hsumbig := sum_decodedTarget_ge hsize
  have hclamp : bnNew.toNat = max 1 (min (2 ^ 244 - 1) (targetSum 65880000 w * t)) := by
    have hmax : max (weightedSum (7200 : Nat) 1 w0.getBlockTime
        (w.map CBlockIndex.getBlockTime)) ((lwmaK 60 600 / 3 : Nat) : Int) = t := by
      rw [← ht, clampedSum, mainK]
      norm_num
    rw [hval, lwmaTarget, hmax, toNat_mainLimit, mainK, Int.toNat_natCast]
  rw [hlen] at hsumhigh hsumbig
  have hpos : 0 < bnNew.toNat := by omega
  have hdec : (setCompact s).value.toNat = lwma_ref.set_compact (lwma_ref.get_compact bnNew.toNat) := by
    rw [toNat_setCompact, hround]
  have hupper := lwma_ref.set_compact_get_compact_le hpos bnNew.toNat_lt
  have hlower := lwma_ref.lt_set_compact_get_compact hpos bnNew.toNat_lt
  rw [← hdec] at hupper hlower
  exact bracket_of_rounding (by omega) hsumlow hsumhigh hsumbig hclamp hupper hlower

section Step

variable {sum' t' parent sum t next : Nat} (hnext : Bracket sum t next)

include hnext

/-- The sum of a window is at most 181 times the next target. -/
theorem Bracket.sum_le (hsum : sum ≤ 60 * (2 ^ 244 - 1)) (ht : 366000 ≤ t) :
    sum ≤ 181 * next := by
  have hmul : sum * 366000 ≤ sum * t := Nat.mul_le_mul_left sum ht
  rcases hnext.ge with hlimit | haverage
  · generalize 2 ^ 244 - 1 = limit at *
    omega
  · omega

/-- From a window of equal targets the next is a third of them, up to the
rounding, to twelve times. -/
theorem Bracket.of_equal (hsum : sum = 60 * parent) (hparent : parent ≤ 2 ^ 244 - 1)
    (ht : 366000 ≤ t) (ht' : t ≤ 13176000) :
    (2 ^ 14 - 1) * parent ≤ 2 ^ 14 * (3 * next) ∧ next ≤ 12 * parent := by
  have hlow : sum * 366000 ≤ sum * t := Nat.mul_le_mul_left sum ht
  have hhigh : sum * t ≤ sum * 13176000 := Nat.mul_le_mul_left sum ht'
  have haverage := hnext.le_average
  constructor
  · rcases hnext.ge with hlimit | hge
    · generalize 2 ^ 244 - 1 = limit at *
      omega
    · omega
  · omega

/-- The next target is at least a third of its parent's when the oldest target
was at most 55 % of the parent's sum. -/
theorem Bracket.parent_le (hparent : Bracket sum' t' parent) {oldest : Nat}
    (hshift : sum + oldest = sum' + parent) (holdest : 20 * oldest ≤ 11 * sum')
    (ht : 4 * t' ≤ 5 * t) : parent ≤ 3 * next := by
  have hsum : 9 * sum' ≤ 20 * sum := by omega
  have hprod : 36 * (sum' * t') ≤ 100 * (sum * t) := by
    calc 36 * (sum' * t') = 9 * sum' * (4 * t') := by ring
      _ ≤ 20 * sum * (5 * t) := Nat.mul_le_mul hsum ht
      _ = 100 * (sum * t) := by ring
  have haverage := hparent.le_average
  have hparentLimit := hparent.le_limit
  rcases hnext.ge with hlimit | hge
  · generalize 2 ^ 244 - 1 = limit at *
    omega
  · omega

/-- The next target is at most twelve times its parent's when the weighted sum
rose by at most `555 * ST`. -/
theorem Bracket.le_parent (hparent : Bracket sum' t' parent) (hshift : sum ≤ sum' + parent)
    (ht : t ≤ t' + 3996000) (hlow : 366000 ≤ t') (hhigh : t' ≤ 13176000) :
    next ≤ 12 * parent := by
  rcases hparent.ge with hlimit | hge
  · have := hnext.le_limit
    generalize 2 ^ 244 - 1 = limit at *
    omega
  · have hsum : 65880000 * sum ≤ sum' * (65880000 + t') := by
      have := hparent.le_average
      rw [Nat.mul_add]
      omega
    -- convex in `t'`, so it is enough to look at the two ends of its range
    have hquad : 2 ^ 14 * ((65880000 + t') * (t' + 3996000)) ≤
        12 * 65880000 * (2 ^ 14 - 1) * t' := by
      obtain ⟨a, rfl⟩ := Nat.exists_eq_add_of_le hlow
      have hsquare : a * a ≤ a * 12810000 := Nat.mul_le_mul_left a (by omega)
      have hexpand : (65880000 + (366000 + a)) * (366000 + a + 3996000) =
          a * a + 70608000 * a + 66246000 * 4362000 := by ring
      rw [hexpand]
      omega
    have hchain : 2 ^ 14 * (65880000 * (65880000 * next)) ≤
        2 ^ 14 * (65880000 * (65880000 * (12 * parent))) := by
      calc 2 ^ 14 * (65880000 * (65880000 * next))
          ≤ 2 ^ 14 * (65880000 * (sum * t)) := by have := hnext.le_average; omega
        _ = 2 ^ 14 * (65880000 * sum * t) := by ring
        _ ≤ 2 ^ 14 * (sum' * (65880000 + t') * (t' + 3996000)) :=
          Nat.mul_le_mul_left _ (Nat.mul_le_mul hsum ht)
        _ = sum' * (2 ^ 14 * ((65880000 + t') * (t' + 3996000))) := by ring
        _ ≤ sum' * (12 * 65880000 * (2 ^ 14 - 1) * t') := Nat.mul_le_mul_left sum' hquad
        _ = 12 * 65880000 * ((2 ^ 14 - 1) * (sum' * t')) := by ring
        _ ≤ 12 * 65880000 * (2 ^ 14 * (65880000 * parent)) := Nat.mul_le_mul_left _ hge
        _ = 2 ^ 14 * (65880000 * (65880000 * (12 * parent))) := by ring
    omega

end Step

end pcoin.pow
