import PCoin.Wallet.Amounts
import Mathlib.Tactic.Linarith
import Mathlib.Tactic.FieldSimp
import Mathlib.Tactic.NormNum

open decimal

namespace pcoin.wallet

/-- The literal writes a number of satoshis exactly, within the supply. -/
structure Amount (l : Literal) (sat : Nat) : Prop where
  decimals : l.scale ≤ 8
  exact : (sat : ℚ) = l.value * 10 ^ 8
  positive : 1 ≤ sat
  bounded : sat ≤ 21000000 * 10 ^ 8

theorem value_eq {l : Literal} (h : l.scale ≤ 8) :
    l.value * 10 ^ 8 =
      (if l.negative then -1 else 1) * ((l.coefficient * 10 ^ (8 - l.scale).toNat : Nat) : ℚ) := by
  have hpow : (10 : ℚ) ^ (-l.scale) * 10 ^ 8 = 10 ^ (8 - l.scale).toNat := by
    rw [← zpow_natCast (10 : ℚ) 8, ← zpow_natCast (10 : ℚ) (8 - l.scale).toNat,
      ← zpow_add₀ (by norm_num)]
    congr 1
    rw [Int.toNat_of_nonneg (by omega)]
    push_cast
    ring
  rw [Literal.value, mul_assoc, hpow]
  push_cast
  ring

/-- In whole numbers: the digits, moved as far as the scale is short of eight. -/
theorem amount_iff {l : Literal} {sat : Nat} :
    Amount l sat ↔ l.negative = false ∧ l.scale ≤ 8 ∧ 0 < l.coefficient ∧
      sat = l.coefficient * 10 ^ (8 - l.scale).toNat ∧ sat ≤ 21000000 * 10 ^ 8 := by
  constructor
  · rintro ⟨hscale, hexact, hpositive, hbounded⟩
    rw [value_eq hscale] at hexact
    have hsat : (1 : ℚ) ≤ sat := by exact_mod_cast hpositive
    have hsign : l.negative = false := by
      by_contra hnegative
      rw [if_pos (by simpa using hnegative)] at hexact
      have : (0 : ℚ) ≤ ((l.coefficient * 10 ^ (8 - l.scale).toNat : Nat) : ℚ) := Nat.cast_nonneg _
      linarith
    rw [hsign, if_neg Bool.false_ne_true, one_mul, Nat.cast_inj] at hexact
    refine ⟨hsign, hscale, Nat.pos_of_ne_zero fun hzero => ?_, hexact, hbounded⟩
    rw [hzero, zero_mul] at hexact
    omega
  · rintro ⟨hsign, hscale, hpositive, rfl, hbounded⟩
    refine ⟨hscale, ?_, Nat.mul_pos hpositive (by positivity), hbounded⟩
    rw [value_eq hscale, hsign, if_neg Bool.false_ne_true, one_mul]

/-- Above 21 million coins, before and after the point is moved. -/
theorem above_iff {scale : Int} (h : scale ≤ 8) (n : Nat) :
    21000000 * 10 ^ scale.toNat < n * 10 ^ (-scale).toNat ↔
      21000000 * 10 ^ 8 < n * 10 ^ (8 - scale).toNat := by
  obtain hneg | hnonneg := lt_or_ge scale 0
  · have hpow : 10 ^ (8 - scale).toNat = 10 ^ (-scale).toNat * 10 ^ 8 := by
      rw [← pow_add]
      congr 1
      omega
    rw [show scale.toNat = 0 by omega, pow_zero, mul_one, hpow, ← mul_assoc]
    omega
  · have hpow : 10 ^ 8 = 10 ^ scale.toNat * 10 ^ (8 - scale).toNat := by
      rw [← pow_add]
      congr 1
      omega
    rw [show (-scale).toNat = 0 by omega, pow_zero, mul_one, hpow, ← mul_assoc]
    exact (Nat.mul_lt_mul_right (by positivity)).symm

theorem literal_nil : literal [] = none := rfl

theorem ne_nil_of_literal {t : List Char} {l : Literal} (h : literal t = some l) : t ≠ [] := by
  rintro rfl
  cases h

/-- A literal holds no character but its own. -/
theorem not_mem_of_literal {t : List Char} {l : Literal} (h : literal t = some l) {c : Char}
    (hc : ¬ IsLiteralChar c) : c ∉ t := fun hmem => hc (isLiteralChar_of_mem h c hmem)

theorem comma_not_mem {t : List Char} {l : Literal} (h : literal t = some l) : ',' ∉ t :=
  not_mem_of_literal h (by simp [IsLiteralChar])

namespace android

/-- The exponent is a Java `int`. -/
def Representable (l : Literal) : Prop := BigDecimal.isInt l.exponent ∧ l.exponent ≠ -2 ^ 31

theorem isInt_scale {l : Literal} {sat : Nat} (h : Amount l sat) : BigDecimal.isInt l.scale := by
  obtain ⟨-, hscale, hpositive, hsat, hbounded⟩ := amount_iff.mp h
  have hlow : (8 - l.scale).toNat < 16 := by
    by_contra hbig
    have hpow : 10 ^ 16 ≤ 10 ^ (8 - l.scale).toNat := Nat.pow_le_pow_right (by norm_num) (by omega)
    have : 1 * 10 ^ 16 ≤ l.coefficient * 10 ^ (8 - l.scale).toNat := Nat.mul_le_mul hpositive hpow
    omega
  exact ⟨by omega, by omega⟩

/-- Moving the point of an accepted number gives its satoshis. -/
theorem toLong_movePointRight {n : Nat} {scale : Int} (hscale : scale ≤ 8)
    (hbounded : n * 10 ^ (8 - scale).toNat ≤ 21000000 * 10 ^ 8) :
    ((⟨n, scale⟩ : BigDecimal).movePointRight 8).toLong =
      some ((n * 10 ^ (8 - scale).toNat : Nat) : Int) := by
  have hvalue : (⟨n, scale⟩ : BigDecimal).movePointRight 8 =
      ⟨((n * 10 ^ (8 - scale).toNat : Nat) : Int), 0⟩ := by
    unfold BigDecimal.movePointRight
    split
    · push_cast
      rfl
    · rename_i hnot
      simp only [Nat.cast_ofNat, not_lt, sub_nonneg] at hnot
      obtain rfl : scale = 8 := le_antisymm hscale hnot
      simp
  rw [hvalue, BigDecimal.toLong, if_pos le_rfl]
  simp only [neg_zero, Int.toNat_zero, pow_zero, mul_one, Option.some.injEq]
  exact Int.bmod_eq_of_le (by omega) (by omega)

/-- What the checks make of a number that is written with a literal. -/
theorem judge_cases {l : Literal} {dec : BigDecimal}
    (hunscaled : dec.unscaled = if l.negative then -(l.coefficient : Int) else l.coefficient)
    (hscale : dec.scale = l.scale) :
    (∃ sat, Amount l sat ∧ judge dec = some (.ok sat)) ∨
      ((∀ sat, ¬ Amount l sat) ∧ ∃ why, judge dec = some (.bad why)) := by
  have hrefused (why : Reason) (h : judge dec = some (.bad why))
      (hno : ∀ sat, l.negative = false → l.scale ≤ 8 → 0 < l.coefficient →
        sat = l.coefficient * 10 ^ (8 - l.scale).toNat → ¬ sat ≤ 21000000 * 10 ^ 8) :
      (∀ sat, ¬ Amount l sat) ∧ ∃ why, judge dec = some (.bad why) := by
    refine ⟨fun sat hamount => ?_, why, h⟩
    obtain ⟨hsign, hle, hpositive, hsat, hbounded⟩ := amount_iff.mp hamount
    exact hno sat hsign hle hpositive hsat hbounded
  unfold judge at hrefused ⊢
  split
  · rename_i hneg
    rw [if_pos hneg] at hrefused
    refine .inr (hrefused _ rfl fun _ hsign => ?_)
    rw [hunscaled, hsign, if_neg Bool.false_ne_true] at hneg
    omega
  rename_i hneg
  rw [if_neg hneg] at hrefused
  split
  · rename_i hmany
    rw [if_pos hmany] at hrefused
    exact .inr (hrefused _ rfl fun _ _ hle => absurd hle (by omega))
  rename_i hmany
  rw [if_neg hmany] at hrefused
  split
  · rename_i hzero
    rw [if_pos hzero] at hrefused
    refine .inr (hrefused _ rfl fun _ hsign _ hpositive => ?_)
    rw [hunscaled, hsign, if_neg Bool.false_ne_true] at hzero
    omega
  rename_i hzero
  rw [if_neg hzero] at hrefused
  have hsign : l.negative = false := by
    by_contra hnegative
    rw [hunscaled, if_pos (by simpa using hnegative)] at hneg hzero
    omega
  rw [hsign, if_neg Bool.false_ne_true] at hunscaled
  have hle : l.scale ≤ 8 := by omega
  have habove : dec.isAbove 21000000 ↔
      21000000 * 10 ^ 8 < l.coefficient * 10 ^ (8 - l.scale).toNat := by
    rw [← above_iff hle, BigDecimal.isAbove, hunscaled, hscale]
    exact_mod_cast Iff.rfl
  split
  · rename_i hlarge
    rw [if_pos hlarge] at hrefused
    refine .inr (hrefused _ rfl fun sat _ _ _ hsat hbounded => ?_)
    have := habove.mp hlarge
    omega
  · rename_i hlarge
    have hbounded := not_lt.mp (habove.not.mp hlarge)
    obtain ⟨unscaled, scale⟩ := dec
    obtain rfl : unscaled = l.coefficient := hunscaled
    obtain rfl : scale = l.scale := hscale
    refine .inl ⟨_, amount_iff.mpr ⟨hsign, hle, ?_, rfl, hbounded⟩, ?_⟩
    · exact Nat.pos_of_ne_zero fun h => hzero (by simp [h])
    · rw [toLong_movePointRight hle hbounded, Option.map_some]

/-- Android accepts exactly the amounts whose exponent is an `int`, and never throws. -/
theorem parse_cases (raw : List Char) :
    (∃ l sat, literal (core isWhitespace raw) = some l ∧ Representable l ∧ Amount l sat ∧
      parse raw = some (.ok sat)) ∨
    ((∀ l sat, literal (core isWhitespace raw) = some l → Representable l → ¬ Amount l sat) ∧
      ∃ why, parse raw = some (.bad why)) := by
  unfold parse
  generalize core isWhitespace raw = s
  simp only
  cases hliteral : literal s with
  | none =>
    refine .inr ⟨by simp, ?_⟩
    split
    · exact ⟨_, rfl⟩
    split
    · exact ⟨_, rfl⟩
    · simp only [BigDecimal.ofString, hliteral]
      exact ⟨_, rfl⟩
  | some l =>
    have hcomma : s.any (· = ',') = false := by
      rw [List.any_eq_false]
      intro c hc heq
      exact comma_not_mem hliteral (of_decide_eq_true heq ▸ hc)
    rw [if_neg (ne_nil_of_literal hliteral), hcomma, if_neg Bool.false_ne_true]
    simp only [BigDecimal.ofString, hliteral]
    by_cases hrange : BigDecimal.isInt l.exponent ∧ l.exponent ≠ -2 ^ 31 ∧ BigDecimal.isInt l.scale
    · rw [if_pos hrange]
      obtain ⟨sat, hamount, hjudge⟩ | ⟨hnot, hjudge⟩ := @judge_cases l
        ⟨if l.negative then -l.coefficient else l.coefficient, l.scale⟩ rfl rfl
      · exact .inl ⟨l, sat, rfl, ⟨hrange.1, hrange.2.1⟩, hamount, hjudge⟩
      · refine .inr ⟨?_, hjudge⟩
        rintro l' sat ⟨⟩ -
        exact hnot sat
    · rw [if_neg hrange]
      refine .inr ⟨?_, _, rfl⟩
      rintro l' sat ⟨⟩ hrep hamount
      exact hrange ⟨hrep.1, hrep.2, isInt_scale hamount⟩

end android

namespace windows

open Decimal

theorem le_divRound (n d : Nat) : n / d ≤ divRound n d := by
  unfold divRound
  simp only
  split <;> omega

theorem divRound_le (n d : Nat) : divRound n d ≤ n / d + 1 := by
  unfold divRound
  simp only
  split <;> omega

theorem divRound_one (n : Nat) : divRound n 1 = n := by
  unfold divRound
  simp [Nat.mod_one]

/-- A number loses a decimal only where one more does not fit the 96 bits. -/
theorem fit_spec {coefficient scale most mantissa kept : Nat}
    (h : fit coefficient scale most = some (mantissa, kept)) :
    kept ≤ most ∧ mantissa = divRound coefficient (10 ^ (scale - kept)) ∧
      (kept < most → 2 ^ 96 ≤ divRound coefficient (10 ^ (scale - (kept + 1)))) := by
  induction most with
  | zero =>
    unfold fit at h
    split at h
    · cases h
      exact ⟨le_rfl, rfl, fun hlt => absurd hlt (lt_irrefl _)⟩
    · cases h
  | succ most ih =>
    unfold fit at h
    split at h
    · cases h
      exact ⟨le_rfl, rfl, fun hlt => absurd hlt (lt_irrefl _)⟩
    · rename_i hbig
      obtain ⟨hkept, hmantissa, hmore⟩ := ih h
      refine ⟨by omega, hmantissa, fun _ => ?_⟩
      obtain rfl | hlt := Nat.eq_or_lt_of_le hkept
      · exact not_lt.mp hbig
      · exact hmore hlt

/-- Where a decimal was lost the number is above the supply. -/
theorem above_of_lost {coefficient scale kept : Nat} (hkept : kept < scale)
    (hbig : 2 ^ 96 ≤ divRound coefficient (10 ^ (scale - (kept + 1)))) :
    21000000 * 10 ^ 8 < divRound coefficient (10 ^ (scale - kept)) := by
  have hmore := divRound_le coefficient (10 ^ (scale - (kept + 1)))
  have hless := le_divRound coefficient (10 ^ (scale - kept))
  have hpow : 10 ^ (scale - kept) = 10 ^ (scale - (kept + 1)) * 10 := by
    rw [← pow_succ]
    congr 1
    omega
  rw [hpow, ← Nat.div_div_eq_div_mul] at hless
  rw [hpow]
  omega

theorem fit_none {coefficient scale most : Nat} (h : fit coefficient scale most = none) :
    2 ^ 96 ≤ divRound coefficient (10 ^ (scale - most)) := by
  cases most with
  | zero =>
    unfold fit at h
    split at h
    · cases h
    · rename_i hbig
      exact not_lt.mp hbig
  | succ most =>
    unfold fit at h
    split at h
    · cases h
    · rename_i hbig
      exact not_lt.mp hbig

/-- The checks on a number held exactly. -/
theorem judge_exact {l : Literal} {mantissa scale : Nat} (hle : l.scale ≤ 8) (hscale : scale ≤ 8)
    (hvalue : mantissa * 10 ^ (8 - scale) = l.coefficient * 10 ^ (8 - l.scale).toNat) :
    (∃ sat : Nat, Amount l sat ∧ judge ⟨l.negative, mantissa, scale⟩ = .ok sat) ∨
      ((∀ sat, ¬ Amount l sat) ∧ ∃ why, judge ⟨l.negative, mantissa, scale⟩ = .bad why) := by
  have hpow : 10 ^ 8 = 10 ^ (8 - scale) * 10 ^ scale := by
    rw [← pow_add]
    congr 1
    omega
  have hzero : mantissa = 0 ↔ l.coefficient = 0 := by
    constructor <;> intro h <;> rw [h, zero_mul] at hvalue
    · exact (Nat.mul_eq_zero.mp hvalue.symm).resolve_right (by positivity)
    · exact (Nat.mul_eq_zero.mp hvalue).resolve_right (by positivity)
  have habove : 21000000 * 10 ^ scale < mantissa ↔
      21000000 * 10 ^ 8 < l.coefficient * 10 ^ (8 - l.scale).toNat := by
    rw [← hvalue, hpow, mul_comm (10 ^ (8 - scale)), ← mul_assoc]
    exact (Nat.mul_lt_mul_right (by positivity)).symm
  have hsat : mantissa * SATS_PER_COIN / 10 ^ scale = l.coefficient * 10 ^ (8 - l.scale).toNat := by
    rw [← hvalue, show SATS_PER_COIN = 10 ^ (8 - scale) * 10 ^ scale from hpow, ← mul_assoc]
    exact Nat.mul_div_cancel _ (by positivity)
  unfold judge
  simp only
  split
  · rename_i hneg
    refine .inr ⟨fun sat hamount => ?_, _, rfl⟩
    have := (amount_iff.mp hamount).1
    rw [this] at hneg
    exact Bool.false_ne_true hneg.1
  rename_i hneg
  rw [if_neg (by omega)]
  split
  · rename_i hm
    refine .inr ⟨fun sat hamount => ?_, _, rfl⟩
    have := (amount_iff.mp hamount).2.2.1
    have := hzero.mp hm
    omega
  rename_i hm
  have hsign : l.negative = false := by
    by_contra hnegative
    exact hneg ⟨by simpa using hnegative, hm⟩
  split
  · rename_i hlarge
    refine .inr ⟨fun sat hamount => ?_, _, rfl⟩
    obtain ⟨-, -, -, hexact, hbounded⟩ := amount_iff.mp hamount
    have := habove.mp hlarge
    omega
  · rename_i hlarge
    refine .inl ⟨_, amount_iff.mpr ⟨hsign, hle, ?_, rfl, not_lt.mp (habove.not.mp hlarge)⟩, ?_⟩
    · exact Nat.pos_of_ne_zero (hzero.not.mp hm)
    · rw [hsat]

/-- The checks on a number that is too large, or has too many decimals. -/
theorem judge_bad {negative : Bool} {mantissa scale : Nat}
    (h : scale ≤ 8 → 21000000 * 10 ^ 8 < mantissa) :
    ∃ why, judge ⟨negative, mantissa, scale⟩ = .bad why := by
  unfold judge
  simp only
  split
  · exact ⟨_, rfl⟩
  split
  · exact ⟨_, rfl⟩
  rename_i hmany
  have hlarge := h (not_lt.mp hmany)
  have hpow : 10 ^ scale ≤ 10 ^ 8 := Nat.pow_le_pow_right (by norm_num) (not_lt.mp hmany)
  split
  · exact ⟨_, rfl⟩
  · rw [if_pos (by omega)]
    exact ⟨_, rfl⟩

/-- What `decimal` and the checks make of a literal. -/
theorem judge_cases {l : Literal} {t : List Char} (h : literal t = some l) :
    (∃ sat dec, Amount l sat ∧ TryParse t = some dec ∧ judge dec = .ok (sat : Nat)) ∨
      ((∀ sat, ¬ Amount l sat) ∧ ∀ dec, TryParse t = some dec → ∃ why, judge dec = .bad why) := by
  have hnot (hbig : l.scale ≤ 8 → 21000000 * 10 ^ 8 < l.coefficient * 10 ^ (8 - l.scale).toNat)
      (sat : Nat) : ¬ Amount l sat := fun hamount => by
    obtain ⟨-, hle, -, hexact, hbounded⟩ := amount_iff.mp hamount
    have := hbig hle
    omega
  simp only [TryParse, h]
  split
  · rename_i hwhole
    have hpow : l.coefficient * 10 ^ (-l.scale).toNat * 10 ^ 8 =
        l.coefficient * 10 ^ (8 - l.scale).toNat := by
      rw [mul_assoc, ← pow_add]
      congr 2
      omega
    split
    · obtain ⟨sat, hamount, hjudge⟩ | ⟨hno, hjudge⟩ :=
        judge_exact (by omega) (Nat.zero_le 8) hpow
      · exact .inl ⟨sat, _, hamount, rfl, hjudge⟩
      · refine .inr ⟨hno, ?_⟩
        rintro dec ⟨⟩
        exact hjudge
    · refine .inr ⟨hnot fun _ => ?_, by simp⟩
      omega
  · rename_i hfraction
    obtain ⟨scale, hscale⟩ : ∃ scale : Nat, l.scale = scale := ⟨l.scale.toNat, by omega⟩
    have hwritten : l.scale.toNat = scale := by omega
    have hshift : (8 - l.scale).toNat = 8 - scale := by omega
    have hcoefficient : l.coefficient ≤ l.coefficient * 10 ^ (8 - l.scale).toNat :=
      Nat.le_mul_of_pos_right _ (by positivity)
    rw [hwritten]
    cases hfit : fit l.coefficient scale (min scale 28) with
    | none =>
      refine .inr ⟨hnot fun hle => ?_, by simp⟩
      have := fit_none hfit
      rw [show scale - min scale 28 = 0 by omega, pow_zero, divRound_one] at this
      omega
    | some parts =>
      obtain ⟨mantissa, kept⟩ := parts
      obtain ⟨hkept, hmantissa, hlost⟩ := fit_spec hfit
      by_cases hall : kept < min scale 28
      · have hbig := hlost hall
        have hlarge := above_of_lost (by omega) hbig
        refine .inr ⟨hnot fun _ => ?_, ?_⟩
        · have := divRound_le l.coefficient (10 ^ (scale - (kept + 1)))
          have := Nat.div_le_self l.coefficient (10 ^ (scale - (kept + 1)))
          omega
        · rintro dec ⟨⟩
          exact judge_bad fun _ => by omega
      · by_cases hfew : scale ≤ 8
        · obtain rfl : kept = scale := by omega
          rw [Nat.sub_self, pow_zero, divRound_one] at hmantissa
          subst hmantissa
          obtain ⟨sat, hamount, hjudge⟩ | ⟨hno, hjudge⟩ :=
            judge_exact (l := l) (by omega) hfew (by rw [hshift])
          · exact .inl ⟨sat, _, hamount, rfl, hjudge⟩
          · refine .inr ⟨hno, ?_⟩
            rintro dec ⟨⟩
            exact hjudge
        · refine .inr ⟨hnot fun hle => by omega, ?_⟩
          rintro dec ⟨⟩
          exact judge_bad fun hle => by omega

end windows

end pcoin.wallet
