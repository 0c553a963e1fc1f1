import Mathlib.Data.Int.Log
import Mathlib.Data.Rat.Floor
import Mathlib.Algebra.Order.Floor.Ring
import Mathlib.Tactic.Linarith
import Mathlib.Tactic.Positivity
import Mathlib.Tactic.Ring

namespace floating

/-- To the nearest whole number, a tie to the even one. -/
def roundEven (q : ℚ) : ℤ :=
  if q - ⌊q⌋ < 1 / 2 then ⌊q⌋
  else if 1 / 2 < q - ⌊q⌋ then ⌊q⌋ + 1
  else if ⌊q⌋ % 2 = 0 then ⌊q⌋ else ⌊q⌋ + 1

/-- The distance of the numbers with `p` significant bits about `x`. -/
def ulp (p : ℕ) (x : ℚ) : ℚ := 2 ^ (Int.log 2 |x| + 1 - p)

/-- The nearest number with `p` significant bits, a tie to the even one. -/
def nearest (p : ℕ) (x : ℚ) : ℚ := roundEven (x / ulp p x) * ulp p x

section

variable {p : ℕ} {x y : ℚ}

theorem roundEven_intCast (n : ℤ) : roundEven n = n := by
  simp [roundEven]

theorem roundEven_cases (q : ℚ) :
    roundEven q = ⌊q⌋ ∧ q - ⌊q⌋ ≤ 1 / 2 ∨ roundEven q = ⌊q⌋ + 1 ∧ 1 / 2 ≤ q - ⌊q⌋ := by
  rw [roundEven]
  split_ifs with hlt hgt heven
  · exact .inl ⟨rfl, hlt.le⟩
  · exact .inr ⟨rfl, hgt.le⟩
  · exact .inl ⟨rfl, not_lt.mp hgt⟩
  · exact .inr ⟨rfl, not_lt.mp hlt⟩

theorem abs_roundEven_sub_le (q : ℚ) : |roundEven q - q| ≤ 1 / 2 := by
  have hfloor := Int.floor_le q
  have hlt := Int.lt_floor_add_one q
  rw [abs_le]
  obtain ⟨heq, hle⟩ | ⟨heq, hle⟩ := roundEven_cases q <;> rw [heq]
  · constructor <;> linarith
  · push_cast
    constructor <;> linarith

theorem roundEven_mono {q r : ℚ} (h : q ≤ r) : roundEven q ≤ roundEven r := by
  obtain hlt | heq := (Int.floor_mono h).lt_or_eq
  · -- at most the next whole number, and at least that one
    obtain ⟨hq, -⟩ | ⟨hq, -⟩ := roundEven_cases q <;>
      obtain ⟨hr, -⟩ | ⟨hr, -⟩ := roundEven_cases r <;> omega
  · rw [roundEven, roundEven, heq]
    split_ifs <;> first | omega | linarith

theorem ulp_pos (p : ℕ) (x : ℚ) : 0 < ulp p x := zpow_pos (by norm_num) _

theorem two_pow_mul_ulp (p : ℕ) (x : ℚ) : 2 ^ p * ulp p x = 2 ^ (Int.log 2 |x| + 1) := by
  rw [ulp, ← zpow_natCast, ← zpow_add₀ (by norm_num), add_sub_cancel]

/-- A number lies within `p` bits of its last place. -/
theorem abs_lt_ulp (p : ℕ) (x : ℚ) : |x| < 2 ^ p * ulp p x := by
  have hlt := Int.lt_zpow_succ_log_self (b := 2) (by norm_num) |x|
  rw [two_pow_mul_ulp]
  exact_mod_cast hlt

theorem two_pow_mul_ulp_le (p : ℕ) (hx : x ≠ 0) : 2 ^ p * ulp p x ≤ 2 * |x| := by
  have hle := Int.zpow_log_le_self (b := 2) (by norm_num) (abs_pos.mpr hx)
  rw [two_pow_mul_ulp, zpow_add_one₀ (by norm_num), mul_comm]
  exact mul_le_mul_of_nonneg_left (by exact_mod_cast hle) (by norm_num)

theorem abs_nearest_sub_le (p : ℕ) (x : ℚ) : |nearest p x - x| ≤ |x| / 2 ^ p := by
  obtain rfl | hx := eq_or_ne x 0
  · simp [nearest, roundEven]
  · have hulp := ulp_pos p x
    have hround := abs_roundEven_sub_le (x / ulp p x)
    have hle := two_pow_mul_ulp_le p hx
    have hsub : nearest p x - x = (roundEven (x / ulp p x) - x / ulp p x) * ulp p x := by
      rw [nearest, sub_mul, div_mul_cancel₀ _ hulp.ne']
    rw [hsub, abs_mul, abs_of_pos hulp, le_div_iff₀ (by positivity)]
    calc |roundEven (x / ulp p x) - x / ulp p x| * ulp p x * 2 ^ p
        ≤ 1 / 2 * ulp p x * 2 ^ p := by gcongr
      _ ≤ |x| := by linarith

/-- A number with `p` significant bits is its own nearest one. -/
theorem nearest_eq_self [NeZero p] {n e : ℤ} (hn : |n| ≤ 2 ^ p) (hx : x = n * 2 ^ e) :
    nearest p x = x := by
  -- it is enough that the number is a multiple of its last place
  have hwhole : ∀ k d : ℤ, x = k * 2 ^ d → Int.log 2 |x| + 1 - p ≤ d → nearest p x = x := by
    intro k d hk hd
    obtain ⟨i, hi⟩ := Int.eq_ofNat_of_zero_le (sub_nonneg.mpr hd)
    have hdiv : x / ulp p x = (k * 2 ^ i : ℤ) := by
      rw [div_eq_iff (ulp_pos p x).ne', ulp]
      push_cast
      rw [mul_assoc, ← zpow_natCast, ← zpow_add₀ (by norm_num), ← hi, sub_add_cancel, hk]
    rw [nearest, hdiv, roundEven_intCast, ← hdiv, div_mul_cancel₀ _ (ulp_pos p x).ne']
  obtain rfl | hne := eq_or_ne x 0
  · exact hwhole 0 (Int.log 2 |(0 : ℚ)| + 1 - p) (by simp) le_rfl
  · have hpow : (0 : ℚ) < 2 ^ e := zpow_pos (by norm_num) e
    have habs : |x| = |(n : ℚ)| * 2 ^ e := by rw [hx, abs_mul, abs_of_pos hpow]
    have hn' : |(n : ℚ)| ≤ 2 ^ p := by exact_mod_cast hn
    have hle : |x| ≤ 2 ^ ((p : ℤ) + e) := by
      rw [habs, zpow_add₀ (by norm_num), zpow_natCast]
      gcongr
    obtain hlt | hge := lt_or_ge (Int.log 2 |x|) (p + e)
    · exact hwhole n e hx (by omega)
    · -- at a power of two the last place is twice as far, and the digits are even
      have hpow_le := Int.zpow_log_le_self (b := 2) (by norm_num) (abs_pos.mpr hne)
      have hmono : (2 : ℚ) ^ ((p : ℤ) + e) ≤ 2 ^ Int.log 2 |x| :=
        zpow_le_zpow_right₀ (by norm_num) hge
      push_cast at hpow_le
      have heq : |(n : ℚ)| = 2 ^ p := by
        refine le_antisymm hn' (le_of_mul_le_mul_right ?_ hpow)
        rw [← habs, ← zpow_natCast, ← zpow_add₀ (by norm_num)]
        exact hmono.trans hpow_le
      have heq' : |n| = 2 ^ p := by exact_mod_cast heq
      obtain ⟨m, rfl⟩ : (2 : ℤ) ∣ n := by
        rw [← dvd_abs, heq']
        exact dvd_pow_self 2 (NeZero.ne p)
      refine hwhole m (e + 1) ?_ ?_
      · rw [hx, zpow_add_one₀ (by norm_num)]
        push_cast
        ring
      · have hlog := Int.log_mono_right (b := 2) (abs_pos.mpr hne) hle
        have hself := Int.log_zpow (R := ℚ) (b := 2) (by norm_num) (p + e)
        push_cast at hself
        omega

theorem abs_roundEven_le {q : ℚ} {n : ℤ} (h : |q| ≤ n) : |roundEven q| ≤ n := by
  obtain ⟨hneg, hpos⟩ := abs_le.mp h
  have hlow := roundEven_mono (q := ((-n : ℤ) : ℚ)) (by push_cast; exact hneg)
  have hhigh := roundEven_mono hpos
  rw [roundEven_intCast] at hlow hhigh
  exact abs_le.mpr ⟨hlow, hhigh⟩

/-- Its digits are `p` bits. -/
theorem abs_digits_le (p : ℕ) (x : ℚ) : |roundEven (x / ulp p x)| ≤ 2 ^ p := by
  refine abs_roundEven_le ?_
  rw [abs_div, abs_of_pos (ulp_pos p x), div_le_iff₀ (ulp_pos p x)]
  push_cast
  exact (abs_lt_ulp p x).le

theorem nearest_nearest [NeZero p] (x : ℚ) : nearest p (nearest p x) = nearest p x :=
  nearest_eq_self (abs_digits_le p x) rfl

theorem roundEven_neg (q : ℚ) : roundEven (-q) = - roundEven q := by
  obtain hzero | hpos := (Int.fract_nonneg q).eq_or_lt
  · have hq : q = ⌊q⌋ := by rw [← sub_eq_zero, Int.self_sub_floor, ← hzero]
    rw [hq, roundEven_intCast, ← Int.cast_neg, roundEven_intCast]
  · have hlt := Int.fract_lt_one q
    rw [Int.fract] at hpos hlt
    have hfloor : ⌊-q⌋ = -⌊q⌋ - 1 := by
      rw [Int.floor_eq_iff]
      push_cast
      constructor <;> linarith
    rw [roundEven, roundEven, hfloor]
    push_cast
    split_ifs <;> first | omega | linarith

theorem nearest_neg (p : ℕ) (x : ℚ) : nearest p (-x) = - nearest p x := by
  have hulp : ulp p (-x) = ulp p x := by rw [ulp, ulp, abs_neg]
  rw [nearest, hulp, neg_div, roundEven_neg, nearest]
  push_cast
  ring

theorem nearest_nonneg (p : ℕ) (hx : 0 ≤ x) : 0 ≤ nearest p x := by
  have hzero := roundEven_mono (q := ((0 : ℤ) : ℚ)) (by simpa using div_nonneg hx (ulp_pos p x).le)
  rw [roundEven_intCast] at hzero
  exact mul_nonneg (by exact_mod_cast hzero) (ulp_pos p x).le

/-- Rounding does not leave the powers of two about a number. -/
theorem nearest_le_two_zpow (p : ℕ) (x : ℚ) : nearest p x ≤ 2 ^ (Int.log 2 |x| + 1) := by
  rw [← two_pow_mul_ulp p]
  have hdigits := (le_abs_self _).trans (abs_digits_le p x)
  exact mul_le_mul_of_nonneg_right (by exact_mod_cast hdigits) (ulp_pos p x).le

theorem two_zpow_le_nearest [NeZero p] (hx : 0 < x) : 2 ^ Int.log 2 |x| ≤ nearest p x := by
  obtain ⟨k, rfl⟩ := Nat.exists_eq_succ_of_ne_zero (NeZero.ne p)
  have hulp : (2 : ℚ) ^ Int.log 2 |x| = (2 ^ k : ℤ) * ulp (k + 1) x := by
    have htwo := two_pow_mul_ulp (k + 1) x
    rw [zpow_add_one₀ (by norm_num), pow_succ] at htwo
    push_cast
    linarith
  have hle := Int.zpow_log_le_self (b := 2) (by norm_num) (abs_pos.mpr hx.ne')
  push_cast at hle
  rw [hulp, abs_of_pos hx, ← le_div_iff₀ (ulp_pos _ x)] at hle
  have hdigits := roundEven_mono hle
  rw [roundEven_intCast] at hdigits
  rw [hulp]
  exact mul_le_mul_of_nonneg_right (by exact_mod_cast hdigits) (ulp_pos _ x).le

/-- Between two numbers of one magnitude the digits decide, between two of different ones the
power of two between them. -/
theorem nearest_mono_of_pos [NeZero p] (hx : 0 < x) (h : x ≤ y) : nearest p x ≤ nearest p y := by
  have hy : 0 < y := hx.trans_le h
  have hlog : Int.log 2 |x| ≤ Int.log 2 |y| := by
    rw [abs_of_pos hx, abs_of_pos hy]
    exact Int.log_mono_right hx h
  obtain hlt | heq := hlog.lt_or_eq
  · calc nearest p x ≤ 2 ^ (Int.log 2 |x| + 1) := nearest_le_two_zpow p x
      _ ≤ 2 ^ Int.log 2 |y| := zpow_le_zpow_right₀ (by norm_num) hlt
      _ ≤ nearest p y := two_zpow_le_nearest hy
  · have hulp : ulp p x = ulp p y := by rw [ulp, ulp, heq]
    rw [nearest, nearest, hulp]
    have hdigits := roundEven_mono (div_le_div_of_nonneg_right h (ulp_pos p y).le)
    exact mul_le_mul_of_nonneg_right (by exact_mod_cast hdigits) (ulp_pos p y).le

theorem nearest_mono [NeZero p] (h : x ≤ y) : nearest p x ≤ nearest p y := by
  obtain hx | hx := lt_or_ge 0 x
  · exact nearest_mono_of_pos hx h
  · obtain hy | hy := le_or_gt 0 y
    · have hneg := nearest_nonneg p (neg_nonneg.mpr hx)
      rw [nearest_neg] at hneg
      exact (neg_nonneg.mp hneg).trans (nearest_nonneg p hy)
    · have hneg := nearest_mono_of_pos (p := p) (neg_pos.mpr hy) (neg_le_neg h)
      rw [nearest_neg, nearest_neg] at hneg
      exact neg_le_neg_iff.mp hneg

end

/-- The numbers with `p` significant bits. -/
def Number (p : ℕ) : Type := { x : ℚ // nearest p x = x }

namespace Number

variable {p : ℕ}

instance : DecidableEq (Number p) := inferInstanceAs (DecidableEq { x : ℚ // nearest p x = x })

instance : LinearOrder (Number p) := inferInstanceAs (LinearOrder { x : ℚ // nearest p x = x })

theorem le_iff {a b : Number p} : a ≤ b ↔ a.val ≤ b.val := Iff.rfl

theorem lt_iff {a b : Number p} : a < b ↔ a.val < b.val := Iff.rfl

variable [NeZero p]

/-- The nearest of them to a rational number. -/
def of (p : ℕ) [NeZero p] (x : ℚ) : Number p := ⟨nearest p x, nearest_nearest x⟩

instance : Zero (Number p) := ⟨of p 0⟩

instance : Add (Number p) := ⟨fun a b => of p (a.val + b.val)⟩

instance : Sub (Number p) := ⟨fun a b => of p (a.val - b.val)⟩

instance : Mul (Number p) := ⟨fun a b => of p (a.val * b.val)⟩

instance : Div (Number p) := ⟨fun a b => of p (a.val / b.val)⟩

@[simp]
theorem of_val (a : Number p) : of p a.val = a := Subtype.ext a.property

@[simp]
theorem val_zero : (0 : Number p).val = 0 := by
  change nearest p 0 = 0
  rw [nearest, zero_div, ← Int.cast_zero, roundEven_intCast, Int.cast_zero, zero_mul]

@[simp]
theorem of_zero : of p 0 = 0 := rfl

theorem of_mono {x y : ℚ} (h : x ≤ y) : of p x ≤ of p y := nearest_mono h

theorem of_nonneg {x : ℚ} (h : 0 ≤ x) : 0 ≤ of p x := of_mono h

theorem val_nonneg {a : Number p} (h : 0 ≤ a) : 0 ≤ a.val := by
  rwa [le_iff, val_zero] at h

theorem of_pos {x : ℚ} (h : 0 < x) : 0 < of p x := by
  rw [lt_iff, val_zero]
  exact (zpow_pos (by norm_num) _).trans_le (two_zpow_le_nearest h)

@[simp]
theorem self_sub_zero (a : Number p) : a - 0 = a := by
  change of p (a.val - (0 : Number p).val) = a
  rw [val_zero, sub_zero, of_val]

theorem sub_le (a : Number p) {b : Number p} (h : 0 ≤ b) : a - b ≤ a := by
  have hle := of_mono (p := p) (sub_le_self a.val (val_nonneg h))
  rwa [of_val] at hle

theorem nonneg_add {a b : Number p} (ha : 0 ≤ a) (hb : 0 ≤ b) : 0 ≤ a + b :=
  of_nonneg (add_nonneg (val_nonneg ha) (val_nonneg hb))

theorem nonneg_mul {a b : Number p} (ha : 0 ≤ a) (hb : 0 ≤ b) : 0 ≤ a * b :=
  of_nonneg (mul_nonneg (val_nonneg ha) (val_nonneg hb))

theorem val_pos {a : Number p} (h : 0 < a) : 0 < a.val := by
  rwa [lt_iff, val_zero] at h

theorem pos_mul {a b : Number p} (ha : 0 < a) (hb : 0 < b) : 0 < a * b :=
  of_pos (mul_pos (val_pos ha) (val_pos hb))

theorem of_le {x : ℚ} (h : 0 ≤ x) : (of p x).val ≤ x + x / 2 ^ p := by
  have herror := (abs_le.mp (abs_nearest_sub_le p x)).2
  rw [abs_of_nonneg h] at herror
  exact sub_le_iff_le_add'.mp herror

theorem le_of {x : ℚ} (h : 0 ≤ x) : x - x / 2 ^ p ≤ (of p x).val := by
  have herror := (abs_le.mp (abs_nearest_sub_le p x)).1
  rw [abs_of_nonneg h] at herror
  exact (by linarith : x - x / 2 ^ p ≤ nearest p x)

end Number

end floating
