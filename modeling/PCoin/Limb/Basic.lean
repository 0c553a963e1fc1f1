import Mathlib

namespace limb

/-- The natural number that a little-endian list of 32-bit limbs denotes. -/
def value (xs : List UInt32) : Nat := Nat.ofDigits (2 ^ 32) (xs.map UInt32.toNat)

@[simp] theorem value_nil : value [] = 0 := rfl

@[simp] theorem value_cons (x : UInt32) (xs : List UInt32) :
    value (x :: xs) = x.toNat + 2 ^ 32 * value xs := by
  simp [value, Nat.ofDigits_cons]

theorem value_lt (xs : List UInt32) : value xs < 2 ^ (32 * xs.length) := by
  induction xs with
  | nil => simp
  | cons x xs ih =>
    have hx := x.toNat_lt
    have hpow : 2 ^ (32 * (x :: xs).length) = 2 ^ 32 * 2 ^ (32 * xs.length) := by
      rw [List.length_cons, Nat.mul_succ, Nat.add_comm, pow_add]
    rw [value_cons, hpow]
    omega

/-- Two limb lists of one length that denote one number are the same list. -/
theorem value_injective {xs ys : List UInt32} (hlen : xs.length = ys.length)
    (hval : value xs = value ys) : xs = ys := by
  induction xs generalizing ys with
  | nil => simpa using hlen.symm
  | cons x xs ih =>
    cases ys with
    | nil => simp at hlen
    | cons y ys =>
      rw [value_cons, value_cons] at hval
      have hx := x.toNat_lt
      have hy := y.toNat_lt
      have hhead : x = y := UInt32.toNat_inj.mp (by omega)
      have htail := ih (show xs.length = ys.length by simpa using hlen) (by omega)
      rw [hhead, htail]

/-- A limb and the carry out of it recombine with the limbs above into the
whole sum modulo the width of the list. -/
theorem low_add_high_mod (n rest m : Nat) :
    n % 2 ^ 32 + 2 ^ 32 * ((n / 2 ^ 32 + rest) % 2 ^ (32 * m)) =
      (n + 2 ^ 32 * rest) % 2 ^ (32 * (m + 1)) := by
  have hpow : 2 ^ (32 * (m + 1)) = 2 ^ 32 * 2 ^ (32 * m) := by
    rw [Nat.mul_succ, Nat.add_comm, pow_add]
  rw [hpow, Nat.mod_mul, Nat.add_mul_mod_self_left, Nat.add_mul_div_left _ _ (by positivity)]

/-- Limb-wise addition with a running carry; the carry out of the last limb is
dropped. -/
def addCarry (carry : UInt64) : List UInt32 → List UInt32 → List UInt32
  | x :: xs, y :: ys =>
    let n := carry + x.toUInt64 + y.toUInt64
    n.toUInt32 :: addCarry (n >>> 32) xs ys
  | _, _ => []

theorem length_addCarry (carry : UInt64) {xs ys : List UInt32} (hlen : xs.length = ys.length) :
    (addCarry carry xs ys).length = xs.length := by
  induction xs generalizing carry ys with
  | nil => simp [addCarry]
  | cons x xs ih =>
    cases ys with
    | nil => simp at hlen
    | cons y ys => simp [addCarry, ih _ (show xs.length = ys.length by simpa using hlen)]

theorem value_addCarry {carry : UInt64} (hcarry : carry.toNat ≤ 1) {xs ys : List UInt32}
    (hlen : xs.length = ys.length) :
    value (addCarry carry xs ys) =
      (carry.toNat + value xs + value ys) % 2 ^ (32 * xs.length) := by
  induction xs generalizing carry ys with
  | nil => simp [addCarry, Nat.mod_one]
  | cons x xs ih =>
    cases ys with
    | nil => simp at hlen
    | cons y ys =>
      have hx := x.toNat_lt
      have hy := y.toNat_lt
      have hn : (carry + x.toUInt64 + y.toUInt64).toNat = carry.toNat + x.toNat + y.toNat := by
        simp only [UInt64.toNat_add, UInt32.toNat_toUInt64]
        omega
      have hshift : ((carry + x.toUInt64 + y.toUInt64) >>> 32).toNat =
          (carry.toNat + x.toNat + y.toNat) / 2 ^ 32 := by
        rw [UInt64.toNat_shiftRight, hn, Nat.shiftRight_eq_div_pow]
        rfl
      have hnext : ((carry + x.toUInt64 + y.toUInt64) >>> 32).toNat ≤ 1 := by
        rw [hshift]
        omega
      have hrec := ih hnext (show xs.length = ys.length by simpa using hlen)
      simp only [addCarry, value_cons, UInt64.toNat_toUInt32, hn, hrec, hshift, List.length_cons,
        Nat.add_assoc]
      rw [low_add_high_mod]
      congr 1
      ring

/-- Limb-wise product with one 32-bit factor; the carry out of the last limb is
dropped, so the product wraps silently. -/
def mulCarry (b : UInt32) (carry : UInt64) : List UInt32 → List UInt32
  | [] => []
  | x :: xs =>
    let n := carry + b.toUInt64 * x.toUInt64
    n.toUInt32 :: mulCarry b (n >>> 32) xs

@[simp] theorem length_mulCarry (b : UInt32) (carry : UInt64) (xs : List UInt32) :
    (mulCarry b carry xs).length = xs.length := by
  induction xs generalizing carry with
  | nil => rfl
  | cons x xs ih => simp [mulCarry, ih]

theorem value_mulCarry (b : UInt32) {carry : UInt64} (hcarry : carry.toNat < 2 ^ 32)
    (xs : List UInt32) :
    value (mulCarry b carry xs) = (carry.toNat + b.toNat * value xs) % 2 ^ (32 * xs.length) := by
  induction xs generalizing carry with
  | nil => simp [mulCarry, Nat.mod_one]
  | cons x xs ih =>
    have hprod : b.toNat * x.toNat ≤ (2 ^ 32 - 1) * (2 ^ 32 - 1) :=
      Nat.mul_le_mul (by have := b.toNat_lt; omega) (by have := x.toNat_lt; omega)
    have hn : (carry + b.toUInt64 * x.toUInt64).toNat = carry.toNat + b.toNat * x.toNat := by
      simp only [UInt64.toNat_add, UInt64.toNat_mul, UInt32.toNat_toUInt64]
      omega
    have hshift : ((carry + b.toUInt64 * x.toUInt64) >>> 32).toNat =
        (carry.toNat + b.toNat * x.toNat) / 2 ^ 32 := by
      rw [UInt64.toNat_shiftRight, hn, Nat.shiftRight_eq_div_pow]
      rfl
    have hnext : ((carry + b.toUInt64 * x.toUInt64) >>> 32).toNat < 2 ^ 32 := by
      rw [hshift]
      omega
    have hrec := ih hnext
    simp only [mulCarry, value_cons, UInt64.toNat_toUInt32, hn, hrec, hshift, List.length_cons]
    rw [low_add_high_mod]
    congr 1
    ring

/-- Bitwise complement of every limb. -/
def complement (xs : List UInt32) : List UInt32 := xs.map (~~~ ·)

@[simp] theorem length_complement (xs : List UInt32) : (complement xs).length = xs.length := by
  simp [complement]

theorem value_complement (xs : List UInt32) :
    value (complement xs) + value xs + 1 = 2 ^ (32 * xs.length) := by
  induction xs with
  | nil => rfl
  | cons x xs ih =>
    have hx := x.toNat_lt
    have hnot : (~~~x).toNat = 2 ^ 32 - 1 - x.toNat := by simp [UInt32.toNat_not, UInt32.size]
    have hpow : 2 ^ (32 * (x :: xs).length) = 2 ^ 32 * 2 ^ (32 * xs.length) := by
      rw [List.length_cons, Nat.mul_succ, Nat.add_comm, pow_add]
    have htail : value (complement (x :: xs)) = (~~~x).toNat + 2 ^ 32 * value (complement xs) := by
      simp [complement]
    rw [hpow, ← ih, htail, hnot, value_cons]
    omega

/-- Increment in place, rippling only while a limb wraps to zero. -/
def increment : List UInt32 → List UInt32
  | [] => []
  | x :: xs => if x + 1 = 0 then (x + 1) :: increment xs else (x + 1) :: xs

@[simp] theorem length_increment (xs : List UInt32) : (increment xs).length = xs.length := by
  induction xs with
  | nil => rfl
  | cons x xs ih => unfold increment; split <;> simp [ih]

theorem value_increment (xs : List UInt32) :
    value (increment xs) = (value xs + 1) % 2 ^ (32 * xs.length) := by
  induction xs with
  | nil => rfl
  | cons x xs ih =>
    have hx := x.toNat_lt
    have hpow : 2 ^ (32 * (x :: xs).length) = 2 ^ 32 * 2 ^ (32 * xs.length) := by
      rw [List.length_cons, Nat.mul_succ, Nat.add_comm, pow_add]
    have hsucc : (x + 1).toNat = (x.toNat + 1) % 2 ^ 32 := by simp [UInt32.toNat_add]
    unfold increment
    split
    · rename_i hwrap
      have hzero : (x.toNat + 1) % 2 ^ 32 = 0 := by
        rw [← hsucc, hwrap]
        rfl
      have hmax : x.toNat + 1 = 2 ^ 32 := by omega
      rw [value_cons, value_cons, hwrap, ih, hpow]
      have hsum : x.toNat + 2 ^ 32 * value xs + 1 = 2 ^ 32 * (value xs + 1) := by omega
      rw [hsum, Nat.mul_mod_mul_left]
      simp
    · rename_i hnowrap
      have hne : x.toNat + 1 ≠ 2 ^ 32 := by
        intro hmax
        apply hnowrap
        apply UInt32.toNat_inj.mp
        rw [hsucc, hmax]
        rfl
      have htail := value_lt xs
      rw [value_cons, value_cons, hsucc, Nat.mod_eq_of_lt (by omega), hpow,
        Nat.mod_eq_of_lt (by omega)]
      omega

/-- Subtraction as the addition of the two's complement. -/
def subtract (xs ys : List UInt32) : List UInt32 := addCarry 0 xs (increment (complement ys))

theorem length_subtract {xs ys : List UInt32} (hlen : xs.length = ys.length) :
    (subtract xs ys).length = xs.length := by
  rw [subtract, length_addCarry _ (by simpa using hlen)]

theorem value_subtract {xs ys : List UInt32} (hlen : xs.length = ys.length)
    (hle : value ys ≤ value xs) : value (subtract xs ys) = value xs - value ys := by
  have hcompl := value_complement ys
  have hx := value_lt xs
  rw [subtract, value_addCarry (by decide) (by simpa using hlen), value_increment,
    length_complement]
  rw [hlen] at hx ⊢
  by_cases hzero : value ys = 0
  · have hall : value (complement ys) + 1 = 2 ^ (32 * ys.length) := by omega
    rw [hall, Nat.mod_self, hzero]
    simpa using Nat.mod_eq_of_lt hx
  · rw [Nat.mod_eq_of_lt (show value (complement ys) + 1 < 2 ^ (32 * ys.length) by omega)]
    have hsum : (0 : UInt64).toNat + value xs + (value (complement ys) + 1) =
        (value xs - value ys) + 2 ^ (32 * ys.length) := by
      have : (0 : UInt64).toNat = 0 := rfl
      omega
    rw [hsum, Nat.add_mod_right, Nat.mod_eq_of_lt (by omega)]

/-- Limb-wise comparison from the most significant limb down. -/
def compareTo : List UInt32 → List UInt32 → Ordering
  | x :: xs, y :: ys =>
    match compareTo xs ys with
    | .eq => if x < y then .lt else if y < x then .gt else .eq
    | o => o
  | _, _ => .eq

theorem compareTo_eq {xs ys : List UInt32} (hlen : xs.length = ys.length) :
    compareTo xs ys = compare (value xs) (value ys) := by
  induction xs generalizing ys with
  | nil =>
    obtain rfl : ys = [] := by simpa using hlen.symm
    rfl
  | cons x xs ih =>
    cases ys with
    | nil => simp at hlen
    | cons y ys =>
      have hx := x.toNat_lt
      have hy := y.toNat_lt
      have hrec := ih (show xs.length = ys.length by simpa using hlen)
      rw [compareTo, hrec]
      rcases lt_trichotomy (value xs) (value ys) with hlt | heq | hgt
      · rw [compare_lt_iff_lt.mpr hlt]
        symm
        rw [compare_lt_iff_lt, value_cons, value_cons]
        omega
      · rw [compare_eq_iff_eq.mpr heq]
        simp only [UInt32.lt_iff_toNat_lt, value_cons, heq]
        symm
        split
        · rw [compare_lt_iff_lt]; omega
        · split
          · rw [compare_gt_iff_gt]; omega
          · rw [compare_eq_iff_eq]; omega
      · rw [compare_gt_iff_gt.mpr hgt]
        symm
        rw [compare_gt_iff_gt, value_cons, value_cons]
        omega

end limb
