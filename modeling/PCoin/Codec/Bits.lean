import Mathlib.Data.List.Basic
import Mathlib.Data.Nat.Bitwise
import Mathlib.Tactic.IntervalCases

namespace codec

/-- The number that the bits `f 0`, .., `f (w - 1)` write, the high bit first. -/
def packed (w : Nat) (f : Nat → Bool) : Nat :=
  (List.range w).foldl (fun v b => (v <<< 1) ||| (f b).toNat) 0

@[simp] theorem packed_zero (f : Nat → Bool) : packed 0 f = 0 := rfl

theorem packed_succ (w : Nat) (f : Nat → Bool) :
    packed (w + 1) f = (packed w f <<< 1) ||| (f w).toNat := by
  simp [packed, List.range_succ]

theorem testBit_toNat (b : Bool) (i : Nat) : b.toNat.testBit i = (b && decide (i = 0)) := by
  cases b with
  | false => simp
  | true => cases i <;> simp [Nat.testBit_succ]

theorem testBit_packed_succ (w : Nat) (f : Nat → Bool) (i : Nat) :
    (packed (w + 1) f).testBit i = if i = 0 then f w else (packed w f).testBit (i - 1) := by
  rw [packed_succ, Nat.testBit_or, Nat.testBit_shiftLeft, testBit_toNat]
  cases i <;> simp

theorem testBit_packed {w b : Nat} (f : Nat → Bool) (hb : b < w) :
    (packed w f).testBit (w - 1 - b) = f b := by
  induction w with
  | zero => omega
  | succ w ih =>
    rw [testBit_packed_succ]
    split
    case isTrue hlast => rw [show b = w by omega]
    case isFalse hlast => rw [← ih (by omega), show w + 1 - 1 - b - 1 = w - 1 - b by omega]

theorem packed_lt (w : Nat) (f : Nat → Bool) : packed w f < 2 ^ w := by
  refine Nat.lt_pow_two_of_testBit _ fun i hi => ?_
  induction w generalizing i with
  | zero => simp
  | succ w ih =>
    rw [testBit_packed_succ, if_neg (by omega)]
    exact ih (i - 1) (by omega)

/-- A number is written by its own bits. -/
theorem packed_eq {w v : Nat} {f : Nat → Bool} (hv : v < 2 ^ w)
    (hf : ∀ b < w, v.testBit (w - 1 - b) = f b) : packed w f = v := by
  refine Nat.eq_of_testBit_eq fun i => ?_
  by_cases hi : i < w
  · have := hf (w - 1 - i) (by omega)
    rw [show w - 1 - (w - 1 - i) = i by omega] at this
    rw [this, ← testBit_packed f (show w - 1 - i < w by omega), show w - 1 - (w - 1 - i) = i by omega]
  · have hpow := Nat.pow_le_pow_right (by decide : 0 < 2) (not_lt.mp hi)
    rw [Nat.testBit_lt_two_pow ((packed_lt w f).trans_le hpow), Nat.testBit_lt_two_pow (hv.trans_le hpow)]

/-- Bit `i` of the bytes, the high bit of a byte first. -/
def bitAt (xs : List UInt8) (i : Nat) : Bool := (xs.getD (i / 8) 0).toNat.testBit (7 - i % 8)

/-- Bytes with the same bits are the same. -/
theorem eq_of_bitAt {xs ys : List UInt8} (hlen : xs.length = ys.length)
    (h : ∀ i < 8 * xs.length, bitAt xs i = bitAt ys i) : xs = ys := by
  refine List.ext_getElem hlen fun k hk hk' => UInt8.toNat_inj.mp (Nat.eq_of_testBit_eq fun j => ?_)
  by_cases hj : j < 8
  · have := h (8 * k + (7 - j)) (by omega)
    rw [bitAt, bitAt, show (8 * k + (7 - j)) / 8 = k by omega,
      show 7 - (8 * k + (7 - j)) % 8 = j by omega] at this
    rwa [List.getD_eq_getElem _ _ hk, List.getD_eq_getElem _ _ hk'] at this
  · have hpow := Nat.pow_le_pow_right (by decide : 0 < 2) (not_lt.mp hj)
    rw [Nat.testBit_lt_two_pow ((xs[k]).toNat_lt.trans_le hpow),
      Nat.testBit_lt_two_pow ((ys[k]).toNat_lt.trans_le hpow)]

theorem toNat_seven_sub {k : Nat} (hk : k < 8) : (7 - UInt8.ofNat k).toNat % 8 = 7 - k := by
  interval_cases k <;> rfl

theorem bit_byte (x : UInt8) {k : Nat} (hk : k < 8) :
    ((x >>> (7 - UInt8.ofNat k)) &&& 1).toNat = (x.toNat.testBit (7 - k)).toNat := by
  rw [UInt8.toNat_and, UInt8.toNat_shiftRight, toNat_seven_sub hk, Nat.testBit, Nat.and_comm]
  change 1 &&& x.toNat >>> (7 - k) = _
  rw [Nat.one_and_eq_mod_two]
  rcases Nat.mod_two_eq_zero_or_one (x.toNat >>> (7 - k)) with h | h <;> simp [h]

theorem testBit_byte_or (x : UInt8) {k l : Nat} (hk : k < 8) (hl : l < 8) :
    (x ||| (1 <<< (7 - UInt8.ofNat k))).toNat.testBit (7 - l) =
      (x.toNat.testBit (7 - l) || decide (k = l)) := by
  rw [UInt8.toNat_or, Nat.testBit_or, UInt8.toNat_shiftLeft, toNat_seven_sub hk]
  have hbit : (1 <<< (7 - k) % 2 ^ 8).testBit (7 - l) = decide (k = l) := by
    interval_cases k <;> interval_cases l <;> rfl
  exact congrArg _ hbit

/-- One bit is written. -/
theorem bitAt_set (xs : List UInt8) {i : Nat} (hi : i / 8 < xs.length) (j : Nat) :
    bitAt (xs.set (i / 8) (xs[i / 8] ||| (1 <<< (7 - UInt8.ofNat (i % 8))))) j =
      (bitAt xs j || decide (i = j)) := by
  have hmod : ∀ n : Nat, n % 8 < 8 := fun n => Nat.mod_lt n (by decide)
  rw [bitAt, bitAt]
  by_cases hbyte : i / 8 = j / 8
  · have hget : (xs.set (i / 8) (xs[i / 8] ||| (1 <<< (7 - UInt8.ofNat (i % 8))))).getD (j / 8) 0 =
        xs[i / 8] ||| (1 <<< (7 - UInt8.ofNat (i % 8))) := by
      rw [← hbyte, List.getD_eq_getElem _ _ (by simpa using hi), List.getElem_set_self]
    rw [hget, testBit_byte_or _ (hmod i) (hmod j), ← hbyte, List.getD_eq_getElem _ _ hi]
    congr 1
    rw [decide_eq_decide]
    omega
  · have hne : i ≠ j := fun heq => hbyte (by rw [heq])
    rw [List.getD_eq_getElem?_getD, List.getElem?_set_ne hbyte, ← List.getD_eq_getElem?_getD]
    simp [hne]

end codec
