import PCoin.Limb.Div

namespace pcoin.arith_uint256

/-- `base_uint<256>`: eight 32-bit limbs, least significant first. -/
structure ArithUint256 where
  pn : List UInt32
  width : pn.length = 8
deriving DecidableEq

namespace ArithUint256

/-- The number an `arith_uint256` holds. -/
def toNat (a : ArithUint256) : Nat := limb.value a.pn

theorem toNat_lt (a : ArithUint256) : a.toNat < 2 ^ 256 := by
  simpa [toNat, a.width] using limb.value_lt a.pn

theorem ext_toNat {a b : ArithUint256} (h : a.toNat = b.toNat) : a = b := by
  cases a with
  | mk xs hx =>
    cases b with
    | mk ys hy =>
      obtain rfl : xs = ys := limb.value_injective (hx.trans hy.symm) h
      rfl

/-- `base_uint(uint64_t b)`. -/
def ofUInt64 (b : UInt64) : ArithUint256 where
  pn := [b.toUInt32, (b >>> 32).toUInt32, 0, 0, 0, 0, 0, 0]
  width := rfl

@[simp] theorem toNat_ofUInt64 (b : UInt64) : (ofUInt64 b).toNat = b.toNat := by
  have hb := b.toNat_lt
  have hshift : (b >>> 32).toNat = b.toNat / 2 ^ 32 := by
    rw [UInt64.toNat_shiftRight, Nat.shiftRight_eq_div_pow]
    rfl
  simp only [toNat, ofUInt64, limb.value_cons, limb.value_nil, UInt64.toNat_toUInt32, hshift,
    UInt32.toNat_zero]
  omega

/-- `operator~`. -/
def not (a : ArithUint256) : ArithUint256 := ⟨limb.complement a.pn, by simp [a.width]⟩

theorem toNat_not (a : ArithUint256) : a.not.toNat = 2 ^ 256 - 1 - a.toNat := by
  have h := limb.value_complement a.pn
  rw [a.width] at h
  simp only [toNat, not]
  omega

/-- `operator+=`. -/
def add (a b : ArithUint256) : ArithUint256 :=
  ⟨limb.addCarry 0 a.pn b.pn, by rw [limb.length_addCarry _ (a.width.trans b.width.symm), a.width]⟩

theorem toNat_add (a b : ArithUint256) : (a.add b).toNat = (a.toNat + b.toNat) % 2 ^ 256 := by
  have h := limb.value_addCarry (show (0 : UInt64).toNat ≤ 1 by decide)
    (a.width.trans b.width.symm)
  rw [a.width] at h
  simpa [toNat, add] using h

/-- `operator*=(uint32_t)`. The carry out of the top limb is discarded. -/
def mulUInt32 (a : ArithUint256) (b32 : UInt32) : ArithUint256 :=
  ⟨limb.mulCarry b32 0 a.pn, by simp [a.width]⟩

theorem toNat_mulUInt32 (a : ArithUint256) (b32 : UInt32) :
    (a.mulUInt32 b32).toNat = (a.toNat * b32.toNat) % 2 ^ 256 := by
  have h := limb.value_mulCarry b32 (show (0 : UInt64).toNat < 2 ^ 32 by decide) a.pn
  rw [a.width] at h
  simpa [toNat, mulUInt32, Nat.mul_comm] using h

/-- `operator<<=`. -/
def shiftLeft (a : ArithUint256) (shift : Nat) : ArithUint256 :=
  ⟨limb.shiftLeft shift a.pn, by simp [a.width]⟩

theorem toNat_shiftLeft (a : ArithUint256) (shift : Nat) :
    (a.shiftLeft shift).toNat = (a.toNat * 2 ^ shift) % 2 ^ 256 := by
  have h := limb.value_shiftLeft shift a.pn
  rw [a.width] at h
  simpa [toNat, shiftLeft] using h

/-- `operator>>=`. -/
def shiftRight (a : ArithUint256) (shift : Nat) : ArithUint256 :=
  ⟨limb.shiftRight shift a.pn, by simp [a.width]⟩

theorem toNat_shiftRight (a : ArithUint256) (shift : Nat) :
    (a.shiftRight shift).toNat = a.toNat / 2 ^ shift := limb.value_shiftRight shift a.pn

/-- `operator/=`; `none` is the thrown `uint_error("Division by zero")`. -/
def div (a b : ArithUint256) : Option ArithUint256 :=
  match limb.divide a.pn b.pn with
  | some quot => if h : quot.length = 8 then some ⟨quot, h⟩ else none
  | none => none

theorem div_eq_some (a : ArithUint256) {b : ArithUint256} (hb : 0 < b.toNat) :
    ∃ q, a.div b = some q ∧ q.toNat = a.toNat / b.toNat := by
  obtain ⟨quot, hquot, hlen, hval⟩ := limb.divide_eq_some (a.width.trans b.width.symm) hb
  have h8 : quot.length = 8 := hlen.trans a.width
  exact ⟨⟨quot, h8⟩, by simp [div, hquot, h8], hval⟩

/-- `a > b`, through `CompareTo`. -/
def gt (a b : ArithUint256) : Bool := limb.compareTo a.pn b.pn == .gt

@[simp] theorem gt_iff (a b : ArithUint256) : a.gt b = true ↔ b.toNat < a.toNat := by
  rw [gt, limb.compareTo_eq (a.width.trans b.width.symm), beq_iff_eq, compare_gt_iff_gt]
  rfl

/-- `EqualTo`, restricted to the comparison with zero the code makes. -/
def isZero (a : ArithUint256) : Bool := a.pn.all (· == 0)

@[simp] theorem isZero_iff (a : ArithUint256) : a.isZero = true ↔ a.toNat = 0 := by
  have hgen (xs : List UInt32) : xs.all (· == 0) = true ↔ limb.value xs = 0 := by
    induction xs with
    | nil => simp
    | cons x xs ih =>
      rw [List.all_cons, Bool.and_eq_true, ih, limb.value_cons, beq_iff_eq, ← UInt32.toNat_inj,
        UInt32.toNat_zero]
      omega
  exact hgen a.pn

/-- `bits()`. -/
def bits (a : ArithUint256) : Nat := limb.bits a.pn

theorem bits_eq (a : ArithUint256) : a.bits = a.toNat.size := limb.bits_eq_size a.pn

/-- `GetLow64()`. -/
def getLow64 (a : ArithUint256) : UInt64 :=
  (a.pn.getD 0 0).toUInt64 ||| ((a.pn.getD 1 0).toUInt64 <<< 32)

theorem toNat_getLow64 (a : ArithUint256) : a.getLow64.toNat = a.toNat % 2 ^ 64 := by
  have hw := a.width
  obtain ⟨x, y, rest, hpn⟩ : ∃ x y rest, a.pn = x :: y :: rest := by
    match hpn : a.pn with
    | [] => simp [hpn] at hw
    | [x] => simp [hpn] at hw
    | x :: y :: rest => exact ⟨x, y, rest, rfl⟩
  have hx := x.toNat_lt
  have hy := y.toNat_lt
  have hhigh : (y.toUInt64 <<< 32).toNat = 2 ^ 32 * y.toNat := by
    rw [UInt64.toNat_shiftLeft, UInt32.toNat_toUInt64, Nat.shiftLeft_eq]
    change y.toNat * 2 ^ 32 % 2 ^ 64 = _
    omega
  have hor : x.toNat ||| 2 ^ 32 * y.toNat = 2 ^ 32 * y.toNat + x.toNat := by
    rw [Nat.or_comm]
    exact (Nat.two_pow_add_eq_or_of_lt hx y.toNat).symm
  simp only [getLow64, toNat, hpn, List.getD_cons_zero, List.getD_cons_succ, UInt64.toNat_or,
    UInt32.toNat_toUInt64, hhigh, limb.value_cons, hor]
  omega

end ArithUint256

end pcoin.arith_uint256
