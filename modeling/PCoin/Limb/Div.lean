import PCoin.Limb.Basic

namespace limb

/-- Bit `i` of the denoted number is bit `i % 32` of limb `i / 32`. -/
theorem testBit_value (xs : List UInt32) (i : Nat) :
    (value xs).testBit i = (xs.getD (i / 32) 0).toNat.testBit (i % 32) := by
  induction xs generalizing i with
  | nil => simp
  | cons x xs ih =>
    have hx := x.toNat_lt
    rw [value_cons, Nat.add_comm, Nat.testBit_two_pow_mul_add _ hx]
    split
    · rename_i hlow
      rw [Nat.div_eq_of_lt hlow, Nat.mod_eq_of_lt hlow]
      rfl
    · rename_i hhigh
      obtain ⟨j, rfl⟩ : ∃ j, i = j + 32 := ⟨i - 32, by omega⟩
      rw [Nat.add_sub_cancel, ih j, Nat.add_div_right j (by decide), Nat.add_mod_right,
        List.getD_cons_succ]

theorem testBit_limb_ge (x : UInt32) {i : Nat} (hi : 32 ≤ i) : x.toNat.testBit i = false :=
  Nat.testBit_lt_two_pow (x.toNat_lt.trans_le (Nat.pow_le_pow_right (by decide) hi))

private theorem toNat_ofNat_mod {s : Nat} (hs : s < 32) : (UInt32.ofNat s).toNat % 32 = s := by
  rw [UInt32.toNat_ofNat', Nat.mod_eq_of_lt (show s < 2 ^ 32 by omega), Nat.mod_eq_of_lt hs]

private theorem testBit_limb_shiftLeft (x : UInt32) {s b : Nat} (hs : s < 32) (hb : b < 32) :
    (x <<< UInt32.ofNat s).toNat.testBit b = (decide (s ≤ b) && x.toNat.testBit (b - s)) := by
  rw [UInt32.toNat_shiftLeft, toNat_ofNat_mod hs, Nat.testBit_mod_two_pow, Nat.testBit_shiftLeft]
  simp [hb]

private theorem testBit_limb_shiftRight (x : UInt32) {s : Nat} (hs : s < 32) (b : Nat) :
    (x >>> UInt32.ofNat s).toNat.testBit b = x.toNat.testBit (s + b) := by
  rw [UInt32.toNat_shiftRight, toNat_ofNat_mod hs, Nat.testBit_shiftRight]

/-- Left shift of a fixed-width limb list. Limb `j` collects the two words the
limb loop writes there: `xs[j - k] << s`, and `xs[j - k - 1] >> (32 - s)` when
the shift is not a whole number of limbs. -/
def shiftLeft (n : Nat) (xs : List UInt32) : List UInt32 :=
  let k := n / 32
  let s := n % 32
  (List.range xs.length).map fun j =>
    (if k ≤ j then xs.getD (j - k) 0 <<< UInt32.ofNat s else 0) |||
      (if k + 1 ≤ j ∧ s ≠ 0 then xs.getD (j - k - 1) 0 >>> UInt32.ofNat (32 - s) else 0)

@[simp] theorem length_shiftLeft (n : Nat) (xs : List UInt32) :
    (shiftLeft n xs).length = xs.length := by
  simp [shiftLeft]

/-- The bits of a left shift, limb by limb. -/
private theorem testBit_shiftLeft_limb (n : Nat) (xs : List UInt32) {j b : Nat}
    (hj : j < xs.length) (hb : b < 32) :
    ((shiftLeft n xs).getD j 0).toNat.testBit b =
      (decide (n ≤ 32 * j + b) &&
        (xs.getD ((32 * j + b - n) / 32) 0).toNat.testBit ((32 * j + b - n) % 32)) := by
  have hs : n % 32 < 32 := Nat.mod_lt _ (by decide)
  have hn : n = 32 * (n / 32) + n % 32 := (Nat.div_add_mod n 32).symm
  generalize n / 32 = k at hn
  generalize n % 32 = s at hn hs
  subst hn
  have hk : (32 * k + s) / 32 = k := by omega
  have hr : (32 * k + s) % 32 = s := by omega
  have hget : (shiftLeft (32 * k + s) xs).getD j 0 =
      (if k ≤ j then xs.getD (j - k) 0 <<< UInt32.ofNat s else 0) |||
        (if k + 1 ≤ j ∧ s ≠ 0 then xs.getD (j - k - 1) 0 >>> UInt32.ofNat (32 - s) else 0) := by
    simp only [shiftLeft, hk, hr]
    rw [List.getD_eq_getElem _ _ (by simpa using hj)]
    simp
  rw [hget, UInt32.toNat_or, Nat.testBit_or]
  by_cases hin : s ≤ b
  · -- the bit comes from the limb `k` places below
    have hright : (if k + 1 ≤ j ∧ s ≠ 0 then xs.getD (j - k - 1) 0 >>> UInt32.ofNat (32 - s)
        else 0).toNat.testBit b = false := by
      split
      · rename_i hcase
        rw [testBit_limb_shiftRight _ (by omega), testBit_limb_ge _ (by omega)]
      · simp
    rw [hright, Bool.or_false]
    by_cases hkj : k ≤ j
    · have hdiv : (32 * j + b - (32 * k + s)) / 32 = j - k := by omega
      have hmod : (32 * j + b - (32 * k + s)) % 32 = b - s := by omega
      rw [if_pos hkj, testBit_limb_shiftLeft _ hs hb, hdiv, hmod]
      simp [hin, show 32 * k + s ≤ 32 * j + b by omega]
    · rw [if_neg hkj]
      simp [show ¬ 32 * k + s ≤ 32 * j + b by omega]
  · -- the bit is carried over from the limb `k + 1` places below
    have hleft : (if k ≤ j then xs.getD (j - k) 0 <<< UInt32.ofNat s
        else 0).toNat.testBit b = false := by
      split
      · rw [testBit_limb_shiftLeft _ hs hb]
        simp [hin]
      · simp
    rw [hleft, Bool.false_or]
    by_cases hkj : k + 1 ≤ j
    · have hdiv : (32 * j + b - (32 * k + s)) / 32 = j - k - 1 := by omega
      have hmod : (32 * j + b - (32 * k + s)) % 32 = 32 - s + b := by omega
      rw [if_pos ⟨hkj, by omega⟩, testBit_limb_shiftRight _ (by omega), hdiv, hmod]
      simp [show 32 * k + s ≤ 32 * j + b by omega]
    · rw [if_neg (by simp [hkj])]
      simp [show ¬ 32 * k + s ≤ 32 * j + b by omega]

theorem value_shiftLeft (n : Nat) (xs : List UInt32) :
    value (shiftLeft n xs) = (value xs * 2 ^ n) % 2 ^ (32 * xs.length) := by
  apply Nat.eq_of_testBit_eq
  intro i
  rw [← Nat.shiftLeft_eq, Nat.testBit_mod_two_pow, Nat.testBit_shiftLeft, testBit_value]
  by_cases hi : i < 32 * xs.length
  · rw [testBit_shiftLeft_limb n xs (by omega) (Nat.mod_lt _ (by decide)), Nat.div_add_mod,
      testBit_value]
    simp [hi]
  · have hout : (shiftLeft n xs).getD (i / 32) 0 = 0 := by
      rw [List.getD_eq_default]
      simp only [length_shiftLeft]
      omega
    rw [hout]
    simp [hi]

/-- Right shift of a fixed-width limb list, as `shiftLeft`: limb `j` collects
`xs[j + k] >> s` and, off a limb boundary, `xs[j + k + 1] << (32 - s)`. -/
def shiftRight (n : Nat) (xs : List UInt32) : List UInt32 :=
  let k := n / 32
  let s := n % 32
  (List.range xs.length).map fun j =>
    (if s ≠ 0 then xs.getD (j + k + 1) 0 <<< UInt32.ofNat (32 - s) else 0) |||
      xs.getD (j + k) 0 >>> UInt32.ofNat s

@[simp] theorem length_shiftRight (n : Nat) (xs : List UInt32) :
    (shiftRight n xs).length = xs.length := by
  simp [shiftRight]

private theorem testBit_shiftRight_limb (n : Nat) (xs : List UInt32) {j b : Nat}
    (hj : j < xs.length) (hb : b < 32) :
    ((shiftRight n xs).getD j 0).toNat.testBit b =
      (xs.getD ((n + (32 * j + b)) / 32) 0).toNat.testBit ((n + (32 * j + b)) % 32) := by
  have hs : n % 32 < 32 := Nat.mod_lt _ (by decide)
  have hn : n = 32 * (n / 32) + n % 32 := (Nat.div_add_mod n 32).symm
  generalize n / 32 = k at hn
  generalize n % 32 = s at hn hs
  subst hn
  have hk : (32 * k + s) / 32 = k := by omega
  have hr : (32 * k + s) % 32 = s := by omega
  have hget : (shiftRight (32 * k + s) xs).getD j 0 =
      (if s ≠ 0 then xs.getD (j + k + 1) 0 <<< UInt32.ofNat (32 - s) else 0) |||
        xs.getD (j + k) 0 >>> UInt32.ofNat s := by
    simp only [shiftRight, hk, hr]
    rw [List.getD_eq_getElem _ _ (by simpa using hj)]
    simp
  rw [hget, UInt32.toNat_or, Nat.testBit_or, testBit_limb_shiftRight _ hs]
  by_cases hin : s + b < 32
  · have hleft : (if s ≠ 0 then xs.getD (j + k + 1) 0 <<< UInt32.ofNat (32 - s)
        else 0).toNat.testBit b = false := by
      split
      · rw [testBit_limb_shiftLeft _ (by omega) hb]
        simp [show ¬ 32 - s ≤ b by omega]
      · simp
    have hdiv : (32 * k + s + (32 * j + b)) / 32 = j + k := by omega
    have hmod : (32 * k + s + (32 * j + b)) % 32 = s + b := by omega
    rw [hleft, Bool.false_or, hdiv, hmod]
  · have hright : (xs.getD (j + k) 0).toNat.testBit (s + b) = false :=
      testBit_limb_ge _ (by omega)
    have hdiv : (32 * k + s + (32 * j + b)) / 32 = j + k + 1 := by omega
    have hmod : (32 * k + s + (32 * j + b)) % 32 = b - (32 - s) := by omega
    rw [hright, Bool.or_false, if_pos (by omega), testBit_limb_shiftLeft _ (by omega) hb, hdiv,
      hmod]
    simp [show 32 - s ≤ b by omega]

theorem value_shiftRight (n : Nat) (xs : List UInt32) :
    value (shiftRight n xs) = value xs / 2 ^ n := by
  apply Nat.eq_of_testBit_eq
  intro i
  rw [← Nat.shiftRight_eq_div_pow, Nat.testBit_shiftRight, testBit_value, testBit_value]
  by_cases hi : i < 32 * xs.length
  · rw [testBit_shiftRight_limb n xs (by omega) (Nat.mod_lt _ (by decide)), Nat.div_add_mod]
  · have hout : (shiftRight n xs).getD (i / 32) 0 = 0 := by
      rw [List.getD_eq_default]
      simp only [length_shiftRight]
      omega
    have hzero : xs.getD ((n + i) / 32) 0 = 0 := by
      rw [List.getD_eq_default]
      omega
    rw [hout, hzero]
    simp

/-- Position of the highest set bit of one limb, plus one. The scan stops
before bit 0, so a nonzero limb reports at least 1. -/
def limbBits (x : UInt32) : Nat → Nat
  | 0 => 1
  | nbits + 1 => if x &&& (1 <<< UInt32.ofNat (nbits + 1)) ≠ 0 then nbits + 2 else limbBits x nbits

/-- Position of the highest set bit plus one, scanning limbs from the top; zero
for the number zero. -/
def bits : List UInt32 → Nat
  | [] => 0
  | x :: xs =>
    let above := bits xs
    if above ≠ 0 then above + 32 else if x ≠ 0 then limbBits x 31 else 0

theorem toNat_one_shiftLeft {m : Nat} (hm : m < 32) :
    ((1 : UInt32) <<< UInt32.ofNat m).toNat = 2 ^ m := by
  rw [UInt32.toNat_shiftLeft, toNat_ofNat_mod hm, UInt32.toNat_one, Nat.one_shiftLeft,
    Nat.mod_eq_of_lt (Nat.pow_lt_pow_right (by decide) hm)]

private theorem and_one_shiftLeft_ne_zero (x : UInt32) {m : Nat} (hm : m < 32) :
    x &&& (1 <<< UInt32.ofNat m) ≠ 0 ↔ x.toNat.testBit m = true := by
  rw [Ne, ← UInt32.toNat_inj, UInt32.toNat_and, toNat_one_shiftLeft hm, Nat.and_two_pow]
  cases x.toNat.testBit m <;> simp

private theorem limbBits_eq_size (x : UInt32) (hx : x ≠ 0) {nbits : Nat} (hn : nbits < 32)
    (hsize : x.toNat < 2 ^ (nbits + 1)) : limbBits x nbits = x.toNat.size := by
  have hpos : 0 < x.toNat := by
    rcases Nat.eq_zero_or_pos x.toNat with h | h
    · exact absurd (UInt32.toNat_inj.mp h) hx
    · exact h
  induction nbits with
  | zero =>
    have : x.toNat = 1 := by omega
    simp [limbBits, this]
  | succ nbits ih =>
    rw [limbBits]
    by_cases hbit : x.toNat.testBit (nbits + 1) = true
    · rw [if_pos ((and_one_shiftLeft_ne_zero x (by omega)).mpr hbit)]
      have hge := Nat.ge_two_pow_of_testBit hbit
      exact (le_antisymm (Nat.size_le.mpr hsize) (Nat.lt_size.mpr hge)).symm
    · rw [if_neg (by rw [and_one_shiftLeft_ne_zero x (by omega)]; exact hbit)]
      apply ih (by omega)
      by_contra hbig
      apply hbit
      rw [Nat.testBit_eq_decide_div_mod_eq]
      have hdiv : x.toNat / 2 ^ (nbits + 1) = 1 := by
        have hpow : 2 ^ (nbits + 1 + 1) = 2 * 2 ^ (nbits + 1) := by ring
        apply Nat.div_eq_of_lt_le <;> omega
      simp [hdiv]

theorem bits_eq_size (xs : List UInt32) : bits xs = (value xs).size := by
  induction xs with
  | nil => rfl
  | cons x xs ih =>
    have hx := x.toNat_lt
    rw [bits, ih]
    by_cases habove : value xs = 0
    · simp only [habove, Nat.size_zero, ne_eq, not_true_eq_false, if_false, value_cons,
        Nat.mul_zero, Nat.add_zero]
      split
      · exact limbBits_eq_size x ‹_› (by decide) hx
      · rename_i hzero
        obtain rfl : x = 0 := by simpa using hzero
        rfl
    · have hpos : 0 < value xs := Nat.pos_of_ne_zero habove
      rw [if_pos (Nat.size_pos.mpr hpos).ne', value_cons]
      have hlow : 2 ^ ((value xs).size - 1) ≤ value xs := Nat.lt_size.mp (by
        have := Nat.size_pos.mpr hpos
        omega)
      have hhigh : value xs < 2 ^ (value xs).size := Nat.lt_size_self _
      have hsize := Nat.size_pos.mpr hpos
      apply le_antisymm
      · have hlt : (value xs).size + 31 < (x.toNat + 2 ^ 32 * value xs).size := by
          apply Nat.lt_size.mpr
          have hpow : 2 ^ ((value xs).size + 31) = 2 ^ 32 * 2 ^ ((value xs).size - 1) := by
            rw [← pow_add]
            congr 1
            omega
          rw [hpow]
          have := Nat.mul_le_mul_left (2 ^ 32) hlow
          omega
        omega
      · apply Nat.size_le.mpr
        rw [pow_add]
        have hstep := Nat.mul_le_mul_left (2 ^ 32) (Nat.succ_le_of_lt hhigh)
        rw [Nat.mul_succ] at hstep
        rw [Nat.mul_comm (2 ^ (value xs).size)]
        omega

/-- Set bit `n` of a limb list. -/
def setBit (n : Nat) (xs : List UInt32) : List UInt32 :=
  xs.modify (n / 32) (· ||| (1 <<< UInt32.ofNat (n % 32)))

@[simp] theorem length_setBit (n : Nat) (xs : List UInt32) : (setBit n xs).length = xs.length := by
  simp [setBit]

private theorem getD_setBit (n : Nat) (xs : List UInt32) (j : Nat) :
    (setBit n xs).getD j 0 =
      if n / 32 = j ∧ j < xs.length then xs.getD j 0 ||| (1 <<< UInt32.ofNat (n % 32))
      else xs.getD j 0 := by
  by_cases hj : j < xs.length
  · rw [List.getD_eq_getElem _ _ (by simpa using hj), List.getD_eq_getElem _ _ hj]
    simp only [setBit, List.getElem_modify, hj, and_true]
  · rw [List.getD_eq_default _ _ (by simpa using hj), List.getD_eq_default _ _ (by simpa using hj)]
    simp [hj]

theorem value_setBit {n : Nat} {xs : List UInt32} (hn : n < 32 * xs.length) :
    value (setBit n xs) = value xs ||| 2 ^ n := by
  apply Nat.eq_of_testBit_eq
  intro i
  have hmod : n % 32 < 32 := Nat.mod_lt _ (by decide)
  rw [Nat.testBit_or, testBit_value, testBit_value, getD_setBit, Nat.testBit_two_pow]
  by_cases hlimb : n / 32 = i / 32
  · rw [if_pos ⟨hlimb, by omega⟩, UInt32.toNat_or, Nat.testBit_or, toNat_one_shiftLeft hmod,
      Nat.testBit_two_pow]
    congr 1
    simp only [decide_eq_decide]
    omega
  · rw [if_neg (by simp [hlimb])]
    simp [show n ≠ i by rintro rfl; exact hlimb rfl]

/-- Long division one quotient bit at a time. The first argument is one more
than the position of the next quotient bit; `div` is the divisor shifted to that
position. -/
def divLoop : Nat → List UInt32 → List UInt32 → List UInt32 → List UInt32
  | 0, _, _, quot => quot
  | shift + 1, num, div, quot =>
    if compareTo num div ≠ .lt then
      divLoop shift (subtract num div) (shiftRight 1 div) (setBit shift quot)
    else
      divLoop shift num (shiftRight 1 div) quot

/-- Schoolbook division; `none` is the division by zero. -/
def divide (xs ys : List UInt32) : Option (List UInt32) :=
  let zero := xs.map fun _ => 0
  let numBits := bits xs
  let divBits := bits ys
  if divBits = 0 then none
  else if divBits > numBits then some zero
  else
    let shift := numBits - divBits
    some (divLoop (shift + 1) xs (shiftLeft shift ys) zero)

theorem length_divLoop (n : Nat) (num div quot : List UInt32) :
    (divLoop n num div quot).length = quot.length := by
  induction n generalizing num div quot with
  | zero => rfl
  | succ n ih => rw [divLoop]; split <;> simp [ih]

private theorem value_zero (xs : List UInt32) : value (xs.map fun _ => 0) = 0 := by
  induction xs with
  | nil => rfl
  | cons x xs ih => simpa using ih

/-- The loop invariant of long division: while the remainder stays below the
divisor at the position just above, the quotient written so far plus what the
remaining bits contribute is the quotient. -/
theorem value_divLoop {b n : Nat} {num div quot : List UInt32} (hb : 0 < b)
    (hlen : num.length = div.length) (hfit : n ≤ 32 * quot.length)
    (hdiv : 0 < n → value div = b * 2 ^ (n - 1)) (hnum : value num < b * 2 ^ n)
    (hquot : 2 ^ n ∣ value quot) :
    value (divLoop n num div quot) = value quot + value num / b := by
  induction n generalizing num div quot with
  | zero =>
    have hsmall : value num < b := by simpa using hnum
    simp [divLoop, Nat.div_eq_of_lt hsmall]
  | succ n ih =>
    have hd : value div = b * 2 ^ n := by simpa using hdiv (by omega)
    have hnext : 0 < n → value (shiftRight 1 div) = b * 2 ^ (n - 1) := by
      intro hn
      obtain ⟨m, rfl⟩ : ∃ m, n = m + 1 := ⟨n - 1, by omega⟩
      rw [value_shiftRight, hd, pow_succ, pow_one, ← Nat.mul_assoc, Nat.add_sub_cancel,
        Nat.mul_div_cancel _ (by decide)]
    have hlower : 2 ^ n ∣ value quot := (pow_dvd_pow 2 n.le_succ).trans hquot
    have hnum' : value num < 2 * (b * 2 ^ n) := by
      rw [pow_succ] at hnum
      linarith
    rw [divLoop, compareTo_eq hlen]
    by_cases hge : value div ≤ value num
    · have hsub := value_subtract hlen hge
      have hset : value (setBit n quot) = value quot + 2 ^ n := by
        obtain ⟨c, hc⟩ := hquot
        rw [value_setBit (by omega), hc]
        exact (Nat.two_pow_add_eq_or_of_lt (Nat.pow_lt_pow_right (by decide) n.lt_succ_self) c).symm
      have hset_dvd : 2 ^ n ∣ value (setBit n quot) := by
        rw [hset]
        exact dvd_add hlower (dvd_refl _)
      have hquotient : 2 ^ n + (value num - b * 2 ^ n) / b = value num / b := by
        rw [hd] at hge
        rw [Nat.sub_mul_div, Nat.add_sub_cancel']
        exact (Nat.le_div_iff_mul_le hb).mpr (by rwa [Nat.mul_comm])
      rw [if_pos (by rw [Ne, compare_lt_iff_lt]; omega)]
      rw [ih (by simpa [length_subtract hlen] using hlen) (by simp; omega) hnext
        (by rw [hsub, hd]; omega) hset_dvd, hset, hsub, hd, Nat.add_assoc, hquotient]
    · rw [if_neg (by rw [Ne, compare_lt_iff_lt]; omega)]
      exact ih (by simpa using hlen) (by omega) hnext (by omega) hlower

theorem divide_eq_some {xs ys : List UInt32} (hlen : xs.length = ys.length) (hpos : 0 < value ys) :
    ∃ quot, divide xs ys = some quot ∧ quot.length = xs.length ∧
      value quot = value xs / value ys := by
  have hdb : 0 < (value ys).size := Nat.size_pos.mpr hpos
  simp only [divide, bits_eq_size, if_neg hdb.ne']
  by_cases hsmall : (value ys).size > (value xs).size
  · rw [if_pos hsmall]
    refine ⟨_, rfl, by simp, ?_⟩
    have hlt : value xs < value ys :=
      (Nat.lt_size_self _).trans_le (Nat.lt_size.mp hsmall)
    rw [value_zero, Nat.div_eq_of_lt hlt]
  · rw [if_neg hsmall]
    obtain ⟨shift, hshift⟩ : ∃ shift, (value xs).size - (value ys).size = shift := ⟨_, rfl⟩
    rw [hshift]
    have hsize : (value xs).size ≤ 32 * xs.length := Nat.size_le.mpr (value_lt xs)
    have hupper : value ys < 2 ^ (value ys).size := Nat.lt_size_self _
    have hlower : 2 ^ ((value ys).size - 1) ≤ value ys := Nat.lt_size.mp (by omega)
    have hdiv : value (shiftLeft shift ys) = value ys * 2 ^ shift := by
      rw [value_shiftLeft]
      apply Nat.mod_eq_of_lt
      calc value ys * 2 ^ shift < 2 ^ (value ys).size * 2 ^ shift :=
            Nat.mul_lt_mul_of_pos_right hupper (by positivity)
        _ = 2 ^ (value xs).size := by rw [← pow_add]; congr 1; omega
        _ ≤ 2 ^ (32 * ys.length) := Nat.pow_le_pow_right (by decide) (by omega)
    have hnum : value xs < value ys * 2 ^ (shift + 1) := by
      calc value xs < 2 ^ (value xs).size := Nat.lt_size_self _
        _ = 2 ^ ((value ys).size - 1) * 2 ^ (shift + 1) := by rw [← pow_add]; congr 1; omega
        _ ≤ value ys * 2 ^ (shift + 1) := Nat.mul_le_mul_right _ hlower
    refine ⟨_, rfl, by rw [length_divLoop]; simp, ?_⟩
    rw [value_divLoop hpos (by simpa using hlen) (by simp; omega) (fun _ => hdiv) hnum
      (by rw [value_zero]; exact dvd_zero _), value_zero, Nat.zero_add]

end limb
