import Mathlib

namespace pcoin.lwma_ref

def MASK256 : Nat := 2 ^ 256 - 1

def set_compact (c : Nat) : Nat :=
  let size := c >>> 24
  let word := c &&& 0x007fffff
  if size ≤ 3 then word >>> (8 * (3 - size))
  else (word <<< (8 * (size - 3))) &&& MASK256

def get_compact (n : Nat) : Nat :=
  let size := (n.size + 7) / 8
  let compact :=
    if size ≤ 3 then (n <<< (8 * (3 - size))) &&& 0xffffffff
    else (n >>> (8 * (size - 3))) &&& 0xffffffff
  if compact &&& 0x00800000 ≠ 0 then (compact >>> 8) ||| ((size + 1) <<< 24)
  else compact ||| (size <<< 24)

/-- The accumulation loop of `lwma`. `i` is the index of the first pair left in
the window, `prev` the running maximum of the timestamps so far. -/
def lwmaLoop (ST : Int) (pow_limit denom : Nat) :
    Nat → Int → List (Int × Nat) → Int → Nat → Except String (Int × Nat)
  | _, _, [], t, sum_target => .ok (t, sum_target)
  | i, prev, (time, bits) :: rest, t, sum_target =>
    let cur := max time prev
    let st := if cur - prev > ST then ST else cur - prev
    let target := set_compact bits
    if target ≤ pow_limit then
      lwmaLoop ST pow_limit denom (i + 1) cur rest (t + st * i) (sum_target + target / denom)
    else .error "AssertionError: target <= pow_limit"

/-- `lwma(times, bits, N, T, ST, pow_limit)`: the window is newest-last, and
index 0 supplies a timestamp only. Failed assertions are errors. -/
def lwma (times : List Int) (bits : List Nat) (N T : Nat) (ST : Option Nat) (pow_limit : Nat) :
    Except String Nat := do
  unless times.length = N + 1 ∧ bits.length = N + 1 do
    throw "AssertionError: len(times) == N + 1 and len(bits) == N + 1"
  let ST := ST.getD (12 * T)
  let k := N * (N + 1) * T / 2
  let denom := k * N
  unless 0 < denom ∧ denom ≤ 0xffffffff do
    throw "AssertionError: 0 < denom <= 0xffffffff"
  let (t, sum_target) ←
    lwmaLoop ST pow_limit denom 1 (times.headD 0) (times.tail.zip bits.tail) 0 0
  let t : Int := if t < (k / 3 : Nat) then (k / 3 : Nat) else t
  unless 0 < t ∧ t ≤ 0xffffffff do
    throw "AssertionError: 0 < t <= 0xffffffff"
  let bn_new := sum_target * t.toNat
  unless bn_new ≤ ST / T * pow_limit do
    throw "AssertionError: overflow bound violated"
  let bn_new := if bn_new > pow_limit then pow_limit else bn_new
  let bn_new := if bn_new = 0 then 1 else bn_new
  return get_compact bn_new

/-- `legacy(last_bits, last_time, first_time, timespan, pow_limit)` for a
timespan in seconds; `none` is the `ZeroDivisionError` of a zero timespan. -/
def legacy (last_bits : Nat) (last_time first_time : Int) (timespan pow_limit : Nat) :
    Option Nat :=
  let actual := last_time - first_time
  let actual : Int := if actual < (timespan / 4 : Nat) then (timespan / 4 : Nat) else actual
  let actual : Int := if actual > (timespan * 4 : Nat) then (timespan * 4 : Nat) else actual
  -- `& MASK256` is where the product silently wraps
  let bn := ((set_compact last_bits : Int) * actual % 2 ^ 256).toNat
  if timespan = 0 then none
  else
    let bn := bn / timespan
    let bn := if bn > pow_limit then pow_limit else bn
    some (get_compact bn)

private theorem two_pow_eight_mul (m : Nat) : 2 ^ (8 * m) = 256 ^ m := by rw [pow_mul]; norm_num

theorem set_compact_eq (c : Nat) :
    set_compact c =
      if c / 2 ^ 24 ≤ 3 then c % 2 ^ 23 / 256 ^ (3 - c / 2 ^ 24)
      else c % 2 ^ 23 * 256 ^ (c / 2 ^ 24 - 3) % 2 ^ 256 := by
  have hword : c &&& 0x007fffff = c % 2 ^ 23 := Nat.and_two_pow_sub_one_eq_mod c 23
  simp only [set_compact, MASK256, hword, Nat.shiftRight_eq_div_pow, Nat.shiftLeft_eq,
    two_pow_eight_mul, Nat.and_two_pow_sub_one_eq_mod]

/-- Length of a number in bytes. -/
def byteSize (n : Nat) : Nat := (n.size + 7) / 8

theorem byteSize_bounds {n : Nat} (hn : 0 < n) :
    0 < byteSize n ∧ 256 ^ (byteSize n - 1) ≤ n ∧ n < 256 ^ byteSize n := by
  have hsize := Nat.size_pos.mpr hn
  refine ⟨by unfold byteSize; omega, ?_, ?_⟩
  · rw [← two_pow_eight_mul]
    exact Nat.lt_size.mp (by unfold byteSize; omega)
  · rw [← two_pow_eight_mul]
    exact Nat.size_le.mp (by unfold byteSize; omega)

theorem byteSize_le {n : Nat} (hn : n < 2 ^ 256) : byteSize n ≤ 32 := by
  have := Nat.size_le.mpr hn
  unfold byteSize
  omega

/-- The three leading bytes of a number, before the sign bit is moved out of
the way. -/
def leading (n : Nat) : Nat :=
  if byteSize n ≤ 3 then n * 256 ^ (3 - byteSize n) else n / 256 ^ (byteSize n - 3)

theorem leading_lt {n : Nat} (hn : 0 < n) : leading n < 2 ^ 24 := by
  obtain ⟨_, _, hhigh⟩ := byteSize_bounds hn
  unfold leading
  split
  · rename_i h3
    calc n * 256 ^ (3 - byteSize n) < 256 ^ byteSize n * 256 ^ (3 - byteSize n) :=
          Nat.mul_lt_mul_of_pos_right hhigh (by positivity)
      _ = 2 ^ 24 := by rw [← pow_add, Nat.add_sub_cancel' h3]; norm_num
  · apply Nat.div_lt_of_lt_mul
    calc n < 256 ^ byteSize n := hhigh
      _ = 256 ^ (byteSize n - 3) * 2 ^ 24 := by
        rw [show (2 : Nat) ^ 24 = 256 ^ 3 by norm_num, ← pow_add]
        congr 1
        omega

/-- The leading bytes of a positive number keep at least sixteen of its bits. -/
theorem leading_ge {n : Nat} (hn : 0 < n) : 2 ^ 16 ≤ leading n := by
  obtain ⟨hpos, hlow, _⟩ := byteSize_bounds hn
  unfold leading
  split
  · rename_i h3
    calc 2 ^ 16 = 256 ^ (byteSize n - 1) * 256 ^ (3 - byteSize n) := by
          rw [← pow_add, show byteSize n - 1 + (3 - byteSize n) = 2 by omega]
          norm_num
      _ ≤ n * 256 ^ (3 - byteSize n) := Nat.mul_le_mul_right _ hlow
  · apply (Nat.le_div_iff_mul_le (by positivity)).mpr
    calc 2 ^ 16 * 256 ^ (byteSize n - 3) = 256 ^ (byteSize n - 1) := by
          rw [show (2 : Nat) ^ 16 = 256 ^ 2 by norm_num, ← pow_add]
          congr 1
          omega
      _ ≤ n := hlow

theorem get_compact_eq {n : Nat} (hn : 0 < n) :
    get_compact n =
      if 2 ^ 23 ≤ leading n then leading n / 256 + (byteSize n + 1) * 2 ^ 24
      else leading n + byteSize n * 2 ^ 24 := by
  have hlt := leading_lt hn
  have hmask : leading n &&& 0xffffffff = leading n := by
    rw [show (0xffffffff : Nat) = 2 ^ 32 - 1 from rfl, Nat.and_two_pow_sub_one_eq_mod]
    exact Nat.mod_eq_of_lt (by omega)
  have hcompact : (if byteSize n ≤ 3 then (n <<< (8 * (3 - byteSize n))) &&& 0xffffffff
      else (n >>> (8 * (byteSize n - 3))) &&& 0xffffffff) = leading n := by
    rw [← apply_ite (· &&& 0xffffffff), Nat.shiftLeft_eq, Nat.shiftRight_eq_div_pow,
      two_pow_eight_mul, two_pow_eight_mul]
    exact hmask
  have hsign : leading n &&& 0x00800000 ≠ 0 ↔ 2 ^ 23 ≤ leading n := by
    rw [show (0x00800000 : Nat) = 2 ^ 23 from rfl, Nat.and_two_pow,
      Nat.testBit_eq_decide_div_mod_eq]
    simp
    omega
  have hjoin (x e : Nat) (hx : x < 2 ^ 24) : x ||| (e <<< 24) = x + e * 2 ^ 24 := by
    rw [Nat.shiftLeft_eq, Nat.or_comm, Nat.mul_comm, ← Nat.two_pow_add_eq_or_of_lt hx]
    omega
  simp only [get_compact, show (n.size + 7) / 8 = byteSize n from rfl, hcompact, hsign]
  split
  · rw [Nat.shiftRight_eq_div_pow, hjoin _ _ (by omega)]
  · exact hjoin _ _ hlt

/-- Mantissa and exponent of an encoded number, and what they decode to: the
number with its low bytes cleared. Bytes are cleared only when the mantissa
kept has at least sixteen significant bits, and it never has more than
twenty-three. -/
theorem get_compact_spec {n : Nat} (hn : 0 < n) (hfit : n < 2 ^ 256) :
    ∃ m e j, get_compact n = m + e * 2 ^ 24 ∧ 0 < m ∧ m < 2 ^ 23 ∧ e ≤ 33 ∧
      (e = 33 → m < 2 ^ 16) ∧ (j = 0 ∨ 2 ^ 15 * 256 ^ j ≤ n) ∧ n < 2 ^ 23 * 256 ^ j ∧
      (if e ≤ 3 then m / 256 ^ (3 - e) else m * 256 ^ (e - 3)) = n / 256 ^ j * 256 ^ j := by
  have hlt := leading_lt hn
  have hge := leading_ge hn
  have hsize := byteSize_le hfit
  obtain ⟨hpos, hlow, hhigh⟩ := byteSize_bounds hn
  rw [get_compact_eq hn]
  by_cases hsign : 2 ^ 23 ≤ leading n
  · rw [if_pos hsign]
    refine ⟨leading n / 256, byteSize n + 1, byteSize n - 2, rfl, by omega, by omega, by omega,
      fun _ => by omega, ?_, ?_, ?_⟩
    · -- the top bit of the leading byte is set
      by_cases h2 : byteSize n ≤ 2
      · exact Or.inl (by omega)
      · right
        by_cases h3 : byteSize n ≤ 3
        · have hthree : byteSize n = 3 := by omega
          simp only [leading, hthree, le_refl, if_true, Nat.sub_self, pow_zero, mul_one] at hsign
          rw [hthree]
          omega
        · rw [leading, if_neg h3, Nat.le_div_iff_mul_le (by positivity)] at hsign
          calc 2 ^ 15 * 256 ^ (byteSize n - 2) = 2 ^ 23 * 256 ^ (byteSize n - 3) := by
                rw [show byteSize n - 2 = (byteSize n - 3) + 1 by omega, pow_succ]
                ring
            _ ≤ n := hsign
    · calc n < 256 ^ byteSize n := hhigh
        _ ≤ 256 ^ (byteSize n - 2 + 2) := Nat.pow_le_pow_right (by decide) (by omega)
        _ = 2 ^ 16 * 256 ^ (byteSize n - 2) := by rw [pow_add]; ring
        _ ≤ 2 ^ 23 * 256 ^ (byteSize n - 2) := Nat.mul_le_mul_right _ (by norm_num)
    · by_cases h2 : byteSize n ≤ 2
      · rw [if_pos (by omega), show byteSize n - 2 = 0 by omega, leading, if_pos (by omega),
          show 3 - byteSize n = (3 - (byteSize n + 1)) + 1 by omega, pow_succ, ← Nat.mul_assoc,
          Nat.mul_div_cancel _ (by decide), Nat.mul_div_cancel _ (by positivity)]
        simp
      · rw [if_neg (by omega), show byteSize n + 1 - 3 = byteSize n - 2 by omega, leading]
        by_cases h3 : byteSize n ≤ 3
        · rw [if_pos h3, show byteSize n = 3 by omega]
          simp
        · rw [if_neg h3, Nat.div_div_eq_div_mul,
            show byteSize n - 2 = (byteSize n - 3) + 1 by omega, pow_succ]
  · rw [if_neg hsign]
    refine ⟨leading n, byteSize n, byteSize n - 3, rfl, by omega, by omega, by omega,
      fun h => by omega, ?_, ?_, ?_⟩
    · by_cases h3 : byteSize n ≤ 3
      · exact Or.inl (by omega)
      · right
        rw [leading, if_neg h3, Nat.le_div_iff_mul_le (by positivity)] at hge
        exact (Nat.mul_le_mul_right _ (by norm_num)).trans hge
    · by_cases h3 : byteSize n ≤ 3
      · rw [leading, if_pos h3, not_le] at hsign
        rw [show byteSize n - 3 = 0 by omega, pow_zero, mul_one]
        exact (Nat.le_mul_of_pos_right n (by positivity)).trans_lt hsign
      · rw [leading, if_neg h3, not_le] at hsign
        exact (Nat.div_lt_iff_lt_mul (by positivity)).mp hsign
    · by_cases h3 : byteSize n ≤ 3
      · rw [if_pos h3, show byteSize n - 3 = 0 by omega, leading, if_pos h3,
          Nat.mul_div_cancel _ (by positivity)]
        simp
      · rw [if_neg h3, leading, if_neg h3]

/-- Decoding an encoded number clears its low bytes and nothing else. -/
theorem set_compact_get_compact {n : Nat} (hn : 0 < n) (hfit : n < 2 ^ 256) :
    ∃ j, (j = 0 ∨ 2 ^ 15 * 256 ^ j ≤ n) ∧ n < 2 ^ 23 * 256 ^ j ∧
      set_compact (get_compact n) = n / 256 ^ j * 256 ^ j := by
  obtain ⟨m, e, j, hc, _, hm, _, _, hj, hcap, hdec⟩ := get_compact_spec hn hfit
  refine ⟨j, hj, hcap, ?_⟩
  have hsize : (m + e * 2 ^ 24) / 2 ^ 24 = e := by omega
  have hword : (m + e * 2 ^ 24) % 2 ^ 23 = m := by omega
  have hle : n / 256 ^ j * 256 ^ j < 2 ^ 256 := (Nat.div_mul_le_self n _).trans_lt hfit
  rw [set_compact_eq, hc, hsize, hword, ← hdec]
  split
  · rfl
  · rename_i h3
    rw [if_neg h3] at hdec
    exact Nat.mod_eq_of_lt (hdec ▸ hle)

theorem set_compact_get_compact_le {n : Nat} (hn : 0 < n) (hfit : n < 2 ^ 256) :
    set_compact (get_compact n) ≤ n := by
  obtain ⟨j, _, _, h⟩ := set_compact_get_compact hn hfit
  rw [h]
  exact Nat.div_mul_le_self n _

/-- The relative error of the encoding is below `2 ^ -15`. -/
theorem lt_set_compact_get_compact {n : Nat} (hn : 0 < n) (hfit : n < 2 ^ 256) :
    2 ^ 15 * n < (2 ^ 15 + 1) * set_compact (get_compact n) := by
  obtain ⟨j, hj, _, h⟩ := set_compact_get_compact hn hfit
  rw [h]
  have hmod := Nat.mod_lt n (show 0 < 256 ^ j by positivity)
  have hsplit : n = n / 256 ^ j * 256 ^ j + n % 256 ^ j := (Nat.div_add_mod' n _).symm
  rcases hj with rfl | hj
  · simp
    omega
  · have hquot : 2 ^ 15 ≤ n / 256 ^ j := (Nat.le_div_iff_mul_le (by positivity)).mpr hj
    have hmul := Nat.mul_le_mul_right (256 ^ j) hquot
    omega

/-- The encoding keeps the order: a number that keeps more low bytes is smaller
than every number that loses one of them. -/
theorem set_compact_get_compact_mono {m n : Nat} (hm : 0 < m) (hmn : m ≤ n) (hfit : n < 2 ^ 256) :
    set_compact (get_compact m) ≤ set_compact (get_compact n) := by
  obtain ⟨i, _, hcap, hleft⟩ := set_compact_get_compact hm (hmn.trans_lt hfit)
  obtain ⟨j, hkept, _, hright⟩ := set_compact_get_compact (hm.trans_le hmn) hfit
  have hle : m / 256 ^ i * 256 ^ i ≤ n := (Nat.div_mul_le_self m _).trans hmn
  rw [hleft, hright]
  rcases Nat.lt_or_ge i j with hij | hji
  · have hbytes : 2 ^ 23 * 256 ^ i ≤ 2 ^ 15 * 256 ^ j := by
      calc 2 ^ 23 * 256 ^ i = 2 ^ 15 * 256 ^ (i + 1) := by rw [pow_succ]; ring
        _ ≤ 2 ^ 15 * 256 ^ j := Nat.mul_le_mul_left _ (Nat.pow_le_pow_right (by decide) hij)
    have hquot : 2 ^ 15 ≤ n / 256 ^ j :=
      (Nat.le_div_iff_mul_le (by positivity)).mpr (hkept.resolve_left (by omega))
    calc m / 256 ^ i * 256 ^ i ≤ m := Nat.div_mul_le_self m _
      _ ≤ 2 ^ 15 * 256 ^ j := hcap.le.trans hbytes
      _ ≤ n / 256 ^ j * 256 ^ j := Nat.mul_le_mul_right _ hquot
  · obtain ⟨q, hq⟩ : 256 ^ j ∣ m / 256 ^ i * 256 ^ i :=
      (pow_dvd_pow 256 hji).trans (Nat.dvd_mul_left _ _)
    rw [hq] at hle ⊢
    rw [Nat.mul_comm (256 ^ j) q] at hle ⊢
    exact Nat.mul_le_mul_right _ ((Nat.le_div_iff_mul_le (by positivity)).mpr hle)

/-- Numbers with at most twenty-three significant bits before their zero bytes
are encoded exactly. -/
theorem set_compact_get_compact_of_dvd {q i : Nat} (hpos : 0 < q * 256 ^ i) (hq : q < 2 ^ 23)
    (hfit : q * 256 ^ i < 2 ^ 256) :
    set_compact (get_compact (q * 256 ^ i)) = q * 256 ^ i := by
  obtain ⟨j, hkept, _, hdec⟩ := set_compact_get_compact hpos hfit
  have hji : j ≤ i := by
    rcases hkept with rfl | hkept
    · exact Nat.zero_le i
    · by_contra hlt
      have hbytes : 2 ^ 23 * 256 ^ i ≤ 2 ^ 15 * 256 ^ j := by
        calc 2 ^ 23 * 256 ^ i = 2 ^ 15 * 256 ^ (i + 1) := by rw [pow_succ]; ring
          _ ≤ 2 ^ 15 * 256 ^ j :=
            Nat.mul_le_mul_left _ (Nat.pow_le_pow_right (by decide) (by omega))
      have hlow := Nat.mul_lt_mul_of_pos_right hq (show 0 < 256 ^ i by positivity)
      omega
  rw [hdec]
  exact Nat.div_mul_cancel ((pow_dvd_pow 256 hji).trans (Nat.dvd_mul_left _ _))

end pcoin.lwma_ref
