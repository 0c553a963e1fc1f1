import PCoin.Codec.Checksum
import PCoin.Codec.ReedSolomon
import Mathlib.Data.List.GetD
import Mathlib.Dynamics.PeriodicPts.Defs

/-! The arithmetic of `qr.mjs`: its two tables, and the field that they are of. -/

namespace pcoin.qr

section Tables

/-- The next power of two, in the field. -/
def next (x : Nat) : Nat :=
  let x := x <<< 1
  if x &&& 0x100 ≠ 0 then x ^^^ 0x11d else x

def powers : Nat → Nat → List Nat
  | 0, _ => []
  | n + 1, x => x :: powers n (next x)

/-- `EXP[i]`. Behind its first 255 entries the table repeats itself. -/
def EXP (i : Nat) : UInt8 := UInt8.ofNat ((powers 255 1).getD (i % 255) 0)

/-- `LOG[a]`, for `a` not zero. -/
def LOG (a : UInt8) : Nat := (powers 255 1).idxOf a.toNat

def mul (a b : UInt8) : UInt8 := if a = 0 ∨ b = 0 then 0 else EXP (LOG a + LOG b)

end Tables

section Powers

/-- The register that `next` shifts. -/
def register : codec.Code where
  width := 1
  degree := 7
  gen := [0x1d]
  width_pos := Nat.one_pos
  gen_lt := by simp

/-- The product with the lowest `n` bits of `b`. -/
def act : Nat → Nat → Nat → Nat
  | 0, _, _ => 0
  | n + 1, b, v => act n b v ^^^ if b.testBit n then next^[n] v else 0

/-- The bytes, looked through once: the register, its period, the table, and the bits of a byte. -/
theorem tables : (∀ a < 256, next a = register.step a 0 ∧ next a < 256) ∧ next^[255] 1 = 1 ∧
    ((powers 255 1).Nodup ∧ 0 ∉ powers 255 1 ∧ ∀ a < 256, a ≠ 0 → a ∈ powers 255 1) ∧
    ∀ b < 256, act 8 b 1 = b := by
  decide +kernel

theorem next_eq : ∀ a < 256, next a = register.step a 0 ∧ next a < 256 := (tables).1

theorem next_lt {a : Nat} (ha : a < 256) : next a < 256 := (next_eq a ha).2

theorem next_xor {a b : Nat} (ha : a < 256) (hb : b < 256) : next (a ^^^ b) = next a ^^^ next b := by
  have hxor : a ^^^ b < 256 := Nat.xor_lt_two_pow (n := 8) ha hb
  rw [(next_eq _ hxor).1, (next_eq a ha).1, (next_eq b hb).1, ← register.step_xor, Nat.xor_self]

theorem iterate_lt {a : Nat} (ha : a < 256) (n : Nat) : next^[n] a < 256 := by
  induction n with
  | zero => exact ha
  | succ n ih =>
    rw [Function.iterate_succ_apply']
    exact next_lt ih

theorem iterate_xor {a b : Nat} (ha : a < 256) (hb : b < 256) (n : Nat) :
    next^[n] (a ^^^ b) = next^[n] a ^^^ next^[n] b := by
  induction n with
  | zero => rfl
  | succ n ih =>
    rw [Function.iterate_succ_apply', Function.iterate_succ_apply', Function.iterate_succ_apply', ih,
      next_xor (iterate_lt ha n) (iterate_lt hb n)]

theorem getD_powers {n k : Nat} (h : k < n) (x : Nat) : (powers n x).getD k 0 = next^[k] x := by
  induction n generalizing k x with
  | zero => omega
  | succ n ih =>
    cases k with
    | zero => rfl
    | succ k =>
      rw [Function.iterate_succ_apply]
      exact ih (Nat.lt_of_succ_lt_succ h) (next x)

theorem next_period : next^[255] 1 = 1 := (tables).2.1

theorem powers_spec : (powers 255 1).Nodup ∧ 0 ∉ powers 255 1 ∧ ∀ a < 256, a ≠ 0 → a ∈ powers 255 1 :=
  (tables).2.2.1

theorem toNat_EXP (i : Nat) : (EXP i).toNat = next^[i] 1 := by
  have hperiod : Function.IsPeriodicPt next 255 1 := next_period
  rw [EXP, getD_powers (Nat.mod_lt _ (by decide)), hperiod.iterate_mod_apply]
  exact Nat.mod_eq_of_lt (iterate_lt (by decide) i)

theorem length_powers (n x : Nat) : (powers n x).length = n := by
  induction n generalizing x with
  | zero => rfl
  | succ n ih => exact congrArg (· + 1) (ih (next x))

theorem getD_idxOf {l : List Nat} {a : Nat} (h : a ∈ l) : l.getD (l.idxOf a) 0 = a := by
  have hlt : l.idxOf a < l.length := List.idxOf_lt_length_iff.mpr h
  rw [List.getD_eq_getElem _ _ hlt, List.getElem_idxOf]

theorem EXP_LOG {a : UInt8} (ha : a ≠ 0) : EXP (LOG a) = a := by
  have hmem : a.toNat ∈ powers 255 1 :=
    (powers_spec).2.2 a.toNat a.toNat_lt fun h => ha (UInt8.toNat_inj.mp h)
  have hlog : LOG a < 255 := by
    have hlt := List.idxOf_lt_length_iff.mpr hmem
    rwa [length_powers] at hlt
  rw [EXP, Nat.mod_eq_of_lt hlog, LOG, getD_idxOf hmem]
  exact UInt8.ofNat_toNat

theorem EXP_ne_zero (i : Nat) : EXP i ≠ 0 := by
  intro h
  have hlt : i % 255 < 255 := Nat.mod_lt _ (by decide)
  have hzero : next^[i % 255] 1 = 0 := by
    have hperiod : Function.IsPeriodicPt next 255 1 := next_period
    rw [hperiod.iterate_mod_apply, ← toNat_EXP, h]
    rfl
  rw [← getD_powers hlt, List.getD_eq_getElem _ _ (by rwa [length_powers])] at hzero
  exact (powers_spec).2.1 (hzero ▸ List.getElem_mem _)

theorem EXP_inj {i j : Nat} (hi : i < 255) (hj : j < 255) (h : EXP i = EXP j) : i = j := by
  have hnat : (powers 255 1).getD i 0 = (powers 255 1).getD j 0 := by
    rw [getD_powers hi, getD_powers hj, ← toNat_EXP, ← toNat_EXP, h]
  rw [List.getD_eq_getElem _ _ (by rwa [length_powers]),
    List.getD_eq_getElem _ _ (by rwa [length_powers])] at hnat
  exact (List.Nodup.getElem_inj_iff (powers_spec).1).mp hnat

end Powers

section Product

theorem act_succ (n b v : Nat) :
    act (n + 1) b v = act n b v ^^^ if b.testBit n then next^[n] v else 0 := rfl

theorem next_zero : next 0 = 0 := by decide

theorem act_zero (n b : Nat) : act n b 0 = 0 := by
  induction n with
  | zero => rfl
  | succ n ih =>
    rw [act_succ, ih, Function.iterate_fixed next_zero, ite_self, Nat.xor_self]

theorem zero_act (n v : Nat) : act n 0 v = 0 := by
  induction n with
  | zero => rfl
  | succ n ih => rw [act_succ, ih, Nat.zero_testBit, if_neg Bool.false_ne_true, Nat.xor_self]

theorem act_lt {v : Nat} (hv : v < 256) (n b : Nat) : act n b v < 256 := by
  induction n with
  | zero => exact Nat.zero_lt_succ _
  | succ n ih =>
    rw [act_succ]
    refine Nat.xor_lt_two_pow (n := 8) ih ?_
    split
    · exact iterate_lt hv n
    · exact Nat.zero_lt_succ _

theorem act_xor {u v : Nat} (hu : u < 256) (hv : v < 256) (n b : Nat) :
    act n b (u ^^^ v) = act n b u ^^^ act n b v := by
  induction n with
  | zero => exact (Nat.xor_self 0).symm
  | succ n ih =>
    rw [act_succ, act_succ, act_succ, ih, iterate_xor hu hv]
    split
    · ac_rfl
    · rw [Nat.xor_zero, Nat.xor_zero, Nat.xor_zero]

theorem act_next {v : Nat} (hv : v < 256) (n b : Nat) : act n b (next v) = next (act n b v) := by
  induction n with
  | zero => exact (next_zero).symm
  | succ n ih =>
    rw [act_succ, act_succ, ih, ← Function.iterate_succ_apply, Function.iterate_succ_apply']
    split
    · exact (next_xor (act_lt hv n b) (iterate_lt hv n)).symm
    · rw [Nat.xor_zero, Nat.xor_zero]

theorem act_iterate (n b k : Nat) : act n b (next^[k] 1) = next^[k] (act n b 1) := by
  induction k with
  | zero => rfl
  | succ k ih =>
    rw [Function.iterate_succ_apply', Function.iterate_succ_apply',
      act_next (iterate_lt (by decide) k), ih]

theorem act_one : ∀ b < 256, act 8 b 1 = b := (tables).2.2.2

/-- The product by logarithms is linear in the first factor. -/
theorem toNat_mul (a b : UInt8) : (mul a b).toNat = act 8 b.toNat a.toNat := by
  unfold mul
  split
  · rename_i h
    obtain rfl | rfl := h
    · exact (act_zero _ _).symm
    · exact (zero_act _ _).symm
  · rename_i h
    obtain ⟨ha, hb⟩ := not_or.mp h
    have hab : next^[LOG a] 1 = a.toNat := by rw [← toNat_EXP, EXP_LOG ha]
    have hbb : next^[LOG b] 1 = b.toNat := by rw [← toNat_EXP, EXP_LOG hb]
    rw [toNat_EXP, Function.iterate_add_apply, hbb, ← hab, act_iterate, act_one _ b.toNat_lt]

/-- An element of the field. -/
@[ext]
structure Gf where
  byte : UInt8
  deriving DecidableEq

namespace Gf

instance : Zero Gf := ⟨⟨0⟩⟩

instance : One Gf := ⟨⟨1⟩⟩

instance : Add Gf := ⟨fun a b => ⟨a.byte ^^^ b.byte⟩⟩

instance : Neg Gf := ⟨id⟩

instance : Mul Gf := ⟨fun a b => ⟨pcoin.qr.mul a.byte b.byte⟩⟩

@[simp] theorem byte_zero : (0 : Gf).byte = 0 := rfl

@[simp] theorem byte_one : (1 : Gf).byte = 1 := rfl

@[simp] theorem byte_add (a b : Gf) : (a + b).byte = a.byte ^^^ b.byte := rfl

@[simp] theorem byte_mul (a b : Gf) : (a * b).byte = pcoin.qr.mul a.byte b.byte := rfl

theorem mk_add (a b : UInt8) : Gf.mk (a ^^^ b) = ⟨a⟩ + ⟨b⟩ := rfl

theorem mk_mul (a b : UInt8) : Gf.mk (pcoin.qr.mul a b) = ⟨a⟩ * ⟨b⟩ := rfl

/-- The power of the generator. -/
def power (i : Nat) : Gf := ⟨EXP i⟩

theorem mul_comm' (a b : Gf) : a * b = b * a := by
  ext1
  rw [byte_mul, byte_mul, pcoin.qr.mul, pcoin.qr.mul]
  by_cases h : a.byte = 0 ∨ b.byte = 0
  · rw [if_pos h, if_pos h.symm]
  · rw [if_neg h, if_neg fun h' => h h'.symm, Nat.add_comm]

theorem zero_mul' (a : Gf) : 0 * a = 0 := rfl

theorem exists_power {a : Gf} (ha : a ≠ 0) : ∃ i, a = power i :=
  ⟨LOG a.byte, Gf.ext (EXP_LOG fun h => ha (Gf.ext h)).symm⟩

theorem power_mul_power (i j : Nat) : power i * power j = power (i + j) := by
  ext1
  apply UInt8.toNat_inj.mp
  rw [byte_mul, toNat_mul, power, power, power, toNat_EXP, toNat_EXP, toNat_EXP, act_iterate,
    act_one _ (iterate_lt (by decide) j), ← Function.iterate_add_apply]

theorem power_zero : power 0 = 1 := by
  ext1
  exact UInt8.toNat_inj.mp (toNat_EXP 0)

theorem mul_assoc' (a b c : Gf) : a * b * c = a * (b * c) := by
  by_cases ha : a = 0
  · rw [ha, zero_mul', zero_mul', zero_mul']
  · by_cases hb : b = 0
    · rw [hb, mul_comm' a, zero_mul', zero_mul', mul_comm' a, zero_mul']
    · by_cases hc : c = 0
      · rw [hc, mul_comm', zero_mul', mul_comm' b, zero_mul', mul_comm' a, zero_mul']
      · obtain ⟨i, rfl⟩ := exists_power ha
        obtain ⟨j, rfl⟩ := exists_power hb
        obtain ⟨k, rfl⟩ := exists_power hc
        rw [power_mul_power, power_mul_power, power_mul_power, power_mul_power, Nat.add_assoc]

theorem add_mul' (a b c : Gf) : (a + b) * c = a * c + b * c := by
  ext1
  apply UInt8.toNat_inj.mp
  rw [byte_mul, byte_add, byte_add, UInt8.toNat_xor, byte_mul, byte_mul, toNat_mul, toNat_mul, toNat_mul,
    UInt8.toNat_xor, act_xor a.byte.toNat_lt b.byte.toNat_lt]

instance : CommRing Gf where
  add_assoc a b c := Gf.ext (UInt8.xor_assoc _ _ _)
  zero_add a := Gf.ext UInt8.zero_xor
  add_zero a := Gf.ext UInt8.xor_zero
  add_comm a b := Gf.ext (UInt8.xor_comm _ _)
  neg_add_cancel a := Gf.ext UInt8.xor_self
  nsmul := nsmulRec
  zsmul := zsmulRec
  mul_assoc := mul_assoc'
  mul_comm := mul_comm'
  one_mul a := by
    by_cases ha : a = 0
    · rw [ha, mul_comm', zero_mul']
    · obtain ⟨i, rfl⟩ := exists_power ha
      rw [← power_zero, power_mul_power, Nat.zero_add]
  mul_one a := by
    by_cases ha : a = 0
    · rw [ha, zero_mul']
    · obtain ⟨i, rfl⟩ := exists_power ha
      rw [← power_zero, power_mul_power, Nat.add_zero]
  zero_mul := zero_mul'
  mul_zero a := by rw [mul_comm', zero_mul']
  left_distrib a b c := by rw [mul_comm', add_mul', mul_comm' b, mul_comm' c]
  right_distrib := add_mul'

instance : Nontrivial Gf := ⟨⟨0, 1, by decide⟩⟩

instance : CharP Gf 2 :=
  CharTwo.of_one_ne_zero_of_two_eq_zero one_ne_zero (Gf.ext (by decide))

theorem power_ne_zero (i : Nat) : power i ≠ 0 := fun h => EXP_ne_zero i (congrArg byte h)

instance : IsDomain Gf := by
  have : NoZeroDivisors Gf := ⟨fun {a b} h => by
    by_contra hne
    obtain ⟨ha, hb⟩ := not_or.mp hne
    obtain ⟨i, rfl⟩ := exists_power ha
    obtain ⟨j, rfl⟩ := exists_power hb
    exact power_ne_zero (i + j) (power_mul_power i j ▸ h)⟩
  exact NoZeroDivisors.to_isDomain Gf

theorem power_eq_pow (i : Nat) : power i = power 1 ^ i := by
  induction i with
  | zero => exact power_zero
  | succ i ih => rw [pow_succ, ← ih, power_mul_power]

theorem pow_inj {i j : Nat} (hi : i < 255) (hj : j < 255) (h : power 1 ^ i = power 1 ^ j) : i = j := by
  rw [← power_eq_pow, ← power_eq_pow] at h
  exact EXP_inj hi hj (congrArg byte h)

end Gf

end Product

end pcoin.qr
