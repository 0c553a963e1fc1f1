import PCoin.Codec.Radix
import Mathlib.Tactic.LinearCombination

namespace codec

/-- The bits read and not written yet are the low `bits` of `acc`. -/
structure Regrouping where
  acc : Nat
  bits : Nat
  out : List Nat

/-- Writes the high symbols of `acc` while a whole one is there. -/
def drain (tobits acc : Nat) : Nat → Nat → List Nat × Nat
  | 0, bits => ([], bits)
  | fuel + 1, bits =>
    if tobits ≤ bits then
      let (out, left) := drain tobits acc fuel (bits - tobits)
      ((acc >>> (bits - tobits)) % 2 ^ tobits :: out, left)
    else ([], bits)

/-- One symbol of `frombits` read into an accumulator of `width` bits. -/
def regroupStep (width frombits tobits : Nat) (s : Regrouping) (value : Nat) : Regrouping :=
  let acc := ((s.acc <<< frombits) ||| value) % 2 ^ width
  let bits := s.bits + frombits
  let (out, left) := drain tobits acc bits bits
  { acc, bits := left, out := s.out ++ out }

def regroup (width frombits tobits : Nat) (data : List Nat) : Regrouping :=
  data.foldl (regroupStep width frombits tobits) { acc := 0, bits := 0, out := [] }

/-- The last bits: filled up with zeros, or dropped when they are zeros too few for a symbol. -/
def Regrouping.finish (frombits tobits : Nat) (pad : Bool) (s : Regrouping) : Option (List Nat) :=
  if pad then
    some (if 0 < s.bits then s.out ++ [(s.acc <<< (tobits - s.bits)) % 2 ^ tobits] else s.out)
  else if frombits ≤ s.bits ∨ (s.acc <<< (tobits - s.bits)) % 2 ^ tobits ≠ 0 then none
  else some s.out

theorem drain_spec {tobits : Nat} (ht : 0 < tobits) (acc : Nat) {fuel bits : Nat} (hf : bits ≤ fuel) :
    let r := drain tobits acc fuel bits
    bits = tobits * r.1.length + r.2 ∧ r.2 < tobits ∧ (∀ s ∈ r.1, s < 2 ^ tobits) ∧
      acc % 2 ^ bits = number (2 ^ tobits) r.1 * 2 ^ r.2 + acc % 2 ^ r.2 := by
  induction fuel generalizing bits with
  | zero =>
    obtain rfl : bits = 0 := by omega
    simp [drain, ht]
  | succ fuel ih =>
    by_cases h : tobits ≤ bits
    case neg => simpa [drain, h] using Nat.lt_of_not_le h
    case pos =>
      have hrest := @ih (bits - tobits) (by omega)
      simp only [drain, if_pos h]
      generalize drain tobits acc fuel (bits - tobits) = r at hrest
      obtain ⟨out, left⟩ := r
      obtain ⟨hbits, hleft, hout, hacc⟩ := hrest
      refine ⟨by rw [List.length_cons]; lia, hleft, ?_, ?_⟩
      · intro s hs
        rcases List.mem_cons.mp hs with rfl | hs
        · exact Nat.mod_lt _ (by positivity)
        · exact hout s hs
      · have hhigh : acc % 2 ^ bits =
            acc >>> (bits - tobits) % 2 ^ tobits * 2 ^ (bits - tobits) + acc % 2 ^ (bits - tobits) := by
          have hpow : 2 ^ bits = 2 ^ (bits - tobits) * 2 ^ tobits := by
            rw [← Nat.pow_add, Nat.sub_add_cancel h]
          rw [hpow, Nat.mod_mul, Nat.shiftRight_eq_div_pow]
          ring
        have hpow : 2 ^ (bits - tobits) = (2 ^ tobits) ^ out.length * 2 ^ left := by
          rw [← Nat.pow_mul, ← Nat.pow_add, ← hbits]
        rw [hhigh, hacc, number_cons, hpow]
        ring

/-- What is written and what is left hold the bits that were read. -/
structure Regrouping.Holds (frombits tobits : Nat) (data : List Nat) (s : Regrouping) : Prop where
  length : frombits * data.length = tobits * s.out.length + s.bits
  left : s.bits < tobits
  symbols : ∀ d ∈ s.out, d < 2 ^ tobits
  value : number (2 ^ frombits) data = number (2 ^ tobits) s.out * 2 ^ s.bits + s.acc % 2 ^ s.bits

theorem regroupStep_holds {width frombits tobits : Nat} (ht : 0 < tobits)
    (hw : frombits + tobits ≤ width + 1) {data : List Nat} {s : Regrouping}
    (h : s.Holds frombits tobits data) {value : Nat} (hv : value < 2 ^ frombits) :
    (regroupStep width frombits tobits s value).Holds frombits tobits (data ++ [value]) := by
  have hd := drain_spec ht (((s.acc <<< frombits) ||| value) % 2 ^ width)
    (Nat.le_refl (s.bits + frombits))
  rw [regroupStep]
  generalize drain tobits (((s.acc <<< frombits) ||| value) % 2 ^ width) (s.bits + frombits)
    (s.bits + frombits) = r at hd
  obtain ⟨out, left⟩ := r
  obtain ⟨hbits, hleft, hout, hacc⟩ := hd
  refine ⟨?_, hleft, ?_, ?_⟩
  · rw [List.length_append, List.length_append, List.length_singleton]
    linear_combination h.length + hbits
  · intro d hd
    rcases List.mem_append.mp hd with hd | hd
    · exact h.symbols d hd
    · exact hout d hd
  -- The accumulator may lose high bits, never one of those that are left.
  · have hread : ((s.acc <<< frombits) ||| value) % 2 ^ width % 2 ^ (s.bits + frombits) =
        s.acc % 2 ^ s.bits * 2 ^ frombits + value := by
      have hleft := h.left
      rw [Nat.mod_mod_of_dvd _ (Nat.pow_dvd_pow 2 (by omega)), Nat.shiftLeft_eq, Nat.mul_comm,
        ← Nat.two_pow_add_eq_or_of_lt hv, Nat.add_comm s.bits, Nat.pow_add, Nat.mod_mul,
        Nat.mul_add_mod, Nat.mod_eq_of_lt hv, Nat.mul_add_div (by positivity),
        Nat.div_eq_of_lt hv, Nat.add_zero]
      ring
    have hpow : (2 : Nat) ^ s.bits * 2 ^ frombits = (2 ^ tobits) ^ out.length * 2 ^ left := by
      rw [← Nat.pow_add, hbits, Nat.pow_add, Nat.pow_mul]
    rw [number_concat, h.value, number_append]
    calc (number (2 ^ tobits) s.out * 2 ^ s.bits + s.acc % 2 ^ s.bits) * 2 ^ frombits + value
        = number (2 ^ tobits) s.out * (2 ^ s.bits * 2 ^ frombits) +
            (s.acc % 2 ^ s.bits * 2 ^ frombits + value) := by ring
      _ = _ := by rw [hpow, ← hread, hacc]; ring

theorem regroup_holds {width frombits tobits : Nat} (ht : 0 < tobits)
    (hw : frombits + tobits ≤ width + 1) {data : List Nat} (hdata : ∀ v ∈ data, v < 2 ^ frombits) :
    (regroup width frombits tobits data).Holds frombits tobits data := by
  induction data using List.reverseRecOn with
  | nil => exact ⟨by simp [regroup], ht, by simp [regroup], by simp [regroup]⟩
  | append_singleton l v ih =>
    have hstep : regroup width frombits tobits (l ++ [v]) =
        regroupStep width frombits tobits (regroup width frombits tobits l) v := by simp [regroup]
    rw [hstep]
    exact regroupStep_holds ht hw (ih fun d hd => hdata d (by simp [hd])) (hdata v (by simp))

/-- `narrow` holds the bits of `wide`, and then zero bits, fewer than a narrow symbol has. -/
structure Padded (widebits narrowbits : Nat) (wide narrow : List Nat) : Prop where
  wide_lt : ∀ s ∈ wide, s < 2 ^ widebits
  narrow_lt : ∀ s ∈ narrow, s < 2 ^ narrowbits
  fill : ∃ pad < narrowbits, narrowbits * narrow.length = widebits * wide.length + pad ∧
    number (2 ^ narrowbits) narrow = number (2 ^ widebits) wide * 2 ^ pad

/-- A count is known from a product that is off by less than one more would make. -/
theorem eq_of_mul_near {n a b p q : Nat} (h : n * a + q = n * b + p) (hp : p < n) (hq : q < n) :
    a = b := by
  rcases Nat.lt_trichotomy a b with hab | hab | hab
  · have := Nat.mul_le_mul_left n (Nat.succ_le_of_lt hab)
    lia
  · exact hab
  · have := Nat.mul_le_mul_left n (Nat.succ_le_of_lt hab)
    lia

theorem Padded.narrow_unique {widebits narrowbits : Nat} (hn : 0 < narrowbits) {wide l r : List Nat}
    (hl : Padded widebits narrowbits wide l) (hr : Padded widebits narrowbits wide r) : l = r := by
  obtain ⟨p, hp, hlenl, hl'⟩ := hl.fill
  obtain ⟨q, hq, hlenr, hr'⟩ := hr.fill
  have hlen : l.length = r.length := eq_of_mul_near (by omega) hp hq
  obtain rfl : p = q := by rw [hlen] at hlenl; omega
  exact number_inj (Nat.one_lt_two_pow hn.ne') hlen hl.narrow_lt hr.narrow_lt (hl'.trans hr'.symm)

theorem Padded.wide_unique {widebits narrowbits : Nat} (hn : narrowbits ≤ widebits)
    (hpos : 0 < widebits) {narrow l r : List Nat}
    (hl : Padded widebits narrowbits l narrow) (hr : Padded widebits narrowbits r narrow) : l = r := by
  obtain ⟨p, hp, hlenl, hl'⟩ := hl.fill
  obtain ⟨q, hq, hlenr, hr'⟩ := hr.fill
  have hlen : l.length = r.length :=
    eq_of_mul_near (by omega) (hq.trans_le hn) (hp.trans_le hn)
  obtain rfl : p = q := by rw [hlen] at hlenl; omega
  exact number_inj (Nat.one_lt_two_pow hpos.ne') hlen hl.wide_lt hr.wide_lt
    (Nat.eq_of_mul_eq_mul_right (by positivity) (hl'.symm.trans hr'))

/-- The bits left over, filled up with zeros, are one more symbol. -/
theorem mod_shiftLeft {tobits bits : Nat} (h : bits ≤ tobits) (acc : Nat) :
    (acc <<< (tobits - bits)) % 2 ^ tobits = acc % 2 ^ bits * 2 ^ (tobits - bits) := by
  have hpow : 2 ^ tobits = 2 ^ bits * 2 ^ (tobits - bits) := by
    rw [← Nat.pow_add, Nat.add_sub_cancel' h]
  rw [hpow, Nat.shiftLeft_eq, Nat.mul_mod_mul_right]

/-- Widened out with zero bits, symbols become the narrow ones that hold them. -/
theorem finish_pad {width widebits narrowbits : Nat} (hn : 0 < narrowbits)
    (hw : widebits + narrowbits ≤ width + 1) {wide : List Nat} (h : ∀ s ∈ wide, s < 2 ^ widebits) :
    ∃ narrow, (regroup width widebits narrowbits wide).finish widebits narrowbits true = some narrow ∧
      Padded widebits narrowbits wide narrow := by
  have hs := regroup_holds hn hw h
  generalize regroup width widebits narrowbits wide = s at hs
  have hleft := hs.left
  rw [Regrouping.finish, if_pos rfl]
  split
  case isFalse hbits =>
    obtain hzero : s.bits = 0 := by omega
    refine ⟨s.out, rfl, h, hs.symbols, 0, hn, ?_, ?_⟩
    · simpa [hzero] using hs.length.symm
    · simpa [hzero, Nat.mod_one] using hs.value.symm
  case isTrue hbits =>
    refine ⟨_, rfl, h, ?_, narrowbits - s.bits, by omega, ?_, ?_⟩
    · intro d hd
      rcases List.mem_append.mp hd with hd | hd
      · exact hs.symbols d hd
      · rw [List.mem_singleton.mp hd]
        exact Nat.mod_lt _ (by positivity)
    · rw [List.length_append, List.length_singleton, Nat.mul_add, hs.length]
      omega
    · have hpow : 2 ^ narrowbits = 2 ^ s.bits * 2 ^ (narrowbits - s.bits) := by
        rw [← Nat.pow_add, Nat.add_sub_cancel' hleft.le]
      rw [number_concat, mod_shiftLeft hleft.le, hs.value, Nat.add_mul, Nat.mul_assoc, ← hpow]

/-- The strict reading finds the one text that the symbols hold, when they hold one. -/
theorem finish_strict {width widebits narrowbits : Nat} (hn : 0 < narrowbits)
    (hle : narrowbits ≤ widebits) (hw : widebits + narrowbits ≤ width + 1) {narrow : List Nat}
    (h : ∀ s ∈ narrow, s < 2 ^ narrowbits) (wide : List Nat) :
    (regroup width narrowbits widebits narrow).finish narrowbits widebits false = some wide ↔
      Padded widebits narrowbits wide narrow := by
  have hs := @regroup_holds width narrowbits widebits (by omega) (by omega) narrow h
  generalize regroup width narrowbits widebits narrow = s at hs
  have hleft := hs.left
  have hfill : (s.acc <<< (widebits - s.bits)) % 2 ^ widebits = 0 ↔ s.acc % 2 ^ s.bits = 0 := by
    rw [mod_shiftLeft hleft.le, Nat.mul_eq_zero]
    simp
  rw [Regrouping.finish, if_neg (by decide)]
  constructor
  · intro hfinish
    split at hfinish
    case isTrue => cases hfinish
    case isFalse hno =>
      rw [not_or, not_not, hfill] at hno
      cases hfinish
      exact ⟨hs.symbols, h, s.bits, by omega, hs.length, by rw [hs.value, hno.2, Nat.add_zero]⟩
  · rintro ⟨hwide, -, pad, hpad, hlen, hvalue⟩
    have hsame : wide.length = s.out.length :=
      eq_of_mul_near (hlen.symm.trans hs.length) hleft (hpad.trans_le hle)
    have hbits : s.bits = pad := by
      have hlength := hs.length
      rw [← hsame] at hlength
      omega
    have hsplit := hs.value.symm.trans hvalue
    rw [← hbits] at hsplit
    have hlow : s.acc % 2 ^ s.bits = 0 := by
      have := congrArg (· % 2 ^ s.bits) hsplit
      simpa using this
    rw [hlow, Nat.add_zero] at hsplit
    have hout : s.out = wide :=
      number_inj (Nat.one_lt_two_pow (by omega)) hsame.symm hs.symbols hwide
        (Nat.eq_of_mul_eq_mul_right (by positivity) hsplit)
    rw [if_neg (by rw [not_or, not_not, hfill]; omega), hout]

end codec
