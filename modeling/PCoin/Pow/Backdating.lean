import PCoin.Pow.Liveness

open pcoin.arith_uint256

namespace pcoin.pow

/-- The first component of the accumulation loop is the weighted sum, whatever
the targets are. -/
theorem accumulate_fst {ST : Int} {denom : ArithUint256} {i : Nat} {prev : Int}
    {w : List CBlockIndex} {t t' : Int} {sumTarget sum : ArithUint256}
    (h : accumulate ST denom i prev w t sumTarget = some (t', sum)) :
    t' = t + weightedSum ST i prev (w.map CBlockIndex.getBlockTime) := by
  induction w generalizing i prev t sumTarget with
  | nil =>
    simp only [accumulate, Option.some.injEq, Prod.mk.injEq] at h
    simp [weightedSum, h.1]
  | cons p w ih =>
    have hcur : (if p.getBlockTime > prev then p.getBlockTime else prev) =
        max p.getBlockTime prev := by
      split <;> omega
    have hst : (if max p.getBlockTime prev - prev > ST then ST
        else max p.getBlockTime prev - prev) = min ST (max p.getBlockTime prev - prev) := by
      split <;> omega
    simp only [accumulate, hcur, hst, Option.bind_eq_bind, Option.bind_eq_some_iff] at h
    obtain ⟨_, _, h⟩ := h
    rw [ih h, List.map_cons, weightedSum]
    ring

/-- With a nonzero divisor the accumulation loop always returns. -/
theorem accumulate_isSome (ST : Int) {denom : ArithUint256} (hdenom : 0 < denom.toNat) (i : Nat)
    (prev : Int) (w : List CBlockIndex) (t : Int) (sumTarget : ArithUint256) :
    ∃ t' sum, accumulate ST denom i prev w t sumTarget = some (t', sum) := by
  induction w generalizing i prev t sumTarget with
  | nil => exact ⟨t, sumTarget, rfl⟩
  | cons p w ih =>
    obtain ⟨target, hdiv, _⟩ := ArithUint256.div_eq_some (setCompact p.nBits).value hdenom
    simp only [accumulate, hdiv, Option.bind_eq_bind, Option.bind_some]
    exact ih _ _ _ _

/-- Apparent time telescopes: the weighted sum is at most the largest weight
times the distance from the first stamp to any bound on the stamps. -/
theorem weightedSum_le_span {ST : Int} {i : Nat} {prev top : Int} {xs : List Int}
    (hprev : prev ≤ top) (hxs : ∀ x ∈ xs, x ≤ top) :
    weightedSum ST (i + 1) prev xs ≤ (i + xs.length) * (top - prev) := by
  induction xs generalizing i prev with
  | nil =>
    have : 0 ≤ (i : Int) * (top - prev) := mul_nonneg (Int.natCast_nonneg i) (by omega)
    simpa [weightedSum] using this
  | cons x xs ih =>
    have hx := hxs x (by simp)
    have hcur : max x prev ≤ top := max_le hx hprev
    have hrest := @ih (i + 1) (max x prev) hcur fun y hy => hxs y (List.mem_cons_of_mem _ hy)
    have hstep : 0 ≤ max x prev - prev := by omega
    have hhead : min ST (max x prev - prev) * ((i + 1 : Nat) : Int) ≤
        (max x prev - prev) * ((i + 1 : Nat) : Int) :=
      mul_le_mul_of_nonneg_right (min_le_right _ _) (Int.natCast_nonneg _)
    have hslack : 0 ≤ (xs.length : Int) * (max x prev - prev) := by positivity
    simp only [weightedSum, List.length_cons]
    push_cast at hrest hhead ⊢
    linarith

/-- Stamps that never fall and never jump past the cap are weighted in full, so
their weighted sum is a summation by parts. -/
theorem weightedSum_of_ramp {ST : Int} {c : Nat → Int} (hmono : ∀ j, c j ≤ c (j + 1))
    (hjump : ∀ j, c (j + 1) - c j ≤ ST) (i n : Nat) :
    weightedSum ST (i + 1) (c i) ((List.range' (i + 1) n).map c) =
      (i + n) * c (i + n) - i * c i - ∑ j ∈ Finset.range n, c (i + j) := by
  induction n generalizing i with
  | zero => simp [weightedSum]
  | succ n ih =>
    have hcur : max (c (i + 1)) (c i) = c (i + 1) := max_eq_left (hmono i)
    have hst : min ST (c (i + 1) - c i) = c (i + 1) - c i := min_eq_right (hjump i)
    have hindex : i + 1 + n = i + (n + 1) := by omega
    have hsum : ∑ j ∈ Finset.range n, c (i + 1 + j) = ∑ j ∈ Finset.range n, c (i + (j + 1)) := by
      refine Finset.sum_congr rfl fun j _ => ?_
      rw [Nat.add_right_comm i 1 j, Nat.add_assoc i j 1]
    rw [List.range'_succ, List.map_cons, weightedSum, hcur, hst, ih (i + 1), hindex,
      Finset.sum_range_succ', hsum]
    simp only [Nat.cast_add, Nat.cast_one, Nat.add_zero]
    ring

/-- The documented bound on backdating: whatever stamps a window of constant
`nBits` carries, as long as none is later than its honest time, the weighted sum
is at most `k * (1 + (ST / T - 1) / (N + 1))`. -/
def BackdatingBounded (N T ST : Nat) : Prop :=
  ∀ (nBits : UInt32) (pindexLast w0 : CBlockIndex) (w : List CBlockIndex) (t : Int)
    (sumTarget : ArithUint256),
    pindexLast.window N = some (w0 :: w) → (∀ p ∈ w0 :: w, p.nBits = nBits) →
    (∀ (i : Nat) (hi : i < w.length),
      (w.get ⟨i, hi⟩).getBlockTime ≤ w0.getBlockTime + (i + 1) * T) →
    accumulate ST (.ofUInt64 (UInt64.ofNat (lwmaK N T * N))) 1 w0.getBlockTime w 0
      (.ofUInt64 0) = some (t, sumTarget) →
    (t : ℚ) ≤ lwmaK N T * (1 + ((ST : ℚ) / T - 1) / (N + 1))

/-- The bound in whole numbers: `2 * t <= N * (N * T + ST)`. -/
theorem bound_iff {N T ST : Nat} (hT : 0 < T) (t : Int) :
    (t : ℚ) ≤ lwmaK N T * (1 + ((ST : ℚ) / T - 1) / (N + 1)) ↔
      2 * t ≤ N * (N * T + ST) := by
  have hk : (2 : ℚ) * lwmaK N T = N * (N + 1) * T := by exact_mod_cast two_mul_lwmaK N T
  have hTq : (T : ℚ) ≠ 0 := by exact_mod_cast hT.ne'
  have hN : (N : ℚ) + 1 ≠ 0 := by positivity
  have hbound : (2 : ℚ) * (lwmaK N T * (1 + ((ST : ℚ) / T - 1) / (N + 1))) =
      N * (N * T + ST) := by
    rw [← mul_assoc, hk]
    field_simp
    ring
  constructor
  · intro h
    have h2 : (2 : ℚ) * t ≤ N * (N * T + ST) := by linarith
    exact_mod_cast h2
  · intro h
    have h2 : (2 : ℚ) * t ≤ N * (N * T + ST) := by exact_mod_cast h
    linarith

/-- A chain of one `nBits` grown from `p` by the given stamps. -/
def extend (nBits : UInt32) (p : CBlockIndex) (stamps : List UInt32) : CBlockIndex :=
  stamps.foldl (fun q stamp => .child q stamp nBits) p

theorem window_extend (nBits : UInt32) (p : CBlockIndex) (stamps : List UInt32) :
    ∃ w, (extend nBits p stamps).window stamps.length = some (p :: w) ∧
      w.map CBlockIndex.nTime = stamps ∧ ∀ q ∈ w, q.nBits = nBits := by
  induction stamps using List.reverseRecOn with
  | nil => exact ⟨[], by simp [extend, CBlockIndex.window], rfl, by simp⟩
  | append_singleton stamps stamp ih =>
    obtain ⟨w, hw, htimes, hbits⟩ := ih
    have htip : extend nBits p (stamps ++ [stamp]) = .child (extend nBits p stamps) stamp nBits := by
      simp [extend]
    refine ⟨w ++ [CBlockIndex.child (extend nBits p stamps) stamp nBits], ?_, ?_, ?_⟩
    · simp [htip, CBlockIndex.window, hw]
    · simp [htimes, CBlockIndex.nTime]
    · intro q hq
      rcases List.mem_append.mp hq with hq | hq
      · exact hbits q hq
      · obtain rfl := List.mem_singleton.mp hq
        rfl

/-- The catch-up attack on a window: every stamp as late as jumps of `q * T` and
an honest last stamp allow. -/
def catchUp (N T q j : Nat) : Nat := T * (N - q * (N - j))

section CatchUp

variable {N T q : Nat}

theorem catchUp_le_honest (hq : 1 ≤ q) {j : Nat} (hj : j ≤ N) : catchUp N T q j ≤ j * T := by
  have hgap : N - j ≤ q * (N - j) := Nat.le_mul_of_pos_left _ hq
  rw [catchUp, Nat.mul_comm]
  exact Nat.mul_le_mul_right T (by omega)

theorem catchUp_le (j : Nat) : catchUp N T q j ≤ N * T := by
  rw [catchUp, Nat.mul_comm]
  exact Nat.mul_le_mul_right T (Nat.sub_le _ _)

theorem catchUp_mono (j : Nat) : catchUp N T q j ≤ catchUp N T q (j + 1) := by
  have hgap : q * (N - (j + 1)) ≤ q * (N - j) := Nat.mul_le_mul_left q (by omega)
  exact Nat.mul_le_mul_left T (by omega)

theorem catchUp_jump (j : Nat) : catchUp N T q (j + 1) ≤ catchUp N T q j + q * T := by
  have hgap : q * (N - j) ≤ q * (N - (j + 1)) + q := by
    rw [← Nat.mul_succ]
    exact Nat.mul_le_mul_left q (by omega)
  have hstep : N - q * (N - (j + 1)) ≤ (N - q * (N - j)) + q := by omega
  calc catchUp N T q (j + 1) ≤ T * ((N - q * (N - j)) + q) := Nat.mul_le_mul_left T hstep
    _ = catchUp N T q j + q * T := by rw [catchUp, Nat.mul_add, Nat.mul_comm T q]

/-- `m` blocks before the last the attack lies below the chord of the window by
`N * (q - 1) * (m - 1)`, as long as it is off the floor. -/
theorem catchUp_chord {m : Nat} (hm : q * m ≤ N) :
    ((N : Int) - 1) * (N - q * m : Nat) + N * ((q - 1) * (m - 1)) = (N - q) * (N - m) := by
  rw [Nat.cast_sub hm]
  push_cast
  ring

theorem catchUp_chord_le (hq : 1 ≤ q) (hqN : q < N) {j : Nat} (hj : j < N) :
    ((N : Int) - 1) * (N - q * (N - j) : Nat) ≤ (N - q) * j := by
  obtain ⟨m, rfl⟩ := Nat.exists_eq_add_of_lt hj
  have hsub : j + m + 1 - j = m + 1 := by omega
  rw [hsub]
  by_cases hm : q * (m + 1) ≤ j + m + 1
  · have hchord := catchUp_chord hm
    have hgap : 0 ≤ ((j + m + 1 : Nat) : Int) * (((q : Int) - 1) * m) := by
      apply mul_nonneg (Int.natCast_nonneg _)
      exact mul_nonneg (by omega) (Int.natCast_nonneg _)
    push_cast at hchord hgap ⊢
    linarith
  · rw [Nat.sub_eq_zero_of_le (by omega), Nat.cast_zero, mul_zero]
    exact mul_nonneg (by omega) (Int.natCast_nonneg _)

/-- The inequality is strict one block before the catch-up completes. -/
theorem catchUp_chord_lt (hq : 2 ≤ q) (hqN : q < N) :
    ((N : Int) - 1) * (N - q * (N - (N - 2)) : Nat) < (N - q) * (N - 2 : Nat) := by
  have hsub : N - (N - 2) = 2 := by omega
  have hcast : ((N - 2 : Nat) : Int) = N - 2 := by omega
  rw [hsub, hcast]
  by_cases hm : q * 2 ≤ N
  · have hchord := catchUp_chord hm
    have hgap : 0 < (N : Int) * ((q - 1) * (2 - 1)) := by
      apply mul_pos (by omega)
      exact mul_pos (by omega) (by norm_num)
    push_cast at hchord ⊢
    linarith
  · rw [Nat.sub_eq_zero_of_le (by omega), Nat.cast_zero, mul_zero]
    exact mul_pos (by omega) (by omega)

/-- So the stamps before the last add up to less than half of the chord's, and the
attack gains more than the documented bound. -/
theorem two_mul_sum_catchUp_lt (hT : 0 < T) (hq : 2 ≤ q) (hqN : q < N) :
    2 * ∑ j ∈ Finset.range N, (catchUp N T q j : Int) < T * (N * (N - q)) := by
  have hlt : ∑ j ∈ Finset.range N, ((N : Int) - 1) * (N - q * (N - j) : Nat) <
      ∑ j ∈ Finset.range N, ((N : Int) - q) * j := by
    apply Finset.sum_lt_sum
    · intro j hj
      exact catchUp_chord_le (by omega) hqN (Finset.mem_range.mp hj)
    · exact ⟨N - 2, Finset.mem_range.mpr (by omega), catchUp_chord_lt hq hqN⟩
  have hgauss : (∑ j ∈ Finset.range N, (j : Int)) * 2 = N * (N - 1) := by
    have h := Finset.sum_range_id_mul_two N
    have hcast : ((N - 1 : Nat) : Int) = N - 1 := by omega
    rw [← hcast, ← Nat.cast_sum]
    exact_mod_cast h
  rw [← Finset.mul_sum, ← Finset.mul_sum] at hlt
  have hN : (0 : Int) < N - 1 := by omega
  have hfloor : 2 * ∑ j ∈ Finset.range N, ((N - q * (N - j) : Nat) : Int) < N * (N - q) := by
    apply lt_of_mul_lt_mul_left _ hN.le
    calc ((N : Int) - 1) * (2 * ∑ j ∈ Finset.range N, ((N - q * (N - j) : Nat) : Int))
        = 2 * ((N - 1) * ∑ j ∈ Finset.range N, ((N - q * (N - j) : Nat) : Int)) := by ring
      _ < 2 * ((N - q) * ∑ j ∈ Finset.range N, (j : Int)) := by linarith
      _ = (N - q) * ((∑ j ∈ Finset.range N, (j : Int)) * 2) := by ring
      _ = (N - 1) * (N * (N - q)) := by rw [hgauss]; ring
  have hsum : ∑ j ∈ Finset.range N, (catchUp N T q j : Int) =
      T * ∑ j ∈ Finset.range N, ((N - q * (N - j) : Nat) : Int) := by
    rw [Finset.mul_sum]
    refine Finset.sum_congr rfl fun j _ => ?_
    rw [catchUp, Nat.cast_mul]
  have hTint : (0 : Int) < T := by omega
  have hscaled := mul_lt_mul_of_pos_left hfloor hTint
  rw [hsum]
  linarith

/-- The weighted sum of the attack. -/
theorem weightedSum_catchUp :
    weightedSum (q * T : Nat) 1 (catchUp N T q 0)
        ((List.range' 1 N).map fun j => (catchUp N T q j : Int)) =
      N * (T * N) - ∑ j ∈ Finset.range N, (catchUp N T q j : Int) := by
  have hmono (j : Nat) : (catchUp N T q j : Int) ≤ catchUp N T q (j + 1) := by
    exact_mod_cast catchUp_mono j
  have hjump (j : Nat) : (catchUp N T q (j + 1) : Int) - catchUp N T q j ≤ (q * T : Nat) := by
    have := @catchUp_jump N T q j
    omega
  have hlast : catchUp N T q N = T * N := by simp [catchUp]
  have h := weightedSum_of_ramp hmono hjump 0 N
  simp only [Nat.cast_zero, zero_add, zero_mul, sub_zero, hlast] at h
  rw [h]
  push_cast
  ring

end CatchUp

/-- The attack as a chain of one `nBits`. -/
def catchUpChain (nBits : UInt32) (N T q : Nat) : CBlockIndex :=
  extend nBits (.genesis 0 nBits) ((List.range' 1 N).map fun j => UInt32.ofNat (catchUp N T q j))

/-- The attack is a window that the bound speaks about. -/
theorem window_catchUpChain {N T q : Nat} (hq : 1 ≤ q) (hfit : N * T < 2 ^ 32)
    (nBits : UInt32) :
    ∃ w, (catchUpChain nBits N T q).window N = some (.genesis 0 nBits :: w) ∧
      (∀ p ∈ CBlockIndex.genesis 0 nBits :: w, p.nBits = nBits) ∧
      w.map CBlockIndex.getBlockTime = (List.range' 1 N).map (fun j => (catchUp N T q j : Int)) ∧
      ∀ (i : Nat) (hi : i < w.length), (w.get ⟨i, hi⟩).getBlockTime ≤
        (CBlockIndex.genesis 0 nBits).getBlockTime + (i + 1) * T := by
  obtain ⟨w, hw, htimes, hbits⟩ := window_extend nBits (.genesis 0 nBits)
    ((List.range' 1 N).map fun j => UInt32.ofNat (catchUp N T q j))
  rw [List.length_map, List.length_range'] at hw
  have hstamps : w.map CBlockIndex.getBlockTime =
      (List.range' 1 N).map (fun j => (catchUp N T q j : Int)) := by
    have hcomp : w.map CBlockIndex.getBlockTime =
        (w.map CBlockIndex.nTime).map (fun stamp => (stamp.toNat : Int)) := by
      simp [CBlockIndex.getBlockTime]
    rw [hcomp, htimes, List.map_map]
    refine List.map_congr_left fun j _ => ?_
    have := @catchUp_le N T q j
    rw [Function.comp_apply, UInt32.toNat_ofNat', Nat.mod_eq_of_lt (by omega)]
  refine ⟨w, hw, ?_, hstamps, ?_⟩
  · intro p hp
    rcases List.mem_cons.mp hp with rfl | hp
    · rfl
    · exact hbits p hp
  · intro i hi
    have hlen : w.length = N := by simpa using congrArg List.length hstamps
    have hget : (w.get ⟨i, hi⟩).getBlockTime = catchUp N T q (i + 1) := by
      have h := congrArg (fun xs => xs[i]?) hstamps
      simp only [List.getElem?_map, List.getElem?_range' (hlen ▸ hi),
        List.getElem?_eq_getElem hi, Option.map_some, Option.some.injEq] at h
      rw [List.get_eq_getElem, h]
      norm_num [Nat.add_comm]
    have hhonest := @catchUp_le_honest N T q hq (i + 1) (by omega)
    have hstart : (CBlockIndex.genesis 0 nBits).getBlockTime = 0 := rfl
    rw [hget, hstart, zero_add]
    exact_mod_cast hhonest

theorem le_lwmaK {N : Nat} (hN : 0 < N) (T : Nat) : N * T ≤ lwmaK N T := by
  have h2k := two_mul_lwmaK N T
  have hmul : N * 2 * T ≤ N * (N + 1) * T :=
    Nat.mul_le_mul_right T (Nat.mul_le_mul_left N (by omega))
  have : N * 2 * T = 2 * (N * T) := by ring
  omega

/-- A cap of at least two spacings that still binds within a window is beaten by
the catch-up attack. -/
theorem not_bounded_of_between {N T q : Nat} (hT : 0 < T) (hq : 2 ≤ q) (hqN : q < N)
    (hdenom : lwmaK N T * N ≤ 2 ^ 32 - 1) : ¬ BackdatingBounded N T (q * T) := by
  intro hbounded
  have hN : 0 < N := by omega
  have hk := le_lwmaK hN T
  have hkN := Nat.le_mul_of_pos_right (lwmaK N T) hN
  have hNT : 0 < N * T := Nat.mul_pos hN hT
  obtain ⟨w, hw, hbits, hstamps, hhonest⟩ :=
    window_catchUpChain (show 1 ≤ q by omega) (show N * T < 2 ^ 32 by omega) 0x1e0b7c33
  have hdenpos : 0 < (ArithUint256.ofUInt64 (UInt64.ofNat (lwmaK N T * N))).toNat := by
    rw [ArithUint256.toNat_ofUInt64, UInt64.toNat_ofNat', Nat.mod_eq_of_lt (by omega)]
    omega
  obtain ⟨t, sum, hacc⟩ := accumulate_isSome ((q * T : Nat) : Int) hdenpos 1
    (CBlockIndex.genesis 0 0x1e0b7c33).getBlockTime w 0 (.ofUInt64 0)
  have ht := accumulate_fst hacc
  have hstart : (CBlockIndex.genesis 0 0x1e0b7c33).getBlockTime = (catchUp N T q 0 : Nat) := by
    have : N ≤ q * N := Nat.le_mul_of_pos_left _ (by omega)
    simp [catchUp, Nat.sub_eq_zero_of_le this, CBlockIndex.getBlockTime, CBlockIndex.nTime]
  rw [hstamps, hstart, weightedSum_catchUp] at ht
  have hcap := (bound_iff hT t).mp (hbounded _ _ _ w t sum hw hbits hhonest hacc)
  have hsum := two_mul_sum_catchUp_lt hT hq hqN
  have hexpand : (N : Int) * (N * T + (q * T : Nat)) = 2 * (N * (T * N)) - T * (N * (N - q)) := by
    push_cast
    ring
  rw [hexpand] at hcap
  omega

/-- A cap of one spacing leaves nothing to gain, and a cap that cannot bind
within a window leaves only the span of the window. -/
theorem bounded_of_extreme {N T ST : Nat} (hT : 0 < T) (hcond : ST = T ∨ N * T ≤ ST) :
    BackdatingBounded N T ST := by
  intro nBits pindexLast w0 w t sumTarget hw hbits hhonest hacc
  have ht := accumulate_fst hacc
  have hlen : w.length = N := by
    have := (CBlockIndex.le_nHeight_of_window hw).2
    simpa using this
  rw [bound_iff hT, ht, zero_add]
  rcases hcond with rfl | hlarge
  · have h := two_mul_weightedSum_le (ST : Int) 1 w0.getBlockTime
      (w.map CBlockIndex.getBlockTime)
    rw [List.length_map, hlen] at h
    push_cast at h ⊢
    linarith
  · have htop : ∀ x ∈ w.map CBlockIndex.getBlockTime, x ≤ w0.getBlockTime + N * T := by
      intro x hx
      obtain ⟨p, hp, rfl⟩ := List.mem_map.mp hx
      obtain ⟨⟨i, hi⟩, rfl⟩ := List.get_of_mem hp
      have h := hhonest i hi
      have hspan : ((i : Int) + 1) * T ≤ N * T :=
        mul_le_mul_of_nonneg_right (by omega) (Int.natCast_nonneg T)
      omega
    have hnonneg : (0 : Int) ≤ N * T := by positivity
    have hspan := @weightedSum_le_span ST 0 w0.getBlockTime _ _
      (show w0.getBlockTime ≤ w0.getBlockTime + N * T by omega) htop
    rw [List.length_map, hlen] at hspan
    have hmul : (N : Int) * (N * T) ≤ N * ST :=
      mul_le_mul_of_nonneg_left (by exact_mod_cast hlarge) (Int.natCast_nonneg N)
    simp only [Nat.cast_zero, zero_add, add_sub_cancel_left] at hspan
    linarith

/-- The documented cap on backdating holds exactly when the solvetime cap is one
spacing, or so large that it cannot bind within a window: in between, a catch-up
spread over several blocks beats it. -/
theorem backdating_bounded_iff {N T ST : Nat} (hT : 0 < T) (hdvd : T ∣ ST)
    (hle : T ≤ ST) (hdenom : lwmaK N T * N ≤ 2 ^ 32 - 1) :
    BackdatingBounded N T ST ↔ ST = T ∨ N * T ≤ ST := by
  constructor
  · intro hbounded
    by_contra hcond
    obtain ⟨hne, hlt⟩ := not_or.mp hcond
    obtain ⟨q, rfl⟩ := hdvd
    have hq : 2 ≤ q := by
      cases q with
      | zero => omega
      | succ q =>
        cases q with
        | zero => omega
        | succ q => omega
    have hqN : q < N := by
      by_contra hqN
      have := Nat.mul_le_mul_right T (Nat.not_lt.mp hqN)
      rw [Nat.mul_comm T q] at hlt
      exact hlt this
    rw [Nat.mul_comm T q] at hbounded
    exact not_bounded_of_between hT hq hqN hdenom hbounded
  · exact bounded_of_extreme hT

/-- The cap fails at the mainnet parameters, and would hold with a solvetime cap
of a whole window. -/
theorem backdating_bounded_iff_main :
    (BackdatingBounded 60 600 7200 ↔ 7200 = 600 ∨ 60 * 600 ≤ 7200) ∧
      (BackdatingBounded 60 600 36000 ↔ 36000 = 600 ∨ 60 * 600 ≤ 36000) := by
  have hdenom : lwmaK 60 600 * 60 ≤ 2 ^ 32 - 1 := by norm_num [lwmaK]
  constructor
  · exact backdating_bounded_iff (by norm_num) (by norm_num) (by norm_num) hdenom
  · exact backdating_bounded_iff (by norm_num) (by norm_num) (by norm_num) hdenom

/-- A mainnet window whose last five blocks catch up two hours each: no stamp is
later than its honest time, and the weighted sum is 1.9 times `k`, past the
documented 1.18. -/
theorem catch_up_beats_cap :
    catchUpChain 0x1e0b7c33 60 600 12 = extend 0x1e0b7c33 (.genesis 0 0x1e0b7c33)
        (List.replicate 55 0 ++ [7200, 14400, 21600, 28800, 36000]) ∧
      ∃ w sumTarget, (catchUpChain 0x1e0b7c33 60 600 12).window 60 =
          some (.genesis 0 0x1e0b7c33 :: w) ∧
        (∀ p ∈ CBlockIndex.genesis 0 0x1e0b7c33 :: w, p.nBits = 0x1e0b7c33) ∧
        (∀ (i : Nat) (hi : i < w.length), (w.get ⟨i, hi⟩).getBlockTime ≤
          (CBlockIndex.genesis 0 0x1e0b7c33).getBlockTime + (i + 1) * (600 : Nat)) ∧
        accumulate 7200 (.ofUInt64 (UInt64.ofNat (lwmaK 60 600 * 60))) 1
          (CBlockIndex.genesis 0 0x1e0b7c33).getBlockTime w 0 (.ofUInt64 0) =
            some (2088000, sumTarget) ∧
        ¬ ((2088000 : Int) : ℚ) ≤ lwmaK 60 600 * (1 + ((7200 : ℚ) / 600 - 1) / (60 + 1)) := by
  obtain ⟨w, hw, hbits, hstamps, hhonest⟩ :=
    @window_catchUpChain 60 600 12 (by norm_num) (by norm_num) 0x1e0b7c33
  have hdenpos : 0 < (ArithUint256.ofUInt64 (UInt64.ofNat (lwmaK 60 600 * 60))).toNat := by
    rw [ArithUint256.toNat_ofUInt64]
    norm_num [lwmaK]
  obtain ⟨t, sum, hacc⟩ := accumulate_isSome 7200 hdenpos 1
    (CBlockIndex.genesis 0 0x1e0b7c33).getBlockTime w 0 (.ofUInt64 0)
  have ht : t = 2088000 := by
    rw [accumulate_fst hacc, hstamps]
    decide +kernel
  rw [ht] at hacc
  refine ⟨?_, w, sum, hw, hbits, hhonest, hacc, ?_⟩
  · rw [catchUpChain]
    congr 1
  · norm_num [lwmaK]

end pcoin.pow
