import PCoin.Pow.Liveness

open pcoin.arith_uint256

namespace pcoin.pow

/-- The unweighted sum of the capped solvetimes. -/
def solveSum (ST : Int) : Int → List Int → Int
  | _, [] => 0
  | prev, x :: xs => min ST (max x prev - prev) + solveSum ST (max x prev) xs

@[simp] theorem solveSum_nil (ST prev : Int) : solveSum ST prev [] = 0 := rfl

theorem solveSum_cons (ST prev x : Int) (xs : List Int) :
    solveSum ST prev (x :: xs) = min ST (max x prev - prev) + solveSum ST (max x prev) xs := rfl

theorem solveSum_nonneg {ST : Int} (hST : 0 ≤ ST) (prev : Int) (xs : List Int) :
    0 ≤ solveSum ST prev xs := by
  induction xs generalizing prev with
  | nil => exact le_refl _
  | cons x xs ih =>
    have hrest := ih (max x prev)
    rw [solveSum_cons]
    omega

/-- One more weight for every block is one more solvetime sum. -/
theorem weightedSum_succ (ST : Int) (i : Nat) (prev : Int) (xs : List Int) :
    weightedSum ST (i + 1) prev xs = weightedSum ST i prev xs + solveSum ST prev xs := by
  induction xs generalizing i prev with
  | nil => simp [weightedSum]
  | cons x xs ih =>
    simp only [weightedSum, solveSum_cons, ih]
    push_cast
    ring

/-- A capped solvetime at weight `a` costs at most the same at weight `b`, and the
cap for each unit of weight in between. -/
theorem mul_weight_le {ST g : Int} (hg : 0 ≤ g) (hcap : g ≤ ST) (a b : Nat) :
    g * a ≤ g * b + ST * (a - b : Nat) := by
  have hweight : (a : Int) ≤ b + (a - b : Nat) := by omega
  calc g * a ≤ g * (b + (a - b : Nat)) := mul_le_mul_of_nonneg_left hweight hg
    _ = g * b + g * (a - b : Nat) := mul_add _ _ _
    _ ≤ g * b + ST * (a - b : Nat) := by
      have := mul_le_mul_of_nonneg_right hcap (Int.natCast_nonneg (a - b))
      omega

/-- Solvetimes are capped, so their sum is bounded by the weighted sum: weights
below `m` are made up to `m` at the price of the cap. -/
theorem mul_solveSum_le {ST : Int} (hST : 0 ≤ ST) (m i : Nat) (prev : Int) (xs : List Int) :
    m * solveSum ST prev xs ≤ weightedSum ST i prev xs +
      ST * ((List.range' i xs.length).map (m - ·)).sum := by
  induction xs generalizing i prev with
  | nil => simp [weightedSum]
  | cons x xs ih =>
    have hrest := ih (i + 1) (max x prev)
    have hhead := mul_weight_le (show 0 ≤ min ST (max x prev - prev) by omega)
      (min_le_left _ _) m i
    simp only [weightedSum, solveSum_cons, List.length_cons, List.range'_succ, List.map_cons,
      List.sum_cons]
    push_cast at hrest ⊢
    linarith

/-- A window that starts from a later stamp sees no larger solvetimes. -/
theorem weightedSum_max_le (ST : Int) (i : Nat) (base prev : Int) (xs : List Int) :
    weightedSum ST i (max base prev) xs ≤ weightedSum ST i prev xs := by
  induction xs generalizing i prev with
  | nil => simp [weightedSum]
  | cons x xs ih =>
    have hcur : max x (max base prev) = max base (max x prev) := max_left_comm x base prev
    have hst : min ST (max base (max x prev) - max base prev) ≤ min ST (max x prev - prev) := by
      omega
    have hhead := mul_le_mul_of_nonneg_right hst (Int.natCast_nonneg i)
    have hrest := ih (i + 1) (max x prev)
    simp only [weightedSum, hcur]
    omega

/-- What a window gains by starting from an earlier stamp is the distance between
the two, weighted at most `c`, and the cap for each unit of weight above `c`. -/
theorem weightedSum_le_max {ST : Int} (hST : 0 ≤ ST) (c i : Nat) (base prev : Int)
    (xs : List Int) :
    weightedSum ST i prev xs ≤ weightedSum ST i (max base prev) xs +
      c * (max base prev - prev) + ST * ((List.range' i xs.length).map (· - c)).sum := by
  induction xs generalizing i prev with
  | nil =>
    have : 0 ≤ (c : Int) * (max base prev - prev) :=
      mul_nonneg (Int.natCast_nonneg c) (by omega)
    simpa [weightedSum] using this
  | cons x xs ih =>
    have hcur : max x (max base prev) = max base (max x prev) := max_left_comm x base prev
    have hrest := ih (i + 1) (max x prev)
    obtain ⟨gain, hgain, hgain0, hgainST, hgainD⟩ : ∃ gain,
        min ST (max x prev - prev) = min ST (max base (max x prev) - max base prev) + gain ∧
        0 ≤ gain ∧ gain ≤ ST ∧
        gain ≤ (max base prev - prev) - (max base (max x prev) - max x prev) :=
      ⟨min ST (max x prev - prev) - min ST (max base (max x prev) - max base prev),
        by omega, by omega, by omega, by omega⟩
    have hweight := mul_weight_le hgain0 hgainST i c
    have hdist := mul_le_mul_of_nonneg_left hgainD (Int.natCast_nonneg c)
    simp only [weightedSum, hcur, hgain, List.length_cons, List.range'_succ, List.map_cons,
      List.sum_cons]
    push_cast at hrest ⊢
    linarith

/-- The newest stamp adds at most the cap at the largest weight. -/
theorem weightedSum_append_bounds {ST : Int} (hST : 0 ≤ ST) (i : Nat) (prev : Int)
    (xs : List Int) (x : Int) :
    weightedSum ST i prev xs ≤ weightedSum ST i prev (xs ++ [x]) ∧
      weightedSum ST i prev (xs ++ [x]) ≤
        weightedSum ST i prev xs + ST * (i + xs.length : Nat) := by
  induction xs generalizing i prev with
  | nil =>
    have hnonneg : 0 ≤ min ST (max x prev - prev) * i :=
      mul_nonneg (by omega) (Int.natCast_nonneg i)
    have hle : min ST (max x prev - prev) * i ≤ ST * i :=
      mul_le_mul_of_nonneg_right (min_le_left _ _) (Int.natCast_nonneg i)
    simp [weightedSum, hnonneg, hle]
  | cons y xs ih =>
    obtain ⟨hlow, hhigh⟩ := ih (i + 1) (max y prev)
    have hlen : i + 1 + xs.length = i + (y :: xs).length := by
      rw [List.length_cons]
      omega
    rw [hlen] at hhigh
    simp only [List.cons_append, weightedSum]
    constructor
    · omega
    · omega

/-- The clamped weighted sum of a mainnet window: at least a third of
`k = 1098000`. -/
def clampedSum (base : Int) (xs : List Int) : Int := max (weightedSum 7200 1 base xs) 366000

section Shift

variable {base first next : Int} {xs : List Int} (hlen : xs.length = 59)

include hlen

/-- Moving the window one block on costs at most a fifth of the clamped sum. -/
theorem clampedSum_shift_ge :
    4 * clampedSum base (first :: xs) ≤ 5 * clampedSum first (xs ++ [next]) := by
  have hsolve := mul_solveSum_le (show (0 : Int) ≤ 7200 by norm_num) 11 1 base (first :: xs)
  have hsum : ((List.range' 1 (first :: xs).length).map (11 - ·)).sum = 55 := by
    rw [List.length_cons, hlen]
    decide
  rw [hsum] at hsolve
  have hshift := weightedSum_max_le 7200 1 base first xs
  have happend := (weightedSum_append_bounds (show (0 : Int) ≤ 7200 by norm_num) 1 first xs
    next).1
  have hsucc : weightedSum 7200 2 (max base first) xs = _ :=
    weightedSum_succ 7200 1 (max base first) xs
  simp only [weightedSum, solveSum_cons, max_comm first base, Nat.cast_one, mul_one,
    Nat.reduceAdd] at hsolve
  simp only [clampedSum, weightedSum, max_comm first base, Nat.cast_one, mul_one, Nat.reduceAdd]
  push_cast at hsolve
  omega

/-- Moving the window one block on gains at most the newest solvetime, unless its
old start was stamped far ahead of its new one. -/
theorem clampedSum_shift_le (hahead : base ≤ first + 64800) :
    clampedSum first (xs ++ [next]) ≤ clampedSum base (first :: xs) + 3996000 := by
  have hgain := weightedSum_le_max (show (0 : Int) ≤ 7200 by norm_num) 50 1 base first xs
  have hsum : ((List.range' 1 xs.length).map (· - 50)).sum = 45 := by
    rw [hlen]
    decide
  rw [hsum] at hgain
  have hnewest := (weightedSum_append_bounds (show (0 : Int) ≤ 7200 by norm_num) 1 first xs
    next).2
  rw [hlen] at hnewest
  have hsucc : weightedSum 7200 2 (max base first) xs = _ :=
    weightedSum_succ 7200 1 (max base first) xs
  have hsolve := solveSum_nonneg (show (0 : Int) ≤ 7200 by norm_num) (max base first) xs
  simp only [clampedSum, weightedSum, max_comm first base, Nat.cast_one, mul_one, Nat.reduceAdd]
  push_cast at hgain hnewest
  omega

end Shift

/-- The decoded target of a block. -/
def decodedTarget (p : CBlockIndex) : Nat := (setCompact p.nBits).value.toNat

/-- Targets, newest first, none of which fell far below the one before it nor
below the average of those before it: what the clamp at `k / 3` enforces on the
targets of a rule-following chain. -/
def Steady : List Nat → Prop
  | [] => True
  | target :: older =>
    older.sum ≤ 181 * target ∧ (∀ parent ∈ older.head?, 33 * parent ≤ 100 * target) ∧ Steady older

theorem Steady.dropLast {targets : List Nat} (h : Steady targets) : Steady targets.dropLast := by
  induction targets with
  | nil => exact h
  | cons target older ih =>
    obtain ⟨hsum, hparent, hrest⟩ := h
    cases older with
    | nil => trivial
    | cons parent older =>
      refine ⟨?_, ?_, ih hrest⟩
      · exact (List.dropLast_sublist (parent :: older)).sum_le_sum (by simp) |>.trans hsum
      · intro x hx
        cases older with
        | nil => simp at hx
        | cons _ _ => exact hparent x (by simpa using hx)

theorem steady_replicate {target : Nat} {n : Nat} (hn : n ≤ 181) :
    Steady (List.replicate n target) := by
  induction n with
  | zero => trivial
  | succ n ih =>
    refine ⟨?_, ?_, ih (by omega)⟩
    · rw [List.sum_replicate, smul_eq_mul]
      exact Nat.mul_le_mul_right target (by omega)
    · intro parent hparent
      have := List.eq_of_mem_replicate (List.mem_of_mem_head? hparent)
      omega

/-- Every further target adds its share to the sum, so the sum outgrows the
oldest target geometrically. -/
theorem Steady.geometric {newer : List Nat} {next oldest : Nat}
    (h : Steady (newer ++ [next, oldest])) :
    133 * 182 ^ newer.length * oldest ≤
      100 * 181 ^ newer.length * (newer ++ [next, oldest]).sum := by
  induction newer with
  | nil =>
    obtain ⟨_, hparent, _⟩ := h
    have := hparent oldest (by simp)
    simp
    omega
  | cons target newer ih =>
    obtain ⟨hsum, _, hrest⟩ := h
    have hih := ih hrest
    simp only [List.cons_append, List.sum_cons, List.length_cons] at hsum ⊢
    generalize (newer ++ [next, oldest]).sum = sum at hsum hih ⊢
    calc 133 * 182 ^ (newer.length + 1) * oldest
        = 182 * (133 * 182 ^ newer.length * oldest) := by ring
      _ ≤ 182 * (100 * 181 ^ newer.length * sum) := Nat.mul_le_mul_left 182 hih
      _ = 100 * 181 ^ newer.length * (182 * sum) := by ring
      _ ≤ 100 * 181 ^ newer.length * (181 * (target + sum)) :=
        Nat.mul_le_mul_left _ (by omega)
      _ = 100 * 181 ^ (newer.length + 1) * (target + sum) := by ring

/-- In a full window the oldest target is at most 55 % of the sum. -/
theorem Steady.oldest_le {newer : List Nat} {next oldest : Nat}
    (h : Steady (newer ++ [next, oldest])) (hlen : newer.length = 58) :
    20 * oldest ≤ 11 * (newer ++ [next, oldest]).sum := by
  have hgeo := h.geometric
  rw [hlen] at hgeo
  generalize (newer ++ [next, oldest]).sum = sum at hgeo ⊢
  have hpow : 20 * (100 * 181 ^ 58) ≤ 11 * (133 * 182 ^ 58) := by norm_num
  have hpos : 0 < 100 * 181 ^ 58 := by norm_num
  apply Nat.le_of_mul_le_mul_left _ hpos
  calc 100 * 181 ^ 58 * (20 * oldest) = 20 * (100 * 181 ^ 58) * oldest := by ring
    _ ≤ 11 * (133 * 182 ^ 58) * oldest := Nat.mul_le_mul_right oldest hpow
    _ = 11 * (133 * 182 ^ 58 * oldest) := by ring
    _ ≤ 11 * (100 * 181 ^ 58 * sum) := Nat.mul_le_mul_left 11 hgeo
    _ = 100 * 181 ^ 58 * (11 * sum) := by ring

end pcoin.pow
