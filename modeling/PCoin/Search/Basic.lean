import Mathlib.Algebra.Order.Field.Basic
import Mathlib.Data.Nat.Basic
import Mathlib.Order.Basic
import Mathlib.Tactic.FieldSimp
import Mathlib.Tactic.Linarith
import Mathlib.Tactic.Push
import Mathlib.Tactic.Ring

namespace search

variable {K : Type*} [Field K] [LinearOrder K] [IsStrictOrderedRing K]

/-- The bracket after `n` halvings: the lower end moves up to a middle that is short. -/
def bisect (short : K → Bool) : Nat → K → K → K × K
  | 0, lo, hi => (lo, hi)
  | n + 1, lo, hi =>
    if short ((lo + hi) / 2) then bisect short n ((lo + hi) / 2) hi
    else bisect short n lo ((lo + hi) / 2)

/-- What a bisection of `n` halvings of `lo` and `hi` ends with. -/
structure Bracket (short : K → Bool) (n : Nat) (lo hi : K) (b : K × K) : Prop where
  lower : lo ≤ b.1
  order : b.1 ≤ b.2
  upper : b.2 ≤ hi
  width : b.2 - b.1 = (hi - lo) / 2 ^ n
  below : short lo = true → short b.1 = true
  above : b.2 = hi ∨ short b.2 = false

theorem bisect_bracket (short : K → Bool) (n : Nat) {lo hi : K} (h : lo ≤ hi) :
    Bracket short n lo hi (bisect short n lo hi) := by
  induction n generalizing lo hi with
  | zero => exact ⟨le_refl _, h, le_refl _, by simp [bisect], id, .inl rfl⟩
  | succ n ih =>
    have hlo : lo ≤ (lo + hi) / 2 := by linarith
    have hhi : (lo + hi) / 2 ≤ hi := by linarith
    rw [bisect]
    split
    · rename_i hshort
      obtain ⟨hlower, horder, hupper, hwidth, hends, hlong⟩ := ih hhi
      refine ⟨hlo.trans hlower, horder, hupper, ?_, fun _ => hends hshort, hlong⟩
      rw [hwidth, pow_succ]
      field_simp
      ring
    · rename_i hshort
      obtain ⟨hlower, horder, hupper, hwidth, hends, hlong⟩ := ih hlo
      refine ⟨hlower, horder, hupper.trans hhi, ?_, hends, .inr ?_⟩
      · rw [hwidth, pow_succ]
        field_simp
        ring
      · obtain heq | hlong := hlong
        · rw [heq]
          exact Bool.eq_false_iff.mpr hshort
        · exact hlong

end search

/-! Places `0, 1, 2, …`, some of them used: the runs of unused ones, and what lies behind a long run. -/

namespace gap

variable {used : ℕ → Bool} {g n : ℕ}

section

variable (used)

/-- The unused places in a row just before a place. -/
def run : ℕ → ℕ
  | 0 => 0
  | n + 1 => if used n then 0 else run n + 1

/-- Fewer than `g` unused places lie before the first used one, and between two used ones in a row. -/
structure Within (g : ℕ) : Prop where
  first : ∀ j, used j → (∀ i < j, ¬used i) → j < g
  between : ∀ i j, i < j → used i → used j → (∀ m, i < m → m < j → ¬used m) → j - i - 1 < g

end

@[simp] theorem run_zero : run used 0 = 0 := rfl

theorem run_succ (n : ℕ) : run used (n + 1) = if used n then 0 else run used n + 1 := rfl

theorem run_le (n : ℕ) : run used n ≤ n := by
  induction n with
  | zero => exact le_refl 0
  | succ n ih =>
    rw [run_succ]
    split <;> omega

theorem unused_of_run {i : ℕ} (hle : n - run used n ≤ i) (hlt : i < n) : ¬used i := by
  induction n with
  | zero => omega
  | succ n ih =>
    rw [run_succ] at hle
    split at hle
    · omega
    · rename_i hn
      obtain rfl | hne := eq_or_ne i n
      · exact hn
      · have hrun := @run_le used n
        apply ih <;> omega

/-- A run that does not reach back to the start ends at a used place. -/
theorem used_before_run (h : run used n < n) : used (n - run used n - 1) := by
  induction n with
  | zero => omega
  | succ n ih =>
    rw [run_succ] at h ⊢
    split
    · rename_i hn
      exact hn
    · rename_i hn
      rw [if_neg hn] at h
      have hbefore := ih (by omega)
      rwa [Nat.add_sub_add_right]

theorem run_of_unused {m : ℕ} (hle : m ≤ n) (h : ∀ i, m ≤ i → i < n → ¬used i) :
    run used n = run used m + (n - m) := by
  induction n with
  | zero =>
    obtain rfl : m = 0 := by omega
    rfl
  | succ n ih =>
    obtain rfl | hlt := hle.eq_or_lt
    · omega
    · have hrest := ih (by omega) fun i hm hi => h i hm (by omega)
      rw [run_succ, if_neg (h n (by omega) (by omega)), hrest]
      omega

theorem Within.run_lt (h : Within used g) {j : ℕ} (hj : used j) : run used j < g := by
  obtain heq | hlt := (@run_le used j).eq_or_lt
  · rw [heq]
    apply h.first j hj
    intro i hi
    exact unused_of_run (by omega) hi
  · have hbetween := h.between (j - run used j - 1) j (by omega) (used_before_run hlt) hj fun m hm hmj =>
      unused_of_run (by omega) hmj
    omega

/-- Nothing is used from a place on that lies behind a run of `g` unused ones. -/
theorem Within.lt_of_used (h : Within used g) (hrun : g ≤ run used n) {j : ℕ} (hj : used j) : j < n := by
  by_contra hle
  have hunused : ∀ i, n ≤ i → i ≤ j → ¬used i := by
    intro i
    induction i using Nat.strong_induction_on with
    | _ i ih =>
      intro hn hij hi
      have hlong := run_of_unused hn fun m hm hmi => ih m hmi hm (by omega)
      have hshort := h.run_lt hi
      omega
  exact hunused j (by omega) (le_refl j) hj

end gap
