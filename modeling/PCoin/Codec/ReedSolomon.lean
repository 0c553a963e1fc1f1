import Mathlib.Algebra.CharP.Two
import Mathlib.LinearAlgebra.Vandermonde

/-! Polynomials as lists of their coefficients, the leading one first: division with remainder as a shift
register does it, and words that are zero at consecutive powers. -/

namespace reedsolomon

section Value

variable {K : Type*} [CommRing K]

/-- The value at `r`, by Horner's rule. -/
def eval (r : K) (p : List K) : K := p.foldl (fun v c => v * r + c) 0

@[simp] theorem eval_nil (r : K) : eval r [] = 0 := rfl

theorem foldl_eval (r v : K) (p : List K) :
    p.foldl (fun v c => v * r + c) v = v * r ^ p.length + eval r p := by
  induction p generalizing v with
  | nil => simp
  | cons c p ih =>
    rw [eval, List.foldl_cons, List.foldl_cons, ih, ih (0 * r + c), List.length_cons]
    ring

theorem eval_append (r : K) (p q : List K) : eval r (p ++ q) = eval r p * r ^ q.length + eval r q := by
  rw [eval, List.foldl_append, foldl_eval]
  rfl

theorem eval_cons (r c : K) (p : List K) : eval r (c :: p) = c * r ^ p.length + eval r p := by
  rw [← List.singleton_append, eval_append]
  simp [eval]

theorem eval_add (r : K) {p q : List K} (h : p.length = q.length) :
    eval r (List.zipWith (· + ·) p q) = eval r p + eval r q := by
  induction p generalizing q with
  | nil => simp [List.length_eq_zero_iff.mp h.symm]
  | cons c p ih =>
    cases q with
    | nil => cases h
    | cons d q =>
      have hlen : p.length = q.length := Nat.succ.inj h
      rw [List.zipWith_cons_cons, eval_cons, eval_cons, eval_cons, ih hlen, List.length_zipWith, ← hlen,
        Nat.min_self]
      ring

theorem eval_scale (r a : K) (p : List K) : eval r (p.map (· * a)) = eval r p * a := by
  induction p with
  | nil => simp
  | cons c p ih =>
    rw [List.map_cons, eval_cons, eval_cons, ih, List.length_map]
    ring

end Value

section Division

variable {K : Type*} [CommRing K]

/-- The product with `x + a`. -/
def timesRoot (p : List K) (a : K) : List K := List.zipWith (· + ·) (p ++ [0]) (0 :: p.map (· * a))

theorem length_timesRoot (p : List K) (a : K) : (timesRoot p a).length = p.length + 1 := by
  simp [timesRoot]

theorem eval_timesRoot (r : K) (p : List K) (a : K) : eval r (timesRoot p a) = eval r p * (r + a) := by
  have hshift : eval r (p ++ [0]) = eval r p * r := by
    rw [eval_append]
    simp [eval]
  have htail : eval r (0 :: p.map (· * a)) = eval r p * a := by
    rw [eval_cons, zero_mul, zero_add, eval_scale]
  rw [timesRoot, eval_add r (by simp), hshift, htail, mul_add]

/-- One step of the shift register with the taps `g`: what is shifted out comes back through them. -/
def shiftIn (g res : List K) (c : K) : List K :=
  List.zipWith (· + ·) (res.tail ++ [0]) (g.map (· * (c + res.headD 0)))

variable {g : List K} {r : K}

theorem length_shiftIn {res : List K} (h : res.length = g.length) (hpos : 0 < g.length) (c : K) :
    (shiftIn g res c).length = g.length := by
  simp [shiftIn, h]
  omega

variable [CharP K 2]

/-- At a root of the divisor the register is worth what has been shifted into it. -/
theorem eval_shiftIn (hroot : eval r (1 :: g) = 0) {res : List K} (h : res.length = g.length)
    (hpos : 0 < g.length) (c : K) :
    eval r (shiftIn g res c) = eval r res * r + c * r ^ g.length := by
  have htaps : eval r g = r ^ g.length := by
    rw [eval_cons, one_mul] at hroot
    exact (CharTwo.add_eq_zero.mp hroot).symm
  cases res with
  | nil => exact absurd (h.trans_gt hpos) (lt_irrefl 0)
  | cons b res =>
    have hlen : (res ++ [0]).length = (g.map (· * (c + b))).length := by
      simpa using h
    have hshift : eval r (res ++ [0]) = eval r res * r := by
      rw [eval_append]
      simp [eval]
    rw [shiftIn, List.tail_cons, List.headD_cons, eval_add r hlen, hshift, eval_scale, htaps, eval_cons,
      ← h, List.length_cons]
    ring

/-- The register after a word. -/
def remainder (g : List K) (data : List K) : List K :=
  data.foldl (shiftIn g) (List.replicate g.length 0)

omit [CharP K 2] in
theorem length_foldl_shiftIn (hpos : 0 < g.length) (data : List K) {res : List K} (h : res.length = g.length) :
    (data.foldl (shiftIn g) res).length = g.length := by
  induction data generalizing res with
  | nil => exact h
  | cons c data ih => exact ih (length_shiftIn h hpos c)

theorem eval_foldl_shiftIn (hroot : eval r (1 :: g) = 0) (hpos : 0 < g.length) (data : List K) {res : List K}
    (h : res.length = g.length) :
    eval r (data.foldl (shiftIn g) res) = eval r res * r ^ data.length + eval r data * r ^ g.length := by
  induction data generalizing res with
  | nil => simp
  | cons c data ih =>
    rw [List.foldl_cons, ih (length_shiftIn h hpos c), eval_shiftIn hroot h hpos, eval_cons, List.length_cons]
    ring

omit [CharP K 2] in
theorem eval_zeros (n : ℕ) : eval r (List.replicate n (0 : K)) = 0 := by
  induction n with
  | zero => rfl
  | succ n ih => rw [List.replicate_succ, eval_cons, zero_mul, zero_add, ih]

/-- A word with its remainder behind it is zero at the roots of the divisor. -/
theorem eval_codeword (hroot : eval r (1 :: g) = 0) (hpos : 0 < g.length) (data : List K) :
    eval r (data ++ remainder g data) = 0 := by
  have hlen : (remainder g data).length = g.length :=
    length_foldl_shiftIn hpos data List.length_replicate
  rw [eval_append, hlen, remainder, eval_foldl_shiftIn hroot hpos data List.length_replicate, eval_zeros,
    zero_mul, zero_add, CharTwo.add_self_eq_zero]

end Division

section Distance

variable {K : Type*} [CommRing K]

theorem eval_eq_sum (r : K) (w : List K) :
    eval r w = ∑ k : Fin w.length, w[k] * r ^ (w.length - 1 - k) := by
  induction w with
  | nil => rfl
  | cons c w ih =>
    have hsucc : ∀ k : Fin w.length, w.length - ((k.succ : Fin (w.length + 1)) : ℕ) = w.length - 1 - k := by
      intro k
      rw [Fin.val_succ]
      omega
    refine .trans ?_ (Fin.sum_univ_succ (n := w.length)
      fun k => (c :: w)[k] * r ^ (w.length - (k : ℕ))).symm
    simp only [hsucc]
    rw [eval_cons, ih]
    rfl

/-- The places of a word that are not zero. -/
def support [DecidableEq K] (w : List K) : Finset (Fin w.length) := Finset.univ.filter fun k => w[k] ≠ 0

theorem card_support [DecidableEq K] (w : List K) : (support w).card = w.countP (· ≠ 0) := by
  induction w with
  | nil => rfl
  | cons c w ih =>
    have hcard := Fin.card_filter_univ_succ (n := w.length) fun k => (c :: w)[k] ≠ 0
    rw [support]
    refine hcard.trans ?_
    by_cases hc : c = 0
    · rw [List.countP_cons_of_neg (by simpa using hc), ← ih, if_neg (by simpa using hc)]
      rfl
    · rw [List.countP_cons_of_pos (by simpa using hc), ← ih, if_pos (by simpa using hc)]
      rfl

/-- A word that is zero at `n` consecutive powers of an element is zero when at most `n` of its places
are not, if the powers of its places differ. -/
theorem support_eq_empty [IsDomain K] [DecidableEq K] {a : K} {n : ℕ} {w : List K}
    (hroots : ∀ i < n, eval (a ^ i) w = 0)
    (hdiffer : ∀ i < w.length, ∀ j < w.length, a ^ i = a ^ j → i = j)
    (hcard : (support w).card ≤ n) : support w = ∅ := by
  set m := (support w).card with hm
  let place : Fin m → Fin w.length := fun j => (support w).orderEmbOfFin rfl j
  have hplace : Function.Injective place := ((support w).orderEmbOfFin rfl).injective
  have hpowers : Function.Injective fun j : Fin m => a ^ (w.length - 1 - (place j : ℕ)) := by
    intro i j hij
    have hi := (place i).isLt
    have hj := (place j).isLt
    have hexp := hdiffer _ (by omega) _ (by omega) hij
    exact hplace (Fin.ext (by omega))
  have hsums : ∀ i : Fin m,
      ∑ j : Fin m, w[place j] * (a ^ (w.length - 1 - (place j : ℕ))) ^ (i : ℕ) = 0 := by
    intro i
    have hzero := hroots i (i.isLt.trans_le hcard)
    rw [eval_eq_sum, ← Finset.sum_subset (Finset.subset_univ (support w)) fun k _ hk => ?_] at hzero
    · rw [← (support w).map_orderEmbOfFin_univ rfl, Finset.sum_map] at hzero
      refine .trans (Finset.sum_congr rfl fun j _ => ?_) hzero
      rw [← pow_mul, ← pow_mul, Nat.mul_comm]
      rfl
    · have hk : w[k] = 0 := by simpa [support] using hk
      rw [hk, zero_mul]
  have hnone := Matrix.eq_zero_of_forall_pow_sum_mul_pow_eq_zero hpowers hsums
  by_contra hne
  have hpos : 0 < m := Finset.card_pos.mpr (Finset.nonempty_iff_ne_empty.mpr hne)
  have hmem : place ⟨0, hpos⟩ ∈ support w := (support w).orderEmbOfFin_mem rfl _
  exact (Finset.mem_filter.mp hmem).2 (congrFun hnone ⟨0, hpos⟩)

theorem eq_zero_of_countP_le [IsDomain K] [DecidableEq K] {a : K} {n : ℕ} {w : List K}
    (hroots : ∀ i < n, eval (a ^ i) w = 0)
    (hdiffer : ∀ i < w.length, ∀ j < w.length, a ^ i = a ^ j → i = j)
    (hcount : w.countP (· ≠ 0) ≤ n) : ∀ c ∈ w, c = 0 := by
  have hnone := support_eq_empty hroots hdiffer (card_support w ▸ hcount)
  have hzero : w.countP (· ≠ 0) = 0 := by rw [← card_support, hnone, Finset.card_empty]
  intro c hc
  simpa using List.countP_eq_zero.mp hzero c hc

end Distance

end reedsolomon
