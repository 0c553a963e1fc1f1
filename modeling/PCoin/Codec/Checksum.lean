import PCoin.Codec.Radix

namespace codec

/-- A cyclic code over symbols of `width` bits: a checksum word has `degree + 1` of them, and `gen`
    holds what each bit of the symbol that is shifted out puts back in. -/
structure Code where
  width : Nat
  degree : Nat
  gen : List Nat
  width_pos : 0 < width
  gen_lt : ∀ g ∈ gen, g < 2 ^ (width * (degree + 1))

namespace Code

/-- Puts back in what the bits of `top` say, the low bit first. -/
def feedback (top : Nat) : Nat → List Nat → Nat → Nat
  | _, [], chk => chk
  | i, g :: gen, chk => feedback top (i + 1) gen (if top.testBit i then chk ^^^ g else chk)

/-- Takes in one more symbol. -/
def step (code : Code) (chk v : Nat) : Nat :=
  let low := code.width * code.degree
  feedback (chk >>> low) 0 code.gen (((chk &&& (2 ^ low - 1)) <<< code.width) ^^^ v)

def run (code : Code) (chk : Nat) (values : List Nat) : Nat := values.foldl code.step chk

/-- The symbols of a checksum word, the high one first. -/
def symbols (code : Code) (mod : Nat) : List Nat :=
  (List.range (code.degree + 1)).map fun i =>
    (mod >>> (code.width * (code.degree - i))) &&& (2 ^ code.width - 1)

theorem feedback_xor (a b : Nat) (i : Nat) (gen : List Nat) (c d : Nat) :
    feedback (a ^^^ b) i gen (c ^^^ d) = feedback a i gen c ^^^ feedback b i gen d := by
  induction gen generalizing i c d with
  | nil => rfl
  | cons g gen ih =>
    have hhead : (if (a ^^^ b).testBit i then c ^^^ d ^^^ g else c ^^^ d) =
        (if a.testBit i then c ^^^ g else c) ^^^ (if b.testBit i then d ^^^ g else d) := by
      rw [Nat.testBit_xor]
      cases a.testBit i <;> cases b.testBit i <;> simp
      · rw [Nat.xor_assoc]
      · ac_rfl
      · have hcancel : c ^^^ g ^^^ (d ^^^ g) = c ^^^ d ^^^ (g ^^^ g) := by ac_rfl
        rw [hcancel, Nat.xor_self, Nat.xor_zero]
    rw [feedback, feedback, feedback, hhead, ih]

theorem feedback_zero (i : Nat) (gen : List Nat) (chk : Nat) : feedback 0 i gen chk = chk := by
  induction gen generalizing i with
  | nil => rfl
  | cons g gen ih => simp [feedback, ih]

theorem feedback_lt {n : Nat} (top i : Nat) {gen : List Nat} (hgen : ∀ g ∈ gen, g < 2 ^ n) {chk : Nat}
    (h : chk < 2 ^ n) : feedback top i gen chk < 2 ^ n := by
  induction gen generalizing i chk with
  | nil => exact h
  | cons g gen ih =>
    refine ih _ (fun g hg => hgen g (by simp [hg])) ?_
    split
    · exact Nat.xor_lt_two_pow h (hgen g (by simp))
    · exact h

variable (code : Code)

theorem step_xor (a b v w : Nat) :
    code.step (a ^^^ b) (v ^^^ w) = code.step a v ^^^ code.step b w := by
  simp only [step]
  rw [Nat.shiftRight_xor_distrib, Nat.and_xor_distrib_right, Nat.shiftLeft_xor_distrib,
    ← feedback_xor]
  congr 1
  ac_rfl

/-- The code is linear: what symbols do to a state is what they do to zero, on top of what as many
    zeros do to the state. -/
theorem run_eq_xor (chk : Nat) (values : List Nat) :
    code.run chk values = code.run chk (List.replicate values.length 0) ^^^ code.run 0 values := by
  have hrun : ∀ (a b : Nat), code.run (a ^^^ b) values =
      code.run a (List.replicate values.length 0) ^^^ code.run b values := by
    induction values with
    | nil => simp [run]
    | cons v values ih =>
      intro a b
      have hstep := code.step_xor a b 0 v
      rw [Nat.zero_xor] at hstep
      simp only [run, List.length_cons, List.replicate_succ, List.foldl_cons] at ih ⊢
      rw [hstep, ih]
  simpa using hrun chk 0

theorem step_lt {chk v : Nat} (hv : v < 2 ^ (code.width * (code.degree + 1))) :
    code.step chk v < 2 ^ (code.width * (code.degree + 1)) := by
  refine feedback_lt _ _ code.gen_lt (Nat.xor_lt_two_pow ?_ hv)
  have hlow : chk &&& (2 ^ (code.width * code.degree) - 1) < 2 ^ (code.width * code.degree) := by
    rw [Nat.and_two_pow_sub_one_eq_mod]
    exact Nat.mod_lt _ (by positivity)
  rw [Nat.shiftLeft_eq, Nat.mul_succ, Nat.pow_add]
  exact Nat.mul_lt_mul_of_pos_right hlow (by positivity)

theorem run_lt {chk : Nat} (hchk : chk < 2 ^ (code.width * (code.degree + 1))) {values : List Nat}
    (hvalues : ∀ v ∈ values, v < 2 ^ code.width) :
    code.run chk values < 2 ^ (code.width * (code.degree + 1)) := by
  induction values generalizing chk with
  | nil => exact hchk
  | cons v values ih =>
    have hv : v < 2 ^ (code.width * (code.degree + 1)) :=
      (hvalues v (by simp)).trans_le (Nat.pow_le_pow_right (by omega) (Nat.le_mul_of_pos_right _ (by omega)))
    exact ih (code.step_lt hv) fun w hw => hvalues w (by simp [hw])

/-- Until a checksum word is full nothing is shifted out. -/
theorem step_of_lt {chk v : Nat} (hchk : chk < 2 ^ (code.width * code.degree))
    (hv : v < 2 ^ code.width) : code.step chk v = chk * 2 ^ code.width + v := by
  rw [step, Nat.shiftRight_eq_div_pow, Nat.div_eq_of_lt hchk, feedback_zero,
    Nat.and_two_pow_sub_one_eq_mod, Nat.mod_eq_of_lt hchk, Nat.shiftLeft_eq, Nat.mul_comm,
    Nat.two_pow_add_eq_or_of_lt hv]
  apply Nat.eq_of_testBit_eq
  intro i
  rw [Nat.testBit_xor, Nat.testBit_or, Nat.testBit_two_pow_mul]
  by_cases hi : code.width ≤ i
  · have : v.testBit i = false := Nat.testBit_lt_two_pow (hv.trans_le (Nat.pow_le_pow_right (by omega) hi))
    simp [this]
  · simp [hi]

theorem run_zero {values : List Nat} (hlen : values.length ≤ code.degree + 1)
    (hvalues : ∀ v ∈ values, v < 2 ^ code.width) :
    code.run 0 values = number (2 ^ code.width) values := by
  induction values using List.reverseRecOn with
  | nil => simp [run]
  | append_singleton l v ih =>
    rw [List.length_append, List.length_singleton] at hlen
    have hl : ∀ w ∈ l, w < 2 ^ code.width := fun w hw => hvalues w (by simp [hw])
    have hrun : code.run 0 (l ++ [v]) = code.step (code.run 0 l) v := by simp [run]
    have hlt : number (2 ^ code.width) l < 2 ^ (code.width * code.degree) := by
      refine (number_lt (Nat.one_lt_two_pow code.width_pos.ne') hl).trans_le ?_
      rw [← Nat.pow_mul]
      exact Nat.pow_le_pow_right (by omega) (Nat.mul_le_mul_left _ (by omega))
    rw [hrun, ih (by omega) hl, code.step_of_lt hlt (hvalues v (by simp)), number_concat]

theorem symbols_lt (mod : Nat) : ∀ s ∈ code.symbols mod, s < 2 ^ code.width := by
  intro s hs
  obtain ⟨i, -, rfl⟩ := List.mem_map.mp hs
  rw [Nat.and_two_pow_sub_one_eq_mod]
  exact Nat.mod_lt _ (by positivity)

theorem length_symbols (mod : Nat) : (code.symbols mod).length = code.degree + 1 := by
  simp [symbols]

/-- The symbols of a checksum word write it. -/
theorem number_symbols {mod : Nat} (h : mod < 2 ^ (code.width * (code.degree + 1))) :
    number (2 ^ code.width) (code.symbols mod) = mod := by
  have hlow : ∀ n, number (2 ^ code.width) ((List.range n).map fun i =>
      (mod >>> (code.width * (n - (i + 1)))) &&& (2 ^ code.width - 1)) = mod % 2 ^ (code.width * n) := by
    intro n
    induction n with
    | zero => simp [Nat.mod_one]
    | succ n ih =>
      rw [List.range_succ_eq_map, List.map_cons, List.map_map, number_cons, List.length_map,
        List.length_range]
      simp only [Function.comp_def, Nat.succ_eq_add_one, Nat.add_sub_add_right, Nat.sub_zero]
      rw [ih, Nat.and_two_pow_sub_one_eq_mod, Nat.shiftRight_eq_div_pow, ← Nat.pow_mul,
        Nat.mul_succ, Nat.pow_add, Nat.mod_mul]
      ring
  simpa [symbols, Nat.mod_eq_of_lt h] using hlow (code.degree + 1)

/-- Of all the words that could end a text, exactly one makes it come out at `const`. -/
theorem run_append_eq_iff {chk const : Nat} (hchk : chk < 2 ^ (code.width * (code.degree + 1)))
    (hconst : const < 2 ^ (code.width * (code.degree + 1))) {values : List Nat}
    (hlen : values.length = code.degree + 1) (hvalues : ∀ v ∈ values, v < 2 ^ code.width) :
    code.run chk values = const ↔
      values = code.symbols (code.run chk (List.replicate (code.degree + 1) 0) ^^^ const) := by
  have hzeros : code.run chk (List.replicate (code.degree + 1) 0) < 2 ^ (code.width * (code.degree + 1)) :=
    code.run_lt hchk fun v hv => by
      rw [List.eq_of_mem_replicate hv]
      positivity
  have hword := Nat.xor_lt_two_pow hzeros hconst
  rw [run_eq_xor, code.run_zero hlen.le hvalues, hlen]
  constructor
  · rintro rfl
    refine number_inj (Nat.one_lt_two_pow code.width_pos.ne') (by rw [hlen, length_symbols]) hvalues
      (code.symbols_lt _) ?_
    rw [code.number_symbols hword, ← Nat.xor_assoc, Nat.xor_self, Nat.zero_xor]
  · intro h
    rw [h, code.number_symbols hword, ← Nat.xor_assoc, Nat.xor_self, Nat.zero_xor]

end Code

end codec
