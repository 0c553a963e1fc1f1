import Mathlib.Data.List.TakeWhile
import Mathlib.Data.Nat.Digits.Lemmas

namespace codec

/-- The number that `symbols` write in base `b`, the high symbol first. -/
def number (b : Nat) (symbols : List Nat) : Nat := Nat.ofDigits b symbols.reverse

@[simp] theorem number_nil (b : Nat) : number b [] = 0 := by simp [number]

theorem number_append (b : Nat) (l r : List Nat) :
    number b (l ++ r) = number b l * b ^ r.length + number b r := by
  rw [number, List.reverse_append, Nat.ofDigits_append, List.length_reverse, number, number]
  ring

theorem number_concat (b : Nat) (l : List Nat) (s : Nat) :
    number b (l ++ [s]) = number b l * b + s := by
  rw [number_append]
  simp [number]

theorem number_cons (b s : Nat) (l : List Nat) :
    number b (s :: l) = s * b ^ l.length + number b l := by
  simpa [number] using number_append b [s] l

theorem number_lt {b : Nat} (hb : 1 < b) {l : List Nat} (hl : ∀ s ∈ l, s < b) :
    number b l < b ^ l.length := by
  simpa [number] using Nat.ofDigits_lt_base_pow_length hb (l := l.reverse) (by simpa using hl)

/-- Texts of one length that write one number are the same text. -/
theorem number_inj {b : Nat} (hb : 1 < b) {l r : List Nat} (hlen : l.length = r.length)
    (hl : ∀ s ∈ l, s < b) (hr : ∀ s ∈ r, s < b) (h : number b l = number b r) : l = r :=
  List.reverse_injective
    (Nat.ofDigits_inj_of_len_eq hb (by simpa using hlen) (by simpa using hl) (by simpa using hr) h)

/-- One round of a long multiplication over the digits, the low digit first: every digit times
    `m`, and the carry on from one digit to the next and past the last. -/
def mulAdd (b m : Nat) : List Nat → Nat → List Nat
  | [], carry => Nat.digits b carry
  | d :: ds, carry => (carry + d * m) % b :: mulAdd b m ds ((carry + d * m) / b)

theorem mulAdd_digits {b m : Nat} (hb : 1 < b) (hm : 0 < m) (n carry : Nat) :
    mulAdd b m (Nat.digits b n) carry = Nat.digits b (n * m + carry) := by
  induction n using Nat.strong_induction_on generalizing carry with
  | h n ih =>
    rcases Nat.eq_zero_or_pos n with rfl | hn
    · simp [mulAdd]
    have hsplit : n * m + carry = carry + n % b * m + b * (n / b * m) := by
      conv_lhs => rw [← Nat.mod_add_div n b]
      ring
    have hdigits : Nat.digits b (n * m + carry) =
        (n * m + carry) % b :: Nat.digits b ((n * m + carry) / b) :=
      Nat.digits_def' hb (Nat.add_pos_left (Nat.mul_pos hn hm) carry)
    rw [hdigits, Nat.digits_def' hb hn, mulAdd, ih _ (Nat.div_lt_self hn hb), hsplit,
      Nat.add_mul_mod_self_left, Nat.add_mul_div_left _ _ (by omega), Nat.add_comm (n / b * m)]

theorem length_le_mulAdd (b m : Nat) (ds : List Nat) (carry : Nat) :
    ds.length ≤ (mulAdd b m ds carry).length := by
  induction ds generalizing carry with
  | nil => simp
  | cons d ds ih => simpa [mulAdd] using ih _

/-- The digits in base `b`, the low digit first, of what `symbols` write in base `m`. -/
def rebase (b m : Nat) (symbols : List Nat) : List Nat := symbols.foldl (mulAdd b m) []

theorem rebase_eq_digits {b m : Nat} (hb : 1 < b) (hm : 0 < m) (symbols : List Nat) :
    rebase b m symbols = Nat.digits b (number m symbols) := by
  induction symbols using List.reverseRecOn with
  | nil => simp [rebase]
  | append_singleton l s ih =>
    have hfold : rebase b m (l ++ [s]) = mulAdd b m (rebase b m l) s := by simp [rebase]
    rw [hfold, ih, mulAdd_digits hb hm, number_concat]

/-- The leading zeros one for one, and the number after them in base `b`. -/
def transcode (b m : Nat) (symbols : List Nat) : List Nat :=
  List.replicate (symbols.takeWhile (· = 0)).length 0 ++ (rebase b m symbols).reverse

theorem number_replicate_zero_append (b k : Nat) (l : List Nat) :
    number b (List.replicate k 0 ++ l) = number b l := by
  simp [number, List.reverse_append, Nat.ofDigits_append_replicate_zero]

/-- The high digit of a number is not zero. -/
theorem takeWhile_digits_reverse (b n : Nat) :
    (Nat.digits b n).reverse.takeWhile (· = 0) = [] := by
  rcases Nat.eq_zero_or_pos n with rfl | hn
  · simp
  have hne : Nat.digits b n ≠ [] := Nat.digits_ne_nil_iff_ne_zero.mpr hn.ne'
  have hlast := Nat.getLast_digit_ne_zero b hn.ne'
  rw [← List.dropLast_append_getLast hne, List.reverse_append]
  simp [hlast]

theorem takeWhile_canonical (b k n : Nat) :
    (List.replicate k 0 ++ (Nat.digits b n).reverse).takeWhile (· = 0) = List.replicate k 0 := by
  rw [List.takeWhile_append_of_pos (by simp), takeWhile_digits_reverse, List.append_nil]

theorem transcode_canonical {b m : Nat} (hb : 1 < b) (hm : 0 < m) (k n : Nat) :
    transcode b m (List.replicate k 0 ++ (Nat.digits m n).reverse) =
      List.replicate k 0 ++ (Nat.digits b n).reverse := by
  rw [transcode, takeWhile_canonical, rebase_eq_digits hb hm, number_replicate_zero_append,
    List.length_replicate, number, List.reverse_reverse, Nat.ofDigits_digits]

theorem takeWhile_zero_eq (symbols : List Nat) : symbols.takeWhile (· = 0) =
    List.replicate (symbols.takeWhile (· = 0)).length 0 :=
  List.eq_replicate_iff.mpr ⟨rfl, fun s hs => by simpa using List.mem_takeWhile_imp hs⟩

/-- Every text is some zeros and then the digits of a number. -/
theorem canonical {m : Nat} (hm : 1 < m) {symbols : List Nat} (h : ∀ s ∈ symbols, s < m) :
    symbols = List.replicate (symbols.takeWhile (· = 0)).length 0 ++
      (Nat.digits m (number m symbols)).reverse := by
  have hzeros := takeWhile_zero_eq symbols
  have hsplit := List.takeWhile_append_dropWhile (p := fun s => decide (s = 0)) (l := symbols)
  have hnumber : number m symbols = number m (symbols.dropWhile (· = 0)) := by
    conv_lhs => rw [← hsplit, hzeros]
    exact number_replicate_zero_append ..
  have hrest : Nat.digits m (number m (symbols.dropWhile (· = 0))) =
      (symbols.dropWhile (· = 0)).reverse := by
    refine Nat.digits_ofDigits m hm _ ?_ fun hne => ?_
    · intro s hs
      exact h s ((List.dropWhile_sublist _).subset (List.mem_reverse.mp hs))
    · rw [List.getLast_reverse]
      simpa using List.head_dropWhile_not (fun s => decide (s = 0)) (l := symbols) (by simpa using hne)
  rw [hnumber, hrest, List.reverse_reverse, ← hzeros, hsplit]

/-- Going to another base and back is the identity, leading zeros and all. -/
theorem transcode_transcode {b m : Nat} (hb : 1 < b) (hm : 1 < m) {symbols : List Nat}
    (h : ∀ s ∈ symbols, s < m) : transcode m b (transcode b m symbols) = symbols := by
  rw [canonical hm h, transcode_canonical hb (by omega), transcode_canonical hm (by omega)]

theorem transcode_lt {b m : Nat} (hb : 1 < b) (hm : 0 < m) (symbols : List Nat) :
    ∀ s ∈ transcode b m symbols, s < b := by
  intro s hs
  rcases List.mem_append.mp hs with hs | hs
  · rw [List.eq_of_mem_replicate hs]
    omega
  · rw [rebase_eq_digits hb hm, List.mem_reverse] at hs
    exact Nat.digits_lt_base hb hs

/-- When an alphabet of `size` gives each character one value, a text has values exactly when it
    spells them. -/
theorem mapM_value_eq_some_iff {σ : Type} {size : Nat} {digit : Nat → σ} {value : σ → Option Nat}
    (hvalue : ∀ c d, value c = some d ↔ d < size ∧ c = digit d) {text : List σ} {values : List Nat} :
    text.mapM value = some values ↔ (∀ d ∈ values, d < size) ∧ text = values.map digit := by
  induction text generalizing values with
  | nil => cases values <;> simp
  | cons c text ih =>
    rw [List.mapM_cons]
    cases values with
    | nil => simp [Option.bind_eq_some_iff]
    | cons d values =>
      simp only [bind, Option.bind_eq_some_iff, pure, Option.some.injEq, List.cons.injEq, hvalue, ih,
        List.map_cons, List.forall_mem_cons]
      constructor
      · rintro ⟨d', ⟨hd, rfl⟩, values', ⟨hvalues, rfl⟩, rfl, rfl⟩
        exact ⟨⟨hd, hvalues⟩, rfl, rfl⟩
      · rintro ⟨⟨hd, hvalues⟩, rfl, rfl⟩
        exact ⟨d, ⟨hd, rfl⟩, values, ⟨hvalues, rfl⟩, rfl, rfl⟩

/-- Texts of one length order as the numbers they write: the high symbols decide, and
    where they agree the rest does. -/
theorem number_cons_le_iff {b x y : Nat} (hb : 1 < b) {l r : List Nat} (hlen : l.length = r.length)
    (hl : ∀ s ∈ l, s < b) (hr : ∀ s ∈ r, s < b) :
    number b (x :: l) ≤ number b (y :: r) ↔ x < y ∨ x = y ∧ number b l ≤ number b r := by
  have hlow := number_lt hb hl
  have hhigh := number_lt hb hr
  rw [number_cons, number_cons, hlen]
  rw [hlen] at hlow
  rcases lt_trichotomy x y with hxy | rfl | hyx
  · have := Nat.mul_le_mul_right (b ^ r.length) hxy
    rw [Nat.succ_mul] at this
    constructor
    · exact fun _ => .inl hxy
    · intro _
      omega
  · simp
  · have := Nat.mul_le_mul_right (b ^ r.length) hyx
    rw [Nat.succ_mul] at this
    constructor
    · intro _
      omega
    · rintro (h | ⟨rfl, -⟩)
      · omega
      · exact absurd hyx (lt_irrefl x)

/-- The number that bytes spell, the high byte first. -/
def bigEndian (bytes : List UInt8) : Nat := number 256 (bytes.map UInt8.toNat)

theorem toNat_lt_of_mem_map {bytes : List UInt8} : ∀ s ∈ bytes.map UInt8.toNat, s < 256 := by
  intro s hs
  obtain ⟨b, _, rfl⟩ := List.mem_map.mp hs
  exact b.toNat_lt

theorem bigEndian_lt (bytes : List UInt8) : bigEndian bytes < 256 ^ bytes.length := by
  simpa [bigEndian] using number_lt (by decide) (@toNat_lt_of_mem_map bytes)

theorem bigEndian_append (l r : List UInt8) :
    bigEndian (l ++ r) = bigEndian l * 256 ^ r.length + bigEndian r := by
  simp [bigEndian, number_append]

theorem bigEndian_replicate_zero (n : Nat) : bigEndian (List.replicate n 0) = 0 := by
  simpa [bigEndian] using number_replicate_zero_append 256 n []

theorem bigEndian_cons_le_iff {x y : UInt8} {l r : List UInt8} (hlen : l.length = r.length) :
    bigEndian (x :: l) ≤ bigEndian (y :: r) ↔ x < y ∨ x = y ∧ bigEndian l ≤ bigEndian r := by
  rw [bigEndian, bigEndian, List.map_cons, List.map_cons,
    number_cons_le_iff (by decide) (by simpa using hlen) toNat_lt_of_mem_map toNat_lt_of_mem_map,
    UInt8.lt_iff_toNat_lt, ← UInt8.toNat_inj]
  rfl

end codec
