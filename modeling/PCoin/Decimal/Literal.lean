import Mathlib.Algebra.Order.Field.Rat
import Mathlib.Data.List.DropRight
import Mathlib.Tactic.Ring
import Mathlib.Tactic.Positivity

namespace decimal

/-- A decimal literal: digits, a point somewhere among them, and a power of ten. -/
structure Literal where
  negative : Bool
  int : List Char
  frac : List Char
  powNegative : Bool
  pow : List Char

namespace Literal

/-- The digits as one number. -/
def coefficient (l : Literal) : Nat := Nat.ofDigitChars 10 (l.int ++ l.frac) 0

def exponent (l : Literal) : Int :=
  if l.powNegative then -(Nat.ofDigitChars 10 l.pow 0 : Int) else (Nat.ofDigitChars 10 l.pow 0 : Int)

/-- How many of the digits stand after the point, once the power is applied. -/
def scale (l : Literal) : Int := l.frac.length - l.exponent

/-- The number the literal writes. -/
def value (l : Literal) : ℚ := (if l.negative then -1 else 1) * l.coefficient * 10 ^ (-l.scale)

end Literal

def sign : List Char → Bool × List Char
  | '-' :: t => (true, t)
  | '+' :: t => (false, t)
  | t => (false, t)

def point : List Char → List Char × List Char
  | '.' :: t => (t.takeWhile Char.isDigit, t.dropWhile Char.isDigit)
  | t => ([], t)

/-- The power at the end of a literal, which may be absent. -/
def power : List Char → Option (Bool × List Char)
  | [] => some (false, [])
  | c :: t =>
    if c = 'e' ∨ c = 'E' then
      let (negative, pow) := sign t
      if pow ≠ [] ∧ pow.all Char.isDigit then some (negative, pow) else none
    else none

/-- `[sign] digits [. digits] [e [sign] digits]`, with a digit on one side of the point. -/
def literal (t : List Char) : Option Literal :=
  let (negative, t) := sign t
  let int := t.takeWhile Char.isDigit
  let (frac, t) := point (t.dropWhile Char.isDigit)
  if int = [] ∧ frac = [] then none
  else (power t).map fun (powNegative, pow) => { negative, int, frac, powNegative, pow }

/-- The characters a literal is written with. -/
def IsLiteralChar (c : Char) : Prop := c.isDigit = true ∨ c ∈ ['+', '-', '.', 'e', 'E']

theorem isLiteralChar_of_sign {t : List Char} (h : ∀ c ∈ (sign t).2, IsLiteralChar c) :
    ∀ c ∈ t, IsLiteralChar c := by
  unfold sign at h
  split at h
  · exact List.forall_mem_cons.mpr ⟨.inr (by decide), h⟩
  · exact List.forall_mem_cons.mpr ⟨.inr (by decide), h⟩
  · exact h

theorem isLiteralChar_of_takeWhile (t : List Char) :
    ∀ c ∈ t.takeWhile Char.isDigit, IsLiteralChar c := fun _ h => .inl (List.mem_takeWhile_imp h)

theorem isLiteralChar_of_split {t : List Char}
    (h : ∀ c ∈ t.dropWhile Char.isDigit, IsLiteralChar c) : ∀ c ∈ t, IsLiteralChar c := by
  intro c hc
  rw [← List.takeWhile_append_dropWhile (p := Char.isDigit) (l := t), List.mem_append] at hc
  exact hc.elim (isLiteralChar_of_takeWhile t c) (h c)

theorem isLiteralChar_of_point {t : List Char} (h : ∀ c ∈ (point t).2, IsLiteralChar c) :
    ∀ c ∈ t, IsLiteralChar c := by
  unfold point at h
  split at h
  · exact List.forall_mem_cons.mpr ⟨.inr (by decide), isLiteralChar_of_split h⟩
  · exact h

theorem isLiteralChar_of_power {t : List Char} {p : Bool × List Char} (h : power t = some p) :
    ∀ c ∈ t, IsLiteralChar c := by
  unfold power at h
  split at h
  · simp
  · rename_i e t
    split at h
    · rename_i he
      simp only at h
      split at h
      · rename_i hpow
        have hletter : IsLiteralChar e := by
          obtain rfl | rfl := he <;> exact .inr (by decide)
        refine List.forall_mem_cons.mpr ⟨hletter, isLiteralChar_of_sign fun c hc => .inl ?_⟩
        exact List.all_eq_true.mp hpow.2 c hc
      · cases h
    · cases h

/-- Only the characters of a literal stand in one. -/
theorem isLiteralChar_of_mem {t : List Char} {l : Literal} (h : literal t = some l) :
    ∀ c ∈ t, IsLiteralChar c := by
  unfold literal at h
  simp only at h
  split at h
  · cases h
  · obtain ⟨p, hp, -⟩ := Option.map_eq_some_iff.mp h
    exact isLiteralChar_of_sign (isLiteralChar_of_split (isLiteralChar_of_point
      (isLiteralChar_of_power hp)))

/-- The exponent of a literal is written with digits. -/
theorem isDigit_of_mem_pow {t : List Char} {l : Literal} (h : literal t = some l) :
    ∀ c ∈ l.pow, c.isDigit = true := by
  unfold literal at h
  simp only at h
  split at h
  · cases h
  · obtain ⟨⟨negative, pow⟩, hp, rfl⟩ := Option.map_eq_some_iff.mp h
    unfold power at hp
    split at hp
    · cases hp
      simp
    · split at hp
      · simp only at hp
        split at hp
        · rename_i hpow
          cases hp
          exact List.all_eq_true.mp hpow.2
        · cases hp
      · cases hp

theorem takeWhile_digits {t : List Char} (h : ∀ c ∈ t, c.isDigit = true) (rest : List Char)
    (hrest : rest.head?.all (fun c => !c.isDigit) = true) :
    (t ++ rest).takeWhile Char.isDigit = t ∧ (t ++ rest).dropWhile Char.isDigit = rest := by
  induction t with
  | nil =>
    cases rest with
    | nil => exact ⟨rfl, rfl⟩
    | cons c rest =>
      have hc : c.isDigit = false := by simpa using hrest
      simp [hc]
  | cons c t ih =>
    obtain ⟨htake, hdrop⟩ := ih fun d hd => h d (List.mem_cons_of_mem _ hd)
    simp [h c List.mem_cons_self, htake, hdrop]

/-- `n` in decimal, padded with zeros to `width` digits. -/
def padded (width n : Nat) : List Char :=
  List.replicate (width - (Nat.toDigits 10 n).length) '0' ++ Nat.toDigits 10 n

theorem isDigit_of_mem_toDigits {n : Nat} : ∀ c ∈ Nat.toDigits 10 n, c.isDigit = true :=
  fun _ h => Nat.isDigit_of_mem_toDigits (by decide) (by decide) h

theorem isDigit_of_mem_padded {width n : Nat} : ∀ c ∈ padded width n, c.isDigit = true := by
  intro c h
  obtain h | h := List.mem_append.mp h
  · rw [List.eq_of_mem_replicate h]
    decide
  · exact isDigit_of_mem_toDigits c h

theorem length_padded {width n : Nat} (hwidth : 0 < width) (h : n < 10 ^ width) :
    (padded width n).length = width := by
  have := (Nat.length_toDigits_le_iff (by decide : 1 < 10) hwidth).mpr h
  simp only [padded, List.length_append, List.length_replicate]
  omega

theorem ofDigitChars_padded (width n : Nat) : Nat.ofDigitChars 10 (padded width n) 0 = n := by
  simp [padded, Nat.ofDigitChars_append]

theorem sign_of_isDigit {c : Char} (h : c.isDigit = true) (t : List Char) :
    sign (c :: t) = (false, c :: t) := by
  unfold sign
  split
  · rename_i heq
    rw [(List.cons.inj heq).1] at h
    cases h
  · rename_i heq
    rw [(List.cons.inj heq).1] at h
    cases h
  · rfl

/-- Digits, a point and `width` more digits read as one number of that scale. -/
theorem literal_fixed {width whole rest : Nat} (hwidth : 0 < width) (hrest : rest < 10 ^ width) :
    ∃ l, literal (Nat.toDigits 10 whole ++ '.' :: padded width rest) = some l ∧
      l.negative = false ∧ l.scale = width ∧ l.pow = [] ∧
      l.coefficient = whole * 10 ^ width + rest := by
  have hsign : sign (Nat.toDigits 10 whole ++ '.' :: padded width rest) =
      (false, Nat.toDigits 10 whole ++ '.' :: padded width rest) := by
    cases hdigits : Nat.toDigits 10 whole with
    | nil => exact absurd hdigits Nat.toDigits_ne_nil
    | cons c t => exact sign_of_isDigit (isDigit_of_mem_toDigits c (hdigits ▸ List.mem_cons_self)) _
  obtain ⟨htake, hdrop⟩ := takeWhile_digits (isDigit_of_mem_toDigits (n := whole))
    ('.' :: padded width rest) (by simp)
  obtain ⟨htake', hdrop'⟩ := takeWhile_digits (@isDigit_of_mem_padded width rest) [] rfl
  rw [List.append_nil] at htake' hdrop'
  refine ⟨⟨false, Nat.toDigits 10 whole, padded width rest, false, []⟩, ?_, rfl, ?_, rfl, ?_⟩
  · simp only [literal, hsign, htake, hdrop, point, htake', hdrop', Nat.toDigits_ne_nil, false_and,
      if_false, power, Option.map_some]
  · simp [Literal.scale, Literal.exponent, length_padded hwidth hrest]
  · rw [Literal.coefficient, Nat.ofDigitChars_append, Nat.ofDigitChars_ten_toDigits,
      Nat.ofDigitChars_eq_ofDigitChars_zero, length_padded hwidth hrest, ofDigitChars_padded]
    ring

/-- The part of a text between the blanks around it. -/
def strip (blank : Char → Bool) (t : List Char) : List Char :=
  (t.dropWhile blank).rdropWhile blank

theorem mem_strip {blank : Char → Bool} {t : List Char} {c : Char} (h : c ∈ t)
    (hc : blank c = false) : c ∈ strip blank t := by
  have hdrop : c ∈ t.dropWhile blank := by
    rw [← List.takeWhile_append_dropWhile (p := blank) (l := t), List.mem_append] at h
    refine h.resolve_left fun htake => ?_
    rw [List.mem_takeWhile_imp htake] at hc
    cases hc
  rw [strip, List.rdropWhile, List.mem_reverse]
  have hrev := List.mem_reverse.mpr hdrop
  rw [← List.takeWhile_append_dropWhile (p := blank) (l := (t.dropWhile blank).reverse),
    List.mem_append] at hrev
  refine hrev.resolve_left fun htake => ?_
  rw [List.mem_takeWhile_imp htake] at hc
  cases hc

theorem mem_of_mem_strip {blank : Char → Bool} {t : List Char} {c : Char} (h : c ∈ strip blank t) :
    c ∈ t :=
  (List.dropWhile_sublist blank).subset ((List.rdropWhile_prefix blank _).subset h)

theorem dropWhile_congr {p q : Char → Bool} {t : List Char} (h : ∀ c ∈ t, p c = q c) :
    t.dropWhile p = t.dropWhile q := by
  induction t with
  | nil => rfl
  | cons c t ih =>
    simp only [List.dropWhile_cons, h c List.mem_cons_self,
      ih fun d hd => h d (List.mem_cons_of_mem _ hd)]

/-- Two notions of a blank that agree on a text strip the same from it. -/
theorem strip_congr {p q : Char → Bool} {t : List Char} (h : ∀ c ∈ t, p c = q c) :
    strip p t = strip q t := by
  have hdrop := dropWhile_congr h
  have hmem : ∀ c ∈ (t.dropWhile q).reverse, p c = q c := fun c hc =>
    h c ((List.dropWhile_sublist q).subset (List.mem_reverse.mp hc))
  rw [strip, strip, List.rdropWhile, List.rdropWhile, hdrop, dropWhile_congr hmem]

/-- A text that starts as one with no blank in front has none in front either. -/
theorem dropWhile_of_append {p : Char → Bool} {t rest : List Char}
    (h : (t ++ rest).dropWhile p = t ++ rest) : t.dropWhile p = t := by
  cases t with
  | nil => rfl
  | cons c t =>
    by_cases hc : p c = true
    · have hlen := congrArg List.length h
      have := (List.dropWhile_sublist (l := t ++ rest) p).length_le
      simp only [List.cons_append, List.dropWhile_cons, hc, if_true, List.length_cons] at hlen
      omega
    · rw [List.dropWhile_cons, if_neg hc]

theorem strip_of_forall {blank : Char → Bool} {t : List Char} (h : ∀ c ∈ t, blank c = false) :
    strip blank t = t := by
  have hdrop : t.dropWhile blank = t := by
    rw [List.dropWhile_eq_self_iff]
    intro hlen
    simp [h]
  have hrdrop : t.rdropWhile blank = t := by
    rw [List.rdropWhile_eq_self_iff]
    intro hne
    simp [h]
  rw [strip, hdrop, hrdrop]

theorem strip_idem (blank : Char → Bool) (t : List Char) :
    strip blank (strip blank t) = strip blank t := by
  obtain ⟨rest, hrest⟩ := List.rdropWhile_prefix blank (t.dropWhile blank)
  have hfront : (strip blank t).dropWhile blank = strip blank t := by
    refine @dropWhile_of_append _ _ rest ?_
    rw [strip, hrest, List.dropWhile_idempotent]
  rw [strip, hfront, strip, List.rdropWhile_idempotent]

end decimal
