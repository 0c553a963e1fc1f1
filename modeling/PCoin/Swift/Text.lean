import Mathlib.Data.List.Basic

namespace swift

/-- KELVIN SIGN. No other character outside ASCII has an all-ASCII lower case. -/
def kelvin : Char := Char.ofNat 0x212a

def IsASCII (c : Char) : Prop := c.toNat < 128

instance (c : Char) : Decidable (IsASCII c) := inferInstanceAs (Decidable (_ < _))

/-- What holds of 128 codes holds of every ASCII character. -/
theorem ascii_forall {p : Char → Prop} (h : ∀ n < 128, p (Char.ofNat n)) {c : Char} (hc : IsASCII c) :
    p c := by
  have := h c.toNat hc
  rwa [Char.ofNat_toNat] at this

/-- An extended grapheme cluster, by its scalars. -/
abbrev Character := List Char

/-- What the standard library looks up in the Unicode tables, and what the tables say about ASCII
    and about the characters whose lower case is ASCII. -/
structure Unicode where
  characters : List Char → List Character
  lowercaseMapping : Char → List Char
  isUppercase : Character → Bool
  isLowercase : Character → Bool
  isLetter : Character → Bool
  characters_flatten : ∀ s, (characters s).flatten = s
  characters_simple : ∀ s, (∀ c ∈ s, IsASCII c ∨ c = kelvin) → '\r' ∉ s → characters s = s.map ([·])
  lowercaseMapping_ascii : ∀ c, IsASCII c → lowercaseMapping c = [c.toLower]
  lowercaseMapping_kelvin : lowercaseMapping kelvin = ['k']
  lowercaseMapping_other : ∀ c, ¬IsASCII c → c ≠ kelvin → ∃ d ∈ lowercaseMapping c, ¬IsASCII d
  isUppercase_ascii : ∀ c, IsASCII c → isUppercase [c] = c.isUpper
  isUppercase_kelvin : isUppercase [kelvin] = true
  isLowercase_ascii : ∀ c, IsASCII c → isLowercase [c] = c.isLower
  isLowercase_kelvin : isLowercase [kelvin] = false
  isLetter_ascii : ∀ c, IsASCII c → isLetter [c] = c.isAlpha
  isLetter_kelvin : isLetter [kelvin] = true

/-- `Character.asciiValue`. -/
def asciiValue : Character → Option Nat
  | [c] => if IsASCII c then some c.toNat else none
  | c => if c = ['\r', '\n'] then some 10 else none

theorem asciiValue_of_ascii {c : Char} (h : IsASCII c) : asciiValue [c] = some c.toNat := by
  simp [asciiValue, h]

theorem asciiValue_eq_some {ch : Character} {a : Nat} (h : asciiValue ch = some a) :
    (∃ c, IsASCII c ∧ ch = [c] ∧ c.toNat = a) ∨ ch = ['\r', '\n'] ∧ a = 10 := by
  match ch with
  | [c] =>
    rw [asciiValue] at h
    split at h
    case isTrue hc => exact .inl ⟨c, hc, rfl, by simpa using h⟩
    case isFalse => cases h
  | [] => cases h
  | c :: d :: t =>
    rw [asciiValue] at h
    split at h
    case isTrue hc => exact .inr ⟨hc, by simpa using h.symm⟩
    case isFalse => cases h
    simp

/-- The text before the last `sep`, and the text after it. -/
def splitLast {α : Type} [DecidableEq α] (sep : α) : List α → Option (List α × List α)
  | [] => none
  | c :: t =>
    match splitLast sep t with
    | some (before, after) => some (c :: before, after)
    | none => if c = sep then some ([], t) else none

theorem splitLast_eq_none {α : Type} [DecidableEq α] {sep : α} {t : List α} (h : sep ∉ t) :
    splitLast sep t = none := by
  induction t with
  | nil => rfl
  | cons c t ih =>
    rw [List.mem_cons, not_or] at h
    simp [splitLast, ih h.2, Ne.symm h.1]

theorem splitLast_append {α : Type} [DecidableEq α] {sep : α} (before : List α) {after : List α}
    (h : sep ∉ after) : splitLast sep (before ++ sep :: after) = some (before, after) := by
  induction before with
  | nil => simp [splitLast, splitLast_eq_none h]
  | cons c before ih => simp [splitLast, ih]

theorem splitLast_map {α β : Type} [DecidableEq α] [DecidableEq β] {f : α → β}
    (hf : Function.Injective f) (sep : α) (t : List α) :
    splitLast (f sep) (t.map f) = (splitLast sep t).map fun p => (p.1.map f, p.2.map f) := by
  induction t with
  | nil => rfl
  | cons c t ih =>
    rw [List.map_cons, splitLast, splitLast, ih]
    cases splitLast sep t with
    | some p => rfl
    | none =>
      simp only [Option.map_none, hf.eq_iff]
      split <;> rfl

theorem exists_last {α : Type} {sep : α} {t : List α} (h : sep ∈ t) :
    ∃ before after, t = before ++ sep :: after ∧ sep ∉ after := by
  obtain ⟨after, before, hrev, hnot⟩ := List.eq_append_cons_of_mem (List.mem_reverse.mpr h)
  refine ⟨before.reverse, after.reverse, ?_, by simpa using hnot⟩
  rw [← List.reverse_inj, hrev]
  simp

theorem of_splitLast {α : Type} [DecidableEq α] {sep : α} {t before after : List α}
    (h : splitLast sep t = some (before, after)) : t = before ++ sep :: after ∧ sep ∉ after := by
  by_cases hmem : sep ∈ t
  · obtain ⟨init, last, rfl, hlast⟩ := exists_last hmem
    rw [splitLast_append init hlast] at h
    cases h
    exact ⟨rfl, hlast⟩
  · rw [splitLast_eq_none hmem] at h
    cases h

namespace Unicode

variable (U : Unicode)

/-- `String.lowercased`. -/
def lowercased (s : List Char) : List Char := s.flatMap U.lowercaseMapping

theorem lowercased_append (s t : List Char) :
    U.lowercased (s ++ t) = U.lowercased s ++ U.lowercased t := List.flatMap_append

/-- The lower case of the characters whose lower case is ASCII. -/
def fold (c : Char) : Char := if c = kelvin then 'k' else c.toLower

theorem lowercaseMapping_eq_fold {c : Char} (h : IsASCII c ∨ c = kelvin) :
    U.lowercaseMapping c = [fold c] := by
  by_cases hk : c = kelvin
  · rw [hk, U.lowercaseMapping_kelvin]
    rfl
  · rw [U.lowercaseMapping_ascii c (h.resolve_right hk), fold, if_neg hk]

theorem lowercased_eq_map_fold {s : List Char} (h : ∀ c ∈ s, IsASCII c ∨ c = kelvin) :
    U.lowercased s = s.map fold := by
  induction s with
  | nil => rfl
  | cons c s ih =>
    rw [List.map_cons, ← ih fun d hd => h d (by simp [hd]), lowercased, List.flatMap_cons,
      U.lowercaseMapping_eq_fold (h c (by simp))]
    rfl

/-- An all-ASCII lower case says what the text is made of. -/
theorem simple_of_lowercased {s : List Char} (h : ∀ d ∈ U.lowercased s, IsASCII d) :
    ∀ c ∈ s, IsASCII c ∨ c = kelvin := by
  intro c hc
  by_contra hnot
  rw [not_or] at hnot
  obtain ⟨d, hd, hbad⟩ := U.lowercaseMapping_other c hnot.1 hnot.2
  exact hbad (h d (List.mem_flatMap.mpr ⟨c, hc, hd⟩))

end Unicode

/-- Tables that know ASCII and KELVIN SIGN, and take every other character for a letter of its own
    lower case. -/
def Unicode.simple : Unicode where
  characters s := s.map ([·])
  lowercaseMapping c := [Unicode.fold c]
  isUppercase ch := ch.any fun c => c.isUpper || decide (c = kelvin)
  isLowercase ch := ch.any Char.isLower
  isLetter ch := ch.any fun c => c.isAlpha || decide (¬IsASCII c)
  characters_flatten s := by induction s <;> simp_all
  characters_simple _ _ _ := rfl
  lowercaseMapping_ascii c hc := by
    have : c ≠ kelvin := by rintro rfl; revert hc; decide
    simp [Unicode.fold, this]
  lowercaseMapping_kelvin := rfl
  lowercaseMapping_other c hc hk := by
    refine ⟨c, ?_, hc⟩
    have hnot : ¬(c.val ≥ 'A'.val ∧ c.val ≤ 'Z'.val) := fun h =>
      hc (Nat.lt_of_le_of_lt (UInt32.le_iff_toNat_le.mp h.2) (by decide))
    have hsame : c.toLower = c := dif_neg hnot
    rw [Unicode.fold, if_neg hk, hsame, List.mem_singleton]
  isUppercase_ascii c hc := by
    have : c ≠ kelvin := by rintro rfl; revert hc; decide
    simp [this]
  isUppercase_kelvin := by decide
  isLowercase_ascii c _ := by simp
  isLowercase_kelvin := by decide
  isLetter_ascii c hc := by simp [hc]
  isLetter_kelvin := by decide

end swift
