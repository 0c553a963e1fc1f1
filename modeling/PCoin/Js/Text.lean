import Mathlib.Data.List.TakeWhile
import Mathlib.Algebra.Field.Rat
import Mathlib.Tactic.Linarith

namespace js

/-- `\s`. -/
def isSpace (c : Char) : Bool :=
  let n := c.toNat
  (9 ≤ n && n ≤ 13) || n == 0x20 || n == 0xa0 || n == 0x1680 || (0x2000 ≤ n && n ≤ 0x200a) ||
    n == 0x2028 || n == 0x2029 || n == 0x202f || n == 0x205f || n == 0x3000 || n == 0xfeff

/-- `trim`. -/
def trim (t : List Char) : List Char :=
  ((t.dropWhile isSpace).reverse.dropWhile isSpace).reverse

/-- `slice(0, i)` and `slice(i + 1)` for `i = lastIndexOf(c)`. -/
def splitLast (c : Char) : List Char → Option (List Char × List Char)
  | [] => none
  | x :: t =>
    match splitLast c t with
    | some (p, q) => some (x :: p, q)
    | none => if x = c then some ([], t) else none

theorem splitLast_eq_none {c : Char} {t : List Char} : splitLast c t = none ↔ c ∉ t := by
  induction t with
  | nil => simp [splitLast]
  | cons x t ih =>
    rw [splitLast]
    split
    · rename_i p q h
      have hmem : c ∈ t := by
        by_contra hnot
        rw [ih.mpr hnot] at h
        cases h
      simp [hmem]
    · rename_i h
      by_cases hx : x = c
      · simp [hx]
      · simp [hx, ih.mp h, Ne.symm hx]

theorem splitLast_eq_some {c : Char} {t p q : List Char} :
    splitLast c t = some (p, q) ↔ t = p ++ c :: q ∧ c ∉ q := by
  induction t generalizing p q with
  | nil => simp [splitLast]
  | cons x t ih =>
    rw [splitLast]
    split
    · rename_i p' q' h
      obtain ⟨rfl, hq'⟩ := ih.mp h
      simp only [Option.some.injEq, Prod.mk.injEq]
      constructor
      · rintro ⟨rfl, rfl⟩
        exact ⟨by simp, hq'⟩
      · rintro ⟨heq, hq⟩
        cases p with
        | nil =>
          obtain ⟨rfl, rfl⟩ := List.cons.inj heq
          simp at hq
        | cons y p =>
          obtain ⟨rfl, hrest⟩ := List.cons.inj heq
          have hsplit := ih.mpr ⟨hrest, hq⟩
          rw [h] at hsplit
          obtain ⟨rfl, rfl⟩ := Prod.mk.inj (Option.some.inj hsplit)
          exact ⟨rfl, rfl⟩
    · rename_i h
      have hnot := splitLast_eq_none.mp h
      split
      · rename_i hx
        simp only [Option.some.injEq, Prod.mk.injEq]
        constructor
        · rintro ⟨rfl, rfl⟩
          exact ⟨by simp [hx], hnot⟩
        · rintro ⟨heq, -⟩
          cases p with
          | nil => exact ⟨rfl, (List.cons.inj heq).2⟩
          | cons y p =>
            obtain ⟨-, rfl⟩ := List.cons.inj heq
            simp at hnot
      · rename_i hx
        constructor
        · rintro ⟨⟩
        · rintro ⟨heq, -⟩
          cases p with
          | nil => exact absurd (List.cons.inj heq).1 hx
          | cons y p =>
            obtain ⟨-, rfl⟩ := List.cons.inj heq
            simp at hnot

/-! ### Percent encoding -/

def hexDigit (n : Nat) : Char := "0123456789ABCDEF".toList.getD n '0'

/-- `%XX`. -/
def percent (b : UInt8) : List Char := ['%', hexDigit (b.toNat / 16), hexDigit (b.toNat % 16)]

/-- The characters that `encodeURIComponent` leaves. -/
def isUnreserved (c : Char) : Bool :=
  c.toNat < 128 && (c.isAlphanum || c ∈ "-_.!~*'()".toList)

def encodeURIComponent (t : List Char) : List Char :=
  t.flatMap fun c => if isUnreserved c then [c] else (String.utf8EncodeChar c).flatMap percent

def hexValue (c : Char) : Option Nat :=
  if '0' ≤ c ∧ c ≤ '9' then some (c.toNat - '0'.toNat)
  else if 'a' ≤ c ∧ c ≤ 'f' then some (c.toNat - 'a'.toNat + 10)
  else if 'A' ≤ c ∧ c ≤ 'F' then some (c.toNat - 'A'.toNat + 10)
  else none

/-- The bytes that a text with percent escapes stands for. -/
def unescape : List Char → Option (List UInt8)
  | [] => some []
  | '%' :: a :: b :: t => do
    let a ← hexValue a
    let b ← hexValue b
    return .ofNat (16 * a + b) :: (← unescape t)
  | c :: t => if c = '%' then none else return String.utf8EncodeChar c ++ (← unescape t)

/-- `decodeURIComponent`, `none` when it throws. -/
def decodeURIComponent (t : List Char) : Option (List Char) := do
  let bytes ← unescape t
  let text ← bytes.toByteArray.utf8Decode?
  return text.toList

theorem hexValue_hexDigit {n : Nat} (h : n < 16) : hexValue (hexDigit n) = some n := by
  revert h
  revert n
  decide

theorem unescape_percent (b : UInt8) (t : List Char) :
    unescape (percent b ++ t) = (unescape t).map (b :: ·) := by
  have hlt := b.toNat_lt
  have hhigh := hexValue_hexDigit (n := b.toNat / 16) (by omega)
  have hlow := hexValue_hexDigit (n := b.toNat % 16) (by omega)
  have hbyte : UInt8.ofNat (16 * (b.toNat / 16) + b.toNat % 16) = b := by
    rw [Nat.div_add_mod]
    exact UInt8.ofNat_toNat
  simp only [percent, List.cons_append, List.nil_append, unescape, hhigh, hlow, hbyte,
    Option.bind_eq_bind, Option.bind_some]
  cases unescape t <;> rfl

theorem unescape_bytes (bytes : List UInt8) (t : List Char) :
    unescape (bytes.flatMap percent ++ t) = (unescape t).map (bytes ++ ·) := by
  induction bytes with
  | nil => simp
  | cons b bytes ih =>
    rw [List.flatMap_cons, List.append_assoc, unescape_percent, ih, Option.map_map]
    rfl

theorem unescape_unreserved {c : Char} (h : isUnreserved c) (t : List Char) :
    unescape (c :: t) = (unescape t).map (String.utf8EncodeChar c ++ ·) := by
  have hc : c ≠ '%' := by
    rintro rfl
    exact absurd h (by decide)
  rw [unescape]
  · rw [if_neg hc]
    cases unescape t <;> rfl
  · intro a b t' heq
    exact absurd heq hc

theorem unescape_encode (t : List Char) :
    unescape (encodeURIComponent t) = some (t.flatMap String.utf8EncodeChar) := by
  induction t with
  | nil => rfl
  | cons c t ih =>
    have hcons : encodeURIComponent (c :: t) =
        (if isUnreserved c then [c] else (String.utf8EncodeChar c).flatMap percent) ++
          encodeURIComponent t := rfl
    rw [hcons, List.flatMap_cons]
    split
    · rename_i hc
      rw [List.singleton_append, unescape_unreserved hc, ih]
      rfl
    · rw [unescape_bytes, ih]
      rfl

/-- Decoding gives back what was encoded. -/
theorem decode_encode (t : List Char) : decodeURIComponent (encodeURIComponent t) = some t := by
  rw [decodeURIComponent, unescape_encode]
  have hbytes : (t.flatMap String.utf8EncodeChar).toByteArray = t.utf8Encode := rfl
  simp only [Option.bind_eq_bind, Option.bind_some, hbytes, List.utf8Decode?_utf8Encode]
  rfl

/-! ### Numbers -/

/-- What `Number` answers, with the exact value where it is finite. -/
inductive Num
  | nan
  | infinite (negative : Bool)
  | finite (q : ℚ)
deriving DecidableEq

/-- The number a text of digits stands for. -/
def natOf (base : Nat) (t : List Char) : Option Nat :=
  if t = [] then none
  else t.foldlM (fun n c => (hexValue c).bind fun d => if d < base then some (n * base + d) else none) 0

/-- The exponent of a decimal. -/
def exponent : List Char → Option Int
  | [] => some 0
  | _ :: '+' :: t => (natOf 10 t).map Int.ofNat
  | _ :: '-' :: t => (natOf 10 t).map fun n => -(n : Int)
  | _ :: t => (natOf 10 t).map Int.ofNat

/-- A decimal without a sign. -/
def decimal (t : List Char) : Option ℚ := do
  let mantissa := t.takeWhile fun c => c ≠ 'e' ∧ c ≠ 'E'
  let whole := mantissa.takeWhile (· ≠ '.')
  let frac := (mantissa.dropWhile (· ≠ '.')).drop 1
  let e ← exponent (t.dropWhile fun c => c ≠ 'e' ∧ c ≠ 'E')
  let n ← natOf 10 (whole ++ frac)
  return n * (10 : ℚ) ^ (e - frac.length)

/-- Values from here on round to infinity. -/
def overflow : ℚ := 2 ^ 1024 - 2 ^ 970

def signed (negative : Bool) (t : List Char) : Num :=
  if t = "Infinity".toList then .infinite negative
  else
    match decimal t with
    | none => .nan
    | some q => if overflow ≤ q then .infinite negative else .finite (if negative then -q else q)

/-- The base that `0x`, `0o` and `0b` announce. -/
def radix (a b : Char) : Option Nat :=
  if a ≠ '0' then none
  else if b = 'x' ∨ b = 'X' then some 16
  else if b = 'o' ∨ b = 'O' then some 8
  else if b = 'b' ∨ b = 'B' then some 2
  else none

def integer (base : Nat) (t : List Char) : Num :=
  match natOf base t with
  | none => .nan
  | some n => if overflow ≤ n then .infinite false else .finite n

/-- `Number` of a text. -/
def number (t : List Char) : Num :=
  match trim t with
  | [] => .finite 0
  | '+' :: t => signed false t
  | '-' :: t => signed true t
  | a :: b :: t =>
    match radix a b with
    | some base => integer base t
    | none => signed false (a :: b :: t)
  | t => signed false t

/-- A number that was written as a template literal. -/
def digits (n : Nat) : List Char := Nat.toDigits 10 n

theorem isDigit_of_mem_digits {n : Nat} {c : Char} (h : c ∈ digits n) : c.isDigit :=
  Nat.isDigit_of_mem_toDigits (by decide) (by decide) h

/-- The digits have no character that is not one. -/
theorem not_mem_digits {n : Nat} {c : Char} (h : c.isDigit = false) : c ∉ digits n := by
  intro hmem
  rw [isDigit_of_mem_digits hmem] at h
  cases h

theorem hexValue_of_isDigit {c : Char} (h : c.isDigit) :
    hexValue c = some (c.toNat - '0'.toNat) ∧ c.toNat - '0'.toNat < 10 := by
  simp only [Char.isDigit, Bool.and_eq_true, decide_eq_true_eq] at h
  have hval : c.toNat = c.val.toNat := rfl
  have hlow : 48 ≤ c.val.toNat := UInt32.le_iff_toNat_le.mp h.1
  have hhigh : c.val.toNat ≤ 57 := UInt32.le_iff_toNat_le.mp h.2
  constructor
  · rw [hexValue, if_pos]
    exact ⟨UInt32.le_iff_toNat_le.mpr hlow, UInt32.le_iff_toNat_le.mpr hhigh⟩
  · rw [hval]
    simp only [Char.reduceToNat]
    omega

theorem foldlM_digits {t : List Char} (h : ∀ c ∈ t, c.isDigit) (init : Nat) :
    t.foldlM (fun n c => (hexValue c).bind fun d => if d < 10 then some (n * 10 + d) else none) init =
      some (Nat.ofDigitChars 10 t init) := by
  induction t generalizing init with
  | nil => rfl
  | cons c t ih =>
    obtain ⟨hvalue, hlt⟩ := hexValue_of_isDigit (h c List.mem_cons_self)
    rw [List.foldlM_cons, hvalue, Nat.ofDigitChars_cons]
    simp only [Option.bind_some, if_pos hlt, Option.bind_eq_bind]
    rw [ih (fun x hx => h x (List.mem_cons_of_mem _ hx)), Nat.mul_comm]

theorem natOf_digits (n : Nat) : natOf 10 (digits n) = some n := by
  have hne : digits n ≠ [] := Nat.toDigits_ne_nil
  rw [natOf, if_neg hne, foldlM_digits fun c hc => isDigit_of_mem_digits hc]
  exact congrArg some Nat.ofDigitChars_ten_toDigits

theorem takeWhile_digits {n : Nat} {p : Char → Bool} (h : ∀ c, c.isDigit → p c = true) :
    (digits n).takeWhile p = digits n ∧ (digits n).dropWhile p = [] := by
  have hall : ∀ c ∈ digits n, p c = true := fun c hc => h c (isDigit_of_mem_digits hc)
  exact ⟨List.takeWhile_eq_self_iff.mpr hall, List.dropWhile_eq_nil_iff.mpr hall⟩

theorem decimal_digits (n : Nat) : decimal (digits n) = some (n : ℚ) := by
  have he := takeWhile_digits (n := n) (p := fun c => c ≠ 'e' ∧ c ≠ 'E') fun c hc => by
    rw [decide_eq_true_eq]
    constructor <;> rintro rfl <;> exact absurd hc (by decide)
  have hdot := takeWhile_digits (n := n) (p := (· ≠ '.')) fun c hc => by
    rw [decide_eq_true_eq]
    rintro rfl
    exact absurd hc (by decide)
  simp only [decimal, he, hdot, exponent, natOf_digits, List.drop_nil, List.append_nil,
    List.length_nil, Option.bind_eq_bind, Option.bind_some]
  simp

theorem isSpace_of_isDigit {c : Char} (h : c.isDigit) : isSpace c = false := by
  simp only [Char.isDigit, Bool.and_eq_true, decide_eq_true_eq] at h
  have hval : c.toNat = c.val.toNat := rfl
  have hlow : 48 ≤ c.val.toNat := UInt32.le_iff_toNat_le.mp h.1
  have hhigh : c.val.toNat ≤ 57 := UInt32.le_iff_toNat_le.mp h.2
  simp only [isSpace, hval, Bool.or_eq_false_iff, Bool.and_eq_false_iff, decide_eq_false_iff_not,
    beq_eq_false_iff_ne]
  omega

theorem dropWhile_of_forall {t : List Char} {p : Char → Bool} (h : ∀ c ∈ t, p c = false) :
    t.dropWhile p = t := by
  cases t with
  | nil => rfl
  | cons c t => rw [List.dropWhile_cons_of_neg (by simp [h c List.mem_cons_self])]

theorem trim_digits (n : Nat) : trim (digits n) = digits n := by
  have hspace : ∀ c ∈ digits n, isSpace c = false :=
    fun c hc => isSpace_of_isDigit (isDigit_of_mem_digits hc)
  rw [trim, dropWhile_of_forall hspace, dropWhile_of_forall, List.reverse_reverse]
  exact fun c hc => hspace c (List.mem_reverse.mp hc)

theorem safe_lt_overflow : (2 : ℚ) ^ 53 < overflow := by
  have hsplit : (2 : ℚ) ^ 1024 = 2 ^ 54 * 2 ^ 970 := by rw [← pow_add]
  have hone : (1 : ℚ) ≤ 2 ^ 970 := one_le_pow₀ (by norm_num)
  rw [overflow, hsplit]
  generalize (2 : ℚ) ^ 970 = x at hone
  linarith

theorem number_digits {n : Nat} (h : n < 2 ^ 53) : number (digits n) = .finite n := by
  have hnot : ∀ {c : Char}, c.isDigit = false → c ∉ digits n := not_mem_digits
  have hdecimal : signed false (digits n) = .finite n := by
    have hinf : digits n ≠ "Infinity".toList := by
      intro heq
      exact hnot (c := 'I') (by decide) (heq ▸ by decide)
    have hlt : ¬ overflow ≤ (n : ℚ) := by
      rw [not_le]
      calc (n : ℚ) < 2 ^ 53 := by exact_mod_cast h
        _ < overflow := safe_lt_overflow
    rw [signed, if_neg hinf, decimal_digits]
    simp only [if_neg hlt, Bool.false_eq_true, if_false]
  unfold number
  rw [trim_digits]
  -- every case but the last two begins with something that digits do not have
  split
  · rename_i heq
    exact absurd heq Nat.toDigits_ne_nil
  · rename_i heq
    exact absurd (heq ▸ List.mem_cons_self) (hnot (c := '+') (by decide))
  · rename_i heq
    exact absurd (heq ▸ List.mem_cons_self) (hnot (c := '-') (by decide))
  · rename_i a b t hplus hminus heq
    have hb : b.isDigit := isDigit_of_mem_digits (n := n) (by simp [heq])
    have hradix : radix a b = none := by
      have hne : ∀ {c : Char}, c.isDigit = false → b ≠ c := by
        rintro c hc rfl
        rw [hb] at hc
        cases hc
      simp [radix, hne (c := 'x') (by decide), hne (c := 'X') (by decide),
        hne (c := 'o') (by decide), hne (c := 'O') (by decide), hne (c := 'b') (by decide),
        hne (c := 'B') (by decide)]
    rw [hradix]
    exact heq ▸ hdecimal
  · exact hdecimal

end js
