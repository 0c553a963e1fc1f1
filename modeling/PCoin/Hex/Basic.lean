import Mathlib.Data.Nat.Digits.Lemmas
import Mathlib.Data.List.Basic

namespace hex

/-- A hexadecimal digit of either case. -/
def isDigit (c : Char) : Bool :=
  ('0' ≤ c && c ≤ '9') || ('a' ≤ c && c ≤ 'f') || ('A' ≤ c && c ≤ 'F')

/-- The lower-case form of a hexadecimal digit. -/
def lower (c : Char) : Char := if 'A' ≤ c ∧ c ≤ 'F' then Char.ofNat (c.toNat + 32) else c

/-- A lower-case hexadecimal digit. -/
def isLower (c : Char) : Bool := ('0' ≤ c && c ≤ '9') || ('a' ≤ c && c ≤ 'f')

def digitValue (c : Char) : Nat := if c ≤ '9' then c.toNat - 48 else c.toNat - 87

/-- The bytes that pairs of lower-case digits spell; an odd tail is dropped. -/
def decode : List Char → List UInt8
  | a :: b :: rest => UInt8.ofNat (16 * digitValue a + digitValue b) :: decode rest
  | _ => []

/-- `n.toString(16)` of a positive number. -/
def ofNat (n : Nat) : String := String.ofList ((Nat.digits 16 n).reverse.map Nat.digitChar)

theorem toNat_of_isLower {c : Char} (h : isLower c = true) :
    (48 ≤ c.toNat ∧ c.toNat ≤ 57) ∨ (97 ≤ c.toNat ∧ c.toNat ≤ 102) := by
  simp only [isLower, Bool.or_eq_true, Bool.and_eq_true, decide_eq_true_eq] at h
  rcases h with ⟨hlow, hhigh⟩ | ⟨hlow, hhigh⟩
  · exact .inl ⟨hlow, hhigh⟩
  · exact .inr ⟨hlow, hhigh⟩

theorem isLower_lower {c : Char} (h : isDigit c = true) : isLower (lower c) = true := by
  simp only [isDigit, Bool.or_eq_true, Bool.and_eq_true, decide_eq_true_eq] at h
  by_cases hupper : 'A' ≤ c ∧ c ≤ 'F'
  · rw [lower, if_pos hupper]
    have hlow : 65 ≤ c.toNat := hupper.1
    have hhigh : c.toNat ≤ 70 := hupper.2
    have hvalid : (c.toNat + 32).isValidChar := .inl (by omega)
    have hnat : (Char.ofNat (c.toNat + 32)).toNat = c.toNat + 32 := by
      rw [Char.ofNat, dif_pos hvalid]
      rfl
    simp only [isLower, Bool.or_eq_true, Bool.and_eq_true, decide_eq_true_eq]
    refine .inr ⟨?_, ?_⟩
    · show 97 ≤ (Char.ofNat (c.toNat + 32)).toNat
      omega
    · show (Char.ofNat (c.toNat + 32)).toNat ≤ 102
      omega
  · rw [lower, if_neg hupper]
    simp only [isLower, Bool.or_eq_true, Bool.and_eq_true, decide_eq_true_eq]
    exact h.resolve_right hupper

theorem digitValue_lt {c : Char} (h : isLower c = true) : digitValue c < 16 := by
  have hrange := toNat_of_isLower h
  have hnine : ('9' : Char).toNat = 57 := rfl
  simp only [digitValue]
  split
  · rename_i hle
    have : c.toNat ≤ 57 := hle
    omega
  · omega

theorem digitValue_inj {a b : Char} (ha : isLower a = true) (hb : isLower b = true)
    (h : digitValue a = digitValue b) : a = b := by
  have hra := toNat_of_isLower ha
  have hrb := toNat_of_isLower hb
  apply Char.toNat_inj.mp
  simp only [digitValue] at h
  have hle (c : Char) : c ≤ '9' ↔ c.toNat ≤ 57 := Iff.rfl
  simp only [hle] at h
  split at h <;> split at h <;> omega

theorem decode_inj {xs ys : List Char} (hxs : xs.all isLower = true) (hys : ys.all isLower = true)
    (heven : 2 ∣ xs.length) (hlen : xs.length = ys.length) (h : decode xs = decode ys) :
    xs = ys := by
  induction xs using decode.induct generalizing ys with
  | case1 a b rest ih =>
    match ys, hlen with
    | c :: d :: ys, hlen =>
      simp only [List.all_cons, Bool.and_eq_true] at hxs hys
      simp only [decode, List.cons.injEq] at h
      have ha := digitValue_lt hxs.1
      have hb := digitValue_lt hxs.2.1
      have hc := digitValue_lt hys.1
      have hd := digitValue_lt hys.2.1
      have hbyte := congrArg UInt8.toNat h.1
      rw [UInt8.toNat_ofNat', UInt8.toNat_ofNat', Nat.mod_eq_of_lt (by omega),
        Nat.mod_eq_of_lt (by omega)] at hbyte
      obtain rfl := digitValue_inj hxs.1 hys.1 (by omega)
      obtain rfl := digitValue_inj hxs.2.1 hys.2.1 (by omega)
      simp only [List.length_cons] at heven hlen
      rw [ih hxs.2.2 hys.2.2 (by omega) (by omega) h.2]
  | case2 xs hshort =>
    match xs, hshort with
    | [], _ => exact (List.length_eq_zero_iff.mp hlen.symm).symm
    | [a], _ => simp at heven
    | a :: b :: rest, hshort => exact absurd rfl (hshort a b rest)

theorem digitChar_inj {a b : Nat} (ha : a < 16) (hb : b < 16)
    (h : Nat.digitChar a = Nat.digitChar b) : a = b := by
  interval_cases a <;> interval_cases b <;> first | rfl | exact absurd h (by decide)

theorem map_digitChar_inj {xs ys : List Nat} (hxs : ∀ x ∈ xs, x < 16) (hys : ∀ y ∈ ys, y < 16)
    (h : xs.map Nat.digitChar = ys.map Nat.digitChar) : xs = ys := by
  induction xs generalizing ys with
  | nil => simpa [eq_comm] using h
  | cons x xs ih =>
    cases ys with
    | nil => simp at h
    | cons y ys =>
      simp only [List.map_cons, List.cons.injEq] at h
      rw [digitChar_inj (hxs x (by simp)) (hys y (by simp)) h.1,
        ih (fun z hz => hxs z (List.mem_cons_of_mem _ hz))
          (fun z hz => hys z (List.mem_cons_of_mem _ hz)) h.2]

theorem ofNat_inj {m n : Nat} (h : ofNat m = ofNat n) : m = n := by
  have hlists : (Nat.digits 16 m).reverse.map Nat.digitChar =
      (Nat.digits 16 n).reverse.map Nat.digitChar := by
    simpa [ofNat] using congrArg String.toList h
  have hdigits := map_digitChar_inj
    (fun x hx => Nat.digits_lt_base (by norm_num) (List.mem_reverse.mp hx))
    (fun x hx => Nat.digits_lt_base (by norm_num) (List.mem_reverse.mp hx)) hlists
  exact Nat.digits_inj_iff.mp (List.reverse_injective hdigits)

end hex
