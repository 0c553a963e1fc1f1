import PCoin.Wallet.AmountsAgree

open decimal

namespace pcoin.wallet

/-- U+001C to U+001F, which only the JVM counts as blanks. -/
def isInformationSeparator (c : Char) : Prop := 0x1c ≤ c.toNat ∧ c.toNat ≤ 0x1f

/-- The three wallets all refuse the text, or all read it as the same satoshis: its decimal value
times `10 ^ 8`, between one and the supply. -/
def Agree (s : List Char) : Prop :=
  ((∃ why, android.parse s = some (.bad why)) ∧ (∃ why, windows.Parse s = .bad why) ∧
    ∃ why, ios.parse s = .bad why) ∨
  ∃ (l : Literal) (sat : Nat), literal (core android.isWhitespace s) = some l ∧ Amount l sat ∧
    android.parse s = some (.ok sat) ∧ windows.Parse s = .ok sat ∧ ios.parse s = .ok sat

/-- The text is no amount, or one whose exponent iOS reads to the end and in which no information
separator stands for a blank. -/
def Clear (s : List Char) : Prop :=
  ∀ l sat, literal (core android.isWhitespace s) = some l → Amount l sat →
    ((∃ c ∈ s, isInformationSeparator c) → ¬ android.Representable l) ∧
      ((∀ c ∈ s, ¬ isInformationSeparator c) → ¬ ios.Bails l.pow)

theorem mem_of_mem_dropPlus {t : List Char} {c : Char} (h : c ∈ dropPlus t) : c ∈ t := by
  unfold dropPlus at h
  split at h
  · exact List.mem_cons_of_mem _ h
  · exact h

theorem mem_dropPlus {t : List Char} {c : Char} (h : c ∈ t) (hc : c ≠ '+') : c ∈ dropPlus t := by
  unfold dropPlus
  split
  · exact (List.mem_cons.mp h).resolve_left hc
  · exact h

/-- Two notions of a blank that agree on a text leave the same core. -/
theorem core_congr {p q : Char → Bool} {raw : List Char} (h : ∀ c ∈ raw, p c = q c) :
    core p raw = core q raw := by
  have hstrip := strip_congr h
  rw [core, core, hstrip]
  exact strip_congr fun c hc => h c (mem_of_mem_strip (mem_of_mem_dropPlus hc))

/-- What is no blank stays in the core. -/
theorem mem_core {blank : Char → Bool} {raw : List Char} {c : Char} (h : c ∈ raw)
    (hblank : blank c = false) (hplus : c ≠ '+') : c ∈ core blank raw :=
  mem_strip (mem_dropPlus (mem_strip h hblank) hplus) hblank

theorem core_windows {s : List Char} (hascii : ∀ c ∈ s, c.toNat < 128)
    (hnone : ∀ c ∈ s, ¬ isInformationSeparator c) :
    core windows.isWhiteSpace s = core android.isWhitespace s := by
  refine core_congr fun c hc => ?_
  have hlow := hascii c hc
  have hsep := hnone c hc
  simp only [isInformationSeparator] at hsep
  rw [Bool.eq_iff_iff]
  simp only [windows.isWhiteSpace, android.isWhitespace, isSeparator, Bool.or_eq_true,
    Bool.and_eq_true, decide_eq_true_eq]
  omega

/-- Windows and iOS keep the separator, and no literal holds one. -/
theorem literal_of_separator {blank : Char → Bool} {s : List Char} {c : Char} (hc : c ∈ s)
    (hsep : isInformationSeparator c) (hblank : blank c = false) : literal (core blank s) = none := by
  obtain ⟨hlow, hhigh⟩ := hsep
  have hother (d : Char) (hd : 0x1f < d.toNat) : c ≠ d := by
    rintro rfl
    omega
  have hchar : ¬ IsLiteralChar c := by
    rintro (hdigit | hmem)
    · have hzero : '0'.toNat = 48 := rfl
      have := (Char.isDigit_iff_toNat.mp hdigit).1
      omega
    · simp only [List.mem_cons, List.not_mem_nil, or_false] at hmem
      obtain h | h | h | h | h := hmem <;> exact hother _ (by decide) h
  cases hliteral : literal (core blank s) with
  | none => rfl
  | some l =>
    exact absurd (mem_core hc hblank (hother '+' (by decide))) (not_mem_of_literal hliteral hchar)

theorem windows_blank {c : Char} (h : isInformationSeparator c) :
    windows.isWhiteSpace c = false := by
  obtain ⟨hlow, hhigh⟩ := h
  rw [Bool.eq_false_iff]
  simp only [windows.isWhiteSpace, isSeparator, ne_eq, Bool.or_eq_true, Bool.and_eq_true,
    decide_eq_true_eq]
  omega

/-- An exponent that iOS reads to the end is a Java `int`. -/
theorem representable_of_not_bails {t : List Char} {l : Literal} (h : literal t = some l)
    (hbails : ¬ ios.Bails l.pow) : android.Representable l := by
  have hdigits := isDigit_of_mem_pow h
  have hbound : Nat.ofDigitChars 10 l.pow 0 ≤ 10000009 := by
    obtain hnil | ⟨front, last, hpow⟩ := List.eq_nil_or_concat' l.pow
    · simp [hnil]
    · have hlast := Char.isDigit_iff_toNat.mp (hdigits last (by simp [hpow]))
      have hzero : '0'.toNat = 48 := rfl
      have hnine : '9'.toNat = 57 := rfl
      rw [ios.Bails, hpow, List.dropLast_concat] at hbails
      rw [hpow, Nat.ofDigitChars_append, Nat.ofDigitChars_cons, Nat.ofDigitChars_nil]
      omega
  unfold android.Representable android.BigDecimal.isInt Literal.exponent
  split <;> omega

theorem Amount.unique {l : Literal} {sat sat' : Nat} (h : Amount l sat) (h' : Amount l sat') :
    sat' = sat := by
  have := h'.exact.trans h.exact.symm
  exact_mod_cast this

/-- The wallets read a text alike exactly when it is clear. -/
theorem agree_iff {s : List Char} (hascii : ∀ c ∈ s, c.toNat < 128) : Agree s ↔ Clear s := by
  by_cases hsep : ∃ c ∈ s, isInformationSeparator c
  · obtain ⟨c, hc, hcsep⟩ := hsep
    have hnone := literal_of_separator hc hcsep (windows_blank hcsep)
    have hwindows : ∃ why, windows.Parse s = .bad why := by
      obtain ⟨l, sat, hl, -⟩ | ⟨-, hbad⟩ := windows.parse_cases s
      · rw [hnone] at hl
        cases hl
      · exact hbad
    have hios : ∃ why, ios.parse s = .bad why := by
      obtain ⟨l, sat, hl, -⟩ | ⟨-, hbad⟩ := ios.parse_cases s
      · rw [show core ios.isWhitespaceOrNewline s = core windows.isWhiteSpace s from rfl, hnone] at hl
        cases hl
      · exact hbad
    obtain ⟨l, sat, hl, hrep, hamount, haccepts⟩ | ⟨hno, hbad⟩ := android.parse_cases s
    · refine iff_of_false ?_ fun hclear => (hclear l sat hl hamount).1 ⟨c, hc, hcsep⟩ hrep
      rintro (⟨⟨why, hwhy⟩, -⟩ | ⟨_, _, -, -, -, hok, -⟩)
      · rw [haccepts] at hwhy
        cases hwhy
      · obtain ⟨why, hwhy⟩ := hwindows
        rw [hwhy] at hok
        cases hok
    · refine iff_of_true (.inl ⟨hbad, hwindows, hios⟩) fun l sat hl hamount => ⟨?_, ?_⟩
      · exact fun _ hrep => hno l sat hl hrep hamount
      · exact fun hnot => absurd hcsep (hnot c hc)
  · have hnone : ∀ c ∈ s, ¬ isInformationSeparator c := fun c hc h => hsep ⟨c, hc, h⟩
    have hcore := core_windows hascii hnone
    have hwindows := windows.parse_cases s
    have hios := ios.parse_cases s
    rw [show core ios.isWhitespaceOrNewline s = core windows.isWhiteSpace s from rfl] at hios
    rw [hcore] at hwindows hios
    constructor
    · intro hagree l sat hl hamount
      refine ⟨fun h => absurd h hsep, fun _ hbails => ?_⟩
      obtain ⟨l₁, sat₁, hl₁, -, hok⟩ | ⟨hno, -⟩ := hwindows
      · obtain ⟨-, ⟨why, hwhy⟩, -⟩ | ⟨_, sat₂, -, -, -, -, hios₂⟩ := hagree
        · rw [hok] at hwhy
          cases hwhy
        · obtain ⟨l₃, sat₃, hl₃, hnot, -⟩ | ⟨-, why, hwhy⟩ := hios
          · rw [hl] at hl₃
            cases hl₃
            exact hnot hbails
          · rw [hios₂] at hwhy
            cases hwhy
      · exact hno l sat hl hamount
    · intro hclear
      by_cases hex : ∃ l sat, literal (core android.isWhitespace s) = some l ∧ Amount l sat
      · obtain ⟨l, sat, hl, hamount⟩ := hex
        have hbails := (hclear l sat hl hamount).2 hnone
        refine .inr ⟨l, sat, hl, hamount, ?_, ?_, ?_⟩
        · obtain ⟨l₁, sat₁, hl₁, -, hamount₁, hok⟩ | ⟨hno, -⟩ := android.parse_cases s
          · rw [hl] at hl₁
            cases hl₁
            rw [hok, hamount.unique hamount₁]
          · exact absurd hamount (hno l sat hl (representable_of_not_bails hl hbails))
        · obtain ⟨l₁, sat₁, hl₁, hamount₁, hok⟩ | ⟨hno, -⟩ := hwindows
          · rw [hl] at hl₁
            cases hl₁
            rw [hok, hamount.unique hamount₁]
          · exact absurd hamount (hno l sat hl)
        · obtain ⟨l₁, sat₁, hl₁, -, hamount₁, hok⟩ | ⟨hno, -⟩ := hios
          · rw [hl] at hl₁
            cases hl₁
            rw [hok, hamount.unique hamount₁]
          · exact absurd hamount (hno l sat hl hbails)
      · refine .inl ⟨?_, ?_, ?_⟩
        · obtain ⟨l, sat, hl, -, hamount, -⟩ | ⟨-, hbad⟩ := android.parse_cases s
          · exact absurd ⟨l, sat, hl, hamount⟩ hex
          · exact hbad
        · obtain ⟨l, sat, hl, hamount, -⟩ | ⟨-, hbad⟩ := hwindows
          · exact absurd ⟨l, sat, hl, hamount⟩ hex
          · exact hbad
        · obtain ⟨l, sat, hl, -, hamount, -⟩ | ⟨-, hbad⟩ := hios
          · exact absurd ⟨l, sat, hl, hamount⟩ hex
          · exact hbad

/-- The plain text of a number of satoshis is a literal of eight decimals, with no exponent. -/
theorem amount_plain {sat : Nat} (hpositive : 1 ≤ sat) (hbounded : sat ≤ 21000000 * 10 ^ 8) :
    ∃ l, literal (plain sat) = some l ∧ l.pow = [] ∧ Amount l sat := by
  obtain ⟨l, hl, hsign, hscale, hpow, hcoefficient⟩ :=
    @literal_fixed 8 (sat / SATS_PER_COIN) (sat % SATS_PER_COIN) (by norm_num)
      (Nat.mod_lt _ (by decide))
  have hvalue : l.coefficient = sat := by
    rw [hcoefficient]
    exact Nat.div_add_mod' sat SATS_PER_COIN
  refine ⟨l, hl, hpow, amount_iff.mpr ⟨hsign, by omega, by omega, ?_, hbounded⟩⟩
  rw [hvalue, hscale]
  simp

/-- The plain text has no blank to lose. -/
theorem core_plain {blank : Char → Bool} (hblank : ∀ c, IsLiteralChar c → blank c = false)
    {sat : Nat} {l : Literal} (h : literal (plain sat) = some l) : core blank (plain sat) = plain sat := by
  have hstrip : strip blank (plain sat) = plain sat :=
    strip_of_forall fun c hc => hblank c (isLiteralChar_of_mem h c hc)
  have hplus : dropPlus (plain sat) = plain sat := by
    unfold dropPlus
    split
    · rename_i t heq
      cases hdigits : Nat.toDigits 10 (sat / SATS_PER_COIN) with
      | nil => exact absurd hdigits Nat.toDigits_ne_nil
      | cons c digits =>
        rw [plain, hdigits] at heq
        have hc : c = '+' := (List.cons.inj heq).1
        have := isDigit_of_mem_toDigits c (hdigits ▸ List.mem_cons_self)
        rw [hc] at this
        cases this
    · rfl
  rw [core, hstrip, hplus, hstrip]

theorem blank_false_of_isLiteralChar {c : Char} (h : IsLiteralChar c) :
    android.isWhitespace c = false ∧ windows.isWhiteSpace c = false := by
  have hrange : 43 ≤ c.toNat ∧ c.toNat ≤ 101 := by
    obtain hdigit | hmem := h
    · have hzero : '0'.toNat = 48 := rfl
      have hnine : '9'.toNat = 57 := rfl
      have := Char.isDigit_iff_toNat.mp hdigit
      omega
    · simp only [List.mem_cons, List.not_mem_nil, or_false] at hmem
      obtain rfl | rfl | rfl | rfl | rfl := hmem <;> decide
  constructor <;> rw [Bool.eq_false_iff] <;>
    simp only [android.isWhitespace, windows.isWhiteSpace, isSeparator, ne_eq, Bool.or_eq_true,
      Bool.and_eq_true, decide_eq_true_eq] <;> omega

/-- Each wallet reads back the plain text of every amount. -/
theorem parse_plain {sat : Nat} (hpositive : 1 ≤ sat) (hbounded : sat ≤ 21000000 * 10 ^ 8) :
    android.parse (plain sat) = some (.ok sat) ∧ windows.Parse (plain sat) = .ok sat ∧
      ios.parse (plain sat) = .ok sat := by
  obtain ⟨l, hl, hpow, hamount⟩ := amount_plain hpositive hbounded
  have handroid := core_plain (fun c hc => (blank_false_of_isLiteralChar hc).1) hl
  have hwindows := core_plain (fun c hc => (blank_false_of_isLiteralChar hc).2) hl
  have hbails : ¬ ios.Bails l.pow := by simp [ios.Bails, hpow]
  refine ⟨?_, ?_, ?_⟩
  · obtain ⟨l₁, sat₁, hl₁, -, hamount₁, hok⟩ | ⟨hno, -⟩ := android.parse_cases (plain sat)
    · rw [handroid, hl] at hl₁
      cases hl₁
      rw [hok, hamount.unique hamount₁]
    · rw [handroid] at hno
      exact absurd hamount (hno l sat hl (representable_of_not_bails hl hbails))
  · obtain ⟨l₁, sat₁, hl₁, hamount₁, hok⟩ | ⟨hno, -⟩ := windows.parse_cases (plain sat)
    · rw [hwindows, hl] at hl₁
      cases hl₁
      rw [hok, hamount.unique hamount₁]
    · rw [hwindows] at hno
      exact absurd hamount (hno l sat hl)
  · have hios : core ios.isWhitespaceOrNewline (plain sat) = plain sat := hwindows
    obtain ⟨l₁, sat₁, hl₁, -, hamount₁, hok⟩ | ⟨hno, -⟩ := ios.parse_cases (plain sat)
    · rw [hios, hl] at hl₁
      cases hl₁
      rw [hok, hamount.unique hamount₁]
    · rw [hios] at hno
      exact absurd hamount (hno l sat hl hbails)

/-- The three wallets read an ASCII text alike exactly when it is clear, and each reads back the
plain text any of them prints. -/
theorem amounts_agree (s : List Char) (hascii : ∀ c ∈ s, c.toNat < 128) :
    (Agree s ↔ Clear s) ∧
      ∀ sat : Nat, 1 ≤ sat → sat ≤ 21000000 * 10 ^ 8 →
        ∀ text ∈ [android.toPlainString sat, windows.ToPlainString sat, ios.toPlainString sat],
          android.parse text = some (.ok sat) ∧ windows.Parse text = .ok sat ∧
            ios.parse text = .ok sat := by
  refine ⟨agree_iff hascii, fun sat hpositive hbounded text htext => ?_⟩
  have hplain : text = plain sat := by
    simpa [android.toPlainString, windows.ToPlainString, ios.toPlainString] using htext
  rw [hplain]
  exact parse_plain hpositive hbounded

theorem amounts_agree_one_and_a_half :
    (Agree "1.5".toList ↔ Clear "1.5".toList) ∧ windows.Parse (ios.toPlainString 150000000) = .ok 150000000 :=
  have hagree := amounts_agree "1.5".toList (by simp)
  ⟨hagree.1, (hagree.2 150000000 (by norm_num) (by norm_num) _ (by simp)).2.1⟩

/-- A unit separator before a coin is a blank to Android alone. -/
theorem separator_disagrees : ¬ Agree ['\x1f', '1'] := by
  have handroid : android.parse ['\x1f', '1'] = some (.ok 100000000) := by decide +kernel
  have hwindows : windows.Parse ['\x1f', '1'] = .bad .notANumber := by decide +kernel
  rintro (⟨⟨why, hwhy⟩, -⟩ | ⟨_, _, -, -, -, hok, -⟩)
  · rw [handroid] at hwhy
    cases hwhy
  · rw [hwindows] at hok
    cases hok

end pcoin.wallet
