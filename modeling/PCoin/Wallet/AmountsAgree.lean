import PCoin.Wallet.AmountValue

open decimal

namespace pcoin.wallet

namespace windows

theorem text_eq (raw : List Char) :
    (if (strip isWhiteSpace raw).head? = some '+' then
      strip isWhiteSpace ((strip isWhiteSpace raw).drop 1) else strip isWhiteSpace raw) =
      core isWhiteSpace raw := by
  unfold core
  have hidem := strip_idem isWhiteSpace raw
  generalize strip isWhiteSpace raw = s at hidem ⊢
  unfold dropPlus
  split
  · rename_i hplus
    cases s with
    | nil => cases hplus
    | cons c s =>
      obtain rfl := Option.some.inj hplus
      rfl
  · rename_i hplus
    split
    · exact absurd rfl hplus
    · exact hidem.symm

/-- Windows accepts exactly the amounts. -/
theorem parse_cases (raw : List Char) :
    (∃ l sat, literal (core isWhiteSpace raw) = some l ∧ Amount l sat ∧ Parse raw = .ok (sat : Nat)) ∨
    ((∀ l sat, literal (core isWhiteSpace raw) = some l → ¬ Amount l sat) ∧
      ∃ why, Parse raw = .bad why) := by
  unfold Parse
  simp only [text_eq]
  generalize core isWhiteSpace raw = s
  cases hliteral : literal s with
  | none =>
    refine .inr ⟨by simp, ?_⟩
    split
    · exact ⟨_, rfl⟩
    split
    · exact ⟨_, rfl⟩
    · simp only [Decimal.TryParse, hliteral]
      exact ⟨_, rfl⟩
  | some l =>
    have hlength : ¬ s.length = 0 := fun h =>
      ne_nil_of_literal hliteral (List.length_eq_zero_iff.mp h)
    have hcomma : ¬ s.contains ',' = true := by
      simpa using comma_not_mem hliteral
    rw [if_neg hlength, if_neg hcomma]
    obtain ⟨sat, dec, hamount, hparse, hjudge⟩ | ⟨hno, hjudge⟩ := judge_cases hliteral
    · exact .inl ⟨l, sat, rfl, hamount, by rw [hparse]; exact hjudge⟩
    · refine .inr ⟨?_, ?_⟩
      · rintro l' sat ⟨⟩
        exact hno sat
      · cases hparse : Decimal.TryParse s with
        | none => exact ⟨_, rfl⟩
        | some dec => exact hjudge dec hparse

end windows

namespace ios

/-- The exponent is past the bail-out of the loop that reads it: its digits but the last are
above a million. -/
def Bails (pow : List Char) : Prop := 1000000 < Nat.ofDigitChars 10 pow.dropLast 0

theorem scanDigits_eq (t : List Char) :
    scanDigits t = ((t.takeWhile Char.isDigit).map fun c => c.toNat - '0'.toNat,
      t.dropWhile Char.isDigit) := by
  induction t with
  | nil => rfl
  | cons c t ih =>
    rw [scanDigits]
    split
    · rename_i hc
      simp [hc, ih]
    · rename_i hc
      simp [hc]

theorem le_ofDigitChars (t : List Char) (init : Nat) : init ≤ Nat.ofDigitChars 10 t init := by
  rw [Nat.ofDigitChars_eq_ofDigitChars_zero]
  have : 1 * init ≤ 10 ^ t.length * init := Nat.mul_le_mul_right _ (Nat.one_le_pow _ _ (by norm_num))
  omega

theorem scanExponent_eq (value expDigits : Nat) (t : List Char) :
    scanExponent value expDigits t =
      if t.takeWhile Char.isDigit ≠ [] ∧
          1000000 < Nat.ofDigitChars 10 (t.takeWhile Char.isDigit).dropLast value then none
      else some (Nat.ofDigitChars 10 (t.takeWhile Char.isDigit) value,
        expDigits + (t.takeWhile Char.isDigit).length, t.dropWhile Char.isDigit) := by
  induction t generalizing value expDigits with
  | nil => rfl
  | cons c t ih =>
    rw [scanExponent]
    split
    · rename_i hc
      simp only [List.takeWhile_cons, List.dropWhile_cons, hc, if_true]
      generalize t.takeWhile Char.isDigit = ds at ih ⊢
      split
      · rename_i hbig
        rw [if_pos ⟨by simp, lt_of_lt_of_le hbig (le_ofDigitChars _ _)⟩]
      · rename_i hsmall
        rw [ih, Nat.mul_comm value 10]
        cases ds with
        | nil => simp [hsmall, Nat.ofDigitChars_cons]
        | cons d ds =>
          have hcount : expDigits + 1 + (d :: ds).length = expDigits + (c :: d :: ds).length := by
            simp only [List.length_cons]
            omega
          simp only [ne_eq, reduceCtorEq, not_false_eq_true, true_and, List.dropLast_cons_cons,
            Nat.ofDigitChars_cons (c := c), hcount]
    · rename_i hc
      simp [hc]

theorem scanPower_eq (t : List Char) :
    (∃ negative pow, power t = some (negative, pow) ∧ ¬ Bails pow ∧
      scanPower t = some (if negative then -(Nat.ofDigitChars 10 pow 0 : Int)
        else (Nat.ofDigitChars 10 pow 0 : Int), [])) ∨
    ((∀ negative pow, power t = some (negative, pow) → Bails pow) ∧
      ∀ exponent, scanPower t ≠ some (exponent, [])) := by
  cases t with
  | nil => exact .inl ⟨false, [], rfl, by simp [Bails], rfl⟩
  | cons c t =>
    rw [scanPower, power]
    split
    · obtain ⟨negative, t⟩ := sign t
      simp only [scanExponent_eq, Nat.zero_add]
      by_cases hdigits : t ≠ [] ∧ t.all Char.isDigit = true
      · rw [if_pos hdigits]
        obtain ⟨hne, hall⟩ := hdigits
        obtain ⟨htake, hdrop⟩ := takeWhile_digits (List.all_eq_true.mp hall) [] rfl
        rw [List.append_nil] at htake hdrop
        rw [htake, hdrop]
        by_cases hbig : 1000000 < Nat.ofDigitChars 10 t.dropLast 0
        · rw [if_pos ⟨hne, hbig⟩]
          refine .inr ⟨?_, by simp⟩
          rintro negative' pow ⟨⟩
          exact hbig
        · rw [if_neg fun h => hbig h.2]
          refine .inl ⟨negative, t, rfl, hbig, ?_⟩
          simp only
          rw [if_pos (List.length_pos_iff.mpr hne)]
      · rw [if_neg hdigits]
        refine .inr ⟨by simp, fun exponent h => hdigits ?_⟩
        split at h
        · cases h
        · rename_i hscan
          split at hscan
          · cases hscan
          · cases hscan
            split at h
            · rename_i hpos
              obtain ⟨-, hrest⟩ := Prod.mk.inj (Option.some.inj h)
              have hsplit := List.takeWhile_append_dropWhile (p := Char.isDigit) (l := t)
              rw [hrest, List.append_nil] at hsplit
              rw [hsplit] at hpos
              refine ⟨List.length_pos_iff.mp hpos, List.all_eq_true.mpr fun d hd => ?_⟩
              rw [← hsplit] at hd
              exact List.mem_takeWhile_imp hd
            · cases h
    · exact .inr ⟨by simp, by simp⟩

theorem scanPoint_eq (t : List Char) :
    scanPoint t = ((point t).1.map fun c => c.toNat - '0'.toNat, (point t).2) := by
  unfold scanPoint
  split
  · exact scanDigits_eq _
  · rename_i hdot
    have hpoint : point t = ([], t) := by
      unfold point
      split
      · exact absurd rfl (hdot _)
      · rfl
    rw [hpoint]
    rfl

/-- The hand-written scanner reads the literals, but for the bail-out. -/
theorem init_eq (t : List Char) :
    (∃ l, literal t = some l ∧ ¬ Bails l.pow ∧ DecimalText.init t = some
      { digits := (l.int ++ l.frac).map fun c => c.toNat - '0'.toNat
        scale := l.scale, isNegative := l.negative }) ∨
    ((∀ l, literal t = some l → Bails l.pow) ∧ DecimalText.init t = none) := by
  unfold literal DecimalText.init
  obtain ⟨negative, t⟩ := sign t
  simp only [scanDigits_eq, scanPoint_eq]
  generalize t.takeWhile Char.isDigit = int
  generalize t.dropWhile Char.isDigit = t
  obtain ⟨frac, t⟩ := point t
  simp only [List.map_eq_nil_iff]
  by_cases hempty : int = [] ∧ frac = []
  · rw [if_pos hempty, if_pos hempty]
    exact .inr ⟨by simp, rfl⟩
  · rw [if_neg hempty, if_neg hempty]
    obtain ⟨powNegative, pow, hpower, hbails, hscan⟩ | ⟨hbails, hscan⟩ := scanPower_eq t
    · refine .inl ⟨⟨negative, int, frac, powNegative, pow⟩, by rw [hpower]; rfl, hbails, ?_⟩
      rw [hscan]
      simp [Literal.scale, Literal.exponent]
    · refine .inr ⟨?_, ?_⟩
      · intro l hl
        obtain ⟨⟨powNegative, pow⟩, hpower, rfl⟩ := Option.map_eq_some_iff.mp hl
        exact hbails powNegative pow hpower
      · cases hpower : scanPower t with
        | none => rfl
        | some parts =>
          obtain ⟨exponent, rest⟩ := parts
          cases rest with
          | nil => exact absurd hpower (hscan exponent)
          | cons c rest => rfl

theorem foldlM_eq (t : List Char) {acc : Nat} (hacc : acc < 2 ^ 63) :
    (t.map fun c => c.toNat - '0'.toNat).foldlM
      (fun acc digit => (timesTen acc).bind (plusDigit · digit)) acc =
      if Nat.ofDigitChars 10 t acc < 2 ^ 63 then some (Nat.ofDigitChars 10 t acc) else none := by
  induction t generalizing acc with
  | nil =>
    rw [Nat.ofDigitChars_nil, if_pos hacc]
    rfl
  | cons c t ih =>
    have hstep : (timesTen acc).bind (plusDigit · (c.toNat - '0'.toNat)) =
        if 10 * acc + (c.toNat - '0'.toNat) < 2 ^ 63 then
          some (10 * acc + (c.toNat - '0'.toNat)) else none := by
      unfold timesTen plusDigit
      rw [Nat.mul_comm acc 10]
      split
      · rfl
      · rename_i hbig
        rw [if_neg (by omega)]
        rfl
    rw [List.map_cons, List.foldlM_cons, hstep, Nat.ofDigitChars_cons]
    split
    · rename_i hsmall
      exact ih hsmall
    · rename_i hbig
      have := le_ofDigitChars t (10 * acc + (c.toNat - '0'.toNat))
      rw [if_neg (by omega)]
      rfl

theorem shift_eq (n : Nat) {acc : Nat} (hacc : acc < 2 ^ 63) :
    shift n acc = if acc * 10 ^ n < 2 ^ 63 then some (acc * 10 ^ n) else none := by
  induction n generalizing acc with
  | zero =>
    rw [pow_zero, mul_one, if_pos hacc]
    rfl
  | succ n ih =>
    rw [shift, timesTen, pow_succ' 10 n, ← mul_assoc]
    split
    · rename_i hsmall
      exact ih hsmall
    · rename_i hbig
      have : acc * 10 * 1 ≤ acc * 10 * 10 ^ n :=
        Nat.mul_le_mul_left _ (Nat.one_le_pow _ _ (by norm_num))
      rw [if_neg (by omega)]
      rfl

theorem satoshis_eq {d : DecimalText} {t : List Char} (hscale : d.scale ≤ 8)
    (hdigits : d.digits = t.map fun c => c.toNat - '0'.toNat) :
    d.satoshis = if Nat.ofDigitChars 10 t 0 * 10 ^ (8 - d.scale).toNat < 2 ^ 63 then
      some (Nat.ofDigitChars 10 t 0 * 10 ^ (8 - d.scale).toNat) else none := by
  rw [DecimalText.satoshis, if_neg (by omega), hdigits, foldlM_eq t (by norm_num)]
  by_cases hsmall : Nat.ofDigitChars 10 t 0 < 2 ^ 63
  · rw [if_pos hsmall]
    exact shift_eq _ hsmall
  · have : Nat.ofDigitChars 10 t 0 * 1 ≤ Nat.ofDigitChars 10 t 0 * 10 ^ (8 - d.scale).toNat :=
      Nat.mul_le_mul_left _ (Nat.one_le_pow _ _ (by norm_num))
    rw [if_neg hsmall, if_neg (by omega)]
    rfl

theorem all_zero_iff (t : List Char) :
    (t.map fun c => c.toNat - '0'.toNat).all (· = 0) = true ↔ Nat.ofDigitChars 10 t 0 = 0 := by
  induction t with
  | nil => simp
  | cons c t ih =>
    rw [List.map_cons, List.all_cons, Bool.and_eq_true, ih, Nat.ofDigitChars_cons, mul_zero, zero_add,
      @Nat.ofDigitChars_eq_ofDigitChars_zero t (c.toNat - '0'.toNat), decide_eq_true_eq,
      Nat.add_eq_zero_iff, mul_eq_zero, or_iff_right (by positivity)]

/-- What the checks make of a number scanned from a literal. -/
theorem judge_cases (l : Literal) :
    (∃ sat : Nat, Amount l sat ∧
      judge ⟨(l.int ++ l.frac).map fun c => c.toNat - '0'.toNat, l.scale, l.negative⟩ = .ok sat) ∨
    ((∀ sat, ¬ Amount l sat) ∧ ∃ why,
      judge ⟨(l.int ++ l.frac).map fun c => c.toNat - '0'.toNat, l.scale, l.negative⟩ =
        .bad why) := by
  unfold judge
  simp only [all_zero_iff]
  split
  · rename_i hneg
    refine .inr ⟨fun sat hamount => ?_, _, rfl⟩
    rw [(amount_iff.mp hamount).1] at hneg
    cases hneg
  rename_i hneg
  split
  · rename_i hmany
    refine .inr ⟨fun sat hamount => ?_, _, rfl⟩
    have := hamount.decimals
    omega
  rename_i hmany
  split
  · rename_i hzero
    refine .inr ⟨fun sat hamount => ?_, _, rfl⟩
    have : 0 < Nat.ofDigitChars 10 (l.int ++ l.frac) 0 := (amount_iff.mp hamount).2.2.1
    omega
  rename_i hzero
  have hle : l.scale ≤ 8 := not_lt.mp hmany
  have hlarge (hbig : ¬ l.coefficient * 10 ^ (8 - l.scale).toNat ≤ 21000000 * 10 ^ 8) (sat : Nat) :
      ¬ Amount l sat := fun hamount => by
    obtain ⟨-, -, -, rfl, hbounded⟩ := amount_iff.mp hamount
    exact hbig hbounded
  have hsatoshis : DecimalText.satoshis
      ⟨(l.int ++ l.frac).map fun c => c.toNat - '0'.toNat, l.scale, l.negative⟩ =
      if l.coefficient * 10 ^ (8 - l.scale).toNat < 2 ^ 63 then
        some (l.coefficient * 10 ^ (8 - l.scale).toNat) else none :=
    satoshis_eq (t := l.int ++ l.frac) hle rfl
  rw [hsatoshis]
  by_cases hsupply : l.coefficient * 10 ^ (8 - l.scale).toNat ≤ 21000000 * 10 ^ 8
  · rw [if_pos (by omega)]
    refine .inl ⟨_, amount_iff.mpr ⟨by simpa using hneg, hle, Nat.pos_of_ne_zero hzero, rfl,
      hsupply⟩, ?_⟩
    simp only
    exact if_neg (not_lt.mpr hsupply)
  · refine .inr ⟨hlarge hsupply, .tooLarge, ?_⟩
    split
    · rfl
    · rename_i hsome
      split at hsome
      · cases hsome
        exact if_pos (not_le.mp hsupply)
      · cases hsome

/-- iOS accepts exactly the amounts whose exponent it reads to the end. -/
theorem parse_cases (raw : List Char) :
    (∃ l sat, literal (core isWhitespaceOrNewline raw) = some l ∧ ¬ Bails l.pow ∧ Amount l sat ∧
      parse raw = .ok (sat : Nat)) ∨
    ((∀ l sat, literal (core isWhitespaceOrNewline raw) = some l → ¬ Bails l.pow → ¬ Amount l sat) ∧
      ∃ why, parse raw = .bad why) := by
  unfold parse
  generalize core isWhitespaceOrNewline raw = s
  simp only
  obtain ⟨l, hliteral, hbails, hinit⟩ | ⟨hbails, hinit⟩ := init_eq s
  · have hcomma : ¬ s.contains ',' = true := by
      simpa using comma_not_mem hliteral
    rw [if_neg (ne_nil_of_literal hliteral), if_neg hcomma, hinit]
    obtain ⟨sat, hamount, hjudge⟩ | ⟨hno, hjudge⟩ := judge_cases l
    · exact .inl ⟨l, sat, hliteral, hbails, hamount, hjudge⟩
    · refine .inr ⟨fun l' sat hl' _ => ?_, hjudge⟩
      rw [hliteral] at hl'
      cases hl'
      exact hno sat
  · refine .inr ⟨fun l sat hl hnot => absurd (hbails l hl) hnot, ?_⟩
    rw [hinit]
    split
    · exact ⟨_, rfl⟩
    split
    · exact ⟨_, rfl⟩
    · exact ⟨_, rfl⟩

end ios

end pcoin.wallet
