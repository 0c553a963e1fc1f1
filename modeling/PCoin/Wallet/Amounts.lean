import PCoin.Decimal.Literal

open decimal

namespace pcoin.wallet

inductive Reason where
  | empty
  | notANumber
  | tooManyDecimals
  | negative
  | zero
  | dust
  | tooLarge
  deriving DecidableEq, Repr

inductive Parsed where
  | ok (sat : Int)
  | bad (why : Reason)
  deriving DecidableEq, Repr

def SATS_PER_COIN : Nat := 100000000

/-- The general categories Zs, Zl and Zp. -/
def isSeparator (n : Nat) : Bool :=
  n = 0x20 || n = 0xa0 || n = 0x1680 || (0x2000 ≤ n && n ≤ 0x200a) || n = 0x2028 || n = 0x2029 ||
    n = 0x202f || n = 0x205f || n = 0x3000

/-- The coins, a point and eight digits for the rest. -/
def plain (sat : Nat) : List Char :=
  Nat.toDigits 10 (sat / SATS_PER_COIN) ++ '.' :: padded 8 (sat % SATS_PER_COIN)

/-- A text without one leading `+`. -/
def dropPlus : List Char → List Char
  | '+' :: t => t
  | t => t

/-- The text between the blanks, one leading `+` dropped. -/
def core (blank : Char → Bool) (raw : List Char) : List Char :=
  strip blank (dropPlus (strip blank raw))

namespace android

/-- `Char.isWhitespace`: the JVM counts the four information separators as blanks. -/
def isWhitespace (c : Char) : Bool :=
  let n := c.toNat
  (9 ≤ n && n ≤ 13) || (0x1c ≤ n && n ≤ 0x1f) || isSeparator n

/-- `java.math.BigDecimal`: `unscaled * 10 ^ (-scale)`. -/
structure BigDecimal where
  unscaled : Int
  scale : Int

namespace BigDecimal

/-- A Java `int`. -/
def isInt (n : Int) : Prop := -2 ^ 31 ≤ n ∧ n ≤ 2 ^ 31 - 1

instance (n : Int) : Decidable (isInt n) := inferInstanceAs (Decidable (_ ∧ _))

/-- `BigDecimal(String)` on a text of ASCII digits; `none` is `NumberFormatException`. -/
def ofString (t : List Char) : Option BigDecimal :=
  match literal t with
  | some l =>
    if isInt l.exponent ∧ l.exponent ≠ -2 ^ 31 ∧ isInt l.scale then
      some ⟨if l.negative then -l.coefficient else l.coefficient, l.scale⟩
    else none
  | none => none

/-- Whether the number is above a whole one. -/
def isAbove (d : BigDecimal) (n : Nat) : Prop :=
  (n : Int) * 10 ^ d.scale.toNat < d.unscaled * 10 ^ (-d.scale).toNat

instance (d : BigDecimal) (n : Nat) : Decidable (d.isAbove n) :=
  inferInstanceAs (Decidable (_ < _))

/-- `movePointRight(n)`. -/
def movePointRight (d : BigDecimal) (n : Nat) : BigDecimal :=
  if d.scale - n < 0 then ⟨d.unscaled * 10 ^ (n - d.scale).toNat, 0⟩ else ⟨d.unscaled, d.scale - n⟩

/-- `setScale(0, RoundingMode.UNNECESSARY).toLong()`; `none` is `ArithmeticException`. -/
def toLong (d : BigDecimal) : Option Int :=
  if d.scale ≤ 0 then some ((d.unscaled * 10 ^ (-d.scale).toNat).bmod (2 ^ 64))
  else if (10 ^ d.scale.toNat : Int) ∣ d.unscaled then
    some ((d.unscaled / 10 ^ d.scale.toNat).bmod (2 ^ 64))
  else none

end BigDecimal

/-- The checks of `Amounts.parse` on a number; `none` is an exception that leaves it. -/
def judge (dec : BigDecimal) : Option Parsed :=
  if dec.unscaled < 0 then some (.bad .negative)
  else if 8 < dec.scale then some (.bad .tooManyDecimals)
  else if dec.unscaled = 0 then some (.bad .zero)
  else if dec.isAbove 21000000 then some (.bad .tooLarge)
  else (dec.movePointRight 8).toLong.map .ok

/-- `Amounts.parse`. -/
def parse (raw : List Char) : Option Parsed :=
  let s := core isWhitespace raw
  if s = [] then some (.bad .empty)
  else if s.any (· = ',') then some (.bad .notANumber)
  else
    match BigDecimal.ofString s with
    | none => some (.bad .notANumber)
    | some dec => judge dec

/-- `toPlainString`: `%d.%08d`. -/
def toPlainString (sat : Nat) : List Char := plain sat

end android

namespace windows

/-- `Char.IsWhiteSpace`. -/
def isWhiteSpace (c : Char) : Bool :=
  let n := c.toNat
  (9 ≤ n && n ≤ 13) || n = 0x85 || isSeparator n

/-- `System.Decimal`: 96 bits of digits and a scale from 0 to 28. -/
structure Decimal where
  negative : Bool
  mantissa : Nat
  scale : Nat

namespace Decimal

/-- `n / d` to the nearest whole number, a tie to the even one. -/
def divRound (n d : Nat) : Nat :=
  let q := n / d
  if d < 2 * (n % d) ∨ (2 * (n % d) = d ∧ q % 2 = 1) then q + 1 else q

/-- `coefficient * 10 ^ (-scale)` with as many decimals as the 96 bits hold, `most` at most. -/
def fit (coefficient scale : Nat) : Nat → Option (Nat × Nat)
  | 0 =>
    if divRound coefficient (10 ^ scale) < 2 ^ 96 then
      some (divRound coefficient (10 ^ scale), 0)
    else none
  | most + 1 =>
    if divRound coefficient (10 ^ (scale - (most + 1))) < 2 ^ 96 then
      some (divRound coefficient (10 ^ (scale - (most + 1))), most + 1)
    else fit coefficient scale most

/-- `decimal.TryParse` with a leading sign, a decimal point and an exponent allowed. The decimals
written are kept, trailing zeros included; a number past 28 of them, or past 96 bits of digits, is
rounded, and one too large is refused. -/
def TryParse (t : List Char) : Option Decimal :=
  match literal t with
  | none => none
  | some l =>
    if l.scale ≤ 0 then
      if l.coefficient * 10 ^ (-l.scale).toNat < 2 ^ 96 then
        some ⟨l.negative, l.coefficient * 10 ^ (-l.scale).toNat, 0⟩
      else none
    else
      (fit l.coefficient l.scale.toNat (min l.scale.toNat 28)).map fun (mantissa, scale) =>
        ⟨l.negative, mantissa, scale⟩

end Decimal

/-- The checks of `Amounts.Parse` on a number. -/
def judge (dec : Decimal) : Parsed :=
  if dec.negative ∧ dec.mantissa ≠ 0 then .bad .negative
  else if 8 < dec.scale then .bad .tooManyDecimals
  else if dec.mantissa = 0 then .bad .zero
  else if 21000000 * 10 ^ dec.scale < dec.mantissa then .bad .tooLarge
  -- The product fits the 96 bits: it is exact, and the cast drops no digit.
  else .ok (dec.mantissa * SATS_PER_COIN / 10 ^ dec.scale : Nat)

/-- `Amounts.Parse`; `sat` is -1 with every reason but `OK`. -/
def Parse (raw : List Char) : Parsed :=
  let s := strip isWhiteSpace raw
  let s := if s.head? = some '+' then strip isWhiteSpace (s.drop 1) else s
  if s.length = 0 then .bad .empty
  else if s.contains ',' then .bad .notANumber
  else
    match Decimal.TryParse s with
    | none => .bad .notANumber
    | some dec => judge dec

/-- `ToPlainString`: a whole part and one of format `D8`. -/
def ToPlainString (sat : Nat) : List Char := plain sat

end windows

namespace ios

/-- `CharacterSet.whitespacesAndNewlines`. -/
def isWhitespaceOrNewline (c : Char) : Bool :=
  let n := c.toNat
  (9 ≤ n && n ≤ 13) || n = 0x85 || isSeparator n

def maxSupplySat : Nat := 21000000 * 100000000

structure DecimalText where
  digits : List Nat
  scale : Int
  isNegative : Bool

/-- The loops over the digits of a part. -/
def scanDigits : List Char → List Nat × List Char
  | [] => ([], [])
  | c :: t =>
    if c.isDigit then
      let (digits, rest) := scanDigits t
      ((c.toNat - '0'.toNat) :: digits, rest)
    else ([], c :: t)

/-- The fraction, where there is a point. -/
def scanPoint : List Char → List Nat × List Char
  | '.' :: t => scanDigits t
  | t => ([], t)

/-- The loop over the digits of the exponent; `none` is the bail-out. -/
def scanExponent (value expDigits : Nat) : List Char → Option (Nat × Nat × List Char)
  | [] => some (value, expDigits, [])
  | c :: t =>
    if c.isDigit then
      if value > 1000000 then none
      else scanExponent (value * 10 + (c.toNat - '0'.toNat)) (expDigits + 1) t
    else some (value, expDigits, c :: t)

/-- The exponent, where there is one. -/
def scanPower : List Char → Option (Int × List Char)
  | [] => some (0, [])
  | c :: t =>
    if c = 'e' ∨ c = 'E' then
      let (expNegative, t) := sign t
      match scanExponent 0 0 t with
      | none => none
      | some (value, expDigits, t) =>
        if 0 < expDigits then some (if expNegative then -value else value, t) else none
    else some (0, c :: t)

/-- `DecimalText.init`. -/
def DecimalText.init (text : List Char) : Option DecimalText :=
  let (negative, t) := sign text
  let (intPart, t) := scanDigits t
  let (fracPart, t) := scanPoint t
  if intPart = [] ∧ fracPart = [] then none
  else
    match scanPower t with
    | some (exponent, []) => some
        { digits := intPart ++ fracPart, scale := fracPart.length - exponent, isNegative := negative }
    | _ => none

/-- `acc.multipliedReportingOverflow(by: 10)`. -/
def timesTen (acc : Nat) : Option Nat := if acc * 10 < 2 ^ 63 then some (acc * 10) else none

/-- `addingReportingOverflow` of a digit. -/
def plusDigit (acc digit : Nat) : Option Nat :=
  if acc + digit < 2 ^ 63 then some (acc + digit) else none

def shift : Nat → Nat → Option Nat
  | 0, acc => some acc
  | n + 1, acc => (timesTen acc).bind (shift n)

/-- `satoshis`. -/
def DecimalText.satoshis (d : DecimalText) : Option Nat :=
  if 8 - d.scale < 0 then none
  else
    (d.digits.foldlM (fun acc digit => (timesTen acc).bind (plusDigit · digit)) 0).bind
      (shift (8 - d.scale).toNat)

/-- The checks of `Amounts.parse` on a number. -/
def judge (d : DecimalText) : Parsed :=
  if d.isNegative then .bad .negative
  else if 8 < d.scale then .bad .tooManyDecimals
  else if d.digits.all (· = 0) then .bad .zero
  else
    match d.satoshis with
    | none => .bad .tooLarge
    | some sat => if maxSupplySat < sat then .bad .tooLarge else .ok sat

/-- `Amounts.parse`. -/
def parse (raw : List Char) : Parsed :=
  let s := core isWhitespaceOrNewline raw
  if s = [] then .bad .empty
  else if s.contains ',' then .bad .notANumber
  else
    match DecimalText.init s with
    | none => .bad .notANumber
    | some d => judge d

/-- `toPlainString`: the whole part and `%08lld`, with no sign before a balance. -/
def toPlainString (sat : Nat) : List Char := plain sat

end ios

end pcoin.wallet
