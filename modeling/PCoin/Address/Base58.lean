import PCoin.Codec.Radix
import PCoin.Pool.Block
import PCoin.Swift.Text

open codec swift
open pcoin.store pcoin.block

namespace pcoin.address

/-- The bytes as numbers. -/
def nats (b : Bytes) : List Nat := b.map UInt8.toNat

/-- Numbers below 256 as bytes. -/
def bytes (l : List Nat) : Bytes := l.map UInt8.ofNat

theorem bytes_nats (b : Bytes) : bytes (nats b) = b := by
  rw [bytes, nats, List.map_map]
  exact List.map_id'' (fun x => UInt8.ofNat_toNat) b

theorem nats_bytes {l : List Nat} (h : ∀ d ∈ l, d < 256) : nats (bytes l) = l := by
  rw [nats, bytes, List.map_map]
  refine (List.map_congr_left fun d hd => ?_).trans (List.map_id l)
  simpa using h d hd

theorem nats_lt (b : Bytes) : ∀ d ∈ nats b, d < 256 := by
  intro d hd
  obtain ⟨x, -, rfl⟩ := List.mem_map.mp hd
  exact x.toNat_lt

theorem nats_injective : Function.Injective nats :=
  List.map_injective_iff.mpr fun _ _ h => UInt8.toNat_inj.mp h

namespace Base58

def alphabet : List Char := "123456789ABCDEFGHJKLMNPQRSTUVWXYZabcdefghijkmnopqrstuvwxyz".toList

/-- The place in the alphabet of the character with this code, where `decodeMap` does not hold -1. -/
def decodeMap (a : Nat) : Option Nat := alphabet.findIdx? fun c => c.toNat = a

def digit (d : Nat) : Char := alphabet.getD d '1'

def encode (input : Bytes) : List Char :=
  if input.isEmpty then []
  else
    let leadingZeros := (input.takeWhile (· = 0)).length
    let digits := rebase 58 256 (nats input)
    List.replicate leadingZeros '1' ++ digits.reverse.map digit

/-- The value of one character. -/
def value (ch : Character) : Option Nat := do
  let a ← asciiValue ch
  if a < 128 then decodeMap a else none

def decode (U : Unicode) (text : List Char) : Option Bytes :=
  if text.isEmpty then some []
  else do
    let chars := U.characters text
    let leadingOnes := (chars.takeWhile (· = ['1'])).length
    let values ← chars.mapM value
    return List.replicate leadingOnes 0 ++ bytes (rebase 256 58 values).reverse

def encodeCheck (doubleSha256 : Bytes → Hash) (payload : Bytes) : List Char :=
  let checksum := (doubleSha256 payload).val.take 4
  encode (payload ++ checksum)

def decodeCheck (U : Unicode) (doubleSha256 : Bytes → Hash) (text : List Char) : Option Bytes := do
  let raw ← decode U text
  if 4 < raw.length then
    let payload := raw.take (raw.length - 4)
    let given := raw.drop (raw.length - 4)
    let want := (doubleSha256 payload).val.take 4
    if given = want then some payload else none
  else none

/-- The alphabet, digit by digit. -/
theorem digit_spec : ∀ d < 58, decodeMap (digit d).toNat = some d ∧
    (IsASCII (digit d) ∧ digit d ≠ '\r') ∧ (digit d).toNat ≠ 10 ∧ (digit d = '1' ↔ d = 0) := by
  decide +kernel

theorem decodeMap_digit {d : Nat} (h : d < 58) : decodeMap (digit d).toNat = some d := (digit_spec d h).1

theorem digit_of_decodeMap : ∀ a < 128, ∀ d ∈ decodeMap a, d < 58 ∧ (digit d).toNat = a := by
  decide +kernel

theorem ascii_digit (d : Nat) (h : d < 58) : IsASCII (digit d) ∧ digit d ≠ '\r' := (digit_spec d h).2.1

theorem value_digit {d : Nat} (h : d < 58) : value [digit d] = some d := by
  have hascii := (ascii_digit d h).1
  simp [value, asciiValue, hascii, decodeMap_digit h]
  exact hascii

/-- The characters of the alphabet and no others have a value. -/
theorem value_eq_some_iff (ch : Character) (d : Nat) :
    value ch = some d ↔ d < 58 ∧ ch = [digit d] := by
  refine ⟨fun h => ?_, fun ⟨hd, hch⟩ => hch ▸ value_digit hd⟩
  obtain ⟨a, ha, hd⟩ := Option.bind_eq_some_iff.mp h
  split at hd
  case isFalse => cases hd
  case isTrue hlt =>
    obtain ⟨hd58, hdigit⟩ := digit_of_decodeMap a hlt d hd
    obtain ⟨c, -, rfl, hc⟩ | ⟨rfl, rfl⟩ := asciiValue_eq_some ha
    · exact ⟨hd58, by rw [Char.toNat_inj.mp (hc.trans hdigit.symm)]⟩
    · exact absurd hdigit (digit_spec d hd58).2.2.1

theorem digit_eq_one_iff (d : Nat) (h : d < 58) : digit d = '1' ↔ d = 0 := (digit_spec d h).2.2.2

theorem encode_eq (input : Bytes) : encode input = (transcode 58 256 (nats input)).map digit := by
  have hzeros : ((nats input).takeWhile (· = 0)).length = (input.takeWhile (· = 0)).length := by
    have hbyte : (fun d : Nat => decide (d = 0)) ∘ UInt8.toNat = fun x => decide (x = 0) := by
      funext x
      simp [← UInt8.toNat_inj]
    rw [nats, List.takeWhile_map, List.length_map, hbyte]
  have hdigit : digit 0 = '1' := (digit_eq_one_iff 0 (by decide)).mpr rfl
  rw [encode, transcode, hzeros, List.map_append, List.map_replicate, hdigit]
  split
  case isTrue h => simp [List.isEmpty_iff.mp h, nats, rebase]
  case isFalse => rfl

/-- A text of the alphabet is the digits that it spells. -/
theorem decode_map_digit (U : Unicode) {values : List Nat} (h : ∀ d ∈ values, d < 58) :
    decode U (values.map digit) = some (bytes (transcode 256 58 values)) := by
  have hchars : U.characters (values.map digit) = values.map fun d => [digit d] := by
    rw [U.characters_simple, List.map_map]
    · rfl
    · intro c hc
      obtain ⟨d, hd, rfl⟩ := List.mem_map.mp hc
      exact .inl (ascii_digit d (h d hd)).1
    · intro hc
      obtain ⟨d, hd, hcr⟩ := List.mem_map.mp hc
      exact (ascii_digit d (h d hd)).2 hcr
  have hvalues : (values.map fun d => [digit d]).mapM value = some values :=
    (mapM_value_eq_some_iff value_eq_some_iff).mpr ⟨h, rfl⟩
  have hones : ((values.map fun d => [digit d]).takeWhile (· = ['1'])).length =
      (values.takeWhile (· = 0)).length := by
    clear hchars hvalues
    induction values with
    | nil => rfl
    | cons d values ih =>
      have hd := digit_eq_one_iff d (h d (by simp))
      simp only [List.map_cons, List.takeWhile_cons, List.cons.injEq, and_true, hd]
      split
      · rw [List.length_cons, List.length_cons, ih fun e he => h e (by simp [he])]
      · rfl
  rw [decode]
  split
  case isTrue hempty =>
    obtain rfl : values = [] := by simpa using hempty
    rfl
  case isFalse =>
    simp only [hchars, hvalues, hones, Option.bind_eq_bind, Option.bind_some, Option.pure_def,
      transcode, bytes, List.map_append, List.map_replicate]
    rfl

/-- Decoding is the inverse of encoding, on bytes and on texts, however many leading zeros. -/
theorem decode_eq_some_iff (U : Unicode) {text : List Char} {b : Bytes} :
    decode U text = some b ↔ text = encode b := by
  constructor
  · intro h
    obtain ⟨values, hlt, rfl⟩ : ∃ values : List Nat, (∀ d ∈ values, d < 58) ∧ text = values.map digit := by
      rw [decode] at h
      split at h
      case isTrue hempty => exact ⟨[], by simp, by simpa using hempty⟩
      case isFalse =>
        obtain ⟨values, hvalues, -⟩ := Option.bind_eq_some_iff.mp h
        obtain ⟨hlt, hchars⟩ := (mapM_value_eq_some_iff value_eq_some_iff).mp hvalues
        refine ⟨values, hlt, ?_⟩
        have hflat : ∀ l : List Nat, (l.map fun d => [digit d]).flatten = l.map digit := by
          intro l
          induction l <;> simp_all
        rw [← U.characters_flatten text, hchars, hflat]
    rw [decode_map_digit U hlt] at h
    cases h
    rw [encode_eq, nats_bytes (transcode_lt (by decide) (by decide) values),
      transcode_transcode (by decide) (by decide) hlt]
  · rintro rfl
    rw [encode_eq, decode_map_digit U (transcode_lt (by decide) (by decide) _),
      transcode_transcode (by decide) (by decide) (nats_lt b), bytes_nats]

/-- The same with a checksum, but for the empty payload, which is refused. -/
theorem decodeCheck_eq_some_iff (U : Unicode) (doubleSha256 : Bytes → Hash) {text : List Char}
    {payload : Bytes} : decodeCheck U doubleSha256 text = some payload ↔
      payload ≠ [] ∧ text = encodeCheck doubleSha256 payload := by
  have hchecksum : ((doubleSha256 payload).val.take 4).length = 4 := by
    rw [List.length_take, (doubleSha256 payload).property]
    rfl
  constructor
  · intro h
    obtain ⟨raw, hraw, h⟩ := Option.bind_eq_some_iff.mp h
    split at h
    case isFalse => cases h
    case isTrue hlen =>
      dsimp only at h
      split at h
      case isFalse => cases h
      case isTrue hgiven =>
        cases h
        refine ⟨List.ne_nil_of_length_pos (by rw [List.length_take]; omega), ?_⟩
        rw [(decode_eq_some_iff U).mp hraw, encodeCheck, ← hgiven, List.take_append_drop]
  · rintro ⟨hpos, rfl⟩
    have hlen := List.length_pos_of_ne_nil hpos
    have hraw : decode U (encodeCheck doubleSha256 payload) =
        some (payload ++ (doubleSha256 payload).val.take 4) := (decode_eq_some_iff U).mpr rfl
    rw [decodeCheck, hraw]
    simp [hchecksum, hlen]

end Base58

end pcoin.address
