import PCoin.Address.Base58
import PCoin.Codec.Checksum
import PCoin.Codec.Regroup

open codec swift
open pcoin.store

namespace pcoin.address

namespace Bech32

def charset : List Char := "qpzry9x8gf2tvdw0s3jn54khce6mua7l".toList

def hrpMainnet : List Char := "pc".toList

def hrpRegtest : List Char := "pcrt".toList

inductive Variant where
  | bech32
  | bech32m
  deriving DecidableEq

structure Decoded where
  hrp : List Char
  witnessVersion : UInt8
  program : Bytes
  variant : Variant

/-- `convertBits`, whose accumulator is a 64-bit word. -/
def convertBits (data : Bytes) (frombits tobits : Nat) (pad : Bool) : Option Bytes :=
  -- A value that is too wide ends the loop, whatever it has written.
  if (nats data).all fun value => value >>> frombits = 0 then
    ((regroup 64 frombits tobits (nats data)).finish frombits tobits pad).map bytes
  else none

/-- `chk` and `gen` of `polymod`. -/
def code : Code where
  width := 5
  degree := 5
  gen := [0x3b6a57b2, 0x26508e6d, 0x1ea119fa, 0x3d4233dd, 0x2a1462b3]
  width_pos := by decide
  gen_lt := by decide

def polymod (values : List Nat) : Nat := code.run 1 values

def hrpExpand (hrp : List Char) : List Nat :=
  hrp.map (fun c => c.toNat >>> 5) ++ [0] ++ hrp.map (fun c => c.toNat &&& 31)

def constant (variant : Variant) : Nat := if variant = .bech32 then 1 else 0x2bc830a3

def createChecksum (hrp : List Char) (data : List Nat) (variant : Variant) : List Nat :=
  let values := hrpExpand hrp ++ data ++ List.replicate 6 0
  let mod := polymod values ^^^ constant variant
  code.symbols mod

def symbol (v : Nat) : Char := charset.getD v 'q'

def encode (hrp : List Char) (data : List Nat) (variant : Variant) : List Char :=
  hrp ++ '1' :: (data.map symbol ++ (createChecksum hrp data variant).map symbol)

/-- The precondition of the source traps; here it is no text. -/
def encodeP2wpkh (hrp : List Char) (pubKeyHash : Bytes) : Option (List Char) := do
  if pubKeyHash.length = 20 then
    let data ← convertBits pubKeyHash 8 5 true
    return encode hrp (0 :: nats data) .bech32
  else none

/-- `charset.firstIndex(of:)`. -/
def value (ch : Character) : Option Nat := (charset.map ([·])).idxOf? ch

def printable (ch : Character) : Bool :=
  match asciiValue ch with
  | none => false
  | some a => 33 ≤ a && a ≤ 126

def variantOf (chk : Nat) : Option Variant :=
  if chk = 1 then some .bech32 else if chk = 0x2bc830a3 then some .bech32m else none

/-- The lower-case text taken apart and its checksum checked: the prefix, the variant, and the data
    without the checksum. -/
def open_ (s : List Character) : Option (List Char × Variant × List Nat) := do
  let (hrp, dataPart) ← splitLast ['1'] s
  if hrp ≠ [] ∧ 6 ≤ dataPart.length ∧ hrp.all printable then
    let values ← dataPart.mapM value
    let chk := polymod (hrpExpand hrp.flatten ++ values)
    let variant ← variantOf chk
    return (hrp.flatten, variant, values.take (values.length - 6))
  else none

/-- The data as a witness version and program. -/
def witness (hrp : List Char) (variant : Variant) : List Nat → Option Decoded
  | [] => none
  | version :: rest => do
    if version ≤ 16 then
      let program ← convertBits (bytes rest) 5 8 false
      let decoded := { hrp, witnessVersion := UInt8.ofNat version, program, variant }
      if program.length < 2 ∨ 40 < program.length then none
      else if version = 0 then
        if variant = .bech32 ∧ (program.length = 20 ∨ program.length = 32) then some decoded else none
      else if variant = .bech32m then some decoded
      else none
    else none

def decode (U : Unicode) (address : List Char) : Option Decoded :=
  let chars := U.characters address
  if 8 ≤ chars.length ∧ chars.length ≤ 90 then
    let hasUpper := chars.any U.isUppercase
    let hasLower := chars.any U.isLowercase
    if hasUpper && hasLower then none
    else do
      let (hrp, variant, payload) ← open_ (U.characters (U.lowercased address))
      witness hrp variant payload
  else none

/-- The characters that a bech32 text is written with. -/
def Printable (c : Char) : Prop := 33 ≤ c.toNat ∧ c.toNat ≤ 126

theorem Printable.ascii {c : Char} (h : Printable c) : IsASCII c := Nat.lt_of_le_of_lt h.2 (by decide)

theorem Printable.ne_cr {c : Char} (h : Printable c) : c ≠ '\r' := by
  rintro rfl
  exact absurd h.1 (by decide)

theorem printable_iff (ch : Character) : printable ch = true ↔ ∃ c, Printable c ∧ ch = [c] := by
  rw [printable]
  constructor
  · intro h
    split at h
    case h_1 => cases h
    case h_2 a ha =>
      rw [Bool.and_eq_true, decide_eq_true_eq, decide_eq_true_eq] at h
      obtain ⟨c, -, rfl, rfl⟩ | ⟨-, rfl⟩ := asciiValue_eq_some ha
      · exact ⟨c, h, rfl⟩
      · exact absurd h.1 (by decide)
  · rintro ⟨c, hc, rfl⟩
    simp only [asciiValue_of_ascii hc.ascii, Bool.and_eq_true, decide_eq_true_eq]
    exact hc

/-- The character set, symbol by symbol. -/
theorem charset_spec : (charset.map ([·])).length = 32 ∧ ∀ v < 32,
    (charset.map ([·]))[v]? = some [symbol v] ∧ value [symbol v] = some v ∧
      Printable (symbol v) ∧ symbol v ≠ '1' ∧ (symbol v).isUpper = false := by
  simp only [Printable]
  decide +kernel

theorem symbol_spec (v : Nat) (h : v < 32) :
    Printable (symbol v) ∧ symbol v ≠ '1' ∧ (symbol v).isUpper = false :=
  (charset_spec.2 v h).2.2

theorem value_symbol (v : Nat) (h : v < 32) : value [symbol v] = some v := (charset_spec.2 v h).2.1

theorem charset_length : (charset.map ([·])).length = 32 := charset_spec.1

theorem getElem_charset (v : Nat) (h : v < 32) : (charset.map ([·]))[v]? = some [symbol v] :=
  (charset_spec.2 v h).1

theorem value_eq_some_iff (ch : Character) (v : Nat) :
    value ch = some v ↔ v < 32 ∧ ch = [symbol v] := by
  constructor
  · intro h
    obtain ⟨hv, hch, -⟩ := List.idxOf?_eq_some_iff.mp h
    have hlt : v < 32 := charset_length ▸ hv
    have hget := getElem_charset v hlt
    rw [List.getElem?_eq_getElem hv, Option.some.injEq] at hget
    exact ⟨hlt, hch.symm.trans hget⟩
  · rintro ⟨hlt, rfl⟩
    exact value_symbol v hlt

theorem hrpExpand_lt {hrp : List Char} (h : ∀ c ∈ hrp, Printable c) : ∀ v ∈ hrpExpand hrp, v < 32 := by
  intro v hv
  rw [hrpExpand, List.append_assoc, List.mem_append, List.mem_append] at hv
  rcases hv with hv | hv | hv
  · obtain ⟨c, hc, rfl⟩ := List.mem_map.mp hv
    have := (h c hc).2
    simp only [Nat.shiftRight_eq_div_pow]
    omega
  · rw [List.mem_singleton.mp hv]
    omega
  · obtain ⟨c, -, rfl⟩ := List.mem_map.mp hv
    exact Nat.lt_of_le_of_lt Nat.and_le_right (by decide)

theorem constant_lt (variant : Variant) : constant variant < 2 ^ 30 := by
  cases variant <;> decide

theorem constant_injective : Function.Injective constant := by
  intro a b
  cases a <;> cases b <;> decide

theorem length_createChecksum (hrp : List Char) (data : List Nat) (variant : Variant) :
    (createChecksum hrp data variant).length = 6 := code.length_symbols _

theorem createChecksum_lt (hrp : List Char) (data : List Nat) (variant : Variant) :
    ∀ v ∈ createChecksum hrp data variant, v < 32 := code.symbols_lt _

/-- The checksum that is created is the only one that is accepted. -/
theorem polymod_eq_constant_iff {hrp : List Char} (hhrp : ∀ c ∈ hrp, Printable c) {data : List Nat}
    (hdata : ∀ v ∈ data, v < 32) {tail : List Nat} (hlen : tail.length = 6)
    (htail : ∀ v ∈ tail, v < 32) (variant : Variant) :
    polymod (hrpExpand hrp ++ (data ++ tail)) = constant variant ↔
      tail = createChecksum hrp data variant := by
  have hlt : code.run 1 (hrpExpand hrp ++ data) < 2 ^ (code.width * (code.degree + 1)) :=
    code.run_lt (by decide) fun v hv => (List.mem_append.mp hv).elim (hrpExpand_lt hhrp v) (hdata v)
  have hrun : ∀ l, polymod (hrpExpand hrp ++ data ++ l) = code.run (code.run 1 (hrpExpand hrp ++ data)) l :=
    fun l => List.foldl_append
  rw [← List.append_assoc, hrun, code.run_append_eq_iff hlt (constant_lt variant) hlen htail,
    createChecksum, hrun]
  rfl

theorem variantOf_eq_some_iff (chk : Nat) (variant : Variant) :
    variantOf chk = some variant ↔ chk = constant variant := by
  constructor
  · intro h
    rw [variantOf] at h
    split at h
    case isTrue hchk => cases h; exact hchk
    case isFalse =>
      split at h
      case isTrue hchk => cases h; exact hchk
      case isFalse => cases h
  · rintro rfl
    cases variant <;> rfl

/-- A text of characters of its own is its characters. -/
theorem characters_of_printable (U : Unicode) {s : List Char} (h : ∀ c ∈ s, Printable c) :
    U.characters s = s.map ([·]) :=
  U.characters_simple s (fun c hc => .inl (h c hc).ascii) fun hcr => (h _ hcr).ne_cr rfl

theorem printable_encode {hrp : List Char} (hhrp : ∀ c ∈ hrp, Printable c) {data : List Nat}
    (hdata : ∀ v ∈ data, v < 32) (variant : Variant) : ∀ c ∈ encode hrp data variant, Printable c := by
  intro c hc
  rw [encode, List.mem_append, List.mem_cons, List.mem_append, List.mem_map, List.mem_map] at hc
  rcases hc with hc | rfl | ⟨v, hv, rfl⟩ | ⟨v, hv, rfl⟩
  · exact hhrp c hc
  · exact ⟨by decide, by decide⟩
  · exact (symbol_spec v (hdata v hv)).1
  · exact (symbol_spec v (createChecksum_lt _ _ _ v hv)).1

theorem map_singleton_flatten {α : Type} (l : List α) : (l.map ([·])).flatten = l := by
  induction l <;> simp_all

/-- Printable characters are one scalar each. -/
theorem eq_map_of_printable {s : List Character} (h : s.all printable = true) :
    s = s.flatten.map ([·]) ∧ ∀ c ∈ s.flatten, Printable c := by
  induction s with
  | nil => simp
  | cons ch s ih =>
    rw [List.all_cons, Bool.and_eq_true] at h
    obtain ⟨c, hc, rfl⟩ := (printable_iff ch).mp h.1
    obtain ⟨hmap, hprint⟩ := ih h.2
    exact ⟨by simpa using hmap, by simpa [hc] using hprint⟩

/-- A lower-case text is taken apart into what it is the encoding of. -/
theorem open_eq_some_iff (U : Unicode) {s hrp : List Char} {variant : Variant} {payload : List Nat} :
    open_ (U.characters s) = some (hrp, variant, payload) ↔
      hrp ≠ [] ∧ (∀ c ∈ hrp, Printable c) ∧ (∀ v ∈ payload, v < 32) ∧
        s = encode hrp payload variant := by
  constructor
  · intro h
    obtain ⟨⟨before, after⟩, hsplit, h⟩ := Option.bind_eq_some_iff.mp h
    dsimp only at h
    split at h
    case isFalse => cases h
    case isTrue hguard =>
      obtain ⟨hne, hlen, hall⟩ := hguard
      obtain ⟨values, hvalues, h⟩ := Option.bind_eq_some_iff.mp h
      obtain ⟨variant', hchk, h⟩ := Option.bind_eq_some_iff.mp h
      cases h
      obtain ⟨hlt, rfl⟩ := (mapM_value_eq_some_iff value_eq_some_iff).mp hvalues
      rw [List.length_map] at hlen
      obtain ⟨hmap, hprint⟩ := eq_map_of_printable hall
      obtain ⟨htext, -⟩ := of_splitLast hsplit
      have hs : s = before.flatten ++ '1' :: values.map symbol := by
        have hflat := congrArg List.flatten htext
        rw [U.characters_flatten, List.flatten_append, List.flatten_cons] at hflat
        rw [hflat, ← map_singleton_flatten (values.map symbol), List.map_map]
        rfl
      have hparts : values = values.take (values.length - 6) ++ values.drop (values.length - 6) :=
        (List.take_append_drop _ _).symm
      have htail : values.drop (values.length - 6) =
          createChecksum before.flatten (values.take (values.length - 6)) variant := by
        rw [variantOf_eq_some_iff, hparts] at hchk
        exact (polymod_eq_constant_iff hprint (fun v hv => hlt v (List.mem_of_mem_take hv))
          (by rw [List.length_drop]; omega) (fun v hv => hlt v (List.mem_of_mem_drop hv)) variant).mp hchk
      refine ⟨?_, hprint, fun v hv => hlt v (List.mem_of_mem_take hv), ?_⟩
      · intro hnil
        rw [hnil] at hmap
        exact hne hmap
      · rw [hs, encode, ← htail, ← List.map_append, ← hparts]
  · rintro ⟨hne, hhrp, hpayload, rfl⟩
    have hall : ∀ v ∈ payload ++ createChecksum hrp payload variant, v < 32 := fun v hv =>
      (List.mem_append.mp hv).elim (hpayload v) (createChecksum_lt _ _ _ v)
    have hchars : U.characters (encode hrp payload variant) = hrp.map ([·]) ++
        ['1'] :: (payload ++ createChecksum hrp payload variant).map fun v => [symbol v] := by
      rw [characters_of_printable U (printable_encode hhrp hpayload variant), encode]
      simp [Function.comp_def]
    have hsep : ['1'] ∉ (payload ++ createChecksum hrp payload variant).map fun v => [symbol v] := by
      intro hmem
      obtain ⟨v, hv, hone⟩ := List.mem_map.mp hmem
      exact (symbol_spec v (hall v hv)).2.1 (List.singleton_injective hone)
    have hvalues := (mapM_value_eq_some_iff value_eq_some_iff).mpr ⟨hall, rfl⟩
    have hprint : (hrp.map ([·])).all printable = true :=
      List.all_eq_true.mpr fun ch hch => by
        obtain ⟨c, hc, rfl⟩ := List.mem_map.mp hch
        exact (printable_iff _).mpr ⟨c, hhrp c hc, rfl⟩
    have hchk := (variantOf_eq_some_iff _ variant).mpr
      ((polymod_eq_constant_iff hhrp hpayload (length_createChecksum hrp payload variant)
        (createChecksum_lt _ _ _) variant).mpr rfl)
    rw [hchars, open_, splitLast_append _ hsep]
    simp only [Option.bind_eq_bind, Option.bind_some, hvalues, map_singleton_flatten, hchk]
    rw [if_pos ⟨by simpa using hne, by simp [length_createChecksum], hprint⟩]
    simp [length_createChecksum]

/-- Bytes in five-bit groups. -/
theorem convertBits_pad (program : Bytes) : ∃ groups,
    convertBits program 8 5 true = some (bytes groups) ∧ Padded 8 5 (nats program) groups := by
  obtain ⟨groups, hfinish, hpadded⟩ :=
    @finish_pad 64 8 5 (by decide) (by decide) _ (nats_lt program)
  refine ⟨groups, ?_, hpadded⟩
  have hall : (nats program).all (fun value => value >>> 8 = 0) = true :=
    List.all_eq_true.mpr fun d hd => by
      simpa [Nat.shiftRight_eq_div_pow, Nat.div_eq_of_lt] using nats_lt program d hd
  rw [convertBits, if_pos hall, hfinish]
  rfl

/-- Five-bit groups as bytes, when they are bytes and nothing more. -/
theorem convertBits_strict {groups : List Nat} (h : ∀ v ∈ groups, v < 32) (program : Bytes) :
    convertBits (bytes groups) 5 8 false = some program ↔ Padded 8 5 (nats program) groups := by
  have hnats : nats (bytes groups) = groups :=
    nats_bytes fun v hv => (h v hv).trans (by decide)
  have hall : groups.all (fun value => value >>> 5 = 0) = true :=
    List.all_eq_true.mpr fun v hv => by
      simpa [Nat.shiftRight_eq_div_pow, Nat.div_eq_of_lt] using h v hv
  rw [convertBits, hnats, if_pos hall, Option.map_eq_some_iff]
  constructor
  · rintro ⟨wide, hwide, rfl⟩
    have hpadded := (finish_strict (by decide) (by decide) (by decide) h wide).mp hwide
    rwa [nats_bytes hpadded.wide_lt]
  · intro hpadded
    exact ⟨nats program, (finish_strict (by decide) (by decide) (by decide) h _).mpr hpadded,
      bytes_nats program⟩

/-- What the standards ask of a witness version and program. -/
structure Legal (version : Nat) (program : Bytes) (variant : Variant) : Prop where
  version_le : version ≤ 16
  length : 2 ≤ program.length ∧ program.length ≤ 40
  zero : version = 0 → variant = .bech32 ∧ (program.length = 20 ∨ program.length = 32)
  later : version ≠ 0 → variant = .bech32m

theorem witness_eq_some_iff {hrp : List Char} {variant : Variant} {payload : List Nat}
    (h : ∀ v ∈ payload, v < 32) (d : Decoded) :
    witness hrp variant payload = some d ↔ d.hrp = hrp ∧ d.variant = variant ∧
      Legal d.witnessVersion.toNat d.program variant ∧
      ∃ groups, payload = d.witnessVersion.toNat :: groups ∧ Padded 8 5 (nats d.program) groups := by
  cases payload with
  | nil => simp [witness]
  | cons version rest =>
    have hrest : ∀ v ∈ rest, v < 32 := fun v hv => h v (by simp [hv])
    have hversion : version < 32 := h version (by simp)
    have hbyte : (UInt8.ofNat version).toNat = version := by simp; omega
    constructor
    · intro hw
      rw [witness] at hw
      split at hw
      case isFalse => cases hw
      case isTrue hle =>
        obtain ⟨program, hprogram, hw⟩ := Option.bind_eq_some_iff.mp hw
        rw [convertBits_strict hrest] at hprogram
        dsimp only at hw
        split at hw
        case isTrue => cases hw
        case isFalse hshort =>
          have hlen : 2 ≤ program.length ∧ program.length ≤ 40 := by omega
          split at hw
          case isTrue hzero =>
            split at hw
            case isTrue hlegal =>
              cases hw
              refine ⟨rfl, rfl, ⟨by rwa [hbyte], hlen, fun _ => hlegal, fun hne => ?_⟩,
                rest, by rw [hbyte], hprogram⟩
              exact absurd hzero (hbyte ▸ hne)
            case isFalse => cases hw
          case isFalse hzero =>
            split at hw
            case isTrue hlegal =>
              cases hw
              refine ⟨rfl, rfl, ⟨by rwa [hbyte], hlen, fun hz => ?_, fun _ => hlegal⟩,
                rest, by rw [hbyte], hprogram⟩
              exact absurd (hbyte ▸ hz) hzero
            case isFalse => cases hw
    · rintro ⟨rfl, rfl, hlegal, groups, hpayload, hpadded⟩
      rw [List.cons.injEq] at hpayload
      obtain ⟨rfl, rfl⟩ := hpayload
      have hlen := hlegal.length
      rw [witness, if_pos hlegal.version_le, (convertBits_strict hrest d.program).mpr hpadded]
      simp only [Option.bind_eq_bind, Option.bind_some, UInt8.ofNat_toNat]
      rw [if_neg (by omega)]
      by_cases hzero : d.witnessVersion.toNat = 0
      · rw [if_pos hzero, if_pos (hlegal.zero hzero)]
      · rw [if_neg hzero, if_pos (hlegal.later hzero)]

/-- A text of one case that in lower case is the encoding of a legal version and program. KELVIN
    SIGN counts as an upper-case K. -/
structure Decodes (s : List Char) (d : Decoded) : Prop where
  simple : ∀ c ∈ s, IsASCII c ∨ c = kelvin
  short : s.length ≤ 90
  oneCase : (∀ c ∈ s, c.isUpper = false ∧ c ≠ kelvin) ∨ ∀ c ∈ s, c.isLower = false
  hrp : d.hrp ≠ [] ∧ ∀ c ∈ d.hrp, Printable c
  legal : Legal d.witnessVersion.toNat d.program d.variant
  text : ∃ groups, Padded 8 5 (nats d.program) groups ∧
    s.map Unicode.fold = encode d.hrp (d.witnessVersion.toNat :: groups) d.variant

theorem any_isUppercase (U : Unicode) {s : List Char} (h : ∀ c ∈ s, IsASCII c ∨ c = kelvin) :
    (s.map ([·])).any U.isUppercase = false ↔ ∀ c ∈ s, c.isUpper = false ∧ c ≠ kelvin := by
  rw [List.any_map, List.any_eq_false]
  refine forall₂_congr fun c hc => ?_
  rcases h c hc with hascii | rfl
  · have hne : c ≠ kelvin := by
      rintro rfl
      exact absurd hascii (by decide)
    simp [U.isUppercase_ascii c hascii, hne]
  · simp [U.isUppercase_kelvin]

theorem any_isLowercase (U : Unicode) {s : List Char} (h : ∀ c ∈ s, IsASCII c ∨ c = kelvin) :
    (s.map ([·])).any U.isLowercase = false ↔ ∀ c ∈ s, c.isLower = false := by
  rw [List.any_map, List.any_eq_false]
  refine forall₂_congr fun c hc => ?_
  rcases h c hc with hascii | rfl
  · simp [U.isLowercase_ascii c hascii]
  · simp only [Function.comp_apply, U.isLowercase_kelvin, Bool.false_eq_true, not_false_eq_true,
      true_iff]
    decide

theorem length_encode (hrp : List Char) (data : List Nat) (variant : Variant) :
    (encode hrp data variant).length = hrp.length + 1 + data.length + 6 := by
  simp [encode, length_createChecksum]
  omega

theorem decode_eq_some_iff (U : Unicode) {s : List Char} {d : Decoded} :
    decode U s = some d ↔ Decodes s d := by
  -- Either way the lower case is an encoding, so the characters are plain.
  have hplain : ∀ {hrp data variant}, (∀ c ∈ hrp, Printable c) → (∀ v ∈ data, v < 32) →
      U.lowercased s = encode hrp data variant →
      (∀ c ∈ s, IsASCII c ∨ c = kelvin) ∧ U.characters s = s.map ([·]) := by
    intro hrp data variant hhrp hdata hlower
    have hprint := printable_encode hhrp hdata variant
    rw [← hlower] at hprint
    have hsimple := U.simple_of_lowercased fun c hc => (hprint c hc).ascii
    refine ⟨hsimple, U.characters_simple s hsimple fun hcr => ?_⟩
    rw [U.lowercased_eq_map_fold hsimple] at hprint
    have hmem : Unicode.fold '\r' ∈ s.map Unicode.fold := List.mem_map_of_mem hcr
    exact (hprint _ hmem).ne_cr (by decide)
  constructor
  · intro h
    rw [decode] at h
    dsimp only at h
    split at h
    case isFalse => cases h
    case isTrue hcount =>
      split at h
      case isTrue => cases h
      case isFalse hcase =>
        obtain ⟨⟨hrp, variant, payload⟩, hopen, hwitness⟩ := Option.bind_eq_some_iff.mp h
        obtain ⟨hne, hhrp, hpayload, htext⟩ := (open_eq_some_iff U).mp hopen
        obtain ⟨rfl, rfl, hlegal, groups, rfl, hpadded⟩ := (witness_eq_some_iff hpayload d).mp hwitness
        obtain ⟨hsimple, hchars⟩ := hplain hhrp hpayload htext
        rw [hchars] at hcount hcase
        rw [U.lowercased_eq_map_fold hsimple] at htext
        refine ⟨hsimple, by simpa using hcount.2, ?_, ⟨hne, hhrp⟩, hlegal, groups, hpadded, htext⟩
        rw [Bool.and_eq_true, not_and_or, Bool.not_eq_true, Bool.not_eq_true,
          any_isUppercase U hsimple, any_isLowercase U hsimple] at hcase
        exact hcase
  · rintro ⟨hsimple, hshort, hcase, hhrp, hlegal, groups, hpadded, htext⟩
    have hversion := hlegal.version_le
    have hpayload : ∀ v ∈ d.witnessVersion.toNat :: groups, v < 32 :=
      List.forall_mem_cons.mpr ⟨by omega, hpadded.narrow_lt⟩
    have hlower := U.lowercased_eq_map_fold hsimple
    obtain ⟨-, hchars⟩ := hplain hhrp.2 hpayload (hlower.trans htext)
    have hlen := congrArg List.length htext
    rw [List.length_map, length_encode, List.length_cons] at hlen
    have hpos := List.length_pos_of_ne_nil hhrp.1
    rw [← any_isUppercase U hsimple, ← any_isLowercase U hsimple] at hcase
    have hopen := (open_eq_some_iff U).mpr ⟨hhrp.1, hhrp.2, hpayload, htext⟩
    have hwitness := (witness_eq_some_iff hpayload d).mpr ⟨rfl, rfl, hlegal, groups, rfl, hpadded⟩
    rw [decode, hchars, hlower, hopen]
    simp only [List.length_map, Option.bind_eq_bind, Option.bind_some, hwitness]
    rw [if_pos (by omega), if_neg]
    rw [Bool.and_eq_true, not_and_or, Bool.not_eq_true, Bool.not_eq_true]
    exact hcase

end Bech32

end pcoin.address
