import PCoin.Address.Node

open codec swift decimal
open pcoin.store pcoin.block

namespace pcoin.address

inductive Chain where
  | mainnet
  | regtest
  deriving DecidableEq

namespace Chain

def network : Chain → Network
  | .mainnet => .mainnet
  | .regtest => .regtest

def params : Chain → node.CChainParams
  | .mainnet => .main
  | .regtest => .regTest

def hrp : Chain → List Char
  | .mainnet => "pc".toList
  | .regtest => "pcrt".toList

/-- The version bytes of the chain's P2PKH and P2SH addresses. -/
def versions (chain : Chain) : List UInt8 := [chain.params.pubkeyAddress, chain.params.scriptAddress]

end Chain

/-- The text of a witness version and program: the prefix, a `1`, and the symbols of the version, of
    the program in five-bit groups and of a checksum that comes out right. -/
structure SegwitText (hrp : List Char) (version : UInt8) (program : Bytes) (t : List Char) : Prop where
  short : t.length ≤ 90
  text : ∃ variant groups checksum, Bech32.Legal version.toNat program variant ∧
    Padded 8 5 (nats program) groups ∧ checksum.length = 6 ∧ (∀ v ∈ checksum, v < 32) ∧
    Bech32.polymod (Bech32.hrpExpand hrp ++ (version.toNat :: groups ++ checksum)) =
      Bech32.constant variant ∧
    t = hrp ++ '1' :: (version.toNat :: groups ++ checksum).map Bech32.symbol

/-- The same in one case throughout. -/
def Segwit (hrp : List Char) (version : UInt8) (program : Bytes) (s : List Char) : Prop :=
  ∃ t, SegwitText hrp version program t ∧ (s = t ∨ s = t.map Char.toUpper)

/-- A `1` for every leading zero byte, and then the number that the bytes write. -/
def base58Text (b : Bytes) : List Char :=
  List.replicate (b.takeWhile (· = 0)).length '1' ++
    (Nat.digits 58 (number 256 (nats b))).reverse.map Base58.digit

/-- The Base58Check text of a version byte and twenty bytes. -/
def Legacy (doubleSha256 : Bytes → Hash) (version : UInt8) (hash : Bytes) (s : List Char) : Prop :=
  hash.length = 20 ∧
    s = base58Text (version :: hash ++ (doubleSha256 (version :: hash)).val.take 4)

/-- A valid PCoin address of the chain. -/
def Valid (doubleSha256 : Bytes → Hash) (chain : Chain) (s : List Char) : Prop :=
  (∃ version program, Segwit chain.hrp version program s) ∨
    ∃ version ∈ chain.versions, ∃ hash, Legacy doubleSha256 version hash s

theorem base58Text_eq_encode (b : Bytes) : base58Text b = Base58.encode b := by
  rw [base58Text, Base58.encode]
  split
  case isTrue h => simp [List.isEmpty_iff.mp h, nats]
  case isFalse => rw [rebase_eq_digits (by decide) (by decide)]

theorem legacy_iff (U : Unicode) {doubleSha256 : Bytes → Hash} {version : UInt8} {hash : Bytes}
    {s : List Char} : Legacy doubleSha256 version hash s ↔
      hash.length = 20 ∧ Base58.decodeCheck U doubleSha256 s = some (version :: hash) := by
  rw [Legacy, base58Text_eq_encode, Base58.decodeCheck_eq_some_iff]
  simp [Base58.encodeCheck]

/-- The checksum of a text is the one that is created for it. -/
theorem segwitText_iff {hrp : List Char} (hhrp : ∀ c ∈ hrp, Bech32.Printable c) {version : UInt8}
    {program : Bytes} {t : List Char} : SegwitText hrp version program t ↔
      t.length ≤ 90 ∧ ∃ variant groups, Bech32.Legal version.toNat program variant ∧
        Padded 8 5 (nats program) groups ∧ t = Bech32.encode hrp (version.toNat :: groups) variant := by
  constructor
  · rintro ⟨hshort, variant, groups, checksum, hlegal, hpadded, hlen, hlt, hchk, rfl⟩
    have hversion := hlegal.version_le
    have hdata : ∀ v ∈ version.toNat :: groups, v < 32 :=
      List.forall_mem_cons.mpr ⟨by omega, hpadded.narrow_lt⟩
    have hcheck := (Bech32.polymod_eq_constant_iff hhrp hdata hlen hlt variant).mp hchk
    refine ⟨hshort, variant, groups, hlegal, hpadded, ?_⟩
    rw [Bech32.encode, ← hcheck, List.map_append]
  · rintro ⟨hshort, variant, groups, hlegal, hpadded, rfl⟩
    have hversion := hlegal.version_le
    have hdata : ∀ v ∈ version.toNat :: groups, v < 32 :=
      List.forall_mem_cons.mpr ⟨by omega, hpadded.narrow_lt⟩
    refine ⟨hshort, variant, groups, _, hlegal, hpadded, Bech32.length_createChecksum _ _ _,
      Bech32.createChecksum_lt _ _ _, ?_, by rw [Bech32.encode, List.map_append]⟩
    exact (Bech32.polymod_eq_constant_iff hhrp hdata (Bech32.length_createChecksum _ _ _)
      (Bech32.createChecksum_lt _ _ _) variant).mpr rfl

/-- A prefix as the chains have them: printable, and no capital in it. -/
def LowerCase (hrp : List Char) : Prop := ∀ c ∈ hrp, Bech32.Printable c ∧ c.isUpper = false

/-- The letter case of a character, and what folding makes of it. -/
structure LetterCase (c : Char) : Prop where
  lower : c.isUpper = false → Unicode.fold c = c ∧ Unicode.fold c.toUpper = c
  upper : c.isLower = false → (Unicode.fold c).toUpper = c
  toUpper : IsASCII c.toUpper ∧ c.toUpper.isLower = false
  folded : IsASCII (Unicode.fold c) ∧ Unicode.fold c = c.toLower ∧
    (Unicode.fold c).isAlpha = c.isAlpha
  other : (Unicode.fold c = '\r' → c = '\r') ∧ (Unicode.fold c = '1' → c = '1')
  letter : c.isAlpha = true →
    (33 ≤ c.toLower.toNat ∧ c.toLower.toNat ≤ 126) ∧ c.toLower.isUpper = false

theorem letterCase {c : Char} (hc : IsASCII c) : LetterCase c := by
  obtain ⟨hlower, hupper, htoUpper, hfolded, hother, hletter⟩ := @ascii_forall (fun c =>
    (c.isUpper = false → Unicode.fold c = c ∧ Unicode.fold c.toUpper = c) ∧
    (c.isLower = false → (Unicode.fold c).toUpper = c) ∧
    (IsASCII c.toUpper ∧ c.toUpper.isLower = false) ∧
    (IsASCII (Unicode.fold c) ∧ Unicode.fold c = c.toLower ∧ (Unicode.fold c).isAlpha = c.isAlpha) ∧
    ((Unicode.fold c = '\r' → c = '\r') ∧ (Unicode.fold c = '1' → c = '1')) ∧
    (c.isAlpha = true → (33 ≤ c.toLower.toNat ∧ c.toLower.toNat ≤ 126) ∧ c.toLower.isUpper = false))
    (by decide +kernel) c hc
  exact ⟨hlower, hupper, htoUpper, hfolded, hother, hletter⟩

theorem fold_eq_self {c : Char} (hc : IsASCII c) (h : c.isUpper = false) : Unicode.fold c = c :=
  ((letterCase hc).lower h).1

theorem fold_toUpper {c : Char} (hc : IsASCII c) (h : c.isUpper = false) : Unicode.fold c.toUpper = c :=
  ((letterCase hc).lower h).2

theorem isASCII_toLower {c : Char} (hc : IsASCII c) : IsASCII c.toLower := by
  rw [← (letterCase hc).folded.2.1]
  exact (letterCase hc).folded.1

theorem toLower_eq_self {c : Char} (hc : IsASCII c) (h : c.isUpper = false) : c.toLower = c := by
  rw [← (letterCase hc).folded.2.1, fold_eq_self hc h]

theorem toLower_toUpper {c : Char} (hc : IsASCII c) (h : c.isUpper = false) : c.toUpper.toLower = c := by
  rw [← (letterCase (letterCase hc).toUpper.1).folded.2.1, fold_toUpper hc h]

theorem lowerCase_encode {hrp : List Char} (hhrp : LowerCase hrp) {data : List Nat}
    (hdata : ∀ v ∈ data, v < 32) (variant : Bech32.Variant) :
    LowerCase (Bech32.encode hrp data variant) := by
  intro c hc
  refine ⟨Bech32.printable_encode (fun d hd => (hhrp d hd).1) hdata variant c hc, ?_⟩
  rw [Bech32.encode, List.mem_append, List.mem_cons, List.mem_append, List.mem_map, List.mem_map] at hc
  rcases hc with hc | rfl | ⟨v, hv, rfl⟩ | ⟨v, hv, rfl⟩
  · exact (hhrp c hc).2
  · decide
  · exact (Bech32.symbol_spec v (hdata v hv)).2.2
  · exact (Bech32.symbol_spec v (Bech32.createChecksum_lt _ _ _ v hv)).2.2

/-- The valid segwit addresses are the ASCII texts that are decoded. -/
theorem segwit_iff {hrp : List Char} (hne : hrp ≠ []) (hhrp : LowerCase hrp) {version : UInt8}
    {program : Bytes} {s : List Char} : Segwit hrp version program s ↔
      (∀ c ∈ s, IsASCII c) ∧ ∃ variant, Bech32.Decodes s ⟨hrp, version, program, variant⟩ := by
  have hprint : ∀ c ∈ hrp, Bech32.Printable c := fun c hc => (hhrp c hc).1
  constructor
  · rintro ⟨t, ht, hs⟩
    obtain ⟨hshort, variant, groups, hlegal, hpadded, htext⟩ := (segwitText_iff hprint).mp ht
    have hversion := hlegal.version_le
    have hdata : ∀ v ∈ version.toNat :: groups, v < 32 :=
      List.forall_mem_cons.mpr ⟨by omega, hpadded.narrow_lt⟩
    have hlower := lowerCase_encode hhrp hdata variant
    rw [← htext] at hlower
    rcases hs with rfl | rfl
    · have hfold : s.map Unicode.fold = s := (List.map_congr_left fun c hc =>
        fold_eq_self (hlower c hc).1.ascii (hlower c hc).2).trans (List.map_id s)
      have hkelvin : kelvin ∉ s := fun h => absurd (hlower _ h).1.ascii (by decide)
      exact ⟨fun c hc => (hlower c hc).1.ascii, variant, fun c hc => .inl (hlower c hc).1.ascii, hshort,
        .inl fun c hc => ⟨(hlower c hc).2, fun h => hkelvin (h ▸ hc)⟩, ⟨hne, hprint⟩, hlegal, groups,
        hpadded, hfold.trans htext⟩
    · have hup : ∀ c ∈ t.map Char.toUpper, IsASCII c ∧ c.isLower = false := by
        intro c hc
        obtain ⟨d, hd, rfl⟩ := List.mem_map.mp hc
        exact (letterCase (hlower d hd).1.ascii).toUpper
      have hfold : (t.map Char.toUpper).map Unicode.fold = t := by
        rw [List.map_map]
        exact (List.map_congr_left fun c hc =>
          fold_toUpper (hlower c hc).1.ascii (hlower c hc).2).trans (List.map_id t)
      exact ⟨fun c hc => (hup c hc).1, variant, fun c hc => .inl (hup c hc).1, by simpa using hshort,
        .inr fun c hc => (hup c hc).2, ⟨hne, hprint⟩, hlegal, groups, hpadded, hfold.trans htext⟩
  · rintro ⟨hascii, variant, hd⟩
    obtain ⟨groups, hpadded, htext⟩ := hd.text
    refine ⟨s.map Unicode.fold, (segwitText_iff hprint).mpr
      ⟨by simpa using hd.short, variant, groups, hd.legal, hpadded, htext⟩, ?_⟩
    rcases hd.oneCase with hlow | hup
    · left
      exact ((List.map_congr_left fun c hc =>
        fold_eq_self (hascii c hc) (hlow c hc).1).trans (List.map_id s)).symm
    · right
      rw [List.map_map]
      exact ((List.map_congr_left fun c hc =>
        (letterCase (hascii c hc)).upper (hup c hc)).trans (List.map_id s)).symm

/-- KELVIN SIGN written as the K that it looks like. -/
def asK (c : Char) : Char := if c = kelvin then 'K' else c

theorem decodes_iff_asK {s : List Char} {d : Bech32.Decoded} : Bech32.Decodes s d ↔
    (∀ c ∈ s, IsASCII c ∨ c = kelvin) ∧ Bech32.Decodes (s.map asK) d := by
  have hfold : (s.map asK).map Unicode.fold = s.map Unicode.fold := by
    rw [List.map_map]
    refine List.map_congr_left fun c _ => ?_
    by_cases hc : c = kelvin
    · subst hc
      decide
    · simp [asK, hc]
  have hupper : ∀ c, ((asK c).isUpper = false ∧ asK c ≠ kelvin) ↔ (c.isUpper = false ∧ c ≠ kelvin) := by
    intro c
    by_cases hc : c = kelvin
    · subst hc
      decide
    · simp [asK, hc]
  have hlower : ∀ c, (asK c).isLower = c.isLower := by
    intro c
    by_cases hc : c = kelvin
    · subst hc
      decide
    · simp [asK, hc]
  have hcase : ((∀ c ∈ s.map asK, c.isUpper = false ∧ c ≠ kelvin) ∨ ∀ c ∈ s.map asK, c.isLower = false) ↔
      ((∀ c ∈ s, c.isUpper = false ∧ c ≠ kelvin) ∨ ∀ c ∈ s, c.isLower = false) := by
    simp only [List.forall_mem_map, hupper, hlower]
  constructor
  · intro h
    refine ⟨h.simple, ?_, by simpa using h.short, hcase.mpr h.oneCase, h.hrp, h.legal, hfold ▸ h.text⟩
    intro c hc
    obtain ⟨d, hd, rfl⟩ := List.mem_map.mp hc
    by_cases hk : d = kelvin
    · subst hk
      exact .inl (by decide)
    · simpa [asK, hk] using h.simple d hd
  · rintro ⟨hsimple, h⟩
    exact ⟨hsimple, by simpa using h.short, hcase.mp h.oneCase, h.hrp, h.legal, hfold ▸ h.text⟩

end pcoin.address
