import PCoin.Address.NodeReads

open codec swift decimal
open pcoin.store pcoin.block

namespace pcoin.address

open node

/-- The version bytes that the phone takes for the chain's. -/
def Network.versions (network : Network) : List UInt8 :=
  [network.pubkeyAddressPrefix, network.scriptAddressPrefix]

/-- The text is accepted exactly when it is a valid address, and then pays the script that the node
    pays. -/
def Exact (U : Unicode) (doubleSha256 : Bytes → Hash) (chain : Chain) (raw : List Char) : Prop :=
  let s := strip wallet.ios.isWhitespaceOrNewline raw
  ((∃ a, Address.parse U doubleSha256 chain.network raw = .ok a) ↔ Valid doubleSha256 chain s) ∧
    ∀ a, Address.parse U doubleSha256 chain.network raw = .ok a →
      scriptFor doubleSha256 chain.params (utf8 s) = a.scriptPubKey

/-- The texts that the phone or the node gets wrong: a segwit address with KELVIN SIGN in the place
    of a K, and Base58Check texts that are not segwit addresses as well. Of those, the chain's
    addresses are lost when the phone does not know the version byte, when they look like segwit to
    the phone or when they begin with the prefix, which makes them segwit to the node; and texts with
    the phone's version bytes are no addresses when these are not the chain's. -/
def Misread (doubleSha256 : Bytes → Hash) (chain : Chain) (s : List Char) : Prop :=
  (kelvin ∈ s ∧ ∃ version program, Segwit chain.hrp version program (s.map asK)) ∨
    (¬(∃ version program, Segwit chain.hrp version program s) ∧
      ∃ version hash, Legacy doubleSha256 version hash s ∧
        (version ∈ chain.versions ∧
            (version ∉ chain.network.versions ∨ LooksSegwit chain s ∨ StartsWithHrp chain s) ∨
          version ∉ chain.versions ∧ version ∈ chain.network.versions ∧ ¬LooksSegwit chain s))

/-- A destination that no base58 text has. -/
def ofSegwit : CTxDestination → Prop
  | .pkHash _ | .scriptHash _ => False
  | .witnessUnknown version _ => version ≤ 16
  | _ => True

theorem ofSegwit_decodeSegwit (params : CChainParams) (str : Bytes) :
    ofSegwit (decodeSegwit params str) := by
  rw [decodeSegwit]
  repeat' split
  all_goals first | trivial | exact Nat.le_of_not_gt ‹_›

theorem head_of_ofSegwit {dest : CTxDestination} (h : ofSegwit dest) :
    ∀ b ∈ (getScriptForDestination dest).head?, b ≠ 0x76 ∧ b ≠ 0xa9 := by
  have hop : ∀ n ≤ 16, encodeOP_N n ≠ 0x76 ∧ encodeOP_N n ≠ 0xa9 := by decide
  intro b hb
  cases dest with
  | noDestination => cases hb
  | pkHash => cases h
  | scriptHash => cases h
  | witnessUnknown version program =>
    obtain rfl : encodeOP_N version = b := by simpa [getScriptForDestination] using hb
    exact hop version h
  | payToAnchor =>
    obtain rfl : encodeOP_N 1 = b := by simpa [getScriptForDestination] using hb
    exact hop 1 (by decide)
  | witnessV0KeyHash | witnessV0ScriptHash | witnessV1Taproot =>
    cases hb
    decide

variable {U : Unicode} {doubleSha256 : Bytes → Hash} {chain : Chain} {s : List Char}

theorem map_asK (h : kelvin ∉ s) : s.map asK = s :=
  (List.map_congr_left fun c hc => if_neg (by rintro rfl; exact h hc)).trans (List.map_id s)

theorem not_kelvin_of_ascii (h : ∀ c ∈ s, IsASCII c) : kelvin ∉ s :=
  fun hk => absurd (h kelvin hk) (by decide)

theorem legacy_unique {v w : UInt8} {hash hash' : Bytes} (h : Legacy doubleSha256 v hash s)
    (h' : Legacy doubleSha256 w hash' s) : v = w ∧ hash = hash' := by
  have := ((legacy_iff .simple).mp h).2.symm.trans ((legacy_iff .simple).mp h').2
  simpa using this

theorem legacyKind_isSome (network : Network) (version : UInt8) (hash : Bytes) :
    (∃ kind, legacyKind network version hash = some kind) ↔ version ∈ network.versions := by
  rw [legacyKind, Network.versions, List.mem_pair]
  split
  case isTrue hpub => simp [hpub]
  case isFalse hpub =>
    split
    case isTrue hscript => simp [hscript]
    case isFalse hscript => simp [hpub, hscript]

/-- A text that is a valid segwit address is read exactly. -/
theorem exact_of_segwit {raw : List Char} (hs : strip wallet.ios.isWhitespaceOrNewline raw = s)
    {version : UInt8} {program : Bytes} (h : Segwit chain.hrp version program s) :
    Exact U doubleSha256 chain raw := by
  obtain ⟨hne, hlower, -⟩ := chain.hrp_spec
  have hascii := ((segwit_iff hne hlower).mp h).1
  have hasK := map_asK (not_kelvin_of_ascii hascii)
  have hok := (@parse_ok_iff U doubleSha256 chain raw s hs _).mpr
    (.inl ⟨version, program, ⟨fun c hc => .inl (hascii c hc), hasK.symm ▸ h⟩, rfl⟩)
  rw [Exact, hs]
  refine ⟨⟨fun _ => .inl ⟨version, program, h⟩, fun _ => ⟨_, hok⟩⟩, fun a ha => ?_⟩
  rw [ha, Except.ok.injEq] at hok
  rw [hok, scriptFor_segwit h]

/-- KELVIN SIGN is no part of a valid address. -/
theorem exact_iff_of_kelvin {raw : List Char} (hs : strip wallet.ios.isWhitespaceOrNewline raw = s)
    (hk : kelvin ∈ s) : Exact U doubleSha256 chain raw ↔
      ¬∃ version program, Segwit chain.hrp version program (s.map asK) := by
  have hlegacy : ∀ version hash, ¬Legacy doubleSha256 version hash s := fun _ _ h =>
    not_kelvin_of_ascii (ascii_of_legacy h).1 hk
  have hvalid : ¬Valid doubleSha256 chain s := by
    obtain ⟨hne, hlower, -⟩ := chain.hrp_spec
    rintro (⟨_, _, h⟩ | ⟨_, -, _, h⟩)
    · exact not_kelvin_of_ascii ((segwit_iff hne hlower).mp h).1 hk
    · exact hlegacy _ _ h
  rw [Exact, hs, iff_false_right hvalid]
  constructor
  · rintro ⟨hnone, -⟩ ⟨version, program, h⟩
    refine hnone ⟨_, (parse_ok_iff hs).mpr (.inl ⟨version, program, ⟨fun c hc => ?_, h⟩, rfl⟩)⟩
    obtain ⟨hne, hlower, -⟩ := chain.hrp_spec
    have hc' := ((segwit_iff hne hlower).mp h).1 _ (List.mem_map_of_mem hc)
    by_cases hkelvin : c = kelvin
    · exact .inr hkelvin
    · exact .inl (by simpa [asK, hkelvin] using hc')
  · intro hno
    have hnone : ¬∃ a, Address.parse U doubleSha256 chain.network raw = .ok a := by
      rintro ⟨a, ha⟩
      rcases (parse_ok_iff hs).mp ha with ⟨version, program, ⟨-, h⟩, -⟩ | ⟨-, _, _, _, h, -⟩
      · exact hno ⟨version, program, h⟩
      · exact hlegacy _ _ h
    exact ⟨hnone, fun a ha => absurd ⟨a, ha⟩ hnone⟩

/-- A version byte that is the chain's and the phone's makes the same address for both. -/
theorem scriptPubKey_legacy {version : UInt8} (hchain : version ∈ chain.versions)
    (hnetwork : version ∈ chain.network.versions) {hash : Bytes} {kind : Kind}
    (hkind : legacyKind chain.network version hash = some kind) (text : List Char) :
    Address.scriptPubKey { text, kind, network := chain.network } =
      if version = chain.params.pubkeyAddress then [0x76, 0xa9, 0x14] ++ hash ++ [0x88, 0xac]
      else if version = chain.params.scriptAddress then [0xa9, 0x14] ++ hash ++ [0x87]
      else [] := by
  cases chain with
  | mainnet =>
    rcases List.mem_pair.mp hchain with rfl | rfl
    · obtain rfl : Kind.p2pkh hash = kind := Option.some.inj hkind
      rfl
    · obtain rfl : Kind.p2sh hash = kind := Option.some.inj hkind
      rfl
  | regtest =>
    rcases List.mem_pair.mp hchain with rfl | rfl <;> exact absurd hnetwork (by decide)

/-- A Base58Check text that is no segwit address. -/
theorem exact_iff_of_legacy {raw : List Char} (hs : strip wallet.ios.isWhitespaceOrNewline raw = s)
    {version : UInt8} {hash : Bytes} (h : Legacy doubleSha256 version hash s)
    (hsegwit : ¬∃ version program, Segwit chain.hrp version program s) :
    Exact U doubleSha256 chain raw ↔
      ¬(version ∈ chain.versions ∧
            (version ∉ chain.network.versions ∨ LooksSegwit chain s ∨ StartsWithHrp chain s) ∨
          version ∉ chain.versions ∧ version ∈ chain.network.versions ∧ ¬LooksSegwit chain s) := by
  have hasK := map_asK (not_kelvin_of_ascii (ascii_of_legacy h).1)
  have hok : ∀ a, Address.parse U doubleSha256 chain.network raw = .ok a ↔
      ¬LooksSegwit chain s ∧ ∃ kind, legacyKind chain.network version hash = some kind ∧
        a = { text := s, kind, network := chain.network } := by
    intro a
    rw [parse_ok_iff hs, or_iff_right, IsLegacy]
    · refine and_congr_right fun _ => ⟨?_, ?_⟩
      · rintro ⟨v, hash', kind, h', hkind, ha⟩
        obtain ⟨rfl, rfl⟩ := legacy_unique h h'
        exact ⟨kind, hkind, ha⟩
      · rintro ⟨kind, hkind, ha⟩
        exact ⟨version, hash, kind, h, hkind, ha⟩
    · rintro ⟨v, program, ⟨-, hs'⟩, -⟩
      exact hsegwit ⟨v, program, hasK ▸ hs'⟩
  have haccept : (∃ a, Address.parse U doubleSha256 chain.network raw = .ok a) ↔
      ¬LooksSegwit chain s ∧ version ∈ chain.network.versions := by
    rw [← legacyKind_isSome chain.network version hash]
    simp only [hok]
    constructor
    · rintro ⟨a, hlooks, kind, hkind, -⟩
      exact ⟨hlooks, kind, hkind⟩
    · rintro ⟨hlooks, kind, hkind⟩
      exact ⟨_, hlooks, kind, hkind, rfl⟩
  have hvalid : Valid doubleSha256 chain s ↔ version ∈ chain.versions := by
    rw [Valid, or_iff_right hsegwit]
    refine ⟨?_, fun hv => ⟨version, hv, hash, h⟩⟩
    rintro ⟨v, hv, hash', h'⟩
    rw [(legacy_unique h h').1]
    exact hv
  have hscript : version ∈ chain.versions → version ∈ chain.network.versions →
      ¬LooksSegwit chain s → ((∀ a, Address.parse U doubleSha256 chain.network raw = .ok a →
        scriptFor doubleSha256 chain.params (utf8 s) = a.scriptPubKey) ↔ ¬StartsWithHrp chain s) := by
    intro hchain hnetwork hlooks
    obtain ⟨kind, hkind⟩ := (legacyKind_isSome chain.network version hash).mpr hnetwork
    have hkey := scriptPubKey_legacy hchain hnetwork hkind s
    constructor
    · intro hall hstarts
      have hsame := hall _ ((hok _).mpr ⟨hlooks, kind, hkind, rfl⟩)
      have hascii := (ascii_of_legacy h).1
      rw [scriptFor, decodeDestination, if_pos ((isBech32_iff hascii).mpr hstarts)] at hsame
      have hhead := head_of_ofSegwit (ofSegwit_decodeSegwit chain.params (utf8 s))
      rw [hsame, hkey] at hhead
      rcases List.mem_pair.mp hchain with hv | hv
      · rw [if_pos hv] at hhead
        exact (hhead 0x76 rfl).1 rfl
      · split at hhead
        · exact (hhead 0x76 rfl).1 rfl
        · exact (hhead 0xa9 rfl).2 rfl
    · intro hstarts a ha
      obtain ⟨-, kind', hkind', rfl⟩ := (hok a).mp ha
      rw [hkind, Option.some.injEq] at hkind'
      rw [← hkind', hkey, scriptFor_legacy h hstarts]
  have hnone : ¬(∃ a, Address.parse U doubleSha256 chain.network raw = .ok a) →
      ∀ a, Address.parse U doubleSha256 chain.network raw = .ok a →
        scriptFor doubleSha256 chain.params (utf8 s) = a.scriptPubKey :=
    fun hno a ha => absurd ⟨a, ha⟩ hno
  rw [Exact, hs, hvalid]
  by_cases hchain : version ∈ chain.versions
  case neg =>
    by_cases hreads : ¬LooksSegwit chain s ∧ version ∈ chain.network.versions
    · simp [haccept, hchain, hreads]
    · refine iff_of_true ⟨haccept.trans (iff_of_false hreads hchain),
        hnone fun h => hreads (haccept.mp h)⟩ ?_
      rintro (⟨h, -⟩ | ⟨-, hnetwork, hlooks⟩)
      · exact hchain h
      · exact hreads ⟨hlooks, hnetwork⟩
  case pos =>
    by_cases hnetwork : version ∈ chain.network.versions
    case neg => simp [haccept, hchain, hnetwork]
    case pos =>
      by_cases hlooks : LooksSegwit chain s
      · simp [haccept, hchain, hnetwork, hlooks]
      · rw [hscript hchain hnetwork hlooks]
        simp [haccept, hchain, hnetwork, hlooks]

/-- What the phone reads exactly. -/
theorem exact_iff (U : Unicode) (doubleSha256 : Bytes → Hash) (chain : Chain) (raw : List Char) :
    Exact U doubleSha256 chain raw ↔
      ¬Misread doubleSha256 chain (strip wallet.ios.isWhitespaceOrNewline raw) := by
  generalize hs : strip wallet.ios.isWhitespaceOrNewline raw = s
  obtain ⟨hne, hlower, -⟩ := chain.hrp_spec
  rw [Misread, not_or]
  by_cases hsegwit : ∃ version program, Segwit chain.hrp version program s
  case pos =>
    obtain ⟨version, program, h⟩ := hsegwit
    have hk := not_kelvin_of_ascii ((segwit_iff hne hlower).mp h).1
    exact iff_of_true (exact_of_segwit hs h) ⟨fun hm => hk hm.1, fun hm => hm.1 ⟨version, program, h⟩⟩
  case neg =>
    by_cases hk : kelvin ∈ s
    case pos =>
      have hlegacy : ∀ version hash, ¬Legacy doubleSha256 version hash s := fun _ _ h =>
        not_kelvin_of_ascii (ascii_of_legacy h).1 hk
      rw [exact_iff_of_kelvin hs hk]
      simp [hk, hlegacy]
    case neg =>
      by_cases hlegacy : ∃ version hash, Legacy doubleSha256 version hash s
      case pos =>
        obtain ⟨version, hash, h⟩ := hlegacy
        rw [exact_iff_of_legacy hs h hsegwit]
        refine ⟨fun hm => ⟨fun h => hk h.1, ?_⟩, fun hm hbad => hm.2 ⟨hsegwit, version, hash, h, hbad⟩⟩
        rintro ⟨-, v, hash', h', hbad⟩
        obtain ⟨rfl, rfl⟩ := legacy_unique h h'
        exact hm hbad
      case neg =>
        have hnone : ¬∃ a, Address.parse U doubleSha256 chain.network raw = .ok a := by
          rintro ⟨a, ha⟩
          rcases (parse_ok_iff hs).mp ha with ⟨v, program, ⟨-, h⟩, -⟩ | ⟨-, v, hash, _, h, -⟩
          · exact hsegwit ⟨v, program, map_asK hk ▸ h⟩
          · exact hlegacy ⟨v, hash, h⟩
        have hvalid : ¬Valid doubleSha256 chain s := by
          rintro (h | ⟨v, -, hash, h⟩)
          · exact hsegwit h
          · exact hlegacy ⟨v, hash, h⟩
        rw [Exact, hs]
        refine iff_of_true ⟨iff_of_false hnone hvalid, fun a ha => absurd ⟨a, ha⟩ hnone⟩
          ⟨fun hm => hk hm.1, ?_⟩
        rintro ⟨-, v, hash, h, -⟩
        exact hlegacy ⟨v, hash, h⟩

/-- The text that a decoded address is the decoding of. -/
def Bech32.textOf (d : Bech32.Decoded) : Option (List Char) :=
  (Bech32.convertBits d.program 8 5 true).map fun groups =>
    Bech32.encode d.hrp (d.witnessVersion.toNat :: nats groups) d.variant

theorem Bech32.textOf_eq (d : Bech32.Decoded) : ∃ groups, Padded 8 5 (nats d.program) groups ∧
    Bech32.textOf d = some (Bech32.encode d.hrp (d.witnessVersion.toNat :: groups) d.variant) := by
  obtain ⟨groups, hgroups, hpadded⟩ := Bech32.convertBits_pad d.program
  refine ⟨groups, hpadded, ?_⟩
  rw [Bech32.textOf, hgroups, Option.map_some,
    nats_bytes fun v hv => (hpadded.narrow_lt v hv).trans (by decide)]

theorem Bech32.textOf_of_decode {d : Bech32.Decoded} (h : Bech32.decode U s = some d) :
    Bech32.textOf d = some (U.lowercased s) := by
  have hd := (Bech32.decode_eq_some_iff U).mp h
  obtain ⟨groups, hpadded, htext⟩ := hd.text
  obtain ⟨groups', hpadded', htextOf⟩ := Bech32.textOf_eq d
  rw [htextOf, hpadded'.narrow_unique (by decide) hpadded, ← htext, U.lowercased_eq_map_fold hd.simple]

theorem Bech32.decode_of_textOf {d : Bech32.Decoded} (hne : d.hrp ≠ []) (hhrp : LowerCase d.hrp)
    (hlegal : Bech32.Legal d.witnessVersion.toNat d.program d.variant) (h : Bech32.textOf d = some s)
    (hshort : s.length ≤ 90) : Bech32.decode U s = some d := by
  obtain ⟨groups, hpadded, htextOf⟩ := Bech32.textOf_eq d
  rw [h, Option.some.injEq] at htextOf
  have hversion := hlegal.version_le
  have hlower := lowerCase_encode hhrp
    (List.forall_mem_cons.mpr ⟨by omega, hpadded.narrow_lt⟩ : ∀ v ∈ d.witnessVersion.toNat :: groups, v < 32)
    d.variant
  rw [← htextOf] at hlower
  have hascii : ∀ c ∈ s, IsASCII c := fun c hc => (hlower c hc).1.ascii
  have hfold : s.map Unicode.fold = s := (List.map_congr_left fun c hc =>
    fold_eq_self (hascii c hc) (hlower c hc).2).trans (List.map_id s)
  refine (Bech32.decode_eq_some_iff U).mpr ⟨fun c hc => .inl (hascii c hc), hshort,
    .inl fun c hc => ⟨(hlower c hc).2, ?_⟩, ⟨hne, fun c hc => (hhrp c hc).1⟩, hlegal, groups, hpadded,
    hfold.trans htextOf⟩
  rintro rfl
  exact not_kelvin_of_ascii hascii hc

/-- The phone's address codec: what it reads exactly, and that every one of its formats is decoded by
    the inverse of what encodes it, but for the empty payload under a checksum. -/
theorem codec_exact_iff (U : Unicode) (doubleSha256 : Bytes → Hash) :
    (∀ chain raw, Exact U doubleSha256 chain raw ↔
      ¬Misread doubleSha256 chain (strip wallet.ios.isWhitespaceOrNewline raw)) ∧
    (∀ text b, Base58.decode U text = some b ↔ text = Base58.encode b) ∧
    (∀ text payload, Base58.decodeCheck U doubleSha256 text = some payload ↔
      payload ≠ [] ∧ text = Base58.encodeCheck doubleSha256 payload) ∧
    (∀ s d, Bech32.decode U s = some d → Bech32.textOf d = some (U.lowercased s)) ∧
    ∀ s d, d.hrp ≠ [] → LowerCase d.hrp →
      Bech32.Legal d.witnessVersion.toNat d.program d.variant → Bech32.textOf d = some s →
      s.length ≤ 90 → Bech32.decode U s = some d := by
  refine ⟨exact_iff U doubleSha256, fun _ _ => Base58.decode_eq_some_iff U,
    fun _ _ => Base58.decodeCheck_eq_some_iff U doubleSha256, fun _ _ => Bech32.textOf_of_decode, ?_⟩
  intro s d hne hhrp hlegal htext hshort
  exact Bech32.decode_of_textOf hne hhrp hlegal htext hshort

theorem length_known : [117, 134, 150, 150, 155, 177, 47, 154, 51, 190, 212, 67, 192, 105, 245, 21, 46,
    218, 77, 114, 84, 140, 169, 64, 42, 6, 71, 169, 182, 53, 40, (79 : UInt8)].length = 32 := rfl

theorem length_zeros : (List.replicate 32 (0 : UInt8)).length = 32 := List.length_replicate

/-- The double hash of one payload. -/
def knownHash (payload : Bytes) : Hash :=
  if payload = [55, 37, 150, 18, 131, 99, 4, 142, 77, 204, 111, 135, 46, 127, 173, 117, 202, 158, 124,
      158, 192] then
    ⟨[117, 134, 150, 150, 155, 177, 47, 154, 51, 190, 212, 67, 192, 105, 245, 21, 46, 218, 77, 114, 84,
      140, 169, 64, 42, 6, 71, 169, 182, 53, 40, 79], length_known⟩
  else ⟨List.replicate 32 0, length_zeros⟩

/-- A P2PKH address of the main chain whose only `1` stands after `PC` is refused. -/
theorem legacy_address_refused :
    ¬Exact .simple knownHash .mainnet "PC1uwH6KA7rPVW6nEk6FYeZuCyiWUjrBrm".toList := by
  have hlegacy : Legacy knownHash 55 [37, 150, 18, 131, 99, 4, 142, 77, 204, 111, 135, 46, 127, 173,
      117, 202, 158, 124, 158, 192] "PC1uwH6KA7rPVW6nEk6FYeZuCyiWUjrBrm".toList :=
    (legacy_iff .simple).mpr (by decide +kernel)
  have hstrip : strip wallet.ios.isWhitespaceOrNewline "PC1uwH6KA7rPVW6nEk6FYeZuCyiWUjrBrm".toList =
      "PC1uwH6KA7rPVW6nEk6FYeZuCyiWUjrBrm".toList := by decide +kernel
  have hrefused : Address.parse .simple knownHash .mainnet
      "PC1uwH6KA7rPVW6nEk6FYeZuCyiWUjrBrm".toList = .error .badChecksum := by decide +kernel
  intro h
  obtain ⟨a, ha⟩ := h.1.mpr (.inr ⟨55, by decide, _, hstrip ▸ hlegacy⟩)
  have := ha.symm.trans hrefused
  cases this

end pcoin.address
