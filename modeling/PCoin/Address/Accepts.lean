import PCoin.Address.Valid

open codec swift decimal
open pcoin.store pcoin.block

namespace pcoin.address

/-- What comes before the last `1` is taken for the prefix of a segwit address: letters, and either
    a prefix that is known or that of a valid segwit text. -/
def LooksSegwit (chain : Chain) (s : List Char) : Prop :=
  ∃ before after, s = before ++ '1' :: after ∧ '1' ∉ after ∧ before ≠ [] ∧
    (∀ c ∈ before, c.isAlpha) ∧
    (before.map Char.toLower ∈ [chain.hrp, "bc".toList, "tb".toList, "bcrt".toList, "pcrt".toList] ∨
      ∃ version program, Segwit (before.map Char.toLower) version program s)

/-- The kind of address that a version byte makes of twenty bytes. -/
def legacyKind (network : Network) (version : UInt8) (hash : Bytes) : Option Kind :=
  if version = network.pubkeyAddressPrefix then some (.p2pkh hash)
  else if version = network.scriptAddressPrefix then some (.p2sh hash)
  else none

/-- The address that a Base58Check text is. -/
def IsLegacy (doubleSha256 : Bytes → Hash) (network : Network) (s : List Char) (a : Address) : Prop :=
  ∃ version hash kind, Legacy doubleSha256 version hash s ∧
    legacyKind network version hash = some kind ∧ a = { text := s, kind, network }

/-- A text of characters of its own. -/
def Plain (s : List Char) : Prop := (∀ c ∈ s, IsASCII c ∨ c = kelvin) ∧ '\r' ∉ s

theorem Plain.characters {s : List Char} (h : Plain s) (U : Unicode) : U.characters s = s.map ([·]) :=
  U.characters_simple s h.1 h.2

theorem plain_of_decodes {s : List Char} {d : Bech32.Decoded} (h : Bech32.Decodes s d) : Plain s := by
  obtain ⟨groups, hpadded, htext⟩ := h.text
  have hversion := h.legal.version_le
  refine ⟨h.simple, fun hcr => ?_⟩
  have hmem : Unicode.fold '\r' ∈ s.map Unicode.fold := List.mem_map_of_mem hcr
  rw [htext] at hmem
  exact (Bech32.printable_encode h.hrp.2
    (List.forall_mem_cons.mpr ⟨by omega, hpadded.narrow_lt⟩) d.variant _ hmem).ne_cr (by decide)

theorem ascii_encode (b : Bytes) : ∀ c ∈ Base58.encode b, IsASCII c ∧ c ≠ '\r' := by
  rw [Base58.encode_eq]
  intro c hc
  obtain ⟨d, hd, rfl⟩ := List.mem_map.mp hc
  exact Base58.ascii_digit d (transcode_lt (by decide) (by decide) _ d hd)

variable {U : Unicode} {doubleSha256 : Bytes → Hash} {chain : Chain}

theorem ascii_of_legacy {version : UInt8} {hash s} (h : Legacy doubleSha256 version hash s) :
    (∀ c ∈ s, IsASCII c) ∧ Plain s := by
  have hs := ascii_encode (version :: hash ++ (doubleSha256 (version :: hash)).val.take 4)
  rw [← base58Text_eq_encode, ← h.2] at hs
  exact ⟨fun c hc => (hs c hc).1, fun c hc => .inl (hs c hc).1, fun hcr => (hs _ hcr).2 rfl⟩

theorem parseBase58_ok_iff {network : Network} {s : List Char} {a : Address} :
    Address.parseBase58 U doubleSha256 network s = .ok a ↔ IsLegacy doubleSha256 network s a := by
  simp only [IsLegacy, legacy_iff U]
  constructor
  · intro h
    rw [Address.parseBase58] at h
    split at h
    case h_1 => cases h
    case h_2 payload hcheck =>
      split at h
      case h_1 => cases h
      case h_2 version hash =>
        split at h
        case isTrue => cases h
        case isFalse hlen =>
          rw [not_not, List.length_cons] at hlen
          refine ⟨version, hash, ?_⟩
          rw [legacyKind]
          split at h
          case isTrue hpub =>
            cases h
            exact ⟨_, ⟨by omega, hcheck⟩, if_pos hpub, rfl⟩
          case isFalse hpub =>
            split at h
            case isTrue hscript =>
              cases h
              exact ⟨_, ⟨by omega, hcheck⟩, by rw [if_neg hpub, if_pos hscript], rfl⟩
            case isFalse => cases h
  · rintro ⟨version, hash, kind, ⟨hlen, hcheck⟩, hkind, rfl⟩
    rw [Address.parseBase58, hcheck]
    dsimp only
    rw [if_neg (by rw [not_not, List.length_cons, hlen])]
    rw [legacyKind] at hkind
    split at hkind
    case isTrue hpub =>
      cases hkind
      rw [if_pos hpub]
    case isFalse hpub =>
      split at hkind
      case isTrue hscript =>
        cases hkind
        rw [if_neg hpub, if_pos hscript]
      case isFalse => cases hkind

theorem ascii_fold {c : Char} (h : IsASCII c ∨ c = kelvin) :
    IsASCII (Unicode.fold c) ∧ (Unicode.fold c = '\r' → c = '\r') := by
  rcases h with h | rfl
  · exact ⟨(letterCase h).folded.1, (letterCase h).other.1⟩
  · decide

/-- The lower case of a plain text is plain. -/
theorem Plain.map_fold {s : List Char} (h : Plain s) : Plain (s.map Unicode.fold) := by
  constructor
  · intro c hc
    obtain ⟨d, hd, rfl⟩ := List.mem_map.mp hc
    exact .inl (ascii_fold (h.1 d hd)).1
  · intro hcr
    obtain ⟨d, hd, hfold⟩ := List.mem_map.mp hcr
    exact h.2 ((ascii_fold (h.1 d hd)).2 hfold ▸ hd)

theorem all_isLetter (U : Unicode) {s : List Char} (h : Plain s) :
    (U.characters (s.map Unicode.fold)).all U.isLetter = (s.map Unicode.fold).all Char.isAlpha := by
  rw [h.map_fold.characters U, List.all_map, Bool.eq_iff_iff, List.all_eq_true, List.all_eq_true]
  refine forall₂_congr fun c hc => ?_
  obtain ⟨d, hd, rfl⟩ := List.mem_map.mp hc
  rw [Function.comp_apply, U.isLetter_ascii _ (ascii_fold (h.1 d hd)).1]

/-- How a plain text with a `1` in it is read. -/
theorem parse_of_split {raw before after : List Char}
    (hs : strip wallet.ios.isWhitespaceOrNewline raw = before ++ '1' :: after) (hafter : '1' ∉ after)
    (hplain : Plain (before ++ '1' :: after)) :
    Address.parse U doubleSha256 chain.network raw =
      if before ≠ [] ∧ (before.map Unicode.fold).all Char.isAlpha then
        match Bech32.decode U (before ++ '1' :: after) with
        | some d =>
          if d.hrp ≠ chain.hrp then .error (.wrongNetwork d.hrp)
          else .ok {
            text := U.lowercased (before ++ '1' :: after)
            kind := Address.segwitKind d.witnessVersion d.program
            network := chain.network }
        | none =>
          if before.map Unicode.fold ∈
              [chain.hrp, "bc".toList, "tb".toList, "bcrt".toList, "pcrt".toList] then
            if before.map Unicode.fold ≠ chain.hrp then .error (.wrongNetwork (before.map Unicode.fold))
            else .error .badChecksum
          else Address.parseBase58 U doubleSha256 chain.network (before ++ '1' :: after)
      else Address.parseBase58 U doubleSha256 chain.network (before ++ '1' :: after) := by
  have hbefore : Plain before :=
    ⟨fun c hc => hplain.1 c (by simp [hc]), fun hcr => hplain.2 (by simp [hcr])⟩
  have hsplit : splitLast ['1'] (U.characters (before ++ '1' :: after)) =
      some (before.map ([·]), after.map ([·])) := by
    rw [hplain.characters U, splitLast_map List.singleton_injective, splitLast_append _ hafter]
    rfl
  have hhrp : chain.network.bech32Hrp = chain.hrp := by cases chain <;> rfl
  have hregtest : Network.regtest.bech32Hrp = "pcrt".toList := rfl
  have hlower := U.lowercased_eq_map_fold hbefore.1
  have hletters := all_isLetter U hbefore
  have hne : (before ++ '1' :: after).isEmpty = false := by cases before <;> rfl
  rw [Address.parse, hs]
  cases Bech32.decode U (before ++ '1' :: after) <;>
    simp only [hne, Bool.false_eq_true, if_false, hsplit, Bech32.map_singleton_flatten, hlower, hletters,
      hhrp, hregtest, ne_eq, List.map_eq_nil_iff, List.mem_cons, List.not_mem_nil, or_false]

/-- A plain text without a `1` can only be base58. -/
theorem parse_of_no_split {raw : List Char}
    (hplain : Plain (strip wallet.ios.isWhitespaceOrNewline raw))
    (hone : '1' ∉ strip wallet.ios.isWhitespaceOrNewline raw) :
    Address.parse U doubleSha256 chain.network raw =
      Address.parseBase58 U doubleSha256 chain.network (strip wallet.ios.isWhitespaceOrNewline raw) := by
  have hsplit : splitLast ['1'] (U.characters (strip wallet.ios.isWhitespaceOrNewline raw)) = none := by
    rw [hplain.characters U]
    exact splitLast_eq_none (by simpa using hone)
  rw [Address.parse]
  simp only [hsplit]
  split
  case isTrue hempty =>
    rw [List.isEmpty_iff.mp hempty]
    rfl
  case isFalse => rfl

/-- No text that is not plain is an address. -/
theorem plain_of_parse {raw : List Char} {a : Address}
    (h : Address.parse U doubleSha256 chain.network raw = .ok a) :
    Plain (strip wallet.ios.isWhitespaceOrNewline raw) := by
  have hlegacy : Address.parseBase58 U doubleSha256 chain.network
      (strip wallet.ios.isWhitespaceOrNewline raw) = .ok a →
      Plain (strip wallet.ios.isWhitespaceOrNewline raw) := by
    intro hbase
    obtain ⟨_, _, _, hlegacy, -⟩ := parseBase58_ok_iff.mp hbase
    exact (ascii_of_legacy hlegacy).2
  rw [Address.parse] at h
  dsimp only at h
  split at h
  case isTrue => cases h
  case isFalse =>
    split at h
    case h_1 => exact hlegacy h
    case h_2 before after hsplit =>
      split at h
      case isFalse => exact hlegacy h
      case isTrue =>
        split at h
        case h_1 d hd => exact plain_of_decodes ((Bech32.decode_eq_some_iff U).mp hd)
        case h_2 =>
          split at h
          case isFalse => exact hlegacy h
          case isTrue => split at h <;> cases h

theorem Chain.hrp_spec (chain : Chain) : chain.hrp ≠ [] ∧ LowerCase chain.hrp ∧
    chain.hrp.all Char.isAlpha = true := by
  refine ⟨?_, ?_, ?_⟩
  · cases chain <;> decide
  · cases chain <;> simp [Chain.hrp, LowerCase, Bech32.Printable]
  · cases chain <;> decide +kernel

/-- A text that is decoded is its prefix, a `1` and the symbols. -/
theorem Bech32.Decodes.split {s : List Char} {d : Bech32.Decoded} (h : Bech32.Decodes s d) :
    ∃ before after, s = before ++ '1' :: after ∧ '1' ∉ after ∧ before.map Unicode.fold = d.hrp := by
  obtain ⟨groups, hpadded, htext⟩ := h.text
  have hversion := h.legal.version_le
  have hdata : ∀ v ∈ d.witnessVersion.toNat :: groups, v < 32 :=
    List.forall_mem_cons.mpr ⟨by omega, hpadded.narrow_lt⟩
  obtain ⟨before, tail, rfl, hbefore, htail⟩ := List.map_eq_append_iff.mp htext
  obtain ⟨one, after, rfl, hone, hafter⟩ := List.map_eq_cons_iff.mp htail
  have hfold : ∀ c, IsASCII c ∨ c = kelvin → Unicode.fold c = '1' → c = '1' := by
    intro c hc hfold
    rcases hc with hc | rfl
    · exact (letterCase hc).other.2 hfold
    · exact absurd hfold (by decide)
  obtain rfl := hfold one (h.simple one (by simp)) hone
  refine ⟨before, after, rfl, fun hmem => ?_, hbefore⟩
  have hsymbol : Unicode.fold '1' ∈ after.map Unicode.fold := List.mem_map_of_mem hmem
  rw [hafter, ← List.map_append] at hsymbol
  obtain ⟨v, hv, hsym⟩ := List.mem_map.mp hsymbol
  have hlt : v < 32 := (List.mem_append.mp hv).elim (hdata v) (Bech32.createChecksum_lt _ _ _ v)
  exact (Bech32.symbol_spec v hlt).2.1 (hsym.trans (by decide))

/-- The decoded texts of the chain are the valid ones, KELVIN SIGN taken for a K. -/
theorem decodes_iff_segwit {s : List Char} {version : UInt8} {program : Bytes} :
    (∃ variant, Bech32.Decodes s ⟨chain.hrp, version, program, variant⟩) ↔
      (∀ c ∈ s, IsASCII c ∨ c = kelvin) ∧ Segwit chain.hrp version program (s.map asK) := by
  obtain ⟨hne, hlower, -⟩ := chain.hrp_spec
  rw [segwit_iff hne hlower]
  constructor
  · rintro ⟨variant, hd⟩
    obtain ⟨hsimple, hk⟩ := decodes_iff_asK.mp hd
    refine ⟨hsimple, fun c hc => ?_, variant, hk⟩
    obtain ⟨d, hd, rfl⟩ := List.mem_map.mp hc
    by_cases hkelvin : d = kelvin
    · subst hkelvin
      decide
    · simpa [asK, hkelvin] using hsimple d hd
  · rintro ⟨hsimple, -, variant, hk⟩
    exact ⟨variant, decodes_iff_asK.mpr ⟨hsimple, hk⟩⟩

theorem map_fold_ascii {s : List Char} (h : ∀ c ∈ s, IsASCII c) :
    s.map Unicode.fold = s.map Char.toLower :=
  List.map_congr_left fun c hc => (letterCase (h c hc)).folded.2.1

theorem isAlpha_fold {c : Char} (h : IsASCII c) : (Unicode.fold c).isAlpha = c.isAlpha :=
  (letterCase h).folded.2.2

theorem lowerCase_letters {s : List Char} (h : ∀ c ∈ s, IsASCII c) (halpha : ∀ c ∈ s, c.isAlpha) :
    LowerCase (s.map Char.toLower) := by
  intro c hc
  obtain ⟨d, hd, rfl⟩ := List.mem_map.mp hc
  exact (letterCase (h d hd)).letter (halpha d hd)

/-- Where the last `1` of a text is does not depend on who looks. -/
theorem split_unique {a b c d : List Char} (h : a ++ '1' :: b = c ++ '1' :: d) (hb : '1' ∉ b)
    (hd : '1' ∉ d) : a = c ∧ b = d := by
  have := (splitLast_append a hb).symm.trans (h ▸ splitLast_append c hd)
  simpa using this

/-- An ASCII text looks like segwit when its prefix is letters and it is decoded or the prefix is
    known. -/
theorem looksSegwit_iff (U : Unicode) {before after : List Char}
    (hascii : ∀ c ∈ before ++ '1' :: after, IsASCII c) (hafter : '1' ∉ after) :
    LooksSegwit chain (before ++ '1' :: after) ↔
      (before ≠ [] ∧ (before.map Unicode.fold).all Char.isAlpha = true) ∧
        (before.map Unicode.fold ∈ [chain.hrp, "bc".toList, "tb".toList, "bcrt".toList, "pcrt".toList] ∨
          ∃ d, Bech32.decode U (before ++ '1' :: after) = some d) := by
  have hbefore : ∀ c ∈ before, IsASCII c := fun c hc => hascii c (by simp [hc])
  have hletters : (before.map Unicode.fold).all Char.isAlpha = true ↔ ∀ c ∈ before, c.isAlpha := by
    rw [List.all_map, List.all_eq_true]
    refine forall₂_congr fun c hc => ?_
    rw [Function.comp_apply, isAlpha_fold (hbefore c hc)]
  have hsegwit : before ≠ [] → (∀ c ∈ before, c.isAlpha) →
      ((∃ version program, Segwit (before.map Char.toLower) version program (before ++ '1' :: after)) ↔
        ∃ d, Bech32.decode U (before ++ '1' :: after) = some d) := by
    intro hne halpha
    have hlower := lowerCase_letters hbefore halpha
    have hne' : before.map Char.toLower ≠ [] := by simpa using hne
    constructor
    · rintro ⟨version, program, hs⟩
      obtain ⟨-, variant, hd⟩ := (segwit_iff hne' hlower).mp hs
      exact ⟨_, (Bech32.decode_eq_some_iff U).mpr hd⟩
    · rintro ⟨d, hd⟩
      have hdecodes := (Bech32.decode_eq_some_iff U).mp hd
      obtain ⟨before', after', hsplit, hafter', hhrp⟩ := hdecodes.split
      obtain ⟨rfl, -⟩ := split_unique hsplit hafter hafter'
      refine ⟨d.witnessVersion, d.program, (segwit_iff hne' hlower).mpr ⟨hascii, d.variant, ?_⟩⟩
      rw [← map_fold_ascii hbefore, hhrp]
      exact hdecodes
  rw [hletters, map_fold_ascii hbefore]
  constructor
  · rintro ⟨before', after', hsplit, hafter', hne, halpha, hwhich⟩
    obtain ⟨rfl, rfl⟩ := split_unique hsplit hafter hafter'
    exact ⟨⟨hne, halpha⟩, hwhich.imp_right (hsegwit hne halpha).mp⟩
  · rintro ⟨⟨hne, halpha⟩, hwhich⟩
    exact ⟨before, after, rfl, hafter, hne, halpha, hwhich.imp_right (hsegwit hne halpha).mpr⟩

/-- What the parser accepts. -/
theorem parse_ok_iff {raw s : List Char} (hs : strip wallet.ios.isWhitespaceOrNewline raw = s)
    {a : Address} : Address.parse U doubleSha256 chain.network raw = .ok a ↔
      (∃ version program, ((∀ c ∈ s, IsASCII c ∨ c = kelvin) ∧
          Segwit chain.hrp version program (s.map asK)) ∧
        a = { text := U.lowercased s, kind := Address.segwitKind version program,
              network := chain.network }) ∨
      (¬LooksSegwit chain s ∧ IsLegacy doubleSha256 chain.network s a) := by
  simp only [← decodes_iff_segwit]
  by_cases hplain : Plain s
  case neg =>
    constructor
    · intro h
      exact absurd (hs ▸ plain_of_parse h) hplain
    · rintro (⟨_, _, ⟨_, hd⟩, -⟩ | ⟨-, _, _, _, hlegacy, -⟩)
      · exact absurd (plain_of_decodes hd) hplain
      · exact absurd (ascii_of_legacy hlegacy).2 hplain
  case pos =>
    by_cases hone : '1' ∈ s
    case neg =>
      rw [parse_of_no_split (hs.symm ▸ hplain) (hs.symm ▸ hone), hs, parseBase58_ok_iff]
      constructor
      · intro h
        refine .inr ⟨?_, h⟩
        rintro ⟨before, after, rfl, -⟩
        exact hone (by simp)
      · rintro (⟨_, _, ⟨_, hd⟩, -⟩ | ⟨-, h⟩)
        · obtain ⟨before, after, rfl, -⟩ := hd.split
          exact absurd (by simp) hone
        · exact h
    case pos =>
      obtain ⟨before, after, rfl, hafter⟩ := exists_last hone
      have hlooks : IsLegacy doubleSha256 chain.network (before ++ '1' :: after) a → _ :=
        fun ⟨_, _, _, hlegacy, _⟩ => @looksSegwit_iff chain U before after (ascii_of_legacy hlegacy).1 hafter
      rw [parse_of_split hs hafter hplain]
      split
      case isFalse hletters =>
        rw [parseBase58_ok_iff]
        constructor
        · intro h
          exact .inr ⟨fun hl => hletters ((hlooks h).mp hl).1, h⟩
        · rintro (⟨version, program, ⟨variant, hd⟩, -⟩ | ⟨-, h⟩)
          · obtain ⟨before', after', hsplit, hafter', hhrp⟩ := hd.split
            obtain ⟨rfl, rfl⟩ := split_unique hsplit hafter hafter'
            obtain ⟨hne, -, halpha⟩ := chain.hrp_spec
            exact absurd ⟨by rintro rfl; exact hne hhrp.symm, hhrp ▸ halpha⟩ hletters
          · exact h
      case isTrue hletters =>
        cases hdecode : Bech32.decode U (before ++ '1' :: after) with
        | some d =>
          have hnot : ¬(¬LooksSegwit chain (before ++ '1' :: after) ∧
              IsLegacy doubleSha256 chain.network (before ++ '1' :: after) a) :=
            fun ⟨hl, h⟩ => hl ((hlooks h).mpr ⟨hletters, .inr ⟨d, hdecode⟩⟩)
          dsimp only
          split
          case isTrue hhrp =>
            constructor
            · intro h
              cases h
            · rintro (⟨version, program, ⟨variant, hd⟩, -⟩ | h)
              · rw [← Bech32.decode_eq_some_iff U, hdecode, Option.some.injEq] at hd
                exact absurd (congrArg Bech32.Decoded.hrp hd) hhrp
              · exact absurd h hnot
          case isFalse hhrp =>
            rw [not_not] at hhrp
            constructor
            · intro h
              cases h
              refine .inl ⟨d.witnessVersion, d.program, ⟨d.variant, ?_⟩, rfl⟩
              rw [← hhrp]
              exact (Bech32.decode_eq_some_iff U).mp hdecode
            · rintro (⟨version, program, ⟨variant, hd⟩, rfl⟩ | h)
              · rw [← Bech32.decode_eq_some_iff U, hdecode, Option.some.injEq] at hd
                rw [hd]
              · exact absurd h hnot
        | none =>
          have hsegwit : ¬∃ version program, (∃ variant,
              Bech32.Decodes (before ++ '1' :: after) ⟨chain.hrp, version, program, variant⟩) ∧
              a = { text := U.lowercased (before ++ '1' :: after),
                    kind := Address.segwitKind version program, network := chain.network } := by
            rintro ⟨_, _, ⟨_, hd⟩, -⟩
            rw [← Bech32.decode_eq_some_iff U, hdecode] at hd
            cases hd
          rw [or_iff_right hsegwit]
          dsimp only
          split
          case isTrue hknown =>
            constructor
            · intro h
              split at h <;> cases h
            · rintro ⟨hl, h⟩
              exact absurd ((hlooks h).mpr ⟨hletters, .inl hknown⟩) hl
          case isFalse hknown =>
            rw [parseBase58_ok_iff]
            refine ⟨fun h => ⟨fun hl => ?_, h⟩, fun h => h.2⟩
            obtain ⟨-, hknown' | ⟨d, hd⟩⟩ := (hlooks h).mp hl
            · exact hknown hknown'
            · rw [hdecode] at hd
              cases hd

end pcoin.address
