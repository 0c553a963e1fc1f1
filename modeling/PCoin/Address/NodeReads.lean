import PCoin.Address.Accepts

open codec swift decimal
open pcoin.store pcoin.block

namespace pcoin.address.node

/-- The byte of an ASCII character. -/
def byte (c : Char) : UInt8 := UInt8.ofNat c.toNat

/-- The byte of a character, and the node's letter case of it. -/
structure ByteCase (c : Char) : Prop where
  utf8 : String.utf8EncodeChar c = [byte c]
  upper : c.isUpper = false → isUpper (byte c) = false
  lower : isLower (byte c.toUpper) = false
  lowered : lowerCase (byte c) = byte c.toLower
  printable : 33 ≤ c.toNat ∧ c.toNat ≤ 126 → c.isUpper = false →
    (33 ≤ byte c ∧ byte c ≤ 126 ∧ lowerCase (byte c) = byte c) ∧
      33 ≤ byte c.toUpper ∧ byte c.toUpper ≤ 126 ∧ lowerCase (byte c.toUpper) = byte c

theorem byteCase {c : Char} (hc : IsASCII c) : ByteCase c := by
  obtain ⟨hutf8, hupper, hlower, hlowered⟩ := @ascii_forall (fun c =>
    String.utf8EncodeChar c = [byte c] ∧ (c.isUpper = false → isUpper (byte c) = false) ∧
    isLower (byte c.toUpper) = false ∧ lowerCase (byte c) = byte c.toLower)
    (by decide +kernel) c hc
  have hprintable := @ascii_forall (fun c => 33 ≤ c.toNat ∧ c.toNat ≤ 126 → c.isUpper = false →
    (33 ≤ byte c ∧ byte c ≤ 126 ∧ lowerCase (byte c) = byte c) ∧
      33 ≤ byte c.toUpper ∧ byte c.toUpper ≤ 126 ∧ lowerCase (byte c.toUpper) = byte c)
    (by decide +kernel) c hc
  exact ⟨hutf8, hupper, hlower, hlowered, hprintable⟩

theorem utf8_ascii {s : List Char} (h : ∀ c ∈ s, IsASCII c) : utf8 s = s.map byte := by
  induction s with
  | nil => rfl
  | cons c s ih =>
    have hc : String.utf8EncodeChar c = [byte c] := (byteCase (h c (by simp))).utf8
    rw [List.map_cons, ← ih fun d hd => h d (by simp [hd]), utf8, List.flatMap_cons, hc]
    rfl

theorem toNat_byte {c : Char} (h : IsASCII c) : (byte c).toNat = c.toNat := by
  have : c.toNat < 128 := h
  simp [byte]
  omega

theorem byte_inj {c d : Char} (hc : IsASCII c) (hd : IsASCII d) (h : byte c = byte d) : c = d := by
  rw [← Char.toNat_inj, ← toNat_byte hc, h, toNat_byte hd]

theorem checkCharacters_of_no_upper {str : Bytes} (lower : Bool)
    (h : ∀ c ∈ str, isUpper c = false ∧ 33 ≤ c ∧ c ≤ 126) : checkCharacters lower false str = true := by
  induction str generalizing lower with
  | nil => rfl
  | cons c str ih =>
    obtain ⟨hc, hlow, hhigh⟩ := h c (by simp)
    have hrest := fun lower => ih lower fun d hd => h d (by simp [hd])
    rw [checkCharacters]
    split
    · simp [hrest]
    · rw [hc, if_neg (by decide), if_neg (by simpa using ⟨hlow, hhigh⟩), hrest]

theorem checkCharacters_of_no_lower {str : Bytes} (upper : Bool)
    (h : ∀ c ∈ str, isLower c = false ∧ 33 ≤ c ∧ c ≤ 126) : checkCharacters false upper str = true := by
  induction str generalizing upper with
  | nil => rfl
  | cons c str ih =>
    obtain ⟨hc, hlow, hhigh⟩ := h c (by simp)
    have hrest := fun upper => ih upper fun d hd => h d (by simp [hd])
    rw [checkCharacters, hc, if_neg (by decide)]
    split
    · simp [hrest]
    · rw [if_neg (by simpa using ⟨hlow, hhigh⟩), hrest]

/-- The two cases that a text may be in. -/
def Case (f : Char → Char) : Prop := f = id ∨ f = Char.toUpper

theorem case_spec {f : Char → Char} (hf : Case f) {c : Char} (hc : IsASCII c) :
    Bech32.Printable c → c.isUpper = false →
      IsASCII (f c) ∧ 33 ≤ byte (f c) ∧ byte (f c) ≤ 126 ∧ lowerCase (byte (f c)) = byte c := by
  intro hprintable hupper
  obtain ⟨hsame, htoUpper⟩ := (byteCase hc).printable hprintable hupper
  rcases hf with rfl | rfl
  · exact ⟨hc, hsame⟩
  · exact ⟨(letterCase hc).toUpper.1, htoUpper⟩

theorem rev_symbol {f : Char → Char} (hf : Case f) : ∀ v < 32,
    charsetRev.getD (byte (f (Bech32.symbol v))).toNat (-1) = v ∧ byte (f (Bech32.symbol v)) ≠ 49 := by
  have hboth : ∀ v < 32,
      (charsetRev.getD (byte (Bech32.symbol v)).toNat (-1) = v ∧ byte (Bech32.symbol v) ≠ 49) ∧
      charsetRev.getD (byte (Bech32.symbol v).toUpper).toNat (-1) = v ∧
        byte (Bech32.symbol v).toUpper ≠ 49 := by decide +kernel
  rcases hf with rfl | rfl
  · exact fun v hv => (hboth v hv).1
  · exact fun v hv => (hboth v hv).2

theorem revs_symbols {f : Char → Char} (hf : Case f) {values : List Nat} (h : ∀ v ∈ values, v < 32) :
    revs (values.map fun v => byte (f (Bech32.symbol v))) = some values := by
  induction values with
  | nil => rfl
  | cons v values ih =>
    have hv := (rev_symbol hf v (h v (by simp))).1
    rw [List.map_cons, revs, hv, ih fun w hw => h w (by simp [hw])]
    simp

def encodingOf (variant : Bech32.Variant) : Encoding :=
  match variant with
  | .bech32 => .bech32
  | .bech32m => .bech32m

theorem checkCharacters_case {f : Char → Char} (hf : Case f) {t : List Char} (ht : LowerCase t) :
    checkCharacters false false (t.map fun c => byte (f c)) = true := by
  have hrange : ∀ c ∈ t, 33 ≤ byte (f c) ∧ byte (f c) ≤ 126 := fun c hc =>
    have h := case_spec hf (ht c hc).1.ascii (ht c hc).1 (ht c hc).2
    ⟨h.2.1, h.2.2.1⟩
  rcases hf with rfl | rfl
  · refine checkCharacters_of_no_upper false fun x hx => ?_
    obtain ⟨c, hc, rfl⟩ := List.mem_map.mp hx
    exact ⟨(byteCase (ht c hc).1.ascii).upper (ht c hc).2, hrange c hc⟩
  · refine checkCharacters_of_no_lower false fun x hx => ?_
    obtain ⟨c, hc, rfl⟩ := List.mem_map.mp hx
    exact ⟨(byteCase (ht c hc).1.ascii).lower, hrange c hc⟩

theorem map_lowerCase {f : Char → Char} (hf : Case f) {t : List Char} (ht : LowerCase t) :
    (t.map fun c => byte (f c)).map lowerCase = t.map byte := by
  rw [List.map_map]
  exact List.map_congr_left fun c hc =>
    (case_spec hf (ht c hc).1.ascii (ht c hc).1 (ht c hc).2).2.2.2

/-- The node checks a checksum as the phone does. -/
theorem verifyChecksum_eq {hrp : List Char} (hhrp : LowerCase hrp) {values : List Nat}
    {variant : Bech32.Variant}
    (h : Bech32.polymod (Bech32.hrpExpand hrp ++ values) = Bech32.constant variant) :
    verifyChecksum (hrp.map byte) values = encodingOf variant := by
  have hexpand : preparePolynomialCoefficients (hrp.map byte) values = Bech32.hrpExpand hrp ++ values := by
    have hbyte : ∀ c ∈ hrp, (byte c).toNat = c.toNat := fun c hc => toNat_byte (hhrp c hc).1.ascii
    simp only [preparePolynomialCoefficients, Bech32.hrpExpand, List.map_map]
    congr 2
    · congr 1
      exact List.map_congr_left fun c hc => by rw [Function.comp_apply, hbyte c hc]
    · exact List.map_congr_left fun c hc => by rw [Function.comp_apply, hbyte c hc]
  have hpoly : polyMod (Bech32.hrpExpand hrp ++ values) = Bech32.constant variant := h
  rw [verifyChecksum, hexpand]
  simp only [hpoly]
  cases variant <;> rfl

theorem decode_text {f : Char → Char} (hf : Case f) {hrp : List Char} (hne : hrp ≠ [])
    (hhrp : LowerCase hrp) {data checksum : List Nat} (hdata : ∀ v ∈ data ++ checksum, v < 32)
    (hlen : checksum.length = 6) {variant : Bech32.Variant}
    (hchk : Bech32.polymod (Bech32.hrpExpand hrp ++ (data ++ checksum)) = Bech32.constant variant)
    (hshort : (hrp ++ '1' :: (data ++ checksum).map Bech32.symbol).length ≤ 90) :
    decode ((hrp ++ '1' :: (data ++ checksum).map Bech32.symbol).map fun c => byte (f c)) =
      { encoding := encodingOf variant, hrp := hrp.map byte, data := data } := by
  have hlower : LowerCase (hrp ++ '1' :: (data ++ checksum).map Bech32.symbol) := by
    intro c hc
    rw [List.mem_append, List.mem_cons] at hc
    rcases hc with hc | rfl | hc
    · exact hhrp c hc
    · exact ⟨⟨by decide, by decide⟩, by decide⟩
    · obtain ⟨v, hv, rfl⟩ := List.mem_map.mp hc
      have := Bech32.symbol_spec v (hdata v hv)
      exact ⟨this.1, this.2.2⟩
  have hone : byte (f '1') = 49 := by rcases hf with rfl | rfl <;> decide
  have hbytes : (hrp ++ '1' :: (data ++ checksum).map Bech32.symbol).map (fun c => byte (f c)) =
      (hrp.map fun c => byte (f c)) ++
        49 :: (data ++ checksum).map fun v => byte (f (Bech32.symbol v)) := by
    rw [List.map_append, List.map_cons, hone, List.map_map]
    rfl
  have hsep : (49 : UInt8) ∉ (data ++ checksum).map fun v => byte (f (Bech32.symbol v)) := by
    intro hmem
    obtain ⟨v, hv, h49⟩ := List.mem_map.mp hmem
    exact (rev_symbol hf v (hdata v hv)).2 h49
  have hcheck := checkCharacters_case hf hlower
  have hpos := List.length_pos_of_ne_nil hne
  have hcount : ((hrp ++ '1' :: (data ++ checksum).map Bech32.symbol).map fun c => byte (f c)).length =
      hrp.length + 1 + data.length + 6 := by
    simp [hlen]
    omega
  rw [List.length_append, List.length_cons, List.length_map, List.length_append, hlen] at hshort
  rw [decode, hcheck, hcount, hbytes, splitLast_append _ hsep]
  simp only [Bool.not_true, Bool.false_eq_true, if_false, revs_symbols hf hdata, map_lowerCase hf hhrp,
    verifyChecksum_eq hhrp hchk, List.length_map]
  rw [if_neg (by omega), if_neg (by omega), if_neg (by cases variant <;> decide)]
  simp [hlen]

theorem convertBits_eq {program : Bytes} {groups : List Nat} (h : Padded 8 5 (nats program) groups) :
    convertBits groups = some program := by
  rw [convertBits, (finish_strict (by decide) (by decide) (by decide) h.narrow_lt _).mpr h]
  exact congrArg some (bytes_nats program)

/-- The script of a witness version and program. -/
theorem decodeSegwit_eq {params : CChainParams} {str : Bytes} {version : UInt8} {program : Bytes}
    {variant : Bech32.Variant} {groups : List Nat}
    (hlegal : Bech32.Legal version.toNat program variant)
    (hpadded : Padded 8 5 (nats program) groups)
    (hdecode : decode str =
      { encoding := encodingOf variant, hrp := params.bech32Hrp, data := version.toNat :: groups })
    (network : Network) (text : List Char) :
    getScriptForDestination (decodeSegwit params str) =
      Address.scriptPubKey { text, kind := Address.segwitKind version program, network } := by
  have hvalid : encodingOf variant ≠ .invalid := by cases variant <;> decide
  have hlen := hlegal.length
  rw [decodeSegwit, hdecode]
  simp only [convertBits_eq hpadded, ne_eq, not_true_eq_false, if_false]
  rw [if_neg hvalid]
  by_cases hzero : version.toNat = 0
  case pos =>
    obtain ⟨rfl, hlen⟩ := hlegal.zero hzero
    rw [if_neg (by simp [encodingOf]), if_neg (by simp [hzero]), if_pos hzero]
    rcases hlen with hlen | hlen
    · rw [if_pos hlen]
      simp [getScriptForDestination, push, Address.scriptPubKey, Address.segwitKind, hzero, hlen]
    · rw [if_neg (by omega), if_pos hlen]
      simp [getScriptForDestination, push, Address.scriptPubKey, Address.segwitKind, hzero, hlen]
  case neg =>
    obtain rfl := hlegal.later hzero
    rw [if_neg (by simp [hzero]), if_neg (by simp [encodingOf]), if_neg hzero]
    by_cases htaproot : version.toNat = 1 ∧ program.length = 32
    · rw [if_pos htaproot]
      simp [getScriptForDestination, push, Address.scriptPubKey, Address.segwitKind, htaproot.1,
        htaproot.2]
    · have hkind : Address.segwitKind version program = .witnessUnknown version program := by
        rw [Address.segwitKind]
        split <;> grind
      rw [if_neg htaproot, hkind]
      split
      case isTrue hanchor =>
        have hversion : version = 1 := UInt8.toNat_inj.mp hanchor.1
        rw [hversion, hanchor.2]
        rfl
      case isFalse =>
        rw [if_neg (by have := hlegal.version_le; omega), if_neg (by omega)]
        have hop : encodeOP_N version.toNat = 0x50 + version := by
          rw [encodeOP_N, if_neg hzero, UInt8.ofNat_toNat]
          grind
        simp [getScriptForDestination, push, Address.scriptPubKey, hop]

/-- The text begins with the chain's prefix, in whichever case. -/
def StartsWithHrp (chain : Chain) (s : List Char) : Prop :=
  (s.take chain.hrp.length).map Char.toLower = chain.hrp

theorem hrp_bytes (chain : Chain) : chain.params.bech32Hrp = chain.hrp.map byte ∧
    chain.params.bech32Hrp.length = chain.hrp.length := by
  cases chain <;> exact ⟨rfl, rfl⟩

theorem isBech32_iff {chain : Chain} {s : List Char} (h : ∀ c ∈ s, IsASCII c) :
    ((utf8 s).take chain.params.bech32Hrp.length).map lowerCase = chain.params.bech32Hrp ↔
      StartsWithHrp chain s := by
  obtain ⟨hhrp, hlen⟩ := hrp_bytes chain
  have htake : ∀ c ∈ s.take chain.hrp.length, IsASCII c := fun c hc => h c (List.mem_of_mem_take hc)
  have hlower : ((utf8 s).take chain.params.bech32Hrp.length).map lowerCase =
      ((s.take chain.hrp.length).map Char.toLower).map byte := by
    rw [utf8_ascii h, hlen, ← List.map_take, List.map_map, List.map_map]
    exact List.map_congr_left fun c hc => (byteCase (htake c hc)).lowered
  rw [hlower, hhrp, StartsWithHrp]
  refine ⟨fun heq => ?_, fun heq => by rw [heq]⟩
  have hinj : ∀ {l r : List Char}, (∀ c ∈ l, IsASCII c) → (∀ c ∈ r, IsASCII c) →
      l.map byte = r.map byte → l = r := by
    intro l
    induction l with
    | nil =>
      intro r _ _ h
      exact (List.map_eq_nil_iff.mp h.symm).symm
    | cons c l ih =>
      intro r hl hr h
      obtain ⟨d, r, rfl, hcd, hrest⟩ := List.map_eq_cons_iff.mp h.symm
      rw [byte_inj (hl c (by simp)) (hr d (by simp)) hcd.symm,
        ih (fun c hc => hl c (by simp [hc])) (fun c hc => hr c (by simp [hc])) hrest.symm]
  refine hinj (fun c hc => ?_) (fun c hc => ((chain.hrp_spec.2.1) c hc).1.ascii) heq
  obtain ⟨d, hd, rfl⟩ := List.mem_map.mp hc
  exact isASCII_toLower (htake d hd)

variable {doubleSha256 : Bytes → Hash} {chain : Chain} {s : List Char}

theorem startsWithHrp_of_segwit {version : UInt8} {program : Bytes}
    (h : Segwit chain.hrp version program s) : StartsWithHrp chain s := by
  obtain ⟨t, ht, hs⟩ := h
  obtain ⟨variant, groups, checksum, -, -, -, -, -, rfl⟩ := ht.text
  obtain ⟨-, hlower, -⟩ := chain.hrp_spec
  rw [StartsWithHrp]
  rcases hs with rfl | rfl
  · rw [List.take_left]
    exact (List.map_congr_left fun c hc =>
      toLower_eq_self (hlower c hc).1.ascii (hlower c hc).2).trans (List.map_id _)
  · rw [← List.map_take, List.take_left, List.map_map]
    exact (List.map_congr_left fun c hc =>
      toLower_toUpper (hlower c hc).1.ascii (hlower c hc).2).trans (List.map_id _)

/-- The node pays a valid segwit address as the phone does. -/
theorem scriptFor_segwit {version : UInt8} {program : Bytes} (h : Segwit chain.hrp version program s)
    (text : List Char) : scriptFor doubleSha256 chain.params (utf8 s) = Address.scriptPubKey
      { text, kind := Address.segwitKind version program, network := chain.network } := by
  obtain ⟨hne, hlower, -⟩ := chain.hrp_spec
  have hascii := ((segwit_iff hne hlower).mp h).1
  have hstarts := (isBech32_iff hascii).mpr (startsWithHrp_of_segwit h)
  obtain ⟨t, ⟨hshort, variant, groups, checksum, hlegal, hpadded, hlen, hlt, hchk, ht⟩, hs⟩ := h
  have hversion := hlegal.version_le
  have hdata : ∀ v ∈ version.toNat :: groups ++ checksum, v < 32 := by
    intro v hv
    rcases List.mem_append.mp hv with hv | hv
    · exact List.forall_mem_cons.mpr ⟨by omega, hpadded.narrow_lt⟩ v hv
    · exact hlt v hv
  rw [ht] at hshort hs
  obtain ⟨f, hf, hcase⟩ : ∃ f, Case f ∧
      utf8 s = (chain.hrp ++ '1' :: (version.toNat :: groups ++ checksum).map Bech32.symbol).map
        fun c => byte (f c) := by
    rw [utf8_ascii hascii]
    rcases hs with rfl | rfl
    · exact ⟨id, .inl rfl, rfl⟩
    · exact ⟨Char.toUpper, .inr rfl, by rw [List.map_map]; rfl⟩
  have hdecode := decode_text hf hne hlower hdata hlen hchk hshort
  rw [← hcase, ← (hrp_bytes chain).1] at hdecode
  rw [scriptFor, decodeDestination, if_pos hstarts]
  exact decodeSegwit_eq hlegal hpadded hdecode _ text

theorem length_le_foldl (b256 values : List Nat) :
    b256.length ≤ (values.foldl (mulAdd 256 58) b256).length := by
  induction values generalizing b256 with
  | nil => exact Nat.le_refl _
  | cons v values ih => exact (length_le_mulAdd 256 58 b256 v).trans (ih _)

theorem digit_byte : ∀ d < 58, byte (Base58.digit d) ≠ 0 ∧ isSpace (byte (Base58.digit d)) = false ∧
    mapBase58.getD (byte (Base58.digit d)).toNat (-1) = d ∧
    (byte (Base58.digit d) = 49 ↔ d = 0) := by decide +kernel

/-- A text that is not too long for the limit is read to its end. -/
theorem decodeBase58Loop_eq {maxRetLen zeroes : Nat} {values : List Nat} (h : ∀ d ∈ values, d < 58)
    (b256 : List Nat) (hmax : (values.foldl (mulAdd 256 58) b256).length + zeroes ≤ maxRetLen) :
    decodeBase58Loop maxRetLen zeroes (values.map fun d => byte (Base58.digit d)) b256 =
      some (values.foldl (mulAdd 256 58) b256, []) := by
  induction values generalizing b256 with
  | nil => rfl
  | cons d values ih =>
    obtain ⟨-, hspace, hmap, -⟩ := digit_byte d (h d (by simp))
    have hle := length_le_foldl (mulAdd 256 58 b256 d) values
    rw [List.map_cons, decodeBase58Loop, hspace, hmap]
    simp only [Bool.false_eq_true, if_false, Int.toNat_natCast]
    rw [if_neg (by omega), if_neg (by rw [List.foldl_cons] at hmax; omega),
      ih (fun e he => h e (by simp [he])) _ hmax]
    rfl

/-- The node's decoder undoes the phone's encoder, within its limit. -/
theorem decodeBase58_encode {maxRetLen : Nat} {b : Bytes} (hb : b.length ≤ maxRetLen) :
    decodeBase58 (utf8 (Base58.encode b)) maxRetLen = some b := by
  have hvalues := @transcode_lt 58 256 (by decide) (by decide) (nats b)
  have hback := @transcode_transcode 58 256 (by decide) (by decide) (nats b) (nats_lt b)
  have htext : utf8 (Base58.encode b) =
      (transcode 58 256 (nats b)).map fun d => byte (Base58.digit d) := by
    rw [utf8_ascii fun c hc => (ascii_encode b c hc).1, Base58.encode_eq, List.map_map]
    rfl
  generalize transcode 58 256 (nats b) = values at hvalues hback htext
  have hnul : (0 : UInt8) ∉ values.map fun d => byte (Base58.digit d) := by
    intro hmem
    obtain ⟨d, hd, hzero⟩ := List.mem_map.mp hmem
    exact (digit_byte d (hvalues d hd)).1 hzero
  have hspace : (values.map fun d => byte (Base58.digit d)).dropWhile isSpace =
      values.map fun d => byte (Base58.digit d) := by
    cases values with
    | nil => rfl
    | cons d values =>
      rw [List.map_cons, List.dropWhile_cons, (digit_byte d (hvalues d (by simp))).2.1]
      rfl
  -- The leading ones are the leading zeros, and the loop runs over what is left.
  have hones : ∀ l : List Nat, (∀ d ∈ l, d < 58) →
      ((l.map fun d => byte (Base58.digit d)).takeWhile (· = 49)).length =
        (l.takeWhile (· = 0)).length ∧
      (l.map fun d => byte (Base58.digit d)).dropWhile (· = 49) =
        (l.dropWhile (· = 0)).map fun d => byte (Base58.digit d) := by
    intro l hl
    induction l with
    | nil => exact ⟨rfl, rfl⟩
    | cons d l ih =>
      have hd := (digit_byte d (hl d (by simp))).2.2.2
      obtain ⟨htake, hdrop⟩ := ih fun e he => hl e (by simp [he])
      simp only [List.map_cons, List.takeWhile_cons, List.dropWhile_cons, hd]
      split
      · exact ⟨by rw [List.length_cons, List.length_cons, htake], hdrop⟩
      · exact ⟨rfl, rfl⟩
  obtain ⟨hzeroes, hrest⟩ := hones values hvalues
  have hrebase : (values.dropWhile (· = 0)).foldl (mulAdd 256 58) [] = rebase 256 58 values := by
    have hnumber := number_replicate_zero_append 58 (values.takeWhile (· = 0)).length
      (values.dropWhile (· = 0))
    rw [← takeWhile_zero_eq, List.takeWhile_append_dropWhile] at hnumber
    have hdigits := rebase_eq_digits (b := 256) (by decide) (m := 58) (by decide)
    exact (hdigits _).trans ((congrArg _ hnumber.symm).trans (hdigits _).symm)
  have hlen : (values.takeWhile (· = 0)).length + (rebase 256 58 values).length = b.length := by
    have := congrArg List.length hback
    simpa [transcode, nats] using this
  have hloop := @decodeBase58Loop_eq maxRetLen (values.takeWhile (· = 0)).length
    (values.dropWhile (· = 0)) (fun d hd => hvalues d ((List.dropWhile_sublist _).subset hd)) []
    (by rw [hrebase]; omega)
  rw [decodeBase58, htext, if_neg hnul]
  simp only [hspace, hzeroes, hrest, hloop, hrebase]
  rw [if_neg (by omega)]
  simp only [List.dropWhile_nil, ne_eq, not_true_eq_false, if_false, Option.some.injEq]
  rw [← bytes_nats b, ← hback, transcode, bytes, bytes, List.map_append, List.map_replicate]
  rfl

theorem decodeBase58Check_legacy {version : UInt8} {hash : Bytes}
    (h : Legacy doubleSha256 version hash s) :
    decodeBase58Check doubleSha256 (utf8 s) 21 = some (version :: hash) := by
  have hchecksum : ((doubleSha256 (version :: hash)).val.take 4).length = 4 := by
    rw [List.length_take, (doubleSha256 (version :: hash)).property]
    rfl
  obtain ⟨hlen, rfl⟩ := h
  rw [base58Text_eq_encode, decodeBase58Check, decodeBase58_encode (by simp [hlen, hchecksum])]
  simp [hlen, hchecksum]

/-- A Base58Check text that does not begin with the chain's prefix. -/
theorem scriptFor_legacy {version : UInt8} {hash : Bytes} (h : Legacy doubleSha256 version hash s)
    (hstarts : ¬StartsWithHrp chain s) : scriptFor doubleSha256 chain.params (utf8 s) =
      if version = chain.params.pubkeyAddress then [0x76, 0xa9, 0x14] ++ hash ++ [0x88, 0xac]
      else if version = chain.params.scriptAddress then [0xa9, 0x14] ++ hash ++ [0x87]
      else [] := by
  have hlen := h.1
  rw [scriptFor, decodeDestination, if_neg fun hb =>
    hstarts ((isBech32_iff (ascii_of_legacy h).1).mp hb), decodeBase58Check_legacy h]
  simp only [List.length_cons, hlen, true_and]
  split
  · simp [getScriptForDestination, push, hlen]
  · split
    · simp [getScriptForDestination, push, hlen]
    · rfl

end pcoin.address.node
