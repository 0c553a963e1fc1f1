import PCoin.Address.Valid
import PCoin.Js.Text

/-! A payout address read at the door of the pool. -/

open codec swift
open pcoin.store pcoin.address

namespace js

/-- What the strings' case mappings say about ASCII and about the characters whose lower case is
    ASCII. -/
structure Casing where
  toLowerCase : List Char → List Char
  toUpperCase : List Char → List Char
  lower_simple : ∀ t, (∀ c ∈ t, IsASCII c ∨ c = kelvin) → toLowerCase t = t.map Unicode.fold
  lower_ascii : ∀ t, (∀ d ∈ toLowerCase t, IsASCII d) → ∀ c ∈ t, IsASCII c ∨ c = kelvin
  upper_simple : ∀ t, (∀ c ∈ t, IsASCII c ∨ c = kelvin) → toUpperCase t = t.map Char.toUpper

/-- Mappings that know ASCII and KELVIN SIGN, and leave every other character as it is. -/
def Casing.simple : Casing where
  toLowerCase t := t.map Unicode.fold
  toUpperCase t := t.map Char.toUpper
  lower_simple _ _ := rfl
  lower_ascii t h := by
    refine Unicode.simple.simple_of_lowercased fun d hd => h d ?_
    rwa [List.map_eq_flatMap]
  upper_simple _ _ := rfl

/-- `charCodeAt(0)`. -/
def charCode (c : Char) : Nat :=
  if c.toNat < 0x10000 then c.toNat else 0xd800 + (c.toNat - 0x10000) / 0x400

/-- `length`. -/
def units (t : List Char) : Nat := (t.map fun c => if c.toNat < 0x10000 then 1 else 2).sum

end js

namespace pcoin.block

def CHARSET : List Char := "qpzry9x8gf2tvdw0s3jn54khce6mua7l".toList

/-- The loops of both functions over the data part. -/
def values : List Char → Except String (List Nat)
  | [] => return []
  | ch :: rest =>
    match CHARSET.idxOf? ch with
    | none => throw ("bad bech32 character '" ++ ch.toString ++ "'")
    | some v => return v :: (← values rest)

variable (J : js.Casing)

def assertBech32Checksum (addr : List Char) : Except String Unit :=
  let a := J.toLowerCase addr
  if addr ≠ a ∧ addr ≠ J.toUpperCase addr then throw "mixed-case bech32 address"
  else
    match js.splitLast '1' a with
    | none => throw ("not a bech32 address: " ++ String.ofList addr)
    | some (hrp, data) =>
      if hrp = [] ∨ js.units data < 6 then throw ("not a bech32 address: " ++ String.ofList addr)
      else do
        let expanded := hrp.map (js.charCode · >>> 5) ++ 0 :: hrp.map (js.charCode · &&& 31)
        let data ← values data
        if Bech32.polymod (expanded ++ data) ≠ 1 then
          throw <| "the address checksum is wrong -- it has a typo. Coins sent to it could " ++
            "never be spent, so the pool refuses it. Copy the address again from your wallet."

/-- The end of `addressToScript`, from the values of the data part. -/
def dataToScript (data : List Nat) : Except String Bytes :=
  if data.length < 7 then throw "bech32 payload too short"
  else
    let payload := data.take (data.length - 6)
    let version := payload.headD 0
    if version ≠ 0 then
      throw ("witness v" ++ toString version ++ " not supported; pool pays P2WPKH only")
    else
      -- The accumulator is an int32, of which only the low twelve bits are ever read.
      let prog := (regroup 32 5 8 (payload.drop 1)).out
      if prog.length ≠ 20 then
        throw ("witness program is " ++ toString prog.length ++ " bytes, expected 20")
      else return 0x00 :: 0x14 :: bytes prog

def addressToScript (addr expectHrp : List Char) : Except String Bytes :=
  match js.splitLast '1' (J.toLowerCase addr) with
  | none => throw ("not a bech32 address: " ++ String.ofList addr)
  | some (hrp, data) =>
    if hrp = [] then throw ("not a bech32 address: " ++ String.ofList addr)
    else if hrp ≠ expectHrp then
      throw <| "wrong hrp '" ++ String.ofList hrp ++ "' -- expected '" ++ String.ofList expectHrp ++
        "'. A mainnet pool must never pay a regtest or Bitcoin address; the reward would be unspendable."
    else values data >>= dataToScript

/-- The `try` of the login handler. -/
def login (addr hrp : List Char) : Except String Bytes := do
  let script ← addressToScript J addr hrp
  assertBech32Checksum J addr
  return script

variable {J}

theorem charset_idxOf (c : Char) (d : Nat) :
    CHARSET.idxOf? c = some d ↔ d < 32 ∧ c = Bech32.symbol d := by
  have hmap : ∀ l : List Char, (l.map ([·])).idxOf? [c] = l.idxOf? c := by
    intro l
    induction l with
    | nil => rfl
    | cons x l ih => simp [List.idxOf?_cons, ih]
  have hvalue := Bech32.value_eq_some_iff [c] d
  rw [Bech32.value, hmap, List.singleton_inj] at hvalue
  exact hvalue

theorem values_eq_ok_iff {text : List Char} {vs : List Nat} :
    values text = .ok vs ↔ (∀ v ∈ vs, v < 32) ∧ text = vs.map Bech32.symbol := by
  rw [← mapM_value_eq_some_iff charset_idxOf]
  induction text generalizing vs with
  | nil => simp [values, pure, Except.pure]
  | cons ch rest ih =>
    rw [values, List.mapM_cons]
    cases hch : CHARSET.idxOf? ch with
    | none => simp [throw, throwThe, MonadExceptOf.throw]
    | some v =>
      cases hrest : values rest with
      | error e =>
        have hnone : rest.mapM CHARSET.idxOf? = none := by
          apply Option.eq_none_iff_forall_ne_some.mpr
          intro vs' hvs'
          rw [ih.mpr hvs'] at hrest
          cases hrest
        simp [bind, Except.bind, hnone]
      | ok vs' => simp [bind, Except.bind, pure, Except.pure, ih.mp hrest]

/-- `s` writes version zero and the groups under the prefix, with the checksum that belongs to them,
    in one case. KELVIN SIGN counts as a capital K. -/
def Writes (hrp : List Char) (groups : List Nat) (s : List Char) : Prop :=
  (∀ v ∈ groups, v < 32) ∧
    (s = Bech32.encode hrp (0 :: groups) .bech32 ∨
      s.map asK = (Bech32.encode hrp (0 :: groups) .bech32).map Char.toUpper)

/-- The script that the pool pays for the groups. -/
def scriptOf (groups : List Nat) : Bytes := 0x00 :: 0x14 :: bytes (regroup 32 5 8 groups).out

theorem asK_eq_toUpper_fold {c : Char} (h : IsASCII c ∨ c = kelvin) (hlow : c.isLower = false) :
    asK c = (Unicode.fold c).toUpper := by
  by_cases hk : c = kelvin
  · subst hk
    decide
  · rw [asK, if_neg hk, (letterCase (h.resolve_right hk)).upper hlow]

theorem fold_asK (c : Char) : Unicode.fold (asK c) = Unicode.fold c := by
  by_cases hk : c = kelvin
  · subst hk
    decide
  · rw [asK, if_neg hk]

theorem toUpper_eq_self {c : Char} (h : c.isLower = false) : c.toUpper = c := by
  unfold Char.toUpper
  refine dif_neg fun hlow => ?_
  change (decide (c.val ≥ 'a'.val) && decide (c.val ≤ 'z'.val)) = false at h
  rw [Bool.and_eq_false_iff, decide_eq_false_iff_not, decide_eq_false_iff_not] at h
  exact h.elim (absurd hlow.1) (absurd hlow.2)

theorem toUpper_kelvin : kelvin.toUpper = kelvin := toUpper_eq_self (by decide)

/-- One case of a text whose lower case is known. -/
theorem oneCase_iff (J : js.Casing) {s t : List Char} (ht : LowerCase t) :
    ((s = J.toLowerCase s ∨ s = J.toUpperCase s) ∧ J.toLowerCase s = t) ↔
      (s = t ∨ s.map asK = t.map Char.toUpper) := by
  have hfix : t.map Unicode.fold = t := (List.map_congr_left fun c hc =>
    fold_eq_self (ht c hc).1.ascii (ht c hc).2).trans (List.map_id t)
  constructor
  · rintro ⟨hs, hlower⟩
    have hsimple := J.lower_ascii s fun d hd => (ht d (hlower ▸ hd)).1.ascii
    rw [J.lower_simple s hsimple] at hs hlower
    rw [J.upper_simple s hsimple] at hs
    rcases hs with hs | hs
    · exact .inl (hs.trans hlower)
    · right
      rw [← hlower, List.map_map]
      refine List.map_congr_left fun c hc => asK_eq_toUpper_fold (hsimple c hc) ?_
      rw [hs] at hc
      obtain ⟨d, hd, rfl⟩ := List.mem_map.mp hc
      rcases hsimple d hd with hd | rfl
      · exact (letterCase hd).toUpper.2
      · rw [toUpper_kelvin]
        decide
  · rintro (rfl | hs)
    · have hsimple : ∀ c ∈ s, IsASCII c ∨ c = kelvin := fun c hc => .inl (ht c hc).1.ascii
      rw [J.lower_simple s hsimple]
      exact ⟨.inl hfix.symm, hfix⟩
    · have hchar : ∀ c ∈ s, c = kelvin ∨ IsASCII c ∧ c.isLower = false := by
        intro c hc
        by_cases hk : c = kelvin
        · exact .inl hk
        · have hmem := List.mem_map_of_mem (f := asK) hc
          rw [hs, asK, if_neg hk] at hmem
          obtain ⟨d, hd, rfl⟩ := List.mem_map.mp hmem
          exact .inr (letterCase (ht d hd).1.ascii).toUpper
      have hsimple : ∀ c ∈ s, IsASCII c ∨ c = kelvin := fun c hc => (hchar c hc).symm.imp_left And.left
      rw [J.lower_simple s hsimple, J.upper_simple s hsimple]
      constructor
      · right
        refine ((List.map_congr_left fun c hc => ?_).trans (List.map_id s)).symm
        rcases hchar c hc with rfl | ⟨-, hlow⟩
        · exact toUpper_kelvin
        · exact toUpper_eq_self hlow
      · calc s.map Unicode.fold = (s.map asK).map Unicode.fold := by
              rw [List.map_map]
              exact List.map_congr_left fun c _ => (fold_asK c).symm
          _ = (t.map Char.toUpper).map Unicode.fold := by rw [hs]
          _ = t := by
            rw [List.map_map]
            exact (List.map_congr_left fun c hc =>
              fold_toUpper (ht c hc).1.ascii (ht c hc).2).trans (List.map_id t)

/-- Twenty bytes come out of thirty-two groups, and of thirty-three. -/
theorem length_out_eq_twenty {groups : List Nat} (h : ∀ v ∈ groups, v < 32) :
    (regroup 32 5 8 groups).out.length = 20 ↔ groups.length = 32 ∨ groups.length = 33 := by
  have hholds := @regroup_holds 32 5 8 (by decide) (by decide) groups h
  have hlen := hholds.length
  have hleft := hholds.left
  omega

theorem dataToScript_eq_ok_iff {data : List Nat} {script : Bytes} :
    dataToScript data = .ok script ↔ ∃ groups tail : List Nat, data = 0 :: groups ++ tail ∧
      tail.length = 6 ∧ (regroup 32 5 8 groups).out.length = 20 ∧ script = scriptOf groups := by
  constructor
  · intro h
    simp only [dataToScript] at h
    split at h
    case isTrue => cases h
    case isFalse hlong =>
      split at h
      case isTrue => cases h
      case isFalse hversion =>
        split at h
        case isTrue => cases h
        case isFalse hprog =>
          rw [not_not] at hversion hprog
          refine ⟨(data.take (data.length - 6)).drop 1, data.drop (data.length - 6), ?_,
            by rw [List.length_drop]; omega, hprog, (Except.ok.inj h).symm⟩
          have hne : data.take (data.length - 6) ≠ [] := by
            rw [← List.length_pos_iff, List.length_take]
            omega
          obtain ⟨version, rest, hpayload⟩ := List.exists_cons_of_ne_nil hne
          rw [hpayload, List.headD_cons] at hversion
          have hdata := (List.take_append_drop (data.length - 6) data).symm
          rw [hpayload, hversion] at hdata
          rw [hpayload, List.drop_one, List.tail_cons]
          exact hdata
  · rintro ⟨groups, tail, rfl, hlen, hprog, rfl⟩
    have hlength : (0 :: groups ++ tail).length - 6 = (0 :: groups).length := by
      rw [List.length_append, hlen, Nat.add_sub_cancel]
    rw [dataToScript, if_neg (by simp only [List.length_append, List.length_cons]; omega)]
    simp only [hlength, List.take_left, List.headD_cons, List.drop_one, List.tail_cons]
    rw [if_neg (by decide), if_neg (by simpa using hprog)]
    rfl

theorem one_notMem_symbols {vs : List Nat} (h : ∀ v ∈ vs, v < 32) : '1' ∉ vs.map Bech32.symbol := by
  intro hmem
  obtain ⟨v, hv, hone⟩ := List.mem_map.mp hmem
  exact (Bech32.symbol_spec v (h v hv)).2.1 hone

theorem addressToScript_eq_ok_iff {addr hrp : List Char} {script : Bytes} :
    addressToScript J addr hrp = .ok script ↔ hrp ≠ [] ∧ ∃ groups tail : List Nat,
      (∀ v ∈ 0 :: groups ++ tail, v < 32) ∧ tail.length = 6 ∧
      J.toLowerCase addr = hrp ++ '1' :: (0 :: groups ++ tail).map Bech32.symbol ∧
      (regroup 32 5 8 groups).out.length = 20 ∧ script = scriptOf groups := by
  constructor
  · intro h
    rw [addressToScript] at h
    split at h
    case h_1 => cases h
    case h_2 before after hsplit =>
      split at h
      case isTrue => cases h
      case isFalse hne =>
        split at h
        case isTrue => cases h
        case isFalse hhrp =>
          rw [not_not] at hhrp
          subst hhrp
          cases hdata : values after with
          | error e => simp [hdata, bind, Except.bind] at h
          | ok data =>
            obtain ⟨hlt, rfl⟩ := values_eq_ok_iff.mp hdata
            simp only [hdata, bind, Except.bind] at h
            obtain ⟨groups, tail, rfl, hlen, hprog, rfl⟩ := dataToScript_eq_ok_iff.mp h
            exact ⟨hne, groups, tail, hlt, hlen, (js.splitLast_eq_some.mp hsplit).1, hprog, rfl⟩
  · rintro ⟨hne, groups, tail, hlt, hlen, htext, hprog, rfl⟩
    rw [addressToScript, htext, js.splitLast_eq_some.mpr ⟨rfl, one_notMem_symbols hlt⟩]
    simp only [if_neg hne, values_eq_ok_iff.mpr ⟨hlt, rfl⟩, bind, Except.bind]
    rw [if_neg (by simp)]
    exact dataToScript_eq_ok_iff.mpr ⟨groups, tail, rfl, hlen, hprog, rfl⟩

theorem assertBech32Checksum_eq_ok_iff {addr hrp : List Char} (hne : hrp ≠ [])
    (hhrp : ∀ c ∈ hrp, Bech32.Printable c) {data : List Nat} (hdata : ∀ v ∈ data, v < 32)
    (hlong : 6 ≤ data.length)
    (htext : J.toLowerCase addr = hrp ++ '1' :: data.map Bech32.symbol) :
    assertBech32Checksum J addr = .ok () ↔
      (addr = J.toLowerCase addr ∨ addr = J.toUpperCase addr) ∧
        Bech32.polymod (Bech32.hrpExpand hrp ++ data) = 1 := by
  have hplain : ∀ {t : List Char}, (∀ c ∈ t, Bech32.Printable c) →
      (∀ c ∈ t, js.charCode c = c.toNat) ∧ js.units t = t.length := by
    intro t ht
    have hsmall : ∀ c ∈ t, c.toNat < 0x10000 := fun c hc => (ht c hc).ascii.trans (by decide)
    refine ⟨fun c hc => by rw [js.charCode, if_pos (hsmall c hc)], ?_⟩
    rw [js.units, List.map_congr_left fun c hc => if_pos (hsmall c hc)]
    simp
  have hunits : js.units (data.map Bech32.symbol) = data.length := by
    rw [(hplain fun c hc => ?_).2, List.length_map]
    obtain ⟨v, hv, rfl⟩ := List.mem_map.mp hc
    exact (Bech32.symbol_spec v (hdata v hv)).1
  have hexpand : hrp.map (js.charCode · >>> 5) ++ 0 :: hrp.map (js.charCode · &&& 31) =
      Bech32.hrpExpand hrp := by
    have hcode := (hplain hhrp).1
    rw [Bech32.hrpExpand, List.map_congr_left fun c hc => congrArg (· >>> 5) (hcode c hc),
      List.map_congr_left fun c hc => congrArg (· &&& 31) (hcode c hc), List.append_assoc]
    rfl
  simp only [assertBech32Checksum]
  by_cases hcase : addr = J.toLowerCase addr ∨ addr = J.toUpperCase addr
  case neg =>
    rw [if_pos (not_or.mp hcase)]
    simp [hcase, throw, throwThe, MonadExceptOf.throw]
  case pos =>
    rw [if_neg (by rw [← not_or, not_not]; exact hcase), htext,
      js.splitLast_eq_some.mpr ⟨rfl, one_notMem_symbols hdata⟩]
    simp only [hunits, values_eq_ok_iff.mpr ⟨hdata, rfl⟩, bind, Except.bind, hexpand]
    rw [if_neg (by simp [hne]; omega)]
    by_cases hchk : Bech32.polymod (Bech32.hrpExpand hrp ++ data) = 1
    · rw [htext] at hcase
      simp [hchk, hcase, pure, Except.pure]
    · simp [hchk, throw, throwThe, MonadExceptOf.throw]

/-- The texts that are let in, and what is paid to them. -/
theorem login_eq_ok_iff {hrp : List Char} (hne : hrp ≠ []) (hhrp : LowerCase hrp) {s : List Char}
    {script : Bytes} : login J s hrp = .ok script ↔
      ∃ groups, Writes hrp groups s ∧ (groups.length = 32 ∨ groups.length = 33) ∧
        script = scriptOf groups := by
  have hprint : ∀ c ∈ hrp, Bech32.Printable c := fun c hc => (hhrp c hc).1
  constructor
  · intro h
    cases hscript : addressToScript J s hrp with
    | error e => simp [login, hscript, bind, Except.bind] at h
    | ok script' =>
      obtain ⟨-, groups, tail, hlt, hlen, htext, hprog, rfl⟩ := addressToScript_eq_ok_iff.mp hscript
      cases hassert : assertBech32Checksum J s with
      | error e => simp [login, hscript, hassert, bind, Except.bind] at h
      | ok u =>
        simp only [login, hscript, hassert, bind, Except.bind, pure, Except.pure, Except.ok.injEq] at h
        obtain ⟨hcase, hchk⟩ := (assertBech32Checksum_eq_ok_iff hne hprint hlt
          (by rw [List.length_append]; omega) htext).mp hassert
        have hdata : ∀ v ∈ 0 :: groups, v < 32 := fun v hv => hlt v (List.mem_append_left _ hv)
        have htail := (Bech32.polymod_eq_constant_iff hprint hdata hlen
          (fun v hv => hlt v (List.mem_append_right _ hv)) .bech32).mp hchk
        have hencode : J.toLowerCase s = Bech32.encode hrp (0 :: groups) .bech32 := by
          rw [htext, Bech32.encode, ← htail, List.map_append]
        have hgroups : ∀ v ∈ groups, v < 32 := fun v hv => hdata v (List.mem_cons_of_mem _ hv)
        exact ⟨groups, ⟨hgroups, (oneCase_iff J (lowerCase_encode hhrp hdata .bech32)).mp
          ⟨hcase, hencode⟩⟩, (length_out_eq_twenty hgroups).mp hprog, h.symm⟩
  · rintro ⟨groups, ⟨hgroups, hwrites⟩, hcount, rfl⟩
    have hdata : ∀ v ∈ 0 :: groups, v < 32 := List.forall_mem_cons.mpr ⟨by decide, hgroups⟩
    obtain ⟨hcase, hencode⟩ := (oneCase_iff J (lowerCase_encode hhrp hdata .bech32)).mpr hwrites
    have htail := Bech32.createChecksum_lt hrp (0 :: groups) .bech32
    have hlen := Bech32.length_createChecksum hrp (0 :: groups) .bech32
    have hlt : ∀ v ∈ 0 :: groups ++ Bech32.createChecksum hrp (0 :: groups) .bech32, v < 32 :=
      fun v hv => (List.mem_append.mp hv).elim (hdata v) (htail v)
    have htext := hencode
    rw [Bech32.encode, ← List.map_append] at htext
    have hscript := addressToScript_eq_ok_iff.mpr
      ⟨hne, groups, _, hlt, hlen, htext, (length_out_eq_twenty hgroups).mpr hcount, rfl⟩
    have hassert := (assertBech32Checksum_eq_ok_iff hne hprint hlt
      (by rw [List.length_append]; omega) htext).mpr
      ⟨hcase, (Bech32.polymod_eq_constant_iff hprint hdata hlen htail .bech32).mpr rfl⟩
    rw [login, hscript]
    simp only [bind, Except.bind, hassert]
    rfl

/-- Whole groups are the program's own. -/
theorem padded_regroup {groups : List Nat} (h : ∀ v ∈ groups, v < 32) (hcount : groups.length = 32) :
    Padded 8 5 (nats (bytes (regroup 32 5 8 groups).out)) groups := by
  have hholds := @regroup_holds 32 5 8 (by decide) (by decide) groups h
  have hlen := hholds.length
  have hleft := hholds.left
  have hzero : (regroup 32 5 8 groups).bits = 0 := by omega
  rw [nats_bytes hholds.symbols]
  refine ⟨hholds.symbols, h, 0, by decide, by omega, ?_⟩
  simpa [hzero, Nat.mod_one] using hholds.value

theorem map_asK_of_notMem {s : List Char} (h : kelvin ∉ s) : s.map asK = s := by
  refine (List.map_congr_left fun c hc => if_neg ?_).trans (List.map_id s)
  rintro rfl
  exact h hc

theorem Writes.length {hrp : List Char} {groups : List Nat} {s : List Char} (h : Writes hrp groups s) :
    s.length = hrp.length + groups.length + 8 := by
  have hencode := Bech32.length_encode hrp (0 :: groups) .bech32
  rw [List.length_cons] at hencode
  rcases h.2 with hs | hs
  · rw [hs, hencode]
    omega
  · have hlen := congrArg List.length hs
    rw [List.length_map, List.length_map, hencode] at hlen
    omega

theorem scriptOf_eq_iff {program : Bytes} {groups : List Nat} :
    0x00 :: 0x14 :: program = scriptOf groups ↔ program = bytes (regroup 32 5 8 groups).out := by
  simp [scriptOf]

/-- The addresses of version zero and twenty bytes are the texts of thirty-two groups. -/
theorem segwit_zero_iff {hrp : List Char} (hhrp : LowerCase hrp) {program : Bytes} {s : List Char} :
    (program.length = 20 ∧ Segwit hrp 0 program s) ↔
      ∃ groups, Writes hrp groups s ∧ groups.length = 32 ∧ kelvin ∉ s ∧ s.length ≤ 90 ∧
        0x00 :: 0x14 :: program = scriptOf groups := by
  have hprint : ∀ c ∈ hrp, Bech32.Printable c := fun c hc => (hhrp c hc).1
  constructor
  · rintro ⟨htwenty, t, ht, hs⟩
    obtain ⟨hshort, variant, groups, hlegal, hpadded, htext⟩ := (segwitText_iff hprint).mp ht
    obtain ⟨rfl, -⟩ := hlegal.zero rfl
    have hcount : groups.length = 32 := by
      obtain ⟨pad, hpad, hlen, -⟩ := hpadded.fill
      rw [nats, List.length_map, htwenty] at hlen
      omega
    have hgroups : ∀ v ∈ groups, v < 32 := hpadded.narrow_lt
    have hdata : ∀ v ∈ 0 :: groups, v < 32 := List.forall_mem_cons.mpr ⟨by decide, hgroups⟩
    have hlower := lowerCase_encode hhrp hdata .bech32
    have hkelvin : kelvin ∉ s := by
      intro hk
      have hnot : ¬IsASCII kelvin := by decide
      rcases hs with rfl | rfl
      · rw [htext] at hk
        exact hnot (hlower _ hk).1.ascii
      · obtain ⟨d, hd, hdk⟩ := List.mem_map.mp hk
        rw [htext] at hd
        exact hnot (hdk ▸ (letterCase (hlower d hd).1.ascii).toUpper.1)
    have hwrites : Writes hrp groups s := by
      refine ⟨hgroups, ?_⟩
      rw [map_asK_of_notMem hkelvin]
      exact hs.imp (·.trans htext) (·.trans (congrArg _ htext))
    refine ⟨groups, hwrites, hcount, hkelvin, ?_, scriptOf_eq_iff.mpr ?_⟩
    · rcases hs with rfl | rfl
      · exact hshort
      · rwa [List.length_map]
    · exact nats_injective (Padded.wide_unique (by decide) (by decide) hpadded
        (padded_regroup hgroups hcount))
  · rintro ⟨groups, hwrites, hcount, hkelvin, hshort, hscript⟩
    have hprogram := scriptOf_eq_iff.mp hscript
    have htwenty : program.length = 20 := by
      rw [hprogram, bytes, List.length_map]
      exact (length_out_eq_twenty hwrites.1).mpr (.inl hcount)
    have hpadded : Padded 8 5 (nats program) groups := hprogram ▸ padded_regroup hwrites.1 hcount
    refine ⟨htwenty, _, (segwitText_iff hprint).mpr ⟨?_, .bech32, groups, ?_, hpadded, rfl⟩, ?_⟩
    · rw [Bech32.length_encode, List.length_cons]
      have hlen := hwrites.length
      omega
    · exact ⟨by decide, by omega, fun _ => ⟨rfl, .inl htwenty⟩, fun h => absurd rfl h⟩
    · have hs := hwrites.2
      rwa [map_asK_of_notMem hkelvin] at hs

/-- `s` is let in exactly when it is an address of version zero and twenty bytes, and then its own
    program is paid. -/
def Faithful (J : js.Casing) (hrp s : List Char) : Prop :=
  ∀ script, login J s hrp = .ok script ↔
    ∃ program, (program.length = 20 ∧ Segwit hrp 0 program s) ∧ script = 0x00 :: 0x14 :: program

/-- A whole group more than twenty bytes fill. -/
def Surplus (hrp s : List Char) : Prop := ∃ groups, groups.length = 33 ∧ Writes hrp groups s

/-- What is let in and is no address: a surplus group, a KELVIN SIGN for a K, or more than ninety
    characters. -/
def Stray (hrp s : List Char) : Prop :=
  Surplus hrp s ∨ ∃ groups, groups.length = 32 ∧ Writes hrp groups s ∧ (kelvin ∈ s ∨ 90 < s.length)

theorem faithful_iff (J : js.Casing) {hrp : List Char} (hne : hrp ≠ []) (hhrp : LowerCase hrp)
    (s : List Char) : Faithful J hrp s ↔ ¬Stray hrp s := by
  constructor
  · intro hfaithful hstray
    -- What is let in is one address only, so its groups are thirty-two, in ASCII and not too long.
    have hpaid : ∀ groups, Writes hrp groups s → groups.length = 32 ∨ groups.length = 33 →
        ∃ groups', Writes hrp groups' s ∧ groups'.length = 32 ∧ kelvin ∉ s ∧ s.length ≤ 90 := by
      intro groups hwrites hcount
      obtain ⟨program, hsegwit, -⟩ :=
        (hfaithful _).mp ((login_eq_ok_iff hne hhrp).mpr ⟨groups, hwrites, hcount, rfl⟩)
      obtain ⟨groups', hwrites', hcount', hkelvin, hshort, -⟩ := (segwit_zero_iff hhrp).mp hsegwit
      exact ⟨groups', hwrites', hcount', hkelvin, hshort⟩
    rcases hstray with ⟨groups, hcount, hwrites⟩ | ⟨groups, hcount, hwrites, hbad⟩
    · obtain ⟨groups', hwrites', hcount', -⟩ := hpaid groups hwrites (.inr hcount)
      have hlen := hwrites.length
      rw [hwrites'.length] at hlen
      omega
    · obtain ⟨-, -, -, hkelvin, hshort⟩ := hpaid groups hwrites (.inl hcount)
      rcases hbad with hbad | hbad
      · exact hkelvin hbad
      · omega
  · intro hstray script
    rw [login_eq_ok_iff hne hhrp]
    constructor
    · rintro ⟨groups, hwrites, hcount, rfl⟩
      have hthirtytwo : groups.length = 32 :=
        hcount.resolve_right fun h => hstray (.inl ⟨groups, h, hwrites⟩)
      have hplain : ¬(kelvin ∈ s ∨ 90 < s.length) := fun h =>
        hstray (.inr ⟨groups, hthirtytwo, hwrites, h⟩)
      rw [not_or, not_lt] at hplain
      exact ⟨_, (segwit_zero_iff hhrp).mpr ⟨groups, hwrites, hthirtytwo, hplain.1, hplain.2, rfl⟩, rfl⟩
    · rintro ⟨program, hsegwit, rfl⟩
      obtain ⟨groups, hwrites, hcount, -, -, hscript⟩ := (segwit_zero_iff hhrp).mp hsegwit
      exact ⟨groups, hwrites, .inl hcount, hscript⟩

/-- No other text is paid what `s` is paid, capitals apart. -/
def Apart (J : js.Casing) (hrp s t : List Char) : Prop :=
  ∀ script, login J s hrp = .ok script → login J t hrp = .ok script → J.toLowerCase s = J.toLowerCase t

/-- The groups of a script of whole groups are known. -/
theorem scriptOf_inj {l r : List Nat} (hl : ∀ v ∈ l, v < 32) (hr : ∀ v ∈ r, v < 32)
    (hlcount : l.length = 32) (hrcount : r.length = 32) (h : scriptOf l = scriptOf r) : l = r := by
  have hprograms : bytes (regroup 32 5 8 l).out = bytes (regroup 32 5 8 r).out := scriptOf_eq_iff.mp h
  exact Padded.narrow_unique (by decide) (padded_regroup hl hlcount)
    (hprograms ▸ padded_regroup hr hrcount)

/-- A surplus group is read and dropped. -/
theorem scriptOf_concat {groups : List Nat} (h : ∀ v ∈ groups, v < 32) (hcount : groups.length = 32)
    (v : Nat) : scriptOf (groups ++ [v]) = scriptOf groups := by
  have hholds := @regroup_holds 32 5 8 (by decide) (by decide) groups h
  have hlen := hholds.length
  have hleft := hholds.left
  have hzero : (regroup 32 5 8 groups).bits = 0 := by omega
  have hstep : regroup 32 5 8 (groups ++ [v]) = regroupStep 32 5 8 (regroup 32 5 8 groups) v := by
    simp [regroup]
  rw [scriptOf, hstep, scriptOf]
  simp [regroupStep, hzero, drain]

theorem Writes.lower {hrp : List Char} (hhrp : LowerCase hrp) {groups : List Nat} {s : List Char}
    (h : Writes hrp groups s) : J.toLowerCase s = Bech32.encode hrp (0 :: groups) .bech32 := by
  have hdata : ∀ v ∈ 0 :: groups, v < 32 := List.forall_mem_cons.mpr ⟨by decide, h.1⟩
  exact ((oneCase_iff J (lowerCase_encode hhrp hdata .bech32)).mpr h.2).2

theorem apart_iff (J : js.Casing) {hrp : List Char} (hne : hrp ≠ []) (hhrp : LowerCase hrp)
    (s : List Char) : (∀ t, ¬Surplus hrp t → Apart J hrp s t) ↔ ¬Surplus hrp s := by
  constructor
  · rintro hapart ⟨groups, hcount, hwrites⟩
    -- The text without the surplus group is paid the same.
    have hsplit : groups = groups.take 32 ++ [groups[32]] := by
      rw [List.take_concat_get', List.take_of_length_le (by omega)]
    have htake : (groups.take 32).length = 32 := by rw [List.length_take]; omega
    have hlt : ∀ v ∈ groups.take 32, v < 32 := fun v hv => hwrites.1 v (List.mem_of_mem_take hv)
    have hshorter : Writes hrp (groups.take 32) (Bech32.encode hrp (0 :: groups.take 32) .bech32) :=
      ⟨hlt, .inl rfl⟩
    have hregular : ¬Surplus hrp (Bech32.encode hrp (0 :: groups.take 32) .bech32) := by
      rintro ⟨other, hother, hwrites'⟩
      have hlen := hwrites'.length
      rw [hshorter.length] at hlen
      omega
    have hscript : scriptOf groups = scriptOf (groups.take 32) :=
      (congrArg scriptOf hsplit).trans (scriptOf_concat hlt htake _)
    have hpaid : login J (Bech32.encode hrp (0 :: groups.take 32) .bech32) hrp =
        .ok (scriptOf groups) :=
      (login_eq_ok_iff hne hhrp).mpr ⟨_, hshorter, .inl htake, hscript⟩
    have hlogin := (login_eq_ok_iff (J := J) hne hhrp).mpr ⟨_, hwrites, .inr hcount, rfl⟩
    have hsame := hapart _ hregular _ hlogin hpaid
    rw [hwrites.lower hhrp, hshorter.lower hhrp] at hsame
    have hlen := congrArg List.length hsame
    rw [Bech32.length_encode, Bech32.length_encode, List.length_cons, List.length_cons] at hlen
    omega
  · intro hs t ht script hlogin hlogin'
    obtain ⟨l, hl, hlcount, rfl⟩ := (login_eq_ok_iff hne hhrp).mp hlogin
    obtain ⟨r, hr, hrcount, hscript⟩ := (login_eq_ok_iff hne hhrp).mp hlogin'
    have hlcount := hlcount.resolve_right fun h => hs ⟨l, h, hl⟩
    have hrcount := hrcount.resolve_right fun h => ht ⟨r, h, hr⟩
    rw [hl.lower hhrp, hr.lower hhrp, scriptOf_inj hl.1 hr.1 hlcount hrcount hscript]

/-- The login path lets in the payable addresses, each to its own script, apart from the stray
    texts; and two logins are paid the same script only when one of them has a surplus group. -/
theorem login_lets_in_iff (J : js.Casing) {hrp : List Char} (hne : hrp ≠ []) (hhrp : LowerCase hrp) :
    (∀ s, Faithful J hrp s ↔ ¬Stray hrp s) ∧
      ∀ s, (∀ t, ¬Surplus hrp t → Apart J hrp s t) ↔ ¬Surplus hrp s :=
  ⟨faithful_iff J hne hhrp, apart_iff J hne hhrp⟩

/-- A miner's address, and the script that pays it. -/
def minerAddress : List Char := "pc1qrgase7g8zvvrepxmh8kgnmf09freyqual7y7c6".toList

def minerScript : Bytes :=
  [0x00, 0x14, 26, 59, 12, 249, 7, 19, 24, 60, 132, 219, 185, 236, 137, 237, 47, 42, 71, 146, 3, 157]

theorem lowerCase_pc : LowerCase "pc".toList := by
  intro c hc
  obtain rfl | rfl : c = 'p' ∨ c = 'c' := by simpa using hc
  · exact ⟨⟨by decide, by decide⟩, rfl⟩
  · exact ⟨⟨by decide, by decide⟩, rfl⟩

/-- The address with a surplus group of ones, and its own checksum. -/
def surplusAddress : List Char := "pc1qrgase7g8zvvrepxmh8kgnmf09freyqual7y7cmp".toList

theorem login_samples : login .simple minerAddress "pc".toList = .ok minerScript ∧
    login .simple surplusAddress "pc".toList = .ok minerScript := by
  decide +kernel

theorem login_lets_in_mainnet :
    login .simple minerAddress "pc".toList = .ok minerScript ∧
      (∀ s, Faithful .simple "pc".toList s ↔ ¬Stray "pc".toList s) ∧
      ∀ s, (∀ t, ¬Surplus "pc".toList t → Apart .simple "pc".toList s t) ↔ ¬Surplus "pc".toList s :=
  ⟨login_samples.1, login_lets_in_iff .simple (by decide) lowerCase_pc⟩

/-- The longer text is let in though it is no address, and it is paid what the miner's address is. -/
theorem surplusAddress_let_in : ¬Faithful .simple "pc".toList surplusAddress ∧
    ¬Apart .simple "pc".toList surplusAddress minerAddress := by
  obtain ⟨hregular, hsurplus⟩ := login_samples
  constructor
  · intro hfaithful
    obtain ⟨program, hsegwit, -⟩ := (hfaithful _).mp hsurplus
    obtain ⟨groups, hwrites, hcount, -⟩ := (segwit_zero_iff lowerCase_pc).mp hsegwit
    have hlen := hwrites.length
    rw [hcount] at hlen
    revert hlen
    decide
  · intro hapart
    have hsame := hapart minerScript hsurplus hregular
    revert hsame
    decide

end pcoin.block
