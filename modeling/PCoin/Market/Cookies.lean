import PCoin.Js.Text

namespace pcoin.market.cookies

/-- `[^@\s|]`. -/
def okChar (c : Char) : Bool := c ≠ '@' && !js.isSpace c && c ≠ '|'

/-- `/^[^@\s|]+@[^@\s|]+\.[^@\s|]+$/`: the text around its first `@`, where the part after it
has a dot with something on both sides. -/
def VALID_EMAIL (t : List Char) : Bool :=
  let user := t.takeWhile (· ≠ '@')
  let host := (t.dropWhile (· ≠ '@')).drop 1
  '@' ∈ t && user ≠ [] && user.all okChar && host.all okChar && '.' ∈ host.tail.dropLast

/-- HMAC-SHA256 under `cfg.sessionSecret`, in hexadecimal. -/
structure Hmac where
  hex : List Char → List Char
  injective : Function.Injective hex
  no_dot : ∀ p, '.' ∉ hex p

/-- The text in front of the last dot, if what follows it is its MAC in a domain. -/
def checked (hmac : Hmac) (domain t : List Char) : Option (List Char) := do
  let (p, got) ← js.splitLast '.' t
  guard (got = hmac.hex (domain ++ p))
  return p

structure Session where
  email : List Char
  expMs : ℚ
deriving DecidableEq

def verifyTok (hmac : Hmac) (now : Nat) (t : List Char) : Option Session := do
  let p ← checked hmac [] t
  let (email, exp) ← js.splitLast '|' p
  guard (email ≠ [])
  guard (VALID_EMAIL email)
  match js.number exp with
  | .finite expMs => if now < expMs then some ⟨email, expMs⟩ else none
  | _ => none

/-- `exp > Date.now()`. -/
def later (now : Nat) : js.Num → Bool
  | .nan => false
  | .infinite negative => !negative
  | .finite exp => now < exp

/-- `split(/;\s*/)`. -/
def splitCookies (header : List Char) : List (List Char) :=
  match header.splitOn ';' with
  | [] => []
  | c :: cs => c :: cs.map (·.dropWhile js.isSpace)

/-- The value of the first cookie whose text begins with `name=`. -/
def cookie (name : String) (header : List Char) : Option (List Char) :=
  let start := name.toList ++ ['=']
  ((splitCookies header).find? (start.isPrefixOf ·)).map (·.drop start.length)

/-- The account of a marker with its MAC in a domain. -/
def markerOf (hmac : Hmac) (now : Nat) (domain t : List Char) : Option (List Char) := do
  let p ← checked hmac domain t
  let (em, exp) ← js.splitLast '|' p
  guard (em ≠ [] ∧ VALID_EMAIL em ∧ later now (js.number exp))
  return em

/-- The token in a cookie; `none` also when `decodeURIComponent` throws. -/
def markerToken (name : String) (header : List Char) : Option (List Char) :=
  (cookie name header).bind js.decodeURIComponent

def pendingOf (hmac : Hmac) (now : Nat) (header : List Char) : Option (List Char) :=
  (markerToken "mkp" header).bind (markerOf hmac now "mkp:".toList)

def freshOf (hmac : Hmac) (now : Nat) (header : List Char) : Option (List Char) :=
  (markerToken "mkt_fresh" header).bind (markerOf hmac now "mfr:".toList)

/-- The cookies that are minted for an account. -/
inductive Kind
  | mkt
  | mkp
  | mkt_fresh
deriving DecidableEq

/-- What is put in front of the text that is signed. -/
def Kind.domain : Kind → List Char
  | .mkt => []
  | .mkp => "mkp:".toList
  | .mkt_fresh => "mfr:".toList

/-- A value minted for an e-mail that registration accepts; an expiry is a time plus a
constant, which is a safe integer. -/
structure Minted where
  kind : Kind
  email : List Char
  exp : Nat
  valid : VALID_EMAIL email
  safe : exp < 2 ^ 53

def payload (em : List Char) (exp : Nat) : List Char := em ++ '|' :: js.digits exp

/-- The MAC that `sign`, `pendMac` or `freshMac` computes for the value. -/
def Minted.mac (hmac : Hmac) (v : Minted) : List Char :=
  hmac.hex (v.kind.domain ++ payload v.email v.exp)

/-- The token of `sessionCookie`, `pendingCookie` or `freshCookie`. -/
def Minted.token (hmac : Hmac) (v : Minted) : List Char :=
  payload v.email v.exp ++ '.' :: v.mac hmac

/-- The text has the MAC of the value, whatever stands in front of it. -/
def Carries (hmac : Hmac) (v : Minted) (t : List Char) : Prop :=
  ∃ p, js.splitLast '.' t = some (p, v.mac hmac)

/-- Whatever is made of the value is accepted only as what it was minted as, for the
e-mail it was minted for. -/
structure Separated (hmac : Hmac) (now : Nat) (v : Minted) : Prop where
  session : ∀ t, Carries hmac v t → ∀ r, verifyTok hmac now t = some r →
    v.kind = .mkt ∧ r.email = v.email
  pending : ∀ header t, markerToken "mkp" header = some t → Carries hmac v t →
    ∀ em, pendingOf hmac now header = some em → v.kind = .mkp ∧ em = v.email
  fresh : ∀ header t, markerToken "mkt_fresh" header = some t → Carries hmac v t →
    ∀ em, freshOf hmac now header = some em → v.kind = .mkt_fresh ∧ em = v.email

/-- The value has expired, or is a session of an e-mail that is not one of the two marker
domains followed by an e-mail. -/
def Apart (now : Nat) (v : Minted) : Prop :=
  v.exp ≤ now ∨ v.kind = .mkt ∧ ∀ em, VALID_EMAIL em →
    v.email ≠ Kind.mkp.domain ++ em ∧ v.email ≠ Kind.mkt_fresh.domain ++ em

section

variable {hmac : Hmac} {now : Nat} {v : Minted} {domain t p em exp : List Char}

theorem checked_spec (h : checked hmac domain t = some p) :
    js.splitLast '.' t = some (p, hmac.hex (domain ++ p)) := by
  simp only [checked, Option.bind_eq_bind, Option.bind_eq_some_iff] at h
  obtain ⟨⟨p', got⟩, hsplit, _, hguard, hp⟩ := h
  obtain rfl := Option.some.inj hp
  have hgot : got = hmac.hex (domain ++ p') := by simpa [guard] using hguard
  rw [hsplit, hgot]

/-- What is accepted with the MAC of a value is the text that the MAC was computed for, so
that only the place of the domain can differ. -/
theorem accepted_split (hcarries : Carries hmac v t) (hchecked : checked hmac domain t = some p)
    (hsplit : js.splitLast '|' p = some (em, exp)) :
    domain ++ em = v.kind.domain ++ v.email ∧ exp = js.digits v.exp := by
  obtain ⟨p', hp'⟩ := hcarries
  rw [checked_spec hchecked] at hp'
  obtain ⟨-, hhex⟩ := Prod.mk.inj (Option.some.inj hp')
  have htext : domain ++ p = v.kind.domain ++ payload v.email v.exp := hmac.injective hhex
  obtain ⟨rfl, hexp⟩ := js.splitLast_eq_some.mp hsplit
  have hbar : '|' ∉ js.digits v.exp := js.not_mem_digits (by decide)
  -- both sides are the same text, cut at its last bar
  have hleft : js.splitLast '|' (domain ++ (em ++ '|' :: exp)) = some (domain ++ em, exp) :=
    js.splitLast_eq_some.mpr ⟨by simp, hexp⟩
  have hright : js.splitLast '|' (v.kind.domain ++ payload v.email v.exp) =
      some (v.kind.domain ++ v.email, js.digits v.exp) :=
    js.splitLast_eq_some.mpr ⟨by simp [payload], hbar⟩
  rw [htext, hright] at hleft
  obtain ⟨hem, hdigits⟩ := Prod.mk.inj (Option.some.inj hleft)
  exact ⟨hem.symm, hdigits.symm⟩

/-- An accepted session names the signed text up to its last bar, and has not expired. -/
theorem verifyTok_carried (hcarries : Carries hmac v t) {r : Session}
    (h : verifyTok hmac now t = some r) : r.email = v.kind.domain ++ v.email ∧ now < v.exp := by
  simp only [verifyTok, Option.bind_eq_bind, Option.bind_eq_some_iff] at h
  obtain ⟨p, hchecked, ⟨email, exp⟩, hsplit, _, -, _, -, h⟩ := h
  obtain ⟨hemail, rfl⟩ := accepted_split hcarries hchecked hsplit
  rw [js.number_digits v.safe] at h
  dsimp only at h
  split at h
  · rename_i hlt
    obtain rfl := Option.some.inj h
    exact ⟨hemail, by exact_mod_cast hlt⟩
  · cases h

/-- An accepted marker is what follows the domain in the signed text, and has not expired. -/
theorem markerOf_carried (hcarries : Carries hmac v t)
    (h : markerOf hmac now domain t = some em) :
    domain ++ em = v.kind.domain ++ v.email ∧ VALID_EMAIL em ∧ now < v.exp := by
  simp only [markerOf, Option.bind_eq_bind, Option.bind_eq_some_iff] at h
  obtain ⟨p, hchecked, ⟨em', exp⟩, hsplit, _, hguard, h⟩ := h
  obtain rfl := Option.some.inj h
  obtain ⟨hemail, rfl⟩ := accepted_split hcarries hchecked hsplit
  have hguard : em' ≠ [] ∧ VALID_EMAIL em' ∧ later now (js.number (js.digits v.exp)) := by
    simpa [guard] using hguard
  obtain ⟨-, hvalid, hlater⟩ := hguard
  rw [js.number_digits v.safe] at hlater
  exact ⟨hemail, hvalid, by simpa [later] using hlater⟩

theorem separated_of_apart (h : Apart now v) : Separated hmac now v := by
  refine ⟨fun t hcarries r hr => ?_, fun header t htoken hcarries em hem => ?_,
    fun header t htoken hcarries em hem => ?_⟩
  · obtain ⟨hemail, hlive⟩ := verifyTok_carried hcarries hr
    obtain hexpired | ⟨hkind, -⟩ := h
    · omega
    · rw [hkind] at hemail
      exact ⟨hkind, hemail⟩
  · rw [pendingOf, htoken, Option.bind_some] at hem
    obtain ⟨hemail, hvalid, hlive⟩ := markerOf_carried hcarries hem
    obtain hexpired | ⟨hkind, hapart⟩ := h
    · omega
    · rw [hkind] at hemail
      exact absurd hemail.symm (hapart em hvalid).1
  · rw [freshOf, htoken, Option.bind_some] at hem
    obtain ⟨hemail, hvalid, hlive⟩ := markerOf_carried hcarries hem
    obtain hexpired | ⟨hkind, hapart⟩ := h
    · omega
    · rw [hkind] at hemail
      exact absurd hemail.symm (hapart em hvalid).2

/-! ### What goes wrong otherwise -/

theorem checked_sign (hmac : Hmac) (domain p : List Char) :
    checked hmac domain (p ++ '.' :: hmac.hex (domain ++ p)) = some p := by
  have hsplit : js.splitLast '.' (p ++ '.' :: hmac.hex (domain ++ p)) =
      some (p, hmac.hex (domain ++ p)) := js.splitLast_eq_some.mpr ⟨rfl, hmac.no_dot _⟩
  rw [checked, hsplit]
  simp [guard]

theorem splitLast_payload (em : List Char) (n : Nat) :
    js.splitLast '|' (payload em n) = some (em, js.digits n) :=
  js.splitLast_eq_some.mpr ⟨rfl, js.not_mem_digits (by decide)⟩

theorem ne_nil_of_valid (h : VALID_EMAIL em) : em ≠ [] := by
  rintro rfl
  exact absurd h (by decide)

theorem verifyTok_sign (hvalid : VALID_EMAIL em) {n : Nat} (hsafe : n < 2 ^ 53) (hlive : now < n) :
    verifyTok hmac now (payload em n ++ '.' :: hmac.hex (payload em n)) = some ⟨em, n⟩ := by
  have hchecked := checked_sign hmac [] (payload em n)
  rw [List.nil_append] at hchecked
  have hlive' : (now : ℚ) < n := by exact_mod_cast hlive
  simp [verifyTok, hchecked, splitLast_payload, ne_nil_of_valid hvalid, hvalid,
    js.number_digits hsafe, hlive', guard]

theorem markerOf_sign (domain : List Char) (hvalid : VALID_EMAIL em) {n : Nat} (hsafe : n < 2 ^ 53)
    (hlive : now < n) :
    markerOf hmac now domain (payload em n ++ '.' :: hmac.hex (domain ++ payload em n)) = some em := by
  simp [markerOf, checked_sign, splitLast_payload, ne_nil_of_valid hvalid, hvalid,
    js.number_digits hsafe, later, hlive, guard]

/-- A domain in front of an e-mail makes another e-mail. -/
theorem valid_domain (kind : Kind) (h : VALID_EMAIL em) : VALID_EMAIL (kind.domain ++ em) := by
  have hall : kind.domain.all okChar = true := by cases kind <;> decide
  have huser : kind.domain.all (· ≠ '@') = true := by cases kind <;> decide
  have htake : (kind.domain ++ em).takeWhile (· ≠ '@') = kind.domain ++ em.takeWhile (· ≠ '@') :=
    List.takeWhile_append_of_pos (List.all_eq_true.mp huser)
  have hdrop : (kind.domain ++ em).dropWhile (· ≠ '@') = em.dropWhile (· ≠ '@') :=
    List.dropWhile_append_of_pos (List.all_eq_true.mp huser)
  simp only [VALID_EMAIL, Bool.and_eq_true, decide_eq_true_eq] at h ⊢
  obtain ⟨⟨⟨⟨hat, hne⟩, hok⟩, hhost⟩, hdot⟩ := h
  rw [htake, hdrop]
  refine ⟨⟨⟨⟨List.mem_append_right _ hat, ?_⟩, ?_⟩, hhost⟩, hdot⟩
  · exact fun hnil => hne (List.append_eq_nil_iff.mp hnil).2
  · rw [List.all_append, hall, hok]
    rfl

theorem not_mem_percent (b : UInt8) : ';' ∉ js.percent b := by
  have hlt := b.toNat_lt
  have hdigit : ∀ n, n < 16 → js.hexDigit n ≠ ';' := by decide
  have hhigh := hdigit (b.toNat / 16) (by omega)
  have hlow := hdigit (b.toNat % 16) (by omega)
  simp [js.percent, Ne.symm hhigh, Ne.symm hlow]

theorem not_mem_encode (t : List Char) : ';' ∉ js.encodeURIComponent t := by
  intro hmem
  obtain ⟨c, -, hc⟩ := List.mem_flatMap.mp hmem
  split at hc
  · rename_i hun
    obtain rfl := List.mem_singleton.mp hc
    exact absurd hun (by decide)
  · obtain ⟨b, -, hb⟩ := List.mem_flatMap.mp hc
    exact not_mem_percent b hb

/-- A cookie header that presents a text. -/
def headerOf (name : String) (t : List Char) : List Char :=
  name.toList ++ '=' :: js.encodeURIComponent t

theorem markerToken_header (name : String) (hname : ';' ∉ name.toList) (t : List Char) :
    markerToken name (headerOf name t) = some t := by
  have hno : ∀ c ∈ headerOf name t, (c == ';') = false := by
    intro c hc
    rw [beq_eq_false_iff_ne]
    rintro rfl
    obtain hc | hc := List.mem_append.mp hc
    · exact hname hc
    · obtain hc | hc := List.mem_cons.mp hc
      · exact absurd hc (by decide)
      · exact not_mem_encode t hc
  have hcookies : splitCookies (headerOf name t) = [headerOf name t] := by
    rw [splitCookies, List.splitOn, List.splitOnP_eq_singleton hno]
    rfl
  have hstart : headerOf name t = (name.toList ++ ['=']) ++ js.encodeURIComponent t := by
    simp [headerOf]
  have hcookie : cookie name (headerOf name t) = some (js.encodeURIComponent t) := by
    rw [cookie, hcookies, hstart]
    simp only [List.find?_cons, List.isPrefixOf_iff_prefix.mpr (List.prefix_append _ _), Option.map_some,
      List.drop_left]
  rw [markerToken, hcookie, Option.bind_some, js.decode_encode]

/-- The signed text itself, in front of its MAC. -/
theorem carries_signed (hmac : Hmac) (v : Minted) (p : List Char) :
    Carries hmac v (p ++ '.' :: v.mac hmac) :=
  ⟨p, js.splitLast_eq_some.mpr ⟨rfl, hmac.no_dot _⟩⟩

/-- A value in force is a session of its domain followed by its e-mail. -/
theorem verifyTok_relabelled (hlive : now < v.exp) :
    verifyTok hmac now ((v.kind.domain ++ payload v.email v.exp) ++ '.' :: v.mac hmac) =
      some ⟨v.kind.domain ++ v.email, v.exp⟩ := by
  have hpayload : v.kind.domain ++ payload v.email v.exp =
      payload (v.kind.domain ++ v.email) v.exp := by simp [payload]
  rw [Minted.mac, hpayload]
  exact verifyTok_sign (valid_domain v.kind v.valid) v.safe hlive

/-- A session in force, of an e-mail with a domain in front, is a marker of that domain. -/
theorem markerOf_relabelled (hmac : Hmac) (hlive : now < v.exp) (hkind : v.kind = .mkt) (hvalid : VALID_EMAIL em)
    (hemail : v.email = domain ++ em) :
    markerOf hmac now domain (payload em v.exp ++ '.' :: v.mac hmac) = some em := by
  have htext : v.kind.domain ++ payload v.email v.exp = domain ++ payload em v.exp := by
    simp [hkind, Kind.domain, payload, hemail]
  rw [Minted.mac, htext]
  exact markerOf_sign domain hvalid v.safe hlive

theorem apart_of_separated (h : Separated hmac now v) : Apart now v := by
  by_contra hnot
  simp only [Apart, not_or, not_le, not_and] at hnot
  obtain ⟨hlive, hmixed⟩ := hnot
  obtain ⟨hkind, -⟩ := h.session _ (carries_signed hmac v _) _ (verifyTok_relabelled hlive)
  refine hmixed hkind fun em hvalid => ⟨fun hemail => ?_, fun hemail => ?_⟩
  · have hmarker := markerOf_relabelled hmac hlive hkind hvalid hemail
    have htoken := markerToken_header "mkp" (by decide) (payload em v.exp ++ '.' :: v.mac hmac)
    have hkind' := (h.pending _ _ htoken (carries_signed hmac v _) em
      (by rw [pendingOf, htoken]; exact hmarker)).1
    rw [hkind] at hkind'
    cases hkind'
  · have hmarker := markerOf_relabelled hmac hlive hkind hvalid hemail
    have htoken :=
      markerToken_header "mkt_fresh" (by decide) (payload em v.exp ++ '.' :: v.mac hmac)
    have hkind' := (h.fresh _ _ htoken (carries_signed hmac v _) em
      (by rw [freshOf, htoken]; exact hmarker)).1
    rw [hkind] at hkind'
    cases hkind'

end

/-- Of all the values that were minted, none is accepted as another kind of cookie or for
another e-mail exactly when each has expired or is a session of an e-mail that does not
begin with the domain of a marker. -/
theorem cookies_separate_iff (hmac : Hmac) (now : Nat) (minted : Set Minted) :
    (∀ v ∈ minted, Separated hmac now v) ↔ ∀ v ∈ minted, Apart now v :=
  ⟨fun h v hv => apart_of_separated (h v hv), fun h v hv => separated_of_apart (h v hv)⟩

/-- A code for a character, in two of the hexadecimal digits. -/
def unary (c : Char) : List Char := List.replicate c.toNat '0' ++ ['1']

theorem unary_injective {c d : Char} {s t : List Char} (h : unary c ++ s = unary d ++ t) :
    c = d ∧ s = t := by
  have hcodes : ∀ (m n : Nat), List.replicate m '0' ++ ['1'] ++ s =
      List.replicate n '0' ++ ['1'] ++ t → m = n ∧ s = t := by
    intro m
    induction m with
    | zero =>
      intro n heq
      cases n with
      | zero => exact ⟨rfl, by simpa using heq⟩
      | succ n => simp [List.replicate_succ] at heq
    | succ m ih =>
      intro n heq
      cases n with
      | zero => simp [List.replicate_succ] at heq
      | succ n =>
        obtain ⟨rfl, hst⟩ := ih n (by simpa [List.replicate_succ] using heq)
        exact ⟨rfl, hst⟩
  obtain ⟨hnat, hst⟩ := hcodes _ _ h
  exact ⟨Char.toNat_inj.mp hnat, hst⟩

theorem flatMap_unary_injective : Function.Injective fun p : List Char => p.flatMap unary := by
  intro p
  induction p with
  | nil =>
    intro q heq
    cases q with
    | nil => rfl
    | cons d q => simp [unary] at heq
  | cons c p ih =>
    intro q heq
    cases q with
    | nil => simp [unary] at heq
    | cons d q =>
      simp only [List.flatMap_cons] at heq
      obtain ⟨rfl, hpq⟩ := unary_injective heq
      rw [ih hpq]

/-- An injective function to texts of hexadecimal digits. -/
def unaryHmac : Hmac where
  hex p := p.flatMap unary
  injective := flatMap_unary_injective
  no_dot p := by
    intro hmem
    obtain ⟨c, -, hc⟩ := List.mem_flatMap.mp hmem
    simp [unary, List.mem_replicate] at hc

/-- The marker of someone who has signed up. -/
def annPending : Minted := ⟨.mkp, "ann@x.am".toList, 1000, by decide, by decide⟩

/-- The session of an account whose e-mail begins with a domain. -/
def prefixedSession : Minted := ⟨.mkt, "mfr:ann@x.am".toList, 1000, by decide, by decide⟩

/-- The marker is a session of another e-mail, and the session a marker of another. -/
theorem domains_mix :
    verifyTok unaryHmac 0 ("mkp:".toList ++ annPending.token unaryHmac) =
      some ⟨"mkp:ann@x.am".toList, 1000⟩ ∧
    freshOf unaryHmac 0 (headerOf "mkt_fresh"
      (payload "ann@x.am".toList 1000 ++ '.' :: prefixedSession.mac unaryHmac)) =
        some "ann@x.am".toList ∧
    ¬ Separated unaryHmac 0 annPending ∧ ¬ Separated unaryHmac 0 prefixedSession := by
  have htext : "mkp:".toList ++ annPending.token unaryHmac =
      (annPending.kind.domain ++ payload annPending.email annPending.exp) ++
        '.' :: annPending.mac unaryHmac := (List.append_assoc ..).symm
  have hpending : verifyTok unaryHmac 0 ("mkp:".toList ++ annPending.token unaryHmac) =
      some ⟨annPending.kind.domain ++ annPending.email, annPending.exp⟩ := by
    rw [htext]
    exact verifyTok_relabelled (by decide)
  have hfresh : freshOf unaryHmac 0 (headerOf "mkt_fresh"
      (payload "ann@x.am".toList 1000 ++ '.' :: prefixedSession.mac unaryHmac)) =
        some "ann@x.am".toList := by
    rw [freshOf, markerToken_header "mkt_fresh" (by decide), Option.bind_some]
    exact markerOf_relabelled unaryHmac (v := prefixedSession) (by decide) rfl (by decide) rfl
  refine ⟨hpending, hfresh, fun h => ?_, fun h => ?_⟩
  · have hcarries : Carries unaryHmac annPending ("mkp:".toList ++ annPending.token unaryHmac) := by
      rw [htext]
      exact carries_signed unaryHmac annPending _
    have hkind := (h.session _ hcarries _ hpending).1
    cases hkind
  · have hkind := (h.fresh _ _ (markerToken_header "mkt_fresh" (by decide) _)
      (carries_signed unaryHmac prefixedSession _) _ hfresh).1
    cases hkind

end pcoin.market.cookies
