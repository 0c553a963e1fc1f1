import PCoin.Wrapdesk.Watch
import PCoin.Run.Basic

/-! A wrap deposit is settled at most once. -/

namespace pcoin.wrapdesk.watch

open keeper

/-- A transaction that was mined successfully. -/
def Paid (c : Chain) (tx : Tx) : Prop := ∃ r ∈ c.mined, r.tx = tx ∧ r.status = 1

instance (c : Chain) (tx : Tx) : Decidable (Paid c tx) :=
  inferInstanceAs (Decidable (∃ r ∈ c.mined, _))

/-- A transaction that has not paid and never will: its nonce is taken. -/
def Gone (c : Chain) (tx : Tx) : Prop := tx.nonce < c.latest ∧ ¬Paid c tx

instance (c : Chain) (tx : Tx) : Decidable (Gone c tx) :=
  inferInstanceAs (Decidable (_ ∧ _))

/-- A deposit is recorded refunded. -/
def Refunded (seen : List Seen) (key : String) : Prop := ∃ v ∈ seen, v.key = key ∧ v.refunded = true

instance (seen : List Seen) (key : String) : Decidable (Refunded seen key) :=
  inferInstanceAs (Decidable (∃ v ∈ seen, _))

/-- A released wrap rests on a transaction that moved what was owed to the requester. -/
def Backed (cfg : Config) (s : State) (v : Seen) : Prop :=
  ∃ e ∈ v.verified, ∃ owed ∈ v.send_wpcn, ∃ logs, s.receipt e.hash = some (1, logs) ∧
    owed ≤ wpcnTo cfg logs e.dest / 10 ^ WPCN_DECIMALS + 5 / 1000

/-- Two wraps rest on the same transfers. -/
def Shares (v v' : Seen) : Prop :=
  ∃ e ∈ v.verified, ∃ e' ∈ v'.verified, e.hash = e'.hash ∧ lower e.dest = lower e'.dest

/-- What is promised of the deposits. -/
structure Exact (cfg : Config) (s : State) : Prop where
  /-- At most one transfer that `--send` signed for a wrap is mined. -/
  once : ∀ key, (s.chain.mined.filter fun r => r.status = 1 && (key, r.tx) ∈ s.signed).length ≤ 1
  /-- A deposit that is recorded refunded has none. -/
  refunded : ∀ v ∈ s.seen, v.refunded = true → ∀ q ∈ s.signed, q.1 = v.key → ¬Paid s.chain q.2
  backed : ∀ v ∈ s.seen, v.released = true → Backed cfg s v
  disjoint : ∀ v ∈ s.seen, ∀ v' ∈ s.seen, v.released = true → v'.released = true → v.key ≠ v'.key →
    ¬Shares v v'

/-- No other released wrap of the requester has the hash. -/
def Unused (seen : List Seen) (hash : Hash) (key dest : String) : Prop :=
  ∀ v ∈ seen, v.released = true → v.key ≠ key → ∀ e ∈ v.verified, e.hash = hash →
    lower e.dest ≠ lower dest

instance (seen : List Seen) (hash : Hash) (key dest : String) : Decidable (Unused seen hash key dest) :=
  inferInstanceAs (Decidable (∀ v ∈ seen, _ → _ → ∀ e ∈ v.verified, _ → _))

/-- `--send` is for a deposit that is not refunded, and of whose earlier transfers none is mined;
`--refunded` is for one of whose transfers none is mined or can be; `--released` has a hash that no
other wrap of the requester has. -/
def Heeded (s : State) : Event → Prop
  | .takesNonce _ _ => ∀ p ∈ s.proc, ¬Refunded s.seen p.key ∧
    ∀ q ∈ s.signed, q.1 = p.key → ¬Paid s.chain q.2
  | .refunded arg _ => ∀ q ∈ s.signed, q.1 = bare arg → Gone s.chain q.2
  | .released arg hash _ => ∀ key ∈ resolve s.outstanding (bare arg),
    ∀ out ∈ table.find Outstanding.key key s.outstanding, ∀ dest ∈ out.dest, ∀ x ∈ hash,
      Unused s.seen x key dest
  | _ => True

instance (s : State) : (e : Event) → Decidable (Heeded s e)
  | .takesNonce _ _ => inferInstanceAs (Decidable (∀ p ∈ s.proc, _ ∧ ∀ q ∈ s.signed, _ → _))
  | .refunded _ _ => inferInstanceAs (Decidable (∀ q ∈ s.signed, _ → _))
  | .released arg _ _ => inferInstanceAs (Decidable (∀ key ∈ resolve s.outstanding (bare arg),
      ∀ out ∈ table.find Outstanding.key key s.outstanding, ∀ dest ∈ out.dest, ∀ x ∈ _, Unused _ _ _ _))
  | .timer _ | .send _ _ | .connects _ | .sends _ _ _ | .remembers _ | .waits _ | .verifies _ | .dies
  | .accepts _ | .drops _ | .mines _ _ _ | .others _ _ | .minesForeign _ => .isTrue trivial

/-- A transaction that a release rests on has a lower nonce. -/
def Below (seen : List Seen) (nonce : Nat) : Prop :=
  ∀ v ∈ seen, v.released = true → ∀ e ∈ v.verified, ∀ tx, e.hash = .ours tx → tx.nonce < nonce

/-- What a run of `--send` has made sure of. -/
def ProcOk (s : State) (p : Proc) : Prop :=
  match p.point with
  | .connect => True
  | .nonce => True
  | .send nonce => nonce ≤ s.chain.latest ∧ ¬Refunded s.seen p.key ∧ Below s.seen nonce ∧
    (∀ q ∈ s.signed, q.2.nonce ≤ nonce) ∧
    ∀ q ∈ s.signed, q.1 = p.key → q.2.nonce < nonce → Gone s.chain q.2
  | .remember tx | .wait tx | .verify tx => Below s.seen tx.nonce

/-- What holds of the ledger and the chain. -/
structure Inv (cfg : Config) (s : State) : Prop where
  nonces : ∀ q ∈ s.signed, q.2.nonce ≤ s.chain.latest
  /-- Of two transactions for a wrap the earlier one does not pay. -/
  once : ∀ q ∈ s.signed, ∀ q' ∈ s.signed, q.1 = q'.1 → q.2.nonce < q'.2.nonce → Gone s.chain q.2
  refunded : ∀ v ∈ s.seen, v.refunded = true → ∀ q ∈ s.signed, q.1 = v.key → Gone s.chain q.2
  backed : ∀ v ∈ s.seen, v.released = true → Backed cfg s v
  disjoint : ∀ v ∈ s.seen, ∀ v' ∈ s.seen, v.released = true → v'.released = true → v.key ≠ v'.key →
    ¬Shares v v'
  proc : ∀ p ∈ s.proc, ProcOk s p

variable {cfg : Config} {s t : State} {c c' : Chain}

theorem Gone.grows {tx : Tx} (h : Gone c tx) (hc : Chain.Grows c c') : Gone c' tx := by
  obtain ⟨hnonce, hpaid⟩ := h
  refine ⟨Nat.lt_of_lt_of_le hnonce hc.latest, ?_⟩
  rintro ⟨r, hr, rfl, hstatus⟩
  obtain hold | ⟨-, hnew⟩ := hc.new r hr
  · exact hpaid ⟨r, hold, rfl, hstatus⟩
  · omega

theorem Backed.mono {v : Seen} (h : Backed cfg s v)
    (hreceipt : ∀ hash x, s.receipt hash = some x → t.receipt hash = some x) : Backed cfg t v := by
  obtain ⟨e, he, owed, howed, logs, hlogs, hle⟩ := h
  exact ⟨e, he, owed, howed, logs, hreceipt _ _ hlogs, hle⟩

/-- What `mark` makes of the ledger. -/
theorem mem_mark {key : String} {f : Seen → Seen} {v : Seen} (hv : v ∈ (s.mark key f).seen) :
    (v ∈ s.seen ∧ v.key ≠ key) ∨
      ∃ x : Seen, x.key = key ∧ (x ∈ s.seen ∨ x = { key := key }) ∧ v = f x := by
  unfold State.mark table.upsert at hv
  simp only at hv
  split at hv
  · obtain ⟨x, hx, rfl⟩ := List.mem_map.mp hv
    by_cases hkey : x.key = key
    · rw [if_pos hkey]
      exact .inr ⟨x, hkey, .inl hx, rfl⟩
    · rw [if_neg hkey]
      exact .inl ⟨hx, hkey⟩
  · rename_i hnone
    obtain hv | hv := List.mem_append.mp hv
    · exact .inl ⟨hv, fun heq => hnone (List.mem_map.mpr ⟨v, hv, heq⟩)⟩
    · exact .inr ⟨{ key := key }, rfl, .inr rfl, List.mem_singleton.mp hv⟩

namespace Inv

theorem ends (h : Inv cfg s) : Inv cfg { s with proc := none } :=
  { h with proc := fun p hp => (by cases hp) }

theorem goes (h : Inv cfg s) (p : Proc) (point : Point) (hok : ProcOk s { p with point := point }) :
    Inv cfg (s.goes p point) :=
  { h with
    proc := fun p' hp' => by
      obtain rfl := Option.mem_some.mp hp'
      exact hok }

theorem sends (h : Inv cfg s) (sends : List Send) : Inv cfg { s with sends := sends } :=
  { h with }

/-- The node does something. -/
theorem grows (h : Inv cfg s) (hc : Chain.Grows s.chain c) : Inv cfg { s with chain := c } where
  nonces q hq := Nat.le_trans (h.nonces q hq) hc.latest
  once q hq q' hq' hkey hlt := (h.once q hq q' hq' hkey hlt).grows hc
  refunded v hv hrefunded q hq hkey := (h.refunded v hv hrefunded q hq hkey).grows hc
  backed v hv hreleased := by
    refine (h.backed v hv hreleased).mono fun hash x hx => ?_
    cases hash with
    | ours tx =>
      obtain ⟨r, hr, rfl⟩ := Option.map_eq_some_iff.mp hx
      exact Option.map_eq_some_iff.mpr ⟨r, hc.receipt_of hr, rfl⟩
    | foreign hash => exact hx
  disjoint := h.disjoint
  proc p hp := by
    have hok := h.proc p hp
    unfold ProcOk at hok ⊢
    split at hok <;> try exact hok
    obtain ⟨hle, hrefunded, hbelow, hnonces, hgone⟩ := hok
    exact ⟨Nat.le_trans hle hc.latest, hrefunded, hbelow, hnonces, fun q hq hkey hlt =>
      (hgone q hq hkey hlt).grows hc⟩

theorem foreign (h : Inv cfg s) (tx : Foreign) : Inv cfg { s with foreign := s.foreign ++ [tx] } :=
  { h with
    backed := fun v hv hreleased => by
      refine (h.backed v hv hreleased).mono fun hash x hx => ?_
      cases hash with
      | ours tx => exact hx
      | foreign hash =>
        obtain ⟨r, hr, rfl⟩ := Option.map_eq_some_iff.mp hx
        exact Option.map_eq_some_iff.mpr ⟨r, table.find_append hr _, rfl⟩ }

/-- A wrap is recorded released. -/
theorem release (h : Inv cfg s) (hproc : s.proc = none) (key : String) (hash : Hash) {e : Evidence}
    {owed : ℚ}
    (hbacked : ∃ logs, s.receipt e.hash = some (1, logs) ∧
      owed ≤ wpcnTo cfg logs e.dest / 10 ^ WPCN_DECIMALS + 5 / 1000)
    (hfresh : Unused s.seen e.hash key e.dest) :
    Inv cfg (s.mark key fun v =>
      { v with released := true, bsc_txhash := some hash, verified := some e,
               send_wpcn := some owed }) where
  nonces := h.nonces
  once := h.once
  refunded v hv hrefunded := by
    obtain ⟨hv, -⟩ | ⟨x, hkey, hx, rfl⟩ := mem_mark hv
    · exact h.refunded v hv hrefunded
    · obtain hx | rfl := hx
      · exact h.refunded x hx hrefunded
      · cases hrefunded
  backed v hv hreleased := by
    obtain ⟨hv, -⟩ | ⟨x, -, -, rfl⟩ := mem_mark hv
    · exact h.backed v hv hreleased
    · exact ⟨e, rfl, owed, rfl, hbacked⟩
  disjoint v hv v' hv' hreleased hreleased' hne := by
    obtain ⟨hv, hkey⟩ | ⟨x, hkey, -, rfl⟩ := mem_mark hv
    · obtain ⟨hv', -⟩ | ⟨x', -, -, rfl⟩ := mem_mark hv'
      · exact h.disjoint v hv v' hv' hreleased hreleased' hne
      · rintro ⟨e₁, he₁, e₂, he₂, hhash, hdest⟩
        obtain rfl := Option.mem_some.mp he₂
        exact hfresh v hv hreleased hkey e₁ he₁ hhash hdest
    · obtain ⟨hv', hkey'⟩ | ⟨x', hkey', -, rfl⟩ := mem_mark hv'
      · rintro ⟨e₁, he₁, e₂, he₂, hhash, hdest⟩
        obtain rfl := Option.mem_some.mp he₁
        exact hfresh v' hv' hreleased' hkey' e₂ he₂ hhash.symm hdest.symm
      · exact absurd (hkey.trans hkey'.symm) hne
  proc p hp := by
    rw [State.mark, hproc] at hp
    cases hp

/-- A deposit is recorded refunded. -/
theorem refunds (h : Inv cfg s) (hproc : s.proc = none) {key : String} (pcn : Option Amount)
    (hgone : ∀ q ∈ s.signed, q.1 = key → Gone s.chain q.2) :
    Inv cfg (s.mark key fun v =>
      { v with refunded := true, refund_pcn := pcn.orElse fun _ => v.refund_pcn }) where
  nonces := h.nonces
  once := h.once
  refunded v hv hrefunded := by
    obtain ⟨hv, -⟩ | ⟨x, rfl, -, rfl⟩ := mem_mark hv
    · exact h.refunded v hv hrefunded
    · exact hgone
  backed v hv hreleased := by
    obtain ⟨hv, -⟩ | ⟨x, -, hx, rfl⟩ := mem_mark hv
    · exact h.backed v hv hreleased
    · obtain hx | rfl := hx
      · exact h.backed x hx hreleased
      · cases hreleased
  disjoint v hv v' hv' hreleased hreleased' hne := by
    have hold : ∀ v ∈ (s.mark key fun v =>
        { v with refunded := true, refund_pcn := pcn.orElse fun _ => v.refund_pcn }).seen,
        v.released = true → ∃ x ∈ s.seen, x.released = true ∧ x.key = v.key ∧ x.verified = v.verified := by
      intro v hv hreleased
      obtain ⟨hv, -⟩ | ⟨x, -, hx, rfl⟩ := mem_mark hv
      · exact ⟨v, hv, hreleased, rfl, rfl⟩
      · obtain hx | rfl := hx
        · exact ⟨x, hx, hreleased, rfl, rfl⟩
        · cases hreleased
    obtain ⟨x, hx, hrel, hkey, hverified⟩ := hold v hv hreleased
    obtain ⟨x', hx', hrel', hkey', hverified'⟩ := hold v' hv' hreleased'
    have hdisjoint := h.disjoint x hx x' hx' hrel hrel' (by rwa [hkey, hkey'])
    unfold Shares at hdisjoint ⊢
    rwa [hverified, hverified'] at hdisjoint
  proc p hp := by
    rw [State.mark, hproc] at hp
    cases hp

/-- `--send` signs a transaction. -/
theorem signs (h : Inv cfg s) (p : Proc) (tx : Tx) (hok : ProcOk s { p with point := .send tx.nonce }) :
    Inv cfg { s with signed := s.signed ++ [(p.key, tx)], proc := none } := by
  obtain ⟨hle, hrefunded, -, hnonces, hgone⟩ := hok
  refine { h.ends with nonces := fun q hq => ?_, once := fun q hq q' hq' hkey hlt => ?_,
                       refunded := fun v hv hv' q hq hkey => ?_, proc := fun p hp => (by cases hp) }
  · obtain hq | hq := List.mem_append.mp hq
    · exact h.nonces q hq
    · rw [List.mem_singleton.mp hq]
      exact hle
  · obtain hq | hq := List.mem_append.mp hq
    · obtain hq' | hq' := List.mem_append.mp hq'
      · exact h.once q hq q' hq' hkey hlt
      · rw [List.mem_singleton.mp hq'] at hkey hlt
        exact hgone q hq hkey hlt
    · rw [List.mem_singleton.mp hq] at hkey hlt ⊢
      obtain hq' | hq' := List.mem_append.mp hq'
      · exact absurd hlt (Nat.not_lt.mpr (hnonces q' hq'))
      · rw [List.mem_singleton.mp hq'] at hlt
        exact absurd hlt (Nat.lt_irrefl _)
  · obtain hq | hq := List.mem_append.mp hq
    · exact h.refunded v hv hv' q hq hkey
    · rw [List.mem_singleton.mp hq] at hkey
      exact absurd ⟨v, hv, hkey.symm, hv'⟩ hrefunded

/-- The transactions that releases rest on are mined. -/
theorem below (h : Inv cfg s) : Below s.seen s.chain.latest := by
  intro v hv hreleased e he tx hhash
  obtain ⟨e', he', -, -, logs, hlogs, -⟩ := h.backed v hv hreleased
  obtain rfl : e = e' := Option.some.inj (he.symm.trans he')
  rw [hhash] at hlogs
  obtain ⟨r, hr, -⟩ := Option.map_eq_some_iff.mp hlogs
  obtain ⟨hmined, rfl⟩ := Chain.receipt_of_spec hr
  exact Chain.nonce_lt hmined

end Inv

/-- What a verified payment says. -/
theorem verify_yes {receipt : Option (Nat × List Log)} {hash : Hash} {dest : String} {expect : ℚ}
    {e : Evidence} (h : verify_wpcn_sent cfg receipt hash dest expect = .yes e) :
    e.hash = hash ∧ e.dest = dest ∧ ∃ logs, receipt = some (1, logs) ∧
      expect ≤ wpcnTo cfg logs dest / 10 ^ WPCN_DECIMALS + 5 / 1000 := by
  unfold verify_wpcn_sent at h
  split at h
  · cases h
  · rename_i status logs
    split at h
    · cases h
    rename_i hstatus
    simp only at h
    split at h
    · cases h
    · rename_i hle
      cases h
      obtain rfl : status = 1 := not_not.mp hstatus
      exact ⟨rfl, rfl, logs, rfl, not_lt.mp hle⟩

/-- A step that meets the condition keeps what holds. -/
theorem Inv.step (h : Inv cfg s) {e : Event} (hok : Heeded s e)
    (hstep : watch.step cfg s e = some t) : Inv cfg t := by
  cases e with
  | timer watch =>
    obtain ⟨_, -, hstep⟩ := Option.bind_eq_some_iff.mp hstep
    cases hstep
    exact { h with }
  | send arg day =>
    obtain ⟨_, -, hstep⟩ := Option.bind_eq_some_iff.mp hstep
    obtain ⟨p, -, hstep⟩ := Option.bind_eq_some_iff.mp hstep
    cases hstep
    exact h.goes _ _ trivial
  | connects ok =>
    obtain ⟨p, hp, hstep⟩ := Option.bind_eq_some_iff.mp hstep
    obtain ⟨_, -, hstep⟩ := Option.bind_eq_some_iff.mp hstep
    split at hstep
    · cases hstep
      exact h.goes _ _ trivial
    · cases hstep
      exact h.ends
  | takesNonce have_ bnb =>
    obtain ⟨p, hp, hstep⟩ := Option.bind_eq_some_iff.mp hstep
    obtain ⟨_, -, hstep⟩ := Option.bind_eq_some_iff.mp hstep
    split at hstep
    · cases hstep
      exact h.ends
    · cases hstep
      obtain ⟨hrefunded, hpaid⟩ := hok p hp
      exact h.goes _ _ ⟨Nat.le_refl _, hrefunded, h.below, h.nonces, fun q hq hkey hlt =>
        ⟨hlt, hpaid q hq hkey⟩⟩
  | sends gas gasPrice ok =>
    obtain ⟨p, hp, hstep⟩ := Option.bind_eq_some_iff.mp hstep
    split at hstep
    · rename_i nonce hpoint
      obtain ⟨_, -, hstep⟩ := Option.bind_eq_some_iff.mp hstep
      have hproc := h.proc p hp
      rw [ProcOk, hpoint] at hproc
      let tx : Tx :=
        { nonce := nonce, body := .transfer cfg.TOKEN p.dest (units p.amount).toNat, gas := gas,
          gasPrice := gasPrice }
      have hsigned := h.signs p tx hproc
      cases ok with
      | false =>
        cases hstep
        exact { hsigned with }
      | true =>
        cases hstep
        have haccepted := hsigned.grows (.accept s.chain tx)
        exact { haccepted with proc := fun p' hp' => Option.mem_some.mp hp' ▸ hproc.2.2.1 }
    · cases hstep
  | remembers day =>
    obtain ⟨p, hp, hstep⟩ := Option.bind_eq_some_iff.mp hstep
    split at hstep
    · rename_i tx hpoint
      cases hstep
      have hproc := h.proc p hp
      rw [ProcOk, hpoint] at hproc
      exact (h.sends _).goes p (.wait tx) hproc
    · cases hstep
  | waits late =>
    obtain ⟨p, hp, hstep⟩ := Option.bind_eq_some_iff.mp hstep
    split at hstep
    · rename_i tx hpoint
      have hproc := h.proc p hp
      rw [ProcOk, hpoint] at hproc
      split at hstep
      · cases late <;> cases hstep
        · exact h
        · exact h.ends
      · split at hstep
        · cases hstep
          exact h.ends
        · cases hstep
          exact h.goes _ _ hproc
    · cases hstep
  | verifies answered =>
    obtain ⟨p, hp, hstep⟩ := Option.bind_eq_some_iff.mp hstep
    split at hstep
    · rename_i tx hpoint
      have hproc := h.proc p hp
      rw [ProcOk, hpoint] at hproc
      simp only at hstep
      split at hstep
      · rename_i e hverdict
        cases hstep
        cases answered with
        | false => cases hverdict
        | true =>
          obtain ⟨hhash, hdest, logs, hlogs, hle⟩ := verify_yes hverdict
          rw [← hhash] at hlogs
          rw [← hdest] at hle
          have hreleased := h.ends.release rfl p.key (.ours tx) ⟨logs, hlogs, hle⟩
            fun v hv hrel hkey e' he' heq => absurd (hproc v hv hrel e' he' tx (heq.trans hhash))
              (Nat.lt_irrefl _)
          exact { hreleased with }
      · cases hstep
        exact h.ends
    · cases hstep
  | released arg hash answered =>
    obtain ⟨_, hproc, hstep⟩ := Option.bind_eq_some_iff.mp hstep
    obtain ⟨key, hkey, hstep⟩ := Option.bind_eq_some_iff.mp hstep
    obtain ⟨_, -, hstep⟩ := Option.bind_eq_some_iff.mp hstep
    obtain ⟨_, -, hstep⟩ := Option.bind_eq_some_iff.mp hstep
    obtain ⟨x, hx, hstep⟩ := Option.bind_eq_some_iff.mp hstep
    obtain ⟨out, hout, hstep⟩ := Option.bind_eq_some_iff.mp hstep
    obtain ⟨dest, hdest, hstep⟩ := Option.bind_eq_some_iff.mp hstep
    obtain ⟨_, -, hstep⟩ := Option.bind_eq_some_iff.mp hstep
    split at hstep
    · rename_i e hverdict
      cases hstep
      obtain ⟨hhash, rfl, logs, hlogs, hle⟩ := verify_yes hverdict
      rw [← hhash] at hlogs
      have hunused := hok key hkey out hout e.dest hdest x hx
      rw [← hhash] at hunused
      exact h.release ((Option.guard_eq_some' _).mp hproc) _ _ ⟨logs, hlogs, hle⟩ hunused
    · cases hstep
  | refunded arg pcn =>
    obtain ⟨_, hproc, hstep⟩ := Option.bind_eq_some_iff.mp hstep
    obtain ⟨_, -, hstep⟩ := Option.bind_eq_some_iff.mp hstep
    cases hstep
    exact h.refunds ((Option.guard_eq_some' _).mp hproc) pcn hok
  | dies =>
    cases hstep
    exact h.ends
  | accepts tx =>
    obtain ⟨_, -, hstep⟩ := Option.bind_eq_some_iff.mp hstep
    cases hstep
    exact h.grows (.accept s.chain tx)
  | drops tx =>
    cases hstep
    exact h.grows (.drop s.chain tx)
  | mines tx status logs =>
    unfold watch.step at hstep
    simp only at hstep
    split at hstep
    · rename_i hmine
      cases hstep
      exact h.grows (.mine hmine.1 hmine.2)
    · cases hstep
  | others nonce id =>
    obtain ⟨_, -, hstep⟩ := Option.bind_eq_some_iff.mp hstep
    cases hstep
    exact h.grows (.accept s.chain _)
  | minesForeign tx =>
    obtain ⟨_, -, hstep⟩ := Option.bind_eq_some_iff.mp hstep
    cases hstep
    exact h.foreign tx

theorem Inv.init : Inv cfg {} where
  nonces q hq := by cases hq
  once q hq := by cases hq
  refunded v hv := by cases hv
  backed v hv := by cases hv
  disjoint v hv := by cases hv
  proc p hp := by cases hp

theorem Inv.toExact (h : Inv cfg s) : Exact cfg s where
  once key := by
    refine Chain.length_filter_le fun r hr r' hr' hpaid hpaid' => ?_
    have hcase : ∀ r ∈ s.chain.mined, ∀ r' : Receipt, (decide (r.status = 1) && decide ((key, r.tx) ∈ s.signed)) = true →
        (decide (r'.status = 1) && decide ((key, r'.tx) ∈ s.signed)) = true → ¬r.tx.nonce < r'.tx.nonce := by
      intro r hr r' hpaid hpaid' hlt
      obtain ⟨hstatus, hsigned⟩ : r.status = 1 ∧ (key, r.tx) ∈ s.signed := by simpa using hpaid
      obtain ⟨-, hsigned'⟩ : r'.status = 1 ∧ (key, r'.tx) ∈ s.signed := by simpa using hpaid'
      exact (h.once _ hsigned _ hsigned' rfl hlt).2 ⟨r, hr, rfl, hstatus⟩
    have hle := hcase r hr r' hpaid hpaid'
    have hge := hcase r' hr' r hpaid' hpaid
    rw [Chain.nonce_unique hr hr' (by omega)]
  refunded v hv hrefunded q hq hkey := (h.refunded v hv hrefunded q hq hkey).2
  backed := h.backed
  disjoint := h.disjoint

/-- A deposit is settled at most once, if no deposit is sent for after it was refunded or paid
without a record, none is refunded that was sent for, and no hash closes two wraps. -/
theorem settled_once (cfg : Config) (s : State)
    (hrun : run.Steps (step cfg) Heeded {} s) : Exact cfg s :=
  (hrun.invariant (fun _ _ _ h hok hstep => h.step hok hstep) Inv.init).toExact

namespace sample

def config : Config :=
  { TOKEN := "0xtoken", PER_PERSON := 250, TOTAL_ALLOC := 9000, MAX_SEND := 250, FEE_PCT := 5,
    SEND_DAILY_CAP := 1000, CONFIRMATIONS := 100, OPENED_AT_HEIGHT := 1, CLOSED_AT_HEIGHT := 0 }

def requester : String := "0x1111111111111111111111111111111111111111"

/-- Two deposits of a requester, of 100 PCN each. -/
def watched : List Watched :=
  [⟨"pc1a", some requester, some [⟨"t1", 100, 100, some 5⟩]⟩,
    ⟨"pc1b", some requester, some [⟨"t2", 100, 100, some 6⟩]⟩]

/-- What is sent for a deposit, at a nonce. -/
def transferAt (nonce : Nat) : Tx :=
  { nonce := nonce, body := .transfer "0xtoken" requester 9500000000, gas := 60000,
    gasPrice := 1000000000 }

def transferred : Log :=
  { address := "0xToken", data := 9500000000,
    topics := [String.ofList TRANSFER_TOPIC, "0xkeeper",
      "0x0000000000000000000000001111111111111111111111111111111111111111"] }

/-- `--send` of a deposit, up to the broadcast. -/
def sending (ok : Bool) : List Event :=
  [.send "t1" "2026-10-01", .connects true, .takesNonce 100000000000 1, .sends 60000 1000000000 ok]

/-- The broadcast is remembered, mined and verified. -/
def paying (nonce : Nat) : List Event :=
  [.remembers "2026-10-01", .mines (transferAt nonce) 1 [transferred], .waits false, .verifies true]

end sample

open sample in
theorem settled_once_paid :
    ∃ s, run.exec (step config) {} ([.timer watched] ++ sending true ++ paying 0) = some s ∧
      s.seen.map (fun v => (v.key, v.released)) = [("t1:pc1a", true)] ∧ Exact config s := by
  have hrun : ((run.exec (step config) {} ([.timer watched] ++ sending true ++ paying 0)).map
      fun s => s.seen.map fun v => (v.key, v.released)) = some [("t1:pc1a", true)] := by
    decide +kernel
  obtain ⟨s, hexec, hseen⟩ := Option.map_eq_some_iff.mp hrun
  refine ⟨s, hexec, hseen, settled_once config s (run.steps_of_exec _ hexec ?_)⟩
  decide +kernel

open sample in
/-- The answer to a broadcast is lost, and the node has executed it. The deposit is sent for
again. -/
theorem lost_answer_paid_twice :
    ¬∀ cfg s, run.Steps (step cfg) (fun _ _ => True) {} s → Exact cfg s := by
  have hrun : ((run.exec (step config) {} ([.timer watched] ++ sending false ++
      [.accepts (transferAt 0), .mines (transferAt 0) 1 [transferred]] ++ sending true ++ paying 1)).map
        fun s => (s.chain.mined.filter fun r => r.status = 1 && ("t1:pc1a", r.tx) ∈ s.signed).length) =
          some 2 := by
    decide +kernel
  obtain ⟨s, hexec, hlength⟩ := Option.map_eq_some_iff.mp hrun
  intro hall
  have honce := (hall config s (run.steps_of_exec _ hexec (run.meets_true _ _))).once "t1:pc1a"
  omega

open sample in
/-- A deposit is recorded refunded, and sent for before the timer has run again. -/
theorem refunded_then_paid : ¬∀ cfg s, run.Steps (step cfg) (fun _ _ => True) {} s →
    ∀ v ∈ s.seen, v.refunded = true → ∀ q ∈ s.signed, q.1 = v.key → ¬Paid s.chain q.2 := by
  have hrun : ((run.exec (step config) {} ([.timer watched, .refunded "t1:pc1a" (some (.num 100))] ++
      sending true ++ paying 0)).map fun s => decide (∃ v ∈ s.seen, v.refunded = true ∧
        ∃ q ∈ s.signed, q.1 = v.key ∧ Paid s.chain q.2)) = some true := by
    decide +kernel
  obtain ⟨s, hexec, hpaid⟩ := Option.map_eq_some_iff.mp hrun
  obtain ⟨v, hv, hrefunded, q, hq, hkey, hpaid⟩ := of_decide_eq_true hpaid
  intro hall
  exact hall config s (run.steps_of_exec _ hexec (run.meets_true _ _)) v hv hrefunded q hq hkey hpaid

open sample in
/-- One transfer closes two deposits of a requester. -/
theorem one_hash_two_wraps : ¬∀ cfg s, run.Steps (step cfg) (fun _ _ => True) {} s →
    ∀ v ∈ s.seen, ∀ v' ∈ s.seen, v.released = true → v'.released = true → v.key ≠ v'.key →
      ¬Shares v v' := by
  have hrun : ((run.exec (step config) {} [.timer watched, .minesForeign ⟨"0xhash", 1, [transferred]⟩,
      .released "t1" (some (.foreign "0xhash")) true, .released "t2" (some (.foreign "0xhash")) true]).map
        State.seen) = some
      [⟨"t1:pc1a", true, false, some (.foreign "0xhash"), some ⟨95, requester, .foreign "0xhash"⟩,
          some 95, none⟩,
        ⟨"t2:pc1b", true, false, some (.foreign "0xhash"), some ⟨95, requester, .foreign "0xhash"⟩,
          some 95, none⟩] := by
    decide +kernel
  obtain ⟨s, hexec, hseen⟩ := Option.map_eq_some_iff.mp hrun
  intro hall
  have hdisjoint := hall config s (run.steps_of_exec _ hexec (run.meets_true _ _))
  rw [hseen] at hdisjoint
  exact hdisjoint _ List.mem_cons_self _ (List.mem_cons_of_mem _ List.mem_cons_self) rfl rfl (by decide)
    ⟨_, rfl, _, rfl, rfl, rfl⟩

end pcoin.wrapdesk.watch
