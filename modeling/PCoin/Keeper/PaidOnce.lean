import PCoin.Keeper.Pay
import PCoin.Run.Basic

/-! A key is paid at most once. -/

namespace pcoin.keeper

/-- A transaction that is not mined and never will be: its nonce is taken, or the node does not
have it and will not get it. -/
def Never (c : Chain) (rejected : List (String × Tx)) (q : String × Tx) : Prop :=
  (∀ r ∈ c.mined, r.tx ≠ q.2) ∧ (q.2.nonce < c.latest ∨ (q ∈ rejected ∧ q.2 ∉ c.pool))

/-- A transaction that does not pay. -/
def Gone (c : Chain) (rejected : List (String × Tx)) (q : String × Tx) : Prop :=
  (∃ r ∈ c.mined, r.tx = q.2 ∧ r.status ≠ 1) ∨ Never c rejected q

/-- The node does something, and does not come to have what was rejected. -/
structure Grows (c c' : Chain) (rejected : List (String × Tx)) : Prop extends Chain.Grows c c' where
  pool : ∀ tx ∈ c'.pool, tx ∈ c.pool ∨ ∀ q ∈ rejected, q.2 ≠ tx

variable {c c' : Chain} {rejected rejected' : List (String × Tx)} {q : String × Tx}

theorem Never.grows (h : Never c rejected q) (hc : Grows c c' rejected) : Never c' rejected q := by
  obtain ⟨hmined, hnever⟩ := h
  refine ⟨fun r hr heq => ?_, ?_⟩
  · obtain hr | ⟨hpool, hnonce⟩ := hc.new r hr
    · exact hmined r hr heq
    · rw [heq] at hpool hnonce
      obtain htaken | ⟨-, hout⟩ := hnever
      · omega
      · exact hout hpool
  · obtain htaken | ⟨hrejected, hout⟩ := hnever
    · exact .inl (Nat.lt_of_lt_of_le htaken hc.latest)
    · refine .inr ⟨hrejected, fun hin => ?_⟩
      obtain hin | hin := hc.pool _ hin
      · exact hout hin
      · exact hin q hrejected rfl

theorem Gone.grows (h : Gone c rejected q) (hc : Grows c c' rejected) : Gone c' rejected q :=
  h.imp (fun ⟨r, hr, hbad⟩ => ⟨r, hc.old r hr, hbad⟩) fun h => h.grows hc

theorem Never.mono (h : Never c rejected q) (hq : q ∈ rejected → q ∈ rejected') :
    Never c rejected' q :=
  ⟨h.1, h.2.imp_right fun hout => ⟨hq hout.1, hout.2⟩⟩

theorem Gone.mono (h : Gone c rejected q) (hq : q ∈ rejected → q ∈ rejected') :
    Gone c rejected' q :=
  h.imp_right fun h => h.mono hq

/-- What is gone is not mined successfully. -/
theorem Gone.status (h : Gone c rejected q) {r : Receipt} (hr : r ∈ c.mined) (htx : r.tx = q.2) :
    r.status ≠ 1 := by
  obtain ⟨r', hr', htx', hstatus⟩ | ⟨hmined, -⟩ := h
  · rw [Chain.nonce_unique hr hr' (by rw [htx, htx'])]
    exact hstatus
  · exact absurd htx (hmined r hr)

theorem Grows.refl (c : Chain) : Grows c c rejected := ⟨.refl c, fun _ h => .inl h⟩

theorem Grows.accept {tx : Tx} (htx : ∀ q ∈ rejected, q.2 ≠ tx) : Grows c (c.accept tx) rejected where
  toGrows := .accept c tx
  pool tx' h := by
    obtain h | h := List.mem_append.mp h
    · exact .inl h
    · exact .inr (List.mem_singleton.mp h ▸ htx)

theorem Grows.drop (c : Chain) (tx : Tx) : Grows c (c.drop tx) rejected where
  toGrows := .drop c tx
  pool _ h := .inl (List.mem_of_mem_filter h)

theorem Grows.mine {r : Receipt} (hpool : r.tx ∈ c.pool) (hnonce : r.tx.nonce = c.mined.length) :
    Grows c (c.mine r hnonce) rejected where
  toGrows := .mine hpool hnonce
  pool _ h := .inl (List.mem_of_mem_filter h)

/-- A run acts on the record that it has read. -/
def ProcOk (s : State) (p : Proc) : Prop :=
  match p.point with
  | .connect => ∀ r ∈ s.payout p.key, r.state ≠ .confirmed ∧ r.state ≠ .mined_unverified
  | .checks | .nonce | .sign _ => ∀ r ∈ s.payout p.key, r.state.live = false
  | .recheck => ∃ r, s.payout p.key = some r ∧ r.state = .signed ∧ r.tx.nonce < s.chain.latest
  | .resume | .count | .rebroadcast | .broadcast | .ask | .settle =>
    ∃ r, s.payout p.key = some r ∧ r.state = .signed

/-- A transaction of the tool is a transfer. -/
def Tx.Ours (tx : Tx) : Prop := ∀ id, tx.body ≠ .other id

/-- What holds of the ledger and the chain. -/
structure Inv (s : State) : Prop where
  records : ∀ r ∈ s.payouts, r.tx.Ours
  rejected : ∀ q ∈ s.rejected, q.2.Ours
  /-- The one transaction of a key that can pay is the recorded one. -/
  live : ∀ q ∈ s.signed, (∃ r, s.payout q.1 = some r ∧ r.tx = q.2 ∧ r.state.live = true) ∨
    Gone s.chain s.rejected q
  told : ∀ q ∈ s.told, Never s.chain s.rejected q
  proc : ∀ p ∈ s.proc, ProcOk s p

variable {s : State} {p : Proc}

namespace Inv

/-- The node does something. -/
theorem grows (h : Inv s) (hc : Grows s.chain c s.rejected) : Inv { s with chain := c } where
  records := h.records
  rejected := h.rejected
  live q hq := (h.live q hq).imp_right fun h => h.grows hc
  told q hq := (h.told q hq).grows hc
  proc p hp := by
    have hok := h.proc p hp
    unfold ProcOk at hok ⊢
    split at hok <;> try exact hok
    obtain ⟨r, hr, hstate, hnonce⟩ := hok
    exact ⟨r, hr, hstate, Nat.lt_of_lt_of_le hnonce hc.latest⟩

/-- The transactions of a key whose record is not live do not pay. -/
theorem gone (h : Inv s) {key : String} (hkey : ∀ r ∈ s.payout key, r.state.live = false) :
    ∀ q ∈ s.signed, q.1 = key → Gone s.chain s.rejected q := by
  rintro q hq rfl
  refine (h.live q hq).resolve_left ?_
  rintro ⟨r, hr, -, hlive⟩
  rw [hkey r hr] at hlive
  cases hlive

theorem goes (h : Inv s) {point : Point} (hok : ProcOk s { p with point := point }) :
    Inv (s.goes p point) where
  records := h.records
  rejected := h.rejected
  live := h.live
  told := h.told
  proc p' hp' := by
    obtain rfl := Option.mem_some.mp hp'
    exact hok

theorem result (h : Inv s) (key : String) {r : Result}
    (hgone : r.nothingSent = true → ∀ q ∈ s.signed, q.1 = key → Gone s.chain s.rejected q) :
    Inv (s.result key r) where
  records := h.records
  rejected := h.rejected
  live := h.live
  told q hq := by
    unfold State.result at hq
    simp only at hq
    split at hq
    · rename_i hsays
      obtain hq | hq := List.mem_append.mp hq
      · exact h.told q hq
      · obtain ⟨hq, hkey⟩ := List.mem_filter.mp hq
        simp only [Bool.and_eq_true, decide_eq_true_eq, Bool.not_eq_true', List.any_eq_false] at hkey
        refine (hgone hsays q hq hkey.1).resolve_left ?_
        rintro ⟨r, hr, htx, hstatus⟩
        exact hkey.2 r hr ⟨htx, hstatus⟩
    · exact h.told q hq
  proc p hp := by cases hp

/-- The record of a key is marked, and the run ends or goes on from there. -/
theorem marks (h : Inv s) {key : String} {r : Rec} (hr : s.payout key = some r) (state : RecState)
    (hgone : state.live = false → Gone s.chain s.rejected (key, r.tx)) :
    Inv { s.marks key state with proc := none } where
  records r hr := by
    obtain ⟨r', hr', rfl⟩ := List.mem_map.mp hr
    split
    · exact h.records r' hr'
    · exact h.records r' hr'
  rejected := h.rejected
  live q hq := by
    have hkeys : ∀ r : Rec, r.key = key → ({ r with state := state } : Rec).key = key := fun _ h => h
    obtain ⟨r', hr', htx, hlive⟩ | hq := h.live q hq
    · by_cases hkey : q.1 = key
      · subst hkey
        obtain rfl : r = r' := Option.some.inj (hr.symm.trans hr')
        cases hstate : state.live with
        | false =>
          have := hgone hstate
          rw [htx] at this
          exact .inr this
        | true =>
          refine .inl ⟨{ r with state := state }, ?_, htx, hstate⟩
          rw [State.payout, State.marks, table.find_update hkeys, ← State.payout, hr]
          rfl
      · refine .inl ⟨r', ?_, htx, hlive⟩
        rw [State.payout, State.marks, table.find_update_of_ne hkey hkeys]
        exact hr'
    · exact .inr hq
  told := h.told
  proc p hp := by cases hp

/-- A key whose record is not live gets a new transaction. -/
theorem signs (h : Inv s) (hkey : ∀ r ∈ s.payout p.key, r.state.live = false) (nonce : Nat)
    (day : String) (gas gasPrice : Nat) : Inv (sign s p nonce day gas gasPrice) := by
  let tx : Tx :=
    { nonce := nonce, body := .transfer USDT p.dest (p.micro * 10 ^ (USDT_DECIMALS - 6)), gas := gas,
      gasPrice := gasPrice }
  let r : Rec := { key := p.key, dest := p.dest, micro := p.micro, day := day, tx := tx }
  have hr : (sign s p nonce day gas gasPrice).payout p.key = some r :=
    @table.find_upsert _ _ _ _ _ r rfl s.payouts
  have hkept : ∀ q : String × Tx, q ≠ (p.key, tx) → q ∈ s.rejected →
      q ∈ s.rejected.filter (· ≠ (p.key, tx)) := fun q hne hq =>
    List.mem_filter.mpr ⟨hq, decide_eq_true hne⟩
  refine ⟨fun r' hr' => ?_, fun q hq => h.rejected q (List.mem_of_mem_filter hq), fun q hq => ?_,
    fun q hq => ?_, fun p' hp' => ?_⟩
  · obtain rfl | hr' : r' = r ∨ r' ∈ s.payouts := table.mem_upsert hr'
    · exact fun id heq => (by cases heq)
    · exact h.records r' hr'
  · by_cases hnew : q = (p.key, tx)
    · subst hnew
      exact .inl ⟨r, hr, rfl, rfl⟩
    have hq : q ∈ s.signed :=
      (List.mem_append.mp hq).resolve_right fun hin => hnew (List.mem_singleton.mp hin)
    obtain ⟨r', hr', htx, hlive⟩ | hq := h.live q hq
    · have hne : q.1 ≠ p.key := by
        intro heq
        rw [heq] at hr'
        rw [hkey r' hr'] at hlive
        cases hlive
      refine .inl ⟨r', ?_, htx, hlive⟩
      have hother : (sign s p nonce day gas gasPrice).payout q.1 = s.payout q.1 :=
        @table.find_upsert_of_ne _ _ _ _ _ _ hne r rfl s.payouts
      rw [hother]
      exact hr'
    · exact .inr (hq.mono (hkept q hnew))
  · obtain ⟨hq, hne⟩ := List.mem_filter.mp hq
    exact (h.told q hq).mono (hkept q (of_decide_eq_true hne))
  · obtain rfl := Option.mem_some.mp hp'
    exact ⟨r, hr, rfl⟩

/-- The node gets a broadcast, at once or perhaps later. -/
theorem sends (h : Inv s) {tx : Tx} {ok : Bool} (htx : ok = true → ∀ q ∈ s.rejected, q.2 ≠ tx) :
    Inv (s.sends tx ok) := by
  have hgrows : Grows s.chain (if ok then s.chain.accept tx else s.chain) s.rejected := by
    cases ok with
    | false => exact .refl s.chain
    | true => exact .accept (htx rfl)
  exact { h.grows hgrows with }

/-- What a read of the receipt leads to. -/
theorem settles {cfg : Config} (h : Inv s) {r : Rec} (hr : s.payout p.key = some r) (late : Bool) :
    Inv (settle cfg s p r late) := by
  have hdone : ∀ {state : RecState} {result : Result}, result.nothingSent = false →
      (state.live = false → Gone s.chain s.rejected (p.key, r.tx)) →
      Inv ((s.marks p.key state).result p.key result) := fun hsays hgone =>
    (h.marks hr _ hgone).result p.key fun hsaid => absurd (Eq.trans (Eq.symm hsays) hsaid) (by decide)
  unfold settle
  split
  · split
    · exact h.result p.key fun hsays => absurd hsays (by decide)
    · exact h
  · rename_i receipt hreceipt
    obtain ⟨hmined, htx⟩ := Chain.receipt_of_spec hreceipt
    split
    · rename_i hstatus
      exact hdone rfl fun _ => .inl ⟨receipt, hmined, htx, hstatus⟩
    · split
      · exact hdone rfl fun hlive => absurd hlive (by decide)
      · exact hdone rfl fun hlive => absurd hlive (by decide)

/-- A run finds or misses the receipt of its record. -/
theorem resumes (h : Inv s) {r : Rec} (hr : s.payout p.key = some r) (hstate : r.state = .signed)
    {tx : Tx} {absent : Point} (hok : s.chain.receipt_of tx = none → ProcOk s { p with point := absent }) :
    Inv (resume s p tx absent) := by
  unfold resume
  split
  · rename_i hnone
    exact h.goes (hok hnone)
  · split
    · exact h.result p.key fun hsays => absurd hsays (by decide)
    · exact h.goes ⟨r, hr, hstate⟩

/-- A record that has been marked dead is not live. -/
theorem marked {key : String} {r r' : Rec} (hr : s.payout key = some r)
    {state : RecState} (hr' : (s.marks key state).payout key = some r') : r'.state = state := by
  have hkeys : ∀ r : Rec, r.key = key → ({ r with state := state } : Rec).key = key := fun _ h => h
  rw [State.payout, State.marks, table.find_update hkeys, ← State.payout, hr] at hr'
  exact Option.some.inj hr' ▸ rfl

/-- The node does not know a transaction after its broadcast has failed. -/
theorem rejects (h : Inv s) {r : Rec} (hr : s.payout p.key = some r)
    (hunknown : s.chain.known_to_node r.tx = false) :
    Inv (({ s.marks p.key .rejected with
      rejected := s.rejected ++ [(p.key, r.tx)] } : State).result p.key (.refused .node_refused)) := by
  let s₁ : State := { s with rejected := s.rejected ++ [(p.key, r.tx)] }
  have hsub : ∀ q ∈ s.rejected, q ∈ s₁.rejected := fun q hq => List.mem_append_left _ hq
  have hinv : Inv s₁ :=
    { h with
      rejected := fun q hq => by
        obtain hq | hq := List.mem_append.mp hq
        · exact h.rejected q hq
        · rw [List.mem_singleton.mp hq]
          exact h.records r (table.find_spec hr).1
      live := fun q hq => (h.live q hq).imp_right fun h => h.mono (hsub q)
      told := fun q hq => (h.told q hq).mono (hsub q) }
  have hnever : Never s₁.chain s₁.rejected (p.key, r.tx) := by
    obtain ⟨hpool, hmined⟩ := Bool.or_eq_false_iff.mp hunknown
    refine ⟨Chain.receipt_of_none (by simpa using hmined), .inr ⟨?_, of_decide_eq_false hpool⟩⟩
    exact List.mem_append_right _ (List.mem_singleton.mpr rfl)
  have hmarked := hinv.marks hr .rejected fun _ => .inr hnever
  refine hmarked.result p.key fun _ => hmarked.gone fun r' hr' => ?_
  rw [marked (s := s₁) hr hr']
  rfl

/-- The record of a run that is past its connection and has not ended with it. -/
theorem signed (h : Inv s) (hp : s.proc = some p) {r : Rec} (hr : s.payout p.key = some r)
    (hpoint : p.point ∈ [.resume, .count, .recheck, .rebroadcast, .broadcast, .ask, .settle]) :
    r.state = .signed := by
  have hok := h.proc p hp
  have hfound : ∃ r', s.payout p.key = some r' ∧ r'.state = .signed := by
    unfold ProcOk at hok
    cases hcase : p.point <;> simp_all
  obtain ⟨r', hr', hstate⟩ := hfound
  rw [Option.some.inj (hr.symm.trans hr')]
  exact hstate

/-- A step that meets the condition keeps what holds. -/
theorem step {cfg : Config} {e : Event} {t : State} (h : Inv s) (hok : Heeded s e)
    (hstep : keeper.step cfg s e = some t) : Inv t := by
  cases e with
  | press key dest micro dry =>
    obtain ⟨_, -, hstep⟩ := Option.bind_eq_some_iff.mp hstep
    cases hstep
    unfold keeper.press
    split
    · rename_i hnone
      refine h.goes fun r hr => ?_
      rw [hnone] at hr
      cases hr
    · rename_i r hr
      split
      · exact h.result key fun hsays => absurd hsays (by decide)
      split
      · exact h.result key fun hsays => absurd hsays (by decide)
      split
      · exact h.result key fun hsays => absurd hsays (by decide)
      · rename_i hconfirmed hunverified
        refine h.goes fun r' hr' => ?_
        obtain rfl : r = r' := Option.some.inj (hr.symm.trans hr')
        exact ⟨hconfirmed, hunverified⟩
  | lockedOut key =>
    cases hstep
    exact { h with }
  | connects ok =>
    obtain ⟨p, hp, hstep⟩ := Option.bind_eq_some_iff.mp hstep
    obtain ⟨_, hpoint, hstep⟩ := Option.bind_eq_some_iff.mp hstep
    have hproc := h.proc p hp
    rw [ProcOk, (Option.guard_eq_some' _).mp hpoint] at hproc
    split at hstep
    · cases hstep
      refine h.goes ?_
      cases hr : s.payout p.key with
      | none => exact fun r hr' => absurd (hr.symm.trans hr') (by simp)
      | some r =>
        have hmust := hproc r hr
        cases hstate : r.state <;> simp_all [ProcOk, RecState.live]
    · rename_i hno
      cases hstep
      have hok := hok (Bool.not_eq_true _ ▸ hno) p hp
      refine h.result p.key fun _ q hq hkey => ?_
      obtain ⟨r, hr, htx, hlive⟩ | hgone := h.live q hq
      · rw [hkey] at hr
        have hmust := hproc r hr
        have hstate : r.state = .signed := by
          cases hstate : r.state <;> simp_all [RecState.live]
        obtain ⟨hnonce, hreceipt⟩ := hok r hr hstate
        rw [htx] at hnonce hreceipt
        cases hfound : s.chain.receipt_of q.2 with
        | none => exact .inr ⟨Chain.receipt_of_none hfound, .inl hnonce⟩
        | some receipt =>
          obtain ⟨hmined, hreceiptTx⟩ := Chain.receipt_of_spec hfound
          exact .inl ⟨receipt, hmined, hreceiptTx, hreceipt receipt hfound⟩
      · exact hgone
  | resumes =>
    obtain ⟨p, hp, hstep⟩ := Option.bind_eq_some_iff.mp hstep
    obtain ⟨_, hpoint, hstep⟩ := Option.bind_eq_some_iff.mp hstep
    obtain ⟨r, hr, hstep⟩ := Option.bind_eq_some_iff.mp hstep
    cases hstep
    have hstate := h.signed hp hr (by simp [(Option.guard_eq_some' _).mp hpoint])
    exact h.resumes hr hstate fun _ => ⟨r, hr, hstate⟩
  | counts =>
    obtain ⟨p, hp, hstep⟩ := Option.bind_eq_some_iff.mp hstep
    obtain ⟨_, hpoint, hstep⟩ := Option.bind_eq_some_iff.mp hstep
    obtain ⟨r, hr, hstep⟩ := Option.bind_eq_some_iff.mp hstep
    have hstate := h.signed hp hr (by simp [(Option.guard_eq_some' _).mp hpoint])
    split at hstep
    · rename_i hnonce
      cases hstep
      exact h.goes ⟨r, hr, hstate, hnonce⟩
    split at hstep
    · cases hstep
      exact h.result p.key fun hsays => absurd hsays (by decide)
    · cases hstep
      exact h.goes ⟨r, hr, hstate⟩
  | rechecks =>
    obtain ⟨p, hp, hstep⟩ := Option.bind_eq_some_iff.mp hstep
    obtain ⟨_, hpoint, hstep⟩ := Option.bind_eq_some_iff.mp hstep
    obtain ⟨r, hr, hstep⟩ := Option.bind_eq_some_iff.mp hstep
    have hstate := h.signed hp hr (by simp [(Option.guard_eq_some' _).mp hpoint])
    have hproc := h.proc p hp
    rw [ProcOk, (Option.guard_eq_some' _).mp hpoint] at hproc
    obtain ⟨r', hr', -, hnonce⟩ := hproc
    obtain rfl : r = r' := Option.some.inj (hr.symm.trans hr')
    split at hstep
    · rename_i hnone
      cases hstep
      -- the nonce is taken by another transaction
      have hnever : Never s.chain s.rejected (p.key, r.tx) :=
        ⟨Chain.receipt_of_none (Option.isNone_iff_eq_none.mp hnone), .inl hnonce⟩
      refine (h.marks hr .dead fun _ => .inr hnever).goes fun r' hr' => ?_
      rw [marked hr hr']
      rfl
    · rename_i hsome
      cases hstep
      refine h.resumes hr hstate fun hnone => absurd ?_ hsome
      rw [hnone]
      rfl
  | rebroadcasts ok =>
    obtain ⟨p, hp, hstep⟩ := Option.bind_eq_some_iff.mp hstep
    obtain ⟨_, hpoint, hstep⟩ := Option.bind_eq_some_iff.mp hstep
    obtain ⟨r, hr, hstep⟩ := Option.bind_eq_some_iff.mp hstep
    obtain ⟨_, -, hstep⟩ := Option.bind_eq_some_iff.mp hstep
    cases hstep
    have hstate := h.signed hp hr (by simp [(Option.guard_eq_some' _).mp hpoint])
    exact (h.sends fun hsent => hok hsent p hp r hr).goes ⟨r, hr, hstate⟩
  | checks day have_ busy floor =>
    obtain ⟨p, hp, hstep⟩ := Option.bind_eq_some_iff.mp hstep
    obtain ⟨_, hpoint, hstep⟩ := Option.bind_eq_some_iff.mp hstep
    have hproc := h.proc p hp
    rw [ProcOk, (Option.guard_eq_some' _).mp hpoint] at hproc
    split at hstep
    · cases hstep
      exact h.result p.key fun _ => h.gone hproc
    · cases hstep
      exact h.goes hproc
  | takesNonce =>
    obtain ⟨p, hp, hstep⟩ := Option.bind_eq_some_iff.mp hstep
    obtain ⟨_, hpoint, hstep⟩ := Option.bind_eq_some_iff.mp hstep
    cases hstep
    have hproc := h.proc p hp
    rw [ProcOk, (Option.guard_eq_some' _).mp hpoint] at hproc
    exact h.goes hproc
  | signs day gas gasPrice balance =>
    obtain ⟨p, hp, hstep⟩ := Option.bind_eq_some_iff.mp hstep
    split at hstep
    · rename_i nonce hpoint
      have hproc := h.proc p hp
      rw [ProcOk, hpoint] at hproc
      split at hstep
      · cases hstep
        exact h.result p.key fun _ => h.gone hproc
      split at hstep
      · cases hstep
        exact h.result p.key fun hsays => absurd hsays (by decide)
      · cases hstep
        exact h.signs hproc nonce day gas gasPrice
    · cases hstep
  | broadcasts ok =>
    obtain ⟨p, hp, hstep⟩ := Option.bind_eq_some_iff.mp hstep
    obtain ⟨_, hpoint, hstep⟩ := Option.bind_eq_some_iff.mp hstep
    obtain ⟨r, hr, hstep⟩ := Option.bind_eq_some_iff.mp hstep
    obtain ⟨_, -, hstep⟩ := Option.bind_eq_some_iff.mp hstep
    cases hstep
    have hstate := h.signed hp hr (by simp [(Option.guard_eq_some' _).mp hpoint])
    refine (h.sends fun hsent => hok hsent p hp r hr).goes ?_
    cases ok <;> exact ⟨r, hr, hstate⟩
  | asks answered =>
    obtain ⟨p, hp, hstep⟩ := Option.bind_eq_some_iff.mp hstep
    obtain ⟨_, hpoint, hstep⟩ := Option.bind_eq_some_iff.mp hstep
    obtain ⟨r, hr, hstep⟩ := Option.bind_eq_some_iff.mp hstep
    have hstate := h.signed hp hr (by simp [(Option.guard_eq_some' _).mp hpoint])
    split at hstep
    · cases hstep
      exact h.result p.key fun hsays => absurd hsays (by decide)
    split at hstep
    · cases hstep
      exact h.goes ⟨r, hr, hstate⟩
    · rename_i hunknown
      cases hstep
      exact h.rejects hr (eq_false_of_ne_true hunknown)
  | settles late =>
    obtain ⟨p, hp, hstep⟩ := Option.bind_eq_some_iff.mp hstep
    obtain ⟨_, -, hstep⟩ := Option.bind_eq_some_iff.mp hstep
    obtain ⟨r, hr, hstep⟩ := Option.bind_eq_some_iff.mp hstep
    cases hstep
    exact h.settles hr late
  | dies =>
    cases hstep
    exact { h with proc := fun p hp => (by cases hp) }
  | accepts tx =>
    obtain ⟨_, -, hstep⟩ := Option.bind_eq_some_iff.mp hstep
    cases hstep
    exact h.grows (.accept hok)
  | drops tx =>
    cases hstep
    exact h.grows (.drop s.chain tx)
  | mines tx status logs =>
    unfold keeper.step at hstep
    simp only at hstep
    split at hstep
    · rename_i hmine
      cases hstep
      exact h.grows (.mine hmine.1 hmine.2)
    · cases hstep
  | others nonce id =>
    obtain ⟨_, -, hstep⟩ := Option.bind_eq_some_iff.mp hstep
    cases hstep
    exact h.grows (.accept fun q hq heq => h.rejected q hq id (by rw [heq]))

/-- At most one transaction of a key pays, and what was said not to be sent does not. -/
theorem toExact (h : Inv s) : Exact s where
  once key := by
    refine Chain.length_filter_le fun r hr r' hr' hpaid hpaid' => ?_
    have hrecord : ∀ r ∈ s.chain.mined, (decide (r.status = 1) && decide ((key, r.tx) ∈ s.signed)) = true →
        ∃ x, s.payout key = some x ∧ x.tx = r.tx := by
      intro r hr hpaid
      obtain ⟨hstatus, hsigned⟩ : r.status = 1 ∧ (key, r.tx) ∈ s.signed := by simpa using hpaid
      obtain ⟨x, hx, htx, -⟩ | hgone := h.live _ hsigned
      · exact ⟨x, hx, htx⟩
      · exact absurd hstatus (hgone.status hr rfl)
    obtain ⟨x, hx, htx⟩ := hrecord r hr hpaid
    obtain ⟨x', hx', htx'⟩ := hrecord r' hr' hpaid'
    obtain rfl : x = x' := Option.some.inj (hx.symm.trans hx')
    exact htx.symm.trans htx'
  told q hq := (h.told q hq).1

theorem init : Inv {} where
  records r hr := by cases hr
  rejected q hq := by cases hq
  live q hq := by cases hq
  told q hq := by cases hq
  proc p hp := by cases hp

end Inv

/-- A key is paid at most once, if no transaction comes to the node after it was not known there,
and no connection fails while a transaction of the key can still mine. -/
theorem paid_once (cfg : Config) (s : State) (hrun : run.Steps (step cfg) Heeded {} s) : Exact s :=
  (hrun.invariant (fun _ _ _ h hok hstep => h.step hok hstep) Inv.init).toExact

namespace sample

def config : Config := { address := "0xkeeper", PER_SEND_MAX := 500000000, DAILY_MAX := 500000000 }

/-- A press, up to the signature. -/
def signing : List Event :=
  [.press "wd1" "0xuser" 20000000 false, .connects true,
    .checks "2026-09-26" 100000000000000000000 false (some 5000000000000000000), .takesNonce,
    .signs "2026-09-26" 62500 1000000000 1000000000000000000]

/-- The transaction that is signed at a nonce. -/
def signedAt (nonce : Nat) : Tx :=
  { nonce := nonce, body := .transfer USDT "0xuser" 20000000000000000000, gas := 62500,
    gasPrice := 1000000000 }

/-- What USDT logs of a transfer to the user. -/
def paid : Log :=
  { address := USDT, topics := [TRANSFER_TOPIC, String.ofList (word "0xkeeper"), String.ofList (word "0xuser")],
    data := 20000000000000000000 }

end sample

open sample in
/-- The answer to a broadcast is lost, the node can be asked, and the payout is settled. -/
theorem paid_once_lost :
    ∃ s, run.exec (step config) {} (signing ++ [.broadcasts false, .accepts (signedAt 0), .asks true,
      .mines (signedAt 0) 1 [paid], .settles true]) = some s ∧
      s.said = [("wd1", .sent)] ∧ Exact s := by
  have hrun : ((run.exec (step config) {} (signing ++ [.broadcasts false, .accepts (signedAt 0),
      .asks true, .mines (signedAt 0) 1 [paid], .settles true])).map State.said) =
        some [("wd1", .sent)] := by
    decide +kernel
  obtain ⟨s, hexec, hsaid⟩ := Option.map_eq_some_iff.mp hrun
  refine ⟨s, hexec, hsaid, paid_once config s (run.steps_of_exec _ hexec ?_)⟩
  decide +kernel

open sample in
/-- The node executes a broadcast after it was asked for it. The key is signed again and paid
twice. -/
theorem refused_then_paid_twice :
    ¬∀ cfg s, run.Steps (step cfg) (fun _ _ => True) {} s → Exact s := by
  have hrun : ((run.exec (step config) {} (signing ++ [.broadcasts false, .asks true,
      .accepts (signedAt 0)] ++ signing ++ [.broadcasts true, .mines (signedAt 0) 1 [paid],
      .mines (signedAt 1) 1 [paid]])).map fun s =>
        (s.said, (s.chain.mined.filter fun r => r.status = 1 && ("wd1", r.tx) ∈ s.signed).length)) =
          some ([("wd1", .refused .node_refused)], 2) := by
    decide +kernel
  obtain ⟨s, hexec, hs⟩ := Option.map_eq_some_iff.mp hrun
  intro hall
  have honce := (hall config s (run.steps_of_exec _ hexec (run.meets_true _ _))).once "wd1"
  rw [(Prod.mk.inj hs).2] at honce
  omega

open sample in
/-- A connection fails while a transaction is pending, and it is mined after it was said not to be
sent. -/
theorem told_while_pending :
    ¬∀ cfg s, run.Steps (step cfg) (fun _ _ => True) {} s → ∀ q ∈ s.told, ∀ r ∈ s.chain.mined, r.tx ≠ q.2 := by
  have hrun : ((run.exec (step config) {} (signing ++ [.broadcasts true, .settles true,
      .press "wd1" "0xuser" 20000000 false, .connects false, .mines (signedAt 0) 1 [paid]])).map
        fun s => (s.told, s.chain.mined.map Receipt.tx)) =
          some ([("wd1", signedAt 0)], [signedAt 0]) := by
    decide +kernel
  obtain ⟨s, hexec, hs⟩ := Option.map_eq_some_iff.mp hrun
  obtain ⟨htold, hmined⟩ := Prod.mk.inj hs
  intro hall
  have hmem : signedAt 0 ∈ s.chain.mined.map Receipt.tx := hmined ▸ List.mem_singleton.mpr rfl
  obtain ⟨r, hr, htx⟩ := List.mem_map.mp hmem
  exact hall config s (run.steps_of_exec _ hexec (run.meets_true _ _)) ("wd1", signedAt 0)
    (htold ▸ List.mem_singleton.mpr rfl) r hr htx

end pcoin.keeper
