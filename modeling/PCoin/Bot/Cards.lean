import PCoin.Bot.Process
import PCoin.Bot.Closing
import PCoin.Run.Basic
import PCoin.Table.Evolves

/-! What the transactions of the studio keep of its cards. -/

namespace pcoin.bot.studio

/-- What no operation changes of a reservation. -/
def resvKeys (db : Db) : List (Nat × Option Int × Option String) :=
  db.reservations.map fun r => (r.id, r.update_id, r.req_key)

section Billing

variable {db db' : Db} {id : Nat} {actual now : Int}

theorem keys_setReservation (db : Db) (id : Nat) {f : Reservation → Reservation}
    (hf : ∀ r, (f r).id = r.id ∧ (f r).update_id = r.update_id ∧ (f r).req_key = r.req_key) :
    resvKeys (db.setReservation id f) = resvKeys db := by
  refine table.map_update fun r _ _ => ?_
  obtain ⟨hid, hupdate, hkey⟩ := hf r
  rw [hid, hupdate, hkey]

theorem keys_hold (db : Db) (id : Nat) : resvKeys (hold db id).1 = resvKeys db := by
  unfold hold
  split
  · rfl
  split
  · rfl
  · exact keys_setReservation db _ fun _ => ⟨rfl, rfl, rfl⟩

theorem ledger_hold (db : Db) (id : Nat) : (hold db id).1.ledger = db.ledger := by
  unfold hold
  split
  · rfl
  split <;> rfl

theorem keys_giveBack (db : Db) (r : Reservation) (state : ResvState) :
    resvKeys (giveBack db r state) = resvKeys db :=
  keys_setReservation (db.move r.chat_id r.micro_usd (-r.micro_usd)) r.id fun _ => ⟨rfl, rfl, rfl⟩

theorem release_ok {out : Released} (hop : release db id = .ok (db', out)) :
    resvKeys db' = resvKeys db ∧ db'.ledger = db.ledger := by
  unfold release at hop
  split at hop
  · cases hop
  split at hop
  · cases hop
    exact ⟨rfl, rfl⟩
  · cases hop
    exact ⟨keys_giveBack db _ _, rfl⟩

theorem ageOut_spec (db : Db) (id : Nat) :
    resvKeys (ageOut db id) = resvKeys db ∧ (ageOut db id).ledger = db.ledger := by
  unfold ageOut
  split
  · exact ⟨rfl, rfl⟩
  split
  · exact ⟨rfl, rfl⟩
  · exact ⟨keys_giveBack db _ _, rfl⟩

/-- A reservation under a key is found again, or entered under an id of its own. -/
theorem reserve_ok {chatId : Int} {key : String} {microUsd : Int} {allowOverdraft : Bool}
    {out : Reserved}
    (hop : reserve db chatId none (some key) microUsd allowOverdraft now = .ok (db', out)) :
    (out.duplicate = true ∧ db' = db) ∨
      (out.duplicate = false ∧ db'.ledger = db.ledger ∧
        (out.reservationId ∉ db.reservations.map Reservation.id) ∧
        (some key ∉ db.reservations.map Reservation.req_key) ∧
        resvKeys db' = resvKeys db ++ [(out.reservationId, none, some key)]) := by
  unfold reserve at hop
  split at hop
  · cases hop
  simp only at hop
  split at hop
  · cases hop
    exact .inl ⟨rfl, rfl⟩
  rename_i hnone
  split at hop
  · cases hop
  rename_i u _
  by_cases hfunds : 0 < microUsd ∧ u.balance_micro_usd < (if allowOverdraft then 1 else microUsd)
  · rw [if_pos hfunds] at hop
    cases hop
  rw [if_neg hfunds] at hop
  obtain ⟨rfl, rfl⟩ := Prod.mk.inj (Except.ok.inj hop)
  refine .inr ⟨rfl, ?_, nextId_not_mem _, ?_, ?_⟩
  · simp only
    split <;> rfl
  · intro hmem
    obtain ⟨r, hr, hkey⟩ := List.mem_map.mp hmem
    simpa [hkey] using List.find?_eq_none.mp hnone r hr
  · simp only [resvKeys]
    split <;> simp [Db.move]

/-- When it throws, nothing is reserved under the key. -/
theorem reserve_error {chatId : Int} {key : String} {microUsd : Int} {allowOverdraft : Bool}
    {fault : Fault}
    (hop : reserve db chatId none (some key) microUsd allowOverdraft now = .error fault) :
    some key ∉ db.reservations.map Reservation.req_key := by
  unfold reserve at hop
  rw [if_neg (by simp)] at hop
  simp only at hop
  split at hop
  · cases hop
  rename_i hnone
  intro hmem
  obtain ⟨r, hr, hkey⟩ := List.mem_map.mp hmem
  simpa [hkey] using List.find?_eq_none.mp hnone r hr

theorem ledger_insertLedger {row : LedgerRow} (hop : db.insertLedger row = .ok db') :
    row.idem_key ∉ db.ledger.map LedgerRow.idem_key := by
  unfold Db.insertLedger at hop
  split at hop
  · cases hop
  · assumption

/-- The ledger row of a charge, under the key of its reservation. -/
theorem bill_row {r : Reservation} (hop : bill db r actual now = .ok db') :
    db'.reservations = db.reservations ∧ (db'.ledger = db.ledger ∨
      0 < actual ∧ ∃ row : LedgerRow, db'.ledger = db.ledger ++ [row] ∧
        row.idem_key ∉ db.ledger.map LedgerRow.idem_key ∧ row.kind = .ai_turn ∧
        row.idem_key = r.idem ∧ row.delta_micro_usd = -actual) := by
  unfold bill at hop
  split at hop
  · rename_i hpos
    have hfresh := ledger_insertLedger hop
    obtain rfl := insertLedger_ok hop
    exact ⟨rfl, .inr ⟨hpos, _, rfl, hfresh, rfl, rfl, rfl⟩⟩
  · cases hop
    exact ⟨rfl, .inl rfl⟩

/-- A settlement bills at most what it is asked to, once, under the key of its reservation. -/
theorem settle_ok {out : Settled} (hop : settle db id actual now = .ok (db', out)) :
    resvKeys db' = resvKeys db ∧ (db'.ledger = db.ledger ∨
      0 < actual ∧ ∃ r, db.reservation id = some r ∧ ∃ row : LedgerRow,
        db'.ledger = db.ledger ++ [row] ∧ row.idem_key ∉ db.ledger.map LedgerRow.idem_key ∧
        row.kind = .ai_turn ∧ row.idem_key = r.idem ∧ row.delta_micro_usd = -actual) := by
  unfold settle at hop
  split at hop
  · cases hop
  rename_i r hr
  have hcols : ∀ db₁ : Db, db₁.reservations = db.reservations →
      resvKeys (db₁.setReservation r.id fun r => { r with state := .settled, billed := some actual })
        = resvKeys db := by
    intro db₁ hresv
    let close (r : Reservation) : Reservation := { r with state := .settled, billed := some actual }
    have hclose : resvKeys (db₁.setReservation r.id close) = resvKeys db₁ :=
      keys_setReservation db₁ r.id fun _ => ⟨rfl, rfl, rfl⟩
    rw [hclose, resvKeys, hresv, resvKeys]
  split at hop
  · obtain ⟨db₁, hbill, hop⟩ := run.bind_eq_ok.mp hop
    cases hop
    obtain ⟨hresv, hledger⟩ := bill_row hbill
    exact ⟨hcols db₁ hresv, hledger.imp_right fun ⟨hpos, row, h⟩ => ⟨hpos, r, hr, row, h⟩⟩
  · obtain ⟨db₁, hbill, hop⟩ := run.bind_eq_ok.mp hop
    cases hop
    obtain ⟨hresv, hledger⟩ := bill_row hbill
    exact ⟨hcols db₁ hresv, hledger.imp_right fun ⟨hpos, row, h⟩ => ⟨hpos, r, hr, row, h⟩⟩
  · cases hop
    exact ⟨rfl, .inl rfl⟩

end Billing

theorem cardKey_injective {m n : Nat} (h : cardKey m = cardKey n) : m = n := by
  have hdigits : Nat.toDigits 10 m = Nat.toDigits 10 n := by
    have htext := congrArg String.toList h
    simpa [cardKey, toString, Nat.repr] using htext
  rw [← Nat.ofDigitChars_ten_toDigits (n := m), hdigits, Nat.ofDigitChars_ten_toDigits]

theorem billKey_injective {m n : Nat} (h : billKey m = billKey n) : m = n :=
  cardKey_injective (by simpa [billKey] using h)

/-- The user agreed to the price of a card that has been started. -/
def AgreedTo (s : Studio) (seen : List (Nat × Int)) (proposalId : Nat) : Prop :=
  ∃ p, s.proposal proposalId = some p ∧ p.state.begun = true ∧
    ∃ v ∈ lastSeen seen proposalId, p.price_micro ≤ v

/-- Something is reserved for a card. -/
def Reserved (s : Studio) (proposalId : Nat) : Prop :=
  some (cardKey proposalId) ∈ (resvKeys s.db).map (·.2.2)

/-- A reservation is for a card. -/
def Owns (s : Studio) (reservationId proposalId : Nat) : Prop :=
  (reservationId, none, some (cardKey proposalId)) ∈ resvKeys s.db

/-- What every transaction keeps. -/
structure Inv (s : Studio) (seen : List (Nat × Int)) : Prop where
  proposals : (s.proposals.map Proposal.id).Nodup
  ids : ((resvKeys s.db).map (·.1)).Nodup
  reqs : ((resvKeys s.db).map (·.2.2)).Nodup
  idem : (s.db.ledger.map LedgerRow.idem_key).Nodup
  cards : ∀ k ∈ resvKeys s.db, ∃ id, k.2 = (none, some (cardKey id)) ∧ AgreedTo s seen id
  bills : ∀ l ∈ s.db.ledger, l.kind = .ai_turn → ∃ id p, l.idem_key = billKey id ∧
    Reserved s id ∧ s.proposal id = some p ∧ -l.delta_micro_usd ≤ p.price_micro
  jobs : ∀ j ∈ s.media_jobs, Owns s j.reservation_id j.proposal_id

/-- No bill is without an item to deliver. -/
def Delivered (s : Studio) : Prop :=
  ∀ l ∈ s.db.ledger, l.kind = .ai_turn → ∀ id, l.idem_key = billKey id →
    ∃ i ∈ s.items, i.proposal_id = some id

/-- A card that has been started stays started, at its price. -/
def Proposal.Keeps (p p' : Proposal) : Prop :=
  p.state.begun = true → p'.state.begun = true ∧ p'.price_micro = p.price_micro

/-- What a transaction keeps that enters no reservation, no bill and no job. -/
structure Keeps (s s' : Studio) : Prop where
  ids : (s'.proposals.map Proposal.id).Nodup
  proposals : ∀ id p, Reserved s id → s.proposal id = some p →
    ∃ p', s'.proposal id = some p' ∧ p.Keeps p'
  keys : resvKeys s'.db = resvKeys s.db
  ledger : s'.db.ledger = s.db.ledger
  jobs : ∀ j ∈ s'.media_jobs, ∃ i ∈ s.media_jobs,
    (i.reservation_id, i.proposal_id) = (j.reservation_id, j.proposal_id)
  items : ∀ i ∈ s.items, i ∈ s'.items

namespace Inv

variable {s s' : Studio} {seen : List (Nat × Int)}

theorem agreedTo (h : Inv s seen) {id : Nat} (hresv : Reserved s id) : AgreedTo s seen id := by
  obtain ⟨k, hk, hreq⟩ := List.mem_map.mp hresv
  obtain ⟨id', hkey, hagreed⟩ := h.cards k hk
  rw [hkey] at hreq
  rwa [← cardKey_injective (Option.some.inj hreq)]

theorem keeps (h : Inv s seen) (hk : Keeps s s') : Inv s' seen := by
  have hreserved : ∀ id, Reserved s' id ↔ Reserved s id := fun id => by rw [Reserved, hk.keys]; rfl
  refine ⟨hk.ids, hk.keys ▸ h.ids, hk.keys ▸ h.reqs, hk.ledger ▸ h.idem, fun k hmem => ?_,
    fun l hl hkind => ?_, fun j hj => ?_⟩
  · rw [hk.keys] at hmem
    obtain ⟨id, hkey, p, hp, hbegun, v, hv, hle⟩ := h.cards k hmem
    have hresv : Reserved s id := List.mem_map.mpr ⟨k, hmem, by rw [hkey]⟩
    obtain ⟨p', hp', hkeeps⟩ := hk.proposals id p hresv hp
    obtain ⟨hbegun', hprice⟩ := hkeeps hbegun
    exact ⟨id, hkey, p', hp', hbegun', v, hv, hprice ▸ hle⟩
  · rw [hk.ledger] at hl
    obtain ⟨id, p, hidem, hresv, hp, hle⟩ := h.bills l hl hkind
    obtain ⟨q, hq, hbegun, -⟩ := h.agreedTo hresv
    obtain rfl := Option.some.inj (hp.symm.trans hq)
    obtain ⟨p', hp', hkeeps⟩ := hk.proposals id p hresv hp
    exact ⟨id, p', hidem, (hreserved id).mpr hresv, hp', (hkeeps hbegun).2 ▸ hle⟩
  · obtain ⟨i, hi, heq⟩ := hk.jobs j hj
    obtain ⟨hresv, hprop⟩ := Prod.mk.inj heq
    rw [Owns, hk.keys, ← hresv, ← hprop]
    exact h.jobs i hi

end Inv

theorem Delivered.keeps {s s' : Studio} (h : Delivered s) (hk : Keeps s s') : Delivered s' := by
  intro l hl hkind id hidem
  rw [hk.ledger] at hl
  obtain ⟨i, hi, heq⟩ := h l hl hkind id hidem
  exact ⟨i, hk.items i hi, heq⟩

namespace Keeps

variable {s : Studio}

/-- A transaction that leaves the cards alone. -/
theorem aside (hids : (s.proposals.map Proposal.id).Nodup) {s' : Studio}
    (hproposals : s'.proposals = s.proposals) (hkeys : resvKeys s'.db = resvKeys s.db)
    (hledger : s'.db.ledger = s.db.ledger)
    (hjobs : ∀ j ∈ s'.media_jobs, ∃ i ∈ s.media_jobs,
      (i.reservation_id, i.proposal_id) = (j.reservation_id, j.proposal_id))
    (hitems : ∀ i ∈ s.items, i ∈ s'.items) : Keeps s s' :=
  ⟨hproposals ▸ hids, fun id p _ hp => ⟨p, by rw [Studio.proposal, hproposals]; exact hp, fun h => ⟨h, rfl⟩⟩,
    hkeys, hledger, hjobs, hitems⟩

/-- A transaction on the books. -/
theorem books (hids : (s.proposals.map Proposal.id).Nodup) (db : Db)
    (hkeys : resvKeys db = resvKeys s.db) (hledger : db.ledger = s.db.ledger) :
    Keeps s { s with db := db } :=
  aside hids rfl hkeys hledger (fun j hj => ⟨j, hj, rfl⟩) fun _ hi => hi

/-- A transaction on a job. -/
theorem setJob (hids : (s.proposals.map Proposal.id).Nodup) (id : Nat) (f : MediaJob → MediaJob)
    (hf : ∀ j, ((f j).reservation_id, (f j).proposal_id) = (j.reservation_id, j.proposal_id)) :
    Keeps s (s.setJob id f) :=
  aside hids rfl rfl rfl (fun _ hj => table.exists_of_mem_update hf hj) fun _ hi => hi

/-- A transaction on the cards, in place. -/
theorem map (hids : (s.proposals.map Proposal.id).Nodup) {f : Proposal → Proposal}
    (hid : ∀ p, (f p).id = p.id) (hf : ∀ p : Proposal, p.Keeps (f p)) :
    Keeps s { s with proposals := s.proposals.map f } := by
  have hmap : (s.proposals.map f).map Proposal.id = s.proposals.map Proposal.id := by
    rw [List.map_map]
    exact List.map_congr_left fun p _ => hid p
  refine ⟨hmap ▸ hids, fun id p _ hp => ⟨f p, ?_, hf p⟩, rfl, rfl, fun j hj => ⟨j, hj, rfl⟩,
    fun _ hi => hi⟩
  rw [Studio.proposal, table.find_map hid]
  rw [Studio.proposal] at hp
  rw [hp, Option.map_some]

/-- A transaction on one card, which keeps what has been started if something is reserved. -/
theorem setProposal (hids : (s.proposals.map Proposal.id).Nodup) (id : Nat)
    (f : Proposal → Proposal) (hid : ∀ p, (f p).id = p.id)
    (hf : ∀ p : Proposal, Reserved s id → s.proposal id = some p → p.Keeps (f p)) :
    Keeps s (s.setProposal id f) := by
  have hmap : (s.setProposal id f).proposals.map Proposal.id = s.proposals.map Proposal.id :=
    table.map_update fun p _ _ => hid p
  refine ⟨hmap ▸ hids, fun k p hresv hp => ?_, rfl, rfl, fun j hj => ⟨j, hj, rfl⟩, fun _ hi => hi⟩
  rw [Studio.proposal] at hp
  by_cases hk : k = id
  · subst hk
    refine ⟨f p, ?_, hf p hresv hp⟩
    rw [Studio.proposal, Studio.setProposal, table.find_update fun p hp => (hid p).trans hp, hp,
      Option.map_some]
  · refine ⟨p, ?_, fun h => ⟨h, rfl⟩⟩
    rw [Studio.proposal, Studio.setProposal,
      table.find_update_of_ne hk fun p hp => (hid p).trans hp, hp]

/-- An item more. -/
theorem addItem (hids : (s.proposals.map Proposal.id).Nodup) (i : StudioItem) :
    Keeps s { s with items := s.items ++ [i] } :=
  aside hids rfl rfl rfl (fun j hj => ⟨j, hj, rfl⟩) fun _ hi => List.mem_append_left _ hi

/-- A card more, under an id of its own. -/
theorem addCard (hids : (s.proposals.map Proposal.id).Nodup) {p : Proposal}
    (hp : p.id ∉ s.proposals.map Proposal.id) : Keeps s { s with proposals := s.proposals ++ [p] } :=
  ⟨table.nodup_append hids hp,
    fun _ q _ hq => ⟨q, table.find_append hq [p], fun h => ⟨h, rfl⟩⟩, rfl, rfl,
    fun j hj => ⟨j, hj, rfl⟩, fun _ hi => hi⟩

theorem trans {s' s'' : Studio} (h : Keeps s s') (h' : Keeps s' s'') : Keeps s s'' := by
  refine ⟨h'.ids, fun id p hresv hp => ?_, h'.keys.trans h.keys, h'.ledger.trans h.ledger,
    fun j hj => ?_, fun i hi => h'.items i (h.items i hi)⟩
  · obtain ⟨p', hp', hkeep⟩ := h.proposals id p hresv hp
    have hresv' : Reserved s' id := by rw [Reserved, h.keys]; exact hresv
    obtain ⟨p'', hp'', hkeep'⟩ := h'.proposals id p' hresv' hp'
    refine ⟨p'', hp'', fun hbegun => ?_⟩
    obtain ⟨hbegun', hprice⟩ := hkeep hbegun
    obtain ⟨hbegun'', hprice'⟩ := hkeep' hbegun'
    exact ⟨hbegun'', hprice'.trans hprice⟩
  · obtain ⟨i, hi, heq⟩ := h'.jobs j hj
    obtain ⟨k, hk, heq'⟩ := h.jobs i hi
    exact ⟨k, hk, heq'.trans heq⟩

/-- Transactions that each keep the studio keep it one after the other. -/
theorem applied {ts : List (Studio → Studio)}
    (hts : ∀ t ∈ ts, ∀ s, (s.proposals.map Proposal.id).Nodup → Keeps s (t s))
    (hids : (s.proposals.map Proposal.id).Nodup) : ∀ s' ∈ applied s ts, Keeps s s' := by
  induction ts generalizing s with
  | nil => intro s' hs'; cases hs'
  | cons t ts ih =>
    have ht := hts t List.mem_cons_self s hids
    intro s' hs'
    obtain rfl | hs' := List.mem_cons.mp hs'
    · exact ht
    · exact ht.trans (ih (fun t ht => hts t (List.mem_cons_of_mem _ ht)) ht.ids s' hs')

end Keeps

section Transactions

variable {s : Studio} (hids : (s.proposals.map Proposal.id).Nodup)
include hids

theorem keeps_createProposal (chatId : Int) (spec : Spec) (quote : Quote) (now ttlSec : Int) :
    Keeps s (createProposal s chatId spec quote now ttlSec) := by
  let replace (p : Proposal) : Proposal :=
    if p.chat_id = chatId ∧ p.state = .opened then { p with state := .replaced } else p
  have hid : ∀ p, (replace p).id = p.id := fun p => by simp only [replace]; split <;> rfl
  have hreplace : Keeps s { s with proposals := s.proposals.map replace } := by
    refine Keeps.map hids hid fun p hbegun => ?_
    simp only [replace]
    split
    · rename_i hopen
      rw [hopen.2] at hbegun
      cases hbegun
    · exact ⟨hbegun, rfl⟩
  refine hreplace.trans (Keeps.addCard hreplace.ids ?_)
  have hmap : (s.proposals.map replace).map Proposal.id = s.proposals.map Proposal.id := by
    rw [List.map_map]
    exact List.map_congr_left fun p _ => hid p
  rw [hmap]
  exact nextId_not_mem _

theorem keeps_cancelProposal (chatId : Int) (id : Nat) : Keeps s (cancelProposal s chatId id) := by
  refine Keeps.setProposal hids _ _ (fun p => by split <;> rfl) fun p _ _ hbegun => ?_
  split
  · rename_i hopen
    rw [hopen.2] at hbegun
    cases hbegun
  · exact ⟨hbegun, rfl⟩

theorem keeps_expireCards (now : Int) : Keeps s (expireCards s now) := by
  refine Keeps.map hids (fun p => by split <;> rfl) fun p hbegun => ?_
  split
  · rename_i hopen
    rw [hopen.1] at hbegun
    cases hbegun
  · exact ⟨hbegun, rfl⟩

/-- A card is marked as one of those that have been started. -/
theorem keeps_mark (id : Nat) {state : CardState} (hstate : state.begun = true) :
    Keeps s (s.setProposal id fun p => { p with state := state }) :=
  Keeps.setProposal hids _ _ (fun _ => rfl) fun _ _ _ _ => ⟨hstate, rfl⟩

theorem keeps_unwind (begun : Begun) (unknown : Bool) : ∀ s' ∈ unwind s begun unknown, Keeps s s' := by
  let close (j : MediaJob) : MediaJob :=
    if j.state = .running then { j with state := if unknown then .unknown else .failed } else j
  have hclose : ∀ j, ((close j).reservation_id, (close j).proposal_id) =
      (j.reservation_id, j.proposal_id) := fun j => by simp only [close]; split <;> rfl
  have hrest : ∀ db : Db, resvKeys db = resvKeys s.db → db.ledger = s.db.ledger →
      ∀ s' ∈ applied s
        [fun s => { s with db := db },
         fun s => s.setJob begun.jobId close,
         fun s => s.setProposal begun.proposal.id fun p => { p with state := .failed }], Keeps s s' := by
    intro db hkeys hledger s' hs'
    have hbooks : Keeps s { s with db := db } := Keeps.books hids _ hkeys hledger
    have hjob := hbooks.trans (Keeps.setJob hbooks.ids begun.jobId close hclose)
    simp only [applied, List.mem_cons, List.not_mem_nil, or_false] at hs'
    obtain rfl | rfl | rfl := hs'
    · exact hbooks
    · exact hjob
    · exact hjob.trans (keeps_mark hjob.ids begun.proposal.id rfl)
  intro s' hs'
  unfold unwind at hs'
  cases unknown with
  | true => exact hrest _ (keys_hold s.db _) (ledger_hold s.db _) s' hs'
  | false =>
    cases hop : release s.db begun.reservationId with
    | error => simp [hop, Except.map] at hs'
    | ok out =>
      obtain ⟨hkeys, hledger⟩ := release_ok hop
      simp only [hop, Except.map] at hs'
      exact hrest _ hkeys hledger s' hs'

theorem keeps_finishJob (begun : Begun) (kind : MediaKind) : Keeps s (finishJob s begun kind) := by
  have hitem := Keeps.addItem hids
    { id := nextId (s.items.map StudioItem.id), chat_id := begun.proposal.chat_id, made := some kind,
      job_id := some begun.jobId, proposal_id := some begun.proposal.id }
  have hjob := hitem.trans (Keeps.setJob hitem.ids begun.jobId (fun j =>
    { j with state := .done, item_id := some (nextId (s.items.map StudioItem.id)) }) fun _ => rfl)
  exact hjob.trans (keeps_mark hjob.ids begun.proposal.id rfl)

theorem keeps_ageOutAll (olderThanMinutes now : Int) :
    ∀ s' ∈ ageOutAll s olderThanMinutes now, Keeps s s' := by
  refine Keeps.applied (fun t ht s hids => ?_) hids
  obtain ⟨id, -, rfl⟩ := List.mem_map.mp ht
  obtain ⟨hkeys, hledger⟩ := ageOut_spec s.books id
  exact Keeps.books hids _ hkeys hledger

theorem keeps_recoverAfterRestart (now : Int) : ∀ s' ∈ recoverAfterRestart s now, Keeps s s' := by
  refine Keeps.applied (fun t ht s hids => ?_) hids
  simp only [List.mem_append, List.mem_flatMap, List.mem_cons, List.not_mem_nil, or_false] at ht
  obtain ⟨j, -, rfl | rfl | rfl⟩ | rfl | rfl := ht
  · exact Keeps.books hids _ (keys_hold s.db _) (ledger_hold s.db _)
  · exact Keeps.setJob hids j.id _ fun _ => rfl
  · exact keeps_mark hids j.proposal_id rfl
  · refine Keeps.map hids (fun p => by split <;> rfl) fun p hbegun => ?_
    split
    · exact ⟨rfl, rfl⟩
    · exact ⟨hbegun, rfl⟩
  · exact keeps_expireCards hids now

/-- `free` of `restart`. -/
def freed (r : Reservation) (s : Studio) : Studio :=
  match release s.db r.id with
  | .error _ => s
  | .ok (db, _) => { s with db := db }

theorem keeps_restart (now : Int) : ∀ s' ∈ restart s now, Keeps s s' := by
  have hrecover := keeps_recoverAfterRestart hids now
  intro s' hs'
  obtain hs' | hs' := List.mem_append.mp hs'
  · exact hrecover s' hs'
  have hlast : (recoverAfterRestart s now).getLast?.getD s = s ∨
      Keeps s ((recoverAfterRestart s now).getLast?.getD s) := by
    cases hget : (recoverAfterRestart s now).getLast? with
    | none => exact .inl rfl
    | some last => exact .inr (hrecover last (List.mem_of_getLast? hget))
  have hfree : ∀ s₁ : Studio, (s₁.proposals.map Proposal.id).Nodup → ∀ r : Reservation,
      Keeps s₁ (freed r s₁) := by
    intro s₁ hids r
    unfold freed
    split
    · exact Keeps.books hids _ rfl rfl
    · rename_i hop
      obtain ⟨hkeys, hledger⟩ := release_ok hop
      exact Keeps.books hids _ hkeys hledger
  have hts : ∀ s₁ : Studio, (s₁.proposals.map Proposal.id).Nodup → ∀ rs : List Reservation,
      ∀ s'' ∈ applied s₁ (rs.map freed), Keeps s₁ s'' := by
    intro s₁ hids₁ rs
    refine Keeps.applied (fun t ht s hids => ?_) hids₁
    obtain ⟨r, -, rfl⟩ := List.mem_map.mp ht
    exact hfree s hids r
  obtain heq | hkeep := hlast
  · exact hts s hids _ s' (heq ▸ hs')
  · exact hkeep.trans (hts _ hkeep.ids _ s' hs')

end Transactions

end pcoin.bot.studio
