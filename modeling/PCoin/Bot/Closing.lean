import PCoin.Bot.Books

namespace pcoin.bot

/-- What every operation keeps. -/
structure Sound (db : Db) : Prop where
  books : Books db
  owners : Owners db
  billed : Billed db

namespace Sound

variable {db db' : Db}

/-- A change of the tables that carry no money of a chat. -/
theorem aside (h : Sound db) (husers : db'.users = db.users) (hledger : db'.ledger = db.ledger)
    (hresv : db'.reservations = db.reservations)
    (hpay : db'.payments.map Payment.chat_id = db.payments.map Payment.chat_id)
    (hreferrals : ∀ r ∈ db'.referrals, r.status = .rewarded →
      r ∈ db.referrals ∨ db'.Has r.referrer_chat_id)
    (hids : (db'.referrals.map Referral.id).Nodup) : Sound db' := by
  refine ⟨h.books.transfer husers hledger hresv, ?_, h.billed.transfer hledger hresv⟩
  refine h.owners.transfer (fun c hc => ?_) (fun c hc => ?_) (fun c hc => ?_) hreferrals hids
  · simpa [Db.Has, husers] using hc
  · exact .inl (hresv ▸ hc)
  · exact .inl (hpay ▸ hc)

/-- A ledger row of a chat, and its balance with it. -/
theorem post (h : Sound db) {k delta : Int} {row : LedgerRow} (hk : db.Has k)
    (hrow : row.chat_id = k ∧ row.delta_micro_usd = delta ∧ row.turn = none)
    (husers : db'.users = (db.move k delta 0).users) (hledger : db'.ledger = db.ledger ++ [row])
    (hresv : db'.reservations = db.reservations) (hpay : db'.payments = db.payments)
    (hreferrals : db'.referrals = db.referrals) : Sound db' := by
  refine ⟨h.books.post hk ⟨hrow.1, hrow.2.1⟩ husers hledger hresv, ?_,
    h.billed.post hrow.2.2 hledger hresv⟩
  refine h.owners.same (fun c hc => ?_) (by rw [hresv]) (by rw [hpay]) hreferrals
  simp only [Db.Has, husers, move_chats]
  exact hc

theorem has_reservation (h : Sound db) {r : Reservation} (hr : r ∈ db.reservations) :
    db.Has r.chat_id :=
  h.owners.reservations _ (List.mem_map.mpr ⟨r, hr, rfl⟩)

/-- An open reservation gives its money back as it takes a state that holds none. -/
theorem giveBack (h : Sound db) {r : Reservation} (hr : r ∈ db.reservations)
    (hopen : r.isOpen = true) {f : Reservation → Reservation}
    (hf : ∀ r, (f r).id = r.id ∧ (f r).chat_id = r.chat_id)
    (hstate : (f r).state ≠ .opened ∧ (f r).state ≠ .held) :
    Sound ((db.move r.chat_id r.micro_usd (-r.micro_usd)).setReservation r.id f) := by
  have hsettled : r.state ≠ .settled := by
    intro heq
    simp [Reservation.isOpen, heq] at hopen
  refine ⟨h.books.giveBack h.billed.ids hr (h.has_reservation hr) hopen hstate rfl rfl rfl, ?_,
    h.billed.update hr hsettled (fun r => (hf r).1) rfl rfl⟩
  refine h.owners.same (fun c hc => ?_) ?_ rfl rfl
  · exact (has_move db _ _ _ c).mpr hc
  · exact table.map_update fun r _ _ => (hf r).2

/-- A reservation that is not settled changes its state, with what it holds as before. -/
theorem mark (h : Sound db) {r : Reservation} (hr : r ∈ db.reservations)
    (hsettled : r.state ≠ .settled) {f : Reservation → Reservation}
    (hf : ∀ r, (f r).id = r.id ∧ (f r).chat_id = r.chat_id ∧ (f r).micro_usd = r.micro_usd)
    (hopen : (f r).isOpen = r.isOpen) : Sound (db.setReservation r.id f) := by
  refine ⟨h.books.mark (fun x hx hid => ?_) rfl rfl rfl, ?_,
    h.billed.update hr hsettled (fun r => (hf r).1) rfl rfl⟩
  · obtain rfl := List.inj_on_of_nodup_map h.billed.ids hx hr hid
    exact ⟨(hf x).2.1, (hf x).2.2, hopen⟩
  · exact h.owners.same (fun c hc => hc) (table.map_update fun r _ _ => (hf r).2.1) rfl rfl

end Sound

theorem sound_reserve {db db' : Db} {chatId : Int} {updateId : Option Int} {reqKey : Option String}
    {microUsd now : Int} {allowOverdraft : Bool} {out : Reserved} (h : Sound db)
    (hmicro : 0 ≤ microUsd)
    (hop : reserve db chatId updateId reqKey microUsd allowOverdraft now = .ok (db', out)) :
    Sound db' := by
  unfold reserve at hop
  split at hop
  · cases hop
  simp only at hop
  split at hop
  · obtain ⟨rfl, -⟩ := Prod.mk.inj (Except.ok.inj hop)
    exact h
  split at hop
  · cases hop
  rename_i u huser
  by_cases hfunds : 0 < microUsd ∧ u.balance_micro_usd < if allowOverdraft then 1 else microUsd
  · rw [if_pos hfunds] at hop
    cases hop
  rw [if_neg hfunds] at hop
  obtain ⟨rfl, -⟩ := Prod.mk.inj (Except.ok.inj hop)
  have hhas := has_of_user huser
  -- a reservation of nothing moves nothing
  have hmove : (if 0 < microUsd then db.move chatId (-microUsd) microUsd else db) =
      db.move chatId (-microUsd) microUsd := by
    split
    · rfl
    · obtain rfl : microUsd = 0 := by omega
      exact (move_zero db chatId).symm
  rw [hmove]
  refine ⟨h.books.setAside hhas ⟨rfl, rfl, rfl⟩ rfl rfl rfl, ?_,
    h.billed.insert (nextId_not_mem _) rfl rfl⟩
  have hsub : ∀ c, db.Has c → (db.move chatId (-microUsd) microUsd).Has c := fun c hc =>
    (has_move db _ _ _ c).mpr hc
  refine h.owners.transfer hsub (fun c hc => ?_) (fun c hc => .inl hc) (fun r hr _ => .inl hr)
    h.owners.ids
  simp only [move_reservations, List.map_append, List.mem_append, List.map_cons, List.map_nil,
    List.mem_singleton] at hc
  obtain hc | rfl := hc
  · exact .inl hc
  · exact .inr (hsub _ hhas)

/-- The ledger row of a charge, if there is one. -/
theorem bill_ok {db db' : Db} {r : Reservation} {actual now : Int}
    (h : bill db r actual now = .ok db') :
    (¬0 < actual ∧ db' = db) ∨ ∃ row : LedgerRow, row.chat_id = r.chat_id ∧
      row.delta_micro_usd = -actual ∧ row.turn = some r.id ∧
      db' = { db.move r.chat_id (-actual) 0 with ledger := db.ledger ++ [row] } := by
  unfold bill at h
  split at h
  · rw [insertLedger_ok h]
    exact .inr ⟨_, rfl, rfl, rfl, rfl⟩
  · rename_i hactual
    exact .inl ⟨hactual, (Except.ok.inj h).symm⟩

/-- A reservation is settled in `db₁`, and then billed. -/
theorem sound_bill {db₁ db' : Db} {r : Reservation} {actual : Int} (h : Sound db₁)
    (hr : r ∈ db₁.reservations) (hstate : r.state = .settled) (hbilled : r.billed = some actual)
    (hunbilled : db₁.ledger.countP (fun l => l.turn = some r.id) = 0) {row : LedgerRow}
    (hrow : row.chat_id = r.chat_id ∧ row.delta_micro_usd = -actual ∧ row.turn = some r.id)
    (hdb : db' = { db₁.move r.chat_id (-actual) 0 with ledger := db₁.ledger ++ [row] }) :
    Sound db' := by
  subst hdb
  have hbilled' : r.billed = some (-row.delta_micro_usd) := by rw [hbilled, hrow.2.1, neg_neg]
  refine ⟨h.books.post (h.has_reservation hr) ⟨hrow.1, hrow.2.1⟩ rfl rfl rfl, ?_,
    h.billed.bill hr hunbilled hstate hrow.2.2 hbilled' rfl rfl⟩
  exact h.owners.same (fun c hc => (has_move db₁ _ _ _ c).mpr hc) rfl rfl rfl

theorem sound_settle {db db' : Db} {id : Nat} {actual now : Int} {out : Settled} (h : Sound db)
    (hop : settle db id actual now = .ok (db', out)) : Sound db' := by
  unfold settle at hop
  split at hop
  · cases hop
  rename_i r hfind
  obtain ⟨hr, rfl⟩ := table.find_spec hfind
  let f : Reservation → Reservation := fun r => { r with state := .settled, billed := some actual }
  have hself : f r ∈ table.update Reservation.id r.id f db.reservations := table.mem_update_self hr
  split at hop
  · -- late: the hold was given back when it aged out
    rename_i hstate
    have hne : r.state ≠ .settled := by simp [hstate]
    have hmark : Sound (db.setReservation r.id f) :=
      h.mark hr hne (fun r => ⟨rfl, rfl, rfl⟩) (by simp [f, Reservation.isOpen, hstate])
    unfold settleLate at hop
    simp only [bind, Except.bind] at hop
    split at hop
    · cases hop
    rename_i db₂ hbill
    obtain ⟨rfl, -⟩ := Prod.mk.inj (Except.ok.inj hop)
    obtain ⟨-, rfl⟩ | ⟨row, hchat, hdelta, hturn, rfl⟩ := bill_ok hbill
    · exact hmark
    · have hunbilled := h.billed.unbilled hr hne
      exact sound_bill hmark hself rfl rfl hunbilled ⟨hchat, hdelta, hturn⟩ rfl
  · rename_i hstate
    have hne : r.state ≠ .settled := by simp [hstate]
    have hback := h.giveBack (f := f) hr (by simp [Reservation.isOpen, hstate])
      (fun r => ⟨rfl, rfl⟩) (by simp [f])
    simp only [bind, Except.bind] at hop
    split at hop
    · cases hop
    rename_i db₂ hbill
    obtain ⟨rfl, -⟩ := Prod.mk.inj (Except.ok.inj hop)
    obtain ⟨-, rfl⟩ | ⟨row, hchat, hdelta, hturn, rfl⟩ := bill_ok hbill
    · exact hback
    · have hunbilled := h.billed.unbilled hr hne
      exact sound_bill hback hself rfl rfl hunbilled ⟨hchat, hdelta, hturn⟩ rfl
  · obtain ⟨rfl, -⟩ := Prod.mk.inj (Except.ok.inj hop)
    exact h

theorem sound_release {db db' : Db} {id : Nat} {out : Released} (h : Sound db)
    (hop : release db id = .ok (db', out)) : Sound db' := by
  unfold release at hop
  split at hop
  · cases hop
  rename_i r hfind
  obtain ⟨hr, rfl⟩ := table.find_spec hfind
  split at hop
  · obtain ⟨rfl, -⟩ := Prod.mk.inj (Except.ok.inj hop)
    exact h
  · rename_i hstate
    obtain ⟨rfl, -⟩ := Prod.mk.inj (Except.ok.inj hop)
    rw [not_not] at hstate
    exact h.giveBack hr (by simp [Reservation.isOpen, hstate]) (fun r => ⟨rfl, rfl⟩) (by simp)

theorem sound_hold {db : Db} {id : Nat} (h : Sound db) : Sound (hold db id).1 := by
  unfold hold
  split
  · exact h
  rename_i r hfind
  obtain ⟨hr, rfl⟩ := table.find_spec hfind
  split
  · exact h
  · rename_i hstate
    rw [not_not] at hstate
    exact h.mark hr (by simp [hstate]) (fun r => ⟨rfl, rfl, rfl⟩)
      (by simp [Reservation.isOpen, hstate])

theorem sound_ageOut {db : Db} {id : Nat} (h : Sound db) : Sound (ageOut db id) := by
  unfold ageOut
  split
  · exact h
  rename_i r hfind
  obtain ⟨hr, rfl⟩ := table.find_spec hfind
  split
  · exact h
  · rename_i hopen
    have hopen' : r.isOpen = true := by
      by_contra hnot
      simp [hnot] at hopen
    exact h.giveBack hr hopen' (fun r => ⟨rfl, rfl⟩) (by simp)

theorem sound_ageOutReservations {db : Db} {olderThanMinutes now : Int} (h : Sound db) :
    Sound (ageOutReservations db olderThanMinutes now) := by
  unfold ageOutReservations
  generalize stale db (now - olderThanMinutes * 60) = ids
  induction ids generalizing db with
  | nil => exact h
  | cons id ids ih => exact ih (sound_ageOut h)

theorem rebateGrant_some {db : Db} {dep : Deposit} {micro now chatId grant : Int} {rebate : Rebate}
    (h : rebateGrant db dep micro now rebate = some (chatId, grant)) :
    0 < micro ∧ dep.chat_id = some chatId := by
  simp only [rebateGrant, Option.bind_eq_bind, Option.bind_eq_some_iff] at h
  obtain ⟨_, -, _, -, _, hmicro, c, hchat, _, -, _, -, _, -, h⟩ := h
  obtain ⟨rfl, -⟩ := Prod.mk.inj (Option.some.inj h)
  exact ⟨by simpa [guard] using hmicro, hchat⟩

theorem sound_rebateFor {db : Db} {dep : Deposit} {micro now : Int} {rebate : Rebate} (h : Sound db)
    (hhas : 0 < micro → ∀ chatId ∈ dep.chat_id, db.Has chatId) :
    Sound (rebateFor db dep micro now rebate).1 := by
  unfold rebateFor
  split
  · exact h
  rename_i chatId grant hgrant
  obtain ⟨hmicro, hchat⟩ := rebateGrant_some hgrant
  have hk := hhas hmicro chatId hchat
  simp only
  split
  · exact h
  rename_i db' hinsert
  rw [insertLedger_ok hinsert]
  split
  · -- the deposit has just been credited to this row
    rename_i huser
    have hnone : db.user chatId = none := huser
    exact absurd hk (not_has_of_user hnone)
  · exact h.post hk ⟨rfl, rfl, rfl⟩ rfl rfl rfl rfl rfl

theorem splitDeposit_nonneg {dep : Deposit} {addr : Address} {rateE12 minDepositSat : Int}
    {split : Split} (h : splitDeposit dep addr rateE12 minDepositSat = .ok split) :
    0 ≤ split.micro := by
  unfold splitDeposit at h
  split at h
  · cases h
  simp only at h
  split at h
  · obtain rfl := Except.ok.inj h
    exact Int.le_refl 0
  split at h
  · cases h
  rename_i hnano
  rw [← Except.ok.inj h]
  exact Int.ediv_nonneg (by omega) (by decide)

theorem sound_applyCredit {db db' : Db} {dep : Deposit} {chatId rateE12 now : Int} {split : Split}
    {rebate : Rebate} {out : Credited} (h : Sound db) (hchat : dep.chat_id = some chatId)
    (hmicro : 0 ≤ split.micro)
    (hop : applyCredit db dep chatId split rateE12 now rebate = .ok (db', out)) : Sound db' := by
  simp only [applyCredit, bind, Except.bind] at hop
  split at hop
  · cases hop
  rename_i db₁ hinsert
  have hdb₁ := insertLedger_ok hinsert
  by_cases hnone : 0 < split.micro ∧ db₁.user chatId = none
  · rw [if_pos hnone] at hop
    cases hop
  rw [if_neg hnone] at hop
  obtain ⟨rfl, -⟩ := Prod.mk.inj (Except.ok.inj hop)
  refine sound_rebateFor ?_ fun hpos c hc => ?_
  · by_cases hpos : 0 < split.micro
    · have hhas := has_of_user_ne fun huser => hnone ⟨hpos, huser⟩
      rw [if_pos hpos]
      subst hdb₁
      exact h.post hhas ⟨rfl, rfl, rfl⟩ rfl rfl rfl rfl rfl
    · rw [if_neg hpos]
      subst hdb₁
      exact ⟨h.books.postZero (by simp only; omega) rfl rfl rfl,
        h.owners.same (fun c hc => hc) rfl rfl rfl, h.billed.post rfl rfl rfl⟩
  · obtain rfl : chatId = c := Option.some.inj (hchat.symm.trans hc)
    have hhas := has_of_user_ne fun huser => hnone ⟨hpos, huser⟩
    rw [if_pos hpos]
    exact (has_move db₁ _ _ _ chatId).mpr hhas

theorem sound_creditDeposit {db db' : Db} {depositId : Nat} {rate : Option Int}
    {minDepositSat now : Int} {rebate : Rebate} {out : Credited} (h : Sound db)
    (hop : creditDeposit db depositId rate minDepositSat now rebate = .ok (db', out)) :
    Sound db' := by
  unfold creditDeposit at hop
  split at hop
  · cases hop
  split at hop
  · cases hop
  split at hop
  · cases hop
  rename_i dep hdep
  split at hop
  · obtain ⟨rfl, -⟩ := Prod.mk.inj (Except.ok.inj hop)
    exact h
  split at hop
  · cases hop
  rename_i addr haddr
  simp only [bind, Except.bind] at hop
  split at hop
  · cases hop
  rename_i split hsplit
  split at hop
  · cases hop
  rename_i chatId hchat
  exact sound_applyCredit h hchat (splitDeposit_nonneg hsplit) hop

theorem sound_recordInvite {db : Db} {chatId : Int} {invitedBy : Option Int} (h : Sound db) :
    Sound (recordInvite db chatId invitedBy).1 := by
  unfold recordInvite
  split
  · exact h
  split
  · exact h
  split
  · exact h
  split
  · exact h
  · refine h.aside rfl rfl rfl rfl (fun r hr hstatus => ?_)
      (table.nodup_append h.owners.ids (nextId_not_mem _))
    obtain hr | hr := List.mem_append.mp hr
    · exact .inl hr
    · rw [List.mem_singleton.mp hr] at hstatus
      cases hstatus

/-- A new account, with nothing in it. -/
theorem sound_newUser {db : Db} {chatId : Int} (h : Sound db) (hnew : ¬db.Has chatId) :
    Sound { db with users := db.users ++ [{ chat_id := chatId }] } := by
  have hbalance : ∀ c, balanceOf c (db.users ++ [{ chat_id := chatId }]) = balanceOf c db.users := by
    intro c
    simp [balanceOf]
  have hreserved : ∀ c, reservedOf c (db.users ++ [{ chat_id := chatId }]) =
      reservedOf c db.users := by
    intro c
    simp [reservedOf]
  refine ⟨⟨table.nodup_append h.books.users hnew, fun c => ?_, fun c => ?_⟩, ?_, h.billed.transfer rfl rfl⟩
  · rw [hbalance, hreserved]
    exact h.books.closes c
  · rw [hreserved]
    exact h.books.holds c
  · refine h.owners.same (fun c hc => ?_) rfl rfl rfl
    simp only [Db.Has, List.map_append]
    exact List.mem_append_left _ hc

theorem sound_giveGift {db : Db} {chatId gift now : Int} (h : Sound db) (hhas : db.Has chatId) :
    Sound (giveGift db chatId gift now).1 := by
  unfold giveGift
  split
  · split
    · rename_i db' hinsert
      rw [insertLedger_ok hinsert]
      exact h.post hhas ⟨rfl, rfl, rfl⟩ rfl rfl rfl rfl rfl
    · exact h
  · exact h

theorem sound_openAccount {db : Db} {chatId giftMicro giftCapMicro now : Int}
    {invitedBy : Option Int} (h : Sound db) :
    Sound (openAccount db chatId giftMicro giftCapMicro invitedBy now).1 := by
  unfold openAccount
  split
  · exact h
  rename_i hnone
  have huser : db.user chatId = none := by simpa using hnone
  have hnew := sound_newUser h (not_has_of_user huser)
  refine sound_recordInvite (sound_giveGift hnew ?_)
  simp [Db.Has]

/-- A referral leaves its state, but not to be rewarded. -/
theorem setReferral_rewarded {db : Db} {id : Nat} {f : Referral → Referral}
    (hf : ∀ r, (f r).status ≠ .rewarded) {r : Referral}
    (hr : r ∈ (db.setReferral id f).referrals) (hstatus : r.status = .rewarded) :
    r ∈ db.referrals := by
  obtain ⟨x, hx, rfl⟩ := List.mem_map.mp hr
  by_cases hid : x.id = id
  · rw [if_pos hid] at hstatus
    exact absurd hstatus (hf x)
  · rw [if_neg hid]
    exact hx

theorem setReferral_nodup {db : Db} {id : Nat} {f : Referral → Referral} (h : Sound db)
    (hf : ∀ r, (f r).id = r.id) : ((db.setReferral id f).referrals.map Referral.id).Nodup := by
  have hids : (db.setReferral id f).referrals.map Referral.id = db.referrals.map Referral.id :=
    table.map_update fun r _ _ => hf r
  rw [hids]
  exact h.owners.ids

/-- A referral is made void. -/
theorem sound_void {db : Db} {id : Nat} (h : Sound db) :
    Sound (db.setReferral id fun r => { r with status := .void }) := by
  refine h.aside rfl rfl rfl rfl (fun r hr hstatus => ?_) ?_
  · exact .inl (setReferral_rewarded (fun r => by simp) hr hstatus)
  · exact setReferral_nodup h fun r => rfl

theorem sound_payInviteReward {db db' : Db} {referredId : Int} {itemId : Option Nat}
    {rewardMicro minTopupMicro now : Int} {enabled : Bool} {out : Paid} (h : Sound db)
    (hop : payInviteReward db referredId itemId rewardMicro minTopupMicro enabled now =
      .ok (db', out)) : Sound db' := by
  unfold payInviteReward at hop
  split at hop
  · obtain ⟨rfl, -⟩ := Prod.mk.inj (Except.ok.inj hop)
    exact h
  split at hop
  · obtain ⟨rfl, -⟩ := Prod.mk.inj (Except.ok.inj hop)
    exact h
  rename_i ref hfind
  split at hop
  · obtain ⟨rfl, -⟩ := Prod.mk.inj (Except.ok.inj hop)
    exact sound_void h
  split at hop
  · obtain ⟨rfl, -⟩ := Prod.mk.inj (Except.ok.inj hop)
    exact sound_void h
  rename_i huser
  have hhas := has_of_user_ne huser
  split at hop
  · obtain ⟨rfl, -⟩ := Prod.mk.inj (Except.ok.inj hop)
    exact h
  split at hop
  · obtain ⟨rfl, -⟩ := Prod.mk.inj (Except.ok.inj hop)
    exact h
  simp only [bind, Except.bind] at hop
  split at hop
  · cases hop
  rename_i db₁ hinsert
  obtain ⟨rfl, -⟩ := Prod.mk.inj (Except.ok.inj hop)
  rw [insertLedger_ok hinsert]
  have href := List.mem_of_find?_eq_some hfind
  have haside : Sound (db.setReferral ref.id fun r =>
      { r with status := .rewarded, reward_micro_usd := some rewardMicro
               min_topup_micro_usd := some minTopupMicro }) := by
    refine h.aside rfl rfl rfl rfl (fun r hr hstatus => ?_) (setReferral_nodup h fun r => rfl)
    obtain rfl | ⟨hr, -⟩ := table.mem_update h.owners.ids href hr
    · exact .inr hhas
    · exact .inl hr
  exact haside.post hhas ⟨rfl, rfl, rfl⟩ rfl rfl rfl rfl rfl

theorem sound_creditStarsPayment {db db' : Db} {chatId now : Int} {sp : SuccessfulPayment}
    {out : StarsCredit} (h : Sound db) (hop : creditStarsPayment db chatId sp now = .ok (db', out)) :
    Sound db' := by
  unfold creditStarsPayment at hop
  split at hop
  · obtain ⟨rfl, -⟩ := Prod.mk.inj (Except.ok.inj hop)
    exact h
  split at hop
  · obtain ⟨rfl, -⟩ := Prod.mk.inj (Except.ok.inj hop)
    exact h
  split at hop
  · obtain ⟨rfl, -⟩ := Prod.mk.inj (Except.ok.inj hop)
    exact h
  split at hop
  · obtain ⟨rfl, -⟩ := Prod.mk.inj (Except.ok.inj hop)
    exact h
  split at hop
  · obtain ⟨rfl, -⟩ := Prod.mk.inj (Except.ok.inj hop)
    exact h
  split at hop
  · obtain ⟨rfl, -⟩ := Prod.mk.inj (Except.ok.inj hop)
    exact h
  rename_i huser
  have hhas := has_of_user_ne huser
  simp only [bind, Except.bind] at hop
  split at hop
  · cases hop
  rename_i db₁ hinsert
  obtain ⟨rfl, -⟩ := Prod.mk.inj (Except.ok.inj hop)
  rw [insertLedger_ok hinsert]
  -- the payment first, then its credit
  have hpayment : ∀ (payment : Payment) (invoices : List Invoice), payment.chat_id = chatId →
      Sound { db with invoices := invoices, payments := db.payments ++ [payment] } := by
    intro payment invoices hchat
    refine ⟨h.books.transfer rfl rfl rfl, ?_, h.billed.transfer rfl rfl⟩
    refine h.owners.transfer (fun c hc => hc) (fun c hc => .inl hc) (fun c hc => ?_)
      (fun r hr _ => .inl hr) h.owners.ids
    simp only [List.map_append, List.mem_append, List.map_cons, List.map_nil,
      List.mem_singleton] at hc
    obtain hc | rfl := hc
    · exact .inl hc
    · rw [hchat]
      exact .inr hhas
  exact (hpayment _ _ rfl).post hhas ⟨rfl, rfl, rfl⟩ rfl rfl rfl rfl rfl

theorem has_payment {db : Db} (h : Sound db) {id : Nat} {p : Payment} (hp : db.payment id = some p) :
    db.Has p.chat_id :=
  h.owners.payments _ (List.mem_map.mpr ⟨p, (table.find_spec hp).1, rfl⟩)

/-- The state of a payment's refund. -/
theorem sound_setPayment {db : Db} {id : Nat} {f : Payment → Payment} (h : Sound db)
    (hf : ∀ p, (f p).chat_id = p.chat_id) : Sound (db.setPayment id f) :=
  h.aside rfl rfl rfl (table.map_update fun p _ _ => hf p) (fun _ hr _ => .inl hr) h.owners.ids

theorem sound_beginRefund {db db' : Db} {paymentId : Nat} {clawback resumed : Bool} {now : Int}
    (h : Sound db) (hop : beginRefund db paymentId clawback now = .ok (db', resumed)) :
    Sound db' := by
  unfold beginRefund at hop
  split at hop
  · cases hop
  rename_i p hp
  split at hop
  · cases hop
  split at hop
  · obtain ⟨rfl, -⟩ := Prod.mk.inj (Except.ok.inj hop)
    exact h
  simp only at hop
  split at hop
  · cases hop
  split at hop
  · cases hop
  split at hop
  · cases hop
  simp only [bind, Except.bind] at hop
  split at hop
  · cases hop
  rename_i db₁ hinsert
  obtain ⟨rfl, -⟩ := Prod.mk.inj (Except.ok.inj hop)
  refine sound_setPayment ?_ fun p => rfl
  rw [insertLedger_ok hinsert]
  exact h.post (has_payment h hp) ⟨rfl, rfl, rfl⟩ rfl rfl rfl rfl rfl

theorem sound_finishRefund {db db' : Db} {paymentId : Nat} {now : Int} {out : Option Int}
    (h : Sound db) (hop : finishRefund db paymentId now = .ok (db', out)) : Sound db' := by
  unfold finishRefund at hop
  split at hop
  · obtain ⟨rfl, -⟩ := Prod.mk.inj (Except.ok.inj hop)
    exact h
  rename_i p hp
  split at hop
  · obtain ⟨rfl, -⟩ := Prod.mk.inj (Except.ok.inj hop)
    exact h
  have hdone : Sound (db.setPayment p.id fun p =>
      { p with refund_state := some .done, refunded := true }) := sound_setPayment h fun p => rfl
  simp only at hop
  split at hop
  · obtain ⟨rfl, -⟩ := Prod.mk.inj (Except.ok.inj hop)
    exact hdone
  split at hop
  · obtain ⟨rfl, -⟩ := Prod.mk.inj (Except.ok.inj hop)
    exact hdone
  rename_i ref hfind
  split at hop
  · obtain ⟨rfl, -⟩ := Prod.mk.inj (Except.ok.inj hop)
    exact hdone
  simp only [bind, Except.bind] at hop
  split at hop
  · cases hop
  rename_i db₁ hinsert
  obtain ⟨rfl, -⟩ := Prod.mk.inj (Except.ok.inj hop)
  rw [insertLedger_ok hinsert]
  have hrewarded : ref.status = .rewarded := by
    have hpred := List.find?_some hfind
    simp only [Bool.and_eq_true, decide_eq_true_eq] at hpred
    exact hpred.2
  have hhas := hdone.owners.referrals ref (List.mem_of_find?_eq_some hfind) hrewarded
  refine sound_void ?_
  exact hdone.post hhas ⟨rfl, rfl, rfl⟩ rfl rfl rfl rfl rfl

theorem sound_undoRefund {db db' : Db} {paymentId : Nat} {now : Int} {out : Option Int}
    (h : Sound db) (hop : undoRefund db paymentId now = .ok (db', out)) : Sound db' := by
  unfold undoRefund at hop
  split at hop
  · obtain ⟨rfl, -⟩ := Prod.mk.inj (Except.ok.inj hop)
    exact h
  rename_i p hp
  split at hop
  · obtain ⟨rfl, -⟩ := Prod.mk.inj (Except.ok.inj hop)
    exact h
  simp only [bind, Except.bind] at hop
  split at hop
  · cases hop
  rename_i db₁ hinsert
  obtain ⟨rfl, -⟩ := Prod.mk.inj (Except.ok.inj hop)
  refine sound_setPayment ?_ fun p => rfl
  rw [insertLedger_ok hinsert]
  exact h.post (has_payment h hp) ⟨rfl, rfl, rfl⟩ rfl rfl rfl rfl rfl

end pcoin.bot
