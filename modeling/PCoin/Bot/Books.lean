import PCoin.Bot.Deposits
import PCoin.Bot.Rewards

namespace pcoin.bot

/-- The balance of a chat, zero if it has no row. -/
def balanceOf (chatId : Int) (users : List User) : Int :=
  (users.map fun u => if u.chat_id = chatId then u.balance_micro_usd else 0).sum

/-- What is reserved of a chat, zero if it has no row. -/
def reservedOf (chatId : Int) (users : List User) : Int :=
  (users.map fun u => if u.chat_id = chatId then u.reserved_micro_usd else 0).sum

/-- A chat has a row in `users`. -/
def Db.Has (db : Db) (chatId : Int) : Prop := chatId ∈ db.users.map User.chat_id

/-- The books close, for every chat whether it has a row or not. -/
structure Books (db : Db) : Prop where
  users : (db.users.map User.chat_id).Nodup
  closes : ∀ c, ledgerSum c db.ledger = balanceOf c db.users + reservedOf c db.users
  holds : ∀ c, reservedOf c db.users = openSum c db.reservations

/-- Money is only moved for chats that have a row. -/
structure Owners (db : Db) : Prop where
  reservations : ∀ c ∈ db.reservations.map Reservation.chat_id, db.Has c
  payments : ∀ c ∈ db.payments.map Payment.chat_id, db.Has c
  referrals : ∀ r ∈ db.referrals, r.status = .rewarded → db.Has r.referrer_chat_id
  ids : (db.referrals.map Referral.id).Nodup

/-- A reservation is billed once, when it is settled, and with the amount of that
`settle`. -/
structure Billed (db : Db) : Prop where
  ids : (db.reservations.map Reservation.id).Nodup
  once : ∀ id, db.ledger.countP (fun l => l.turn = some id) ≤ 1
  rows : ∀ l ∈ db.ledger, ∀ id, l.turn = some id →
    ∃ r ∈ db.reservations, r.id = id ∧ r.state = .settled ∧ r.billed = some (-l.delta_micro_usd)

theorem has_of_user {db : Db} {chatId : Int} {u : User} (h : db.user chatId = some u) :
    db.Has chatId := by
  obtain ⟨hu, rfl⟩ := table.find_spec h
  exact List.mem_map.mpr ⟨u, hu, rfl⟩

theorem has_of_user_ne {db : Db} {chatId : Int} (h : ¬db.user chatId = none) : db.Has chatId := by
  obtain ⟨u, hu⟩ := Option.ne_none_iff_exists'.mp h
  exact has_of_user hu

theorem not_has_of_user {db : Db} {chatId : Int} (h : db.user chatId = none) :
    ¬db.Has chatId := by
  intro hhas
  obtain ⟨u, hu, hid⟩ := List.mem_map.mp hhas
  exact table.find_eq_none h u hu hid

@[simp] theorem move_chats (db : Db) (k b r : Int) :
    (db.move k b r).users.map User.chat_id = db.users.map User.chat_id := by
  refine table.map_update fun u _ _ => ?_
  rfl

@[simp] theorem has_move (db : Db) (k b r c : Int) : (db.move k b r).Has c ↔ db.Has c := by
  simp [Db.Has]

@[simp] theorem move_ledger (db : Db) (k b r : Int) : (db.move k b r).ledger = db.ledger := rfl

@[simp] theorem move_reservations (db : Db) (k b r : Int) :
    (db.move k b r).reservations = db.reservations := rfl

@[simp] theorem move_payments (db : Db) (k b r : Int) : (db.move k b r).payments = db.payments := rfl

@[simp] theorem move_referrals (db : Db) (k b r : Int) :
    (db.move k b r).referrals = db.referrals := rfl

theorem move_zero (db : Db) (k : Int) : db.move k 0 0 = db := by
  have hself : table.update User.chat_id k (fun u => u) db.users = db.users := by
    simp [table.update]
  simp only [Db.move, add_zero]
  rw [hself]

theorem balanceOf_move {db : Db} (hnodup : (db.users.map User.chat_id).Nodup) {k : Int}
    (hk : db.Has k) (b r c : Int) :
    balanceOf c (db.move k b r).users = balanceOf c db.users + if k = c then b else 0 := by
  obtain ⟨u, hu, rfl⟩ := List.mem_map.mp hk
  have hsum := table.sum_update hnodup hu
    (fun u => { u with balance_micro_usd := u.balance_micro_usd + b
                       reserved_micro_usd := u.reserved_micro_usd + r })
    fun u => if u.chat_id = c then u.balance_micro_usd else 0
  simp only [balanceOf, Db.move] at hsum ⊢
  split at hsum <;> split <;> simp_all
  omega

theorem reservedOf_move {db : Db} (hnodup : (db.users.map User.chat_id).Nodup) {k : Int}
    (hk : db.Has k) (b r c : Int) :
    reservedOf c (db.move k b r).users = reservedOf c db.users + if k = c then r else 0 := by
  obtain ⟨u, hu, rfl⟩ := List.mem_map.mp hk
  have hsum := table.sum_update hnodup hu
    (fun u => { u with balance_micro_usd := u.balance_micro_usd + b
                       reserved_micro_usd := u.reserved_micro_usd + r })
    fun u => if u.chat_id = c then u.reserved_micro_usd else 0
  simp only [reservedOf, Db.move] at hsum ⊢
  split at hsum <;> split <;> simp_all
  omega

theorem ledgerSum_append (c : Int) (ledger : List LedgerRow) (row : LedgerRow) :
    ledgerSum c (ledger ++ [row]) =
      ledgerSum c ledger + if row.chat_id = c then row.delta_micro_usd else 0 := by
  simp [ledgerSum]

theorem openSum_append (c : Int) (reservations : List Reservation) (r : Reservation) :
    openSum c (reservations ++ [r]) = openSum c reservations +
      if r.chat_id = c ∧ (r.state = .opened ∨ r.state = .held) then r.micro_usd else 0 := by
  simp [openSum]

theorem insertLedger_ok {db db' : Db} {row : LedgerRow} (h : db.insertLedger row = .ok db') :
    db' = { db with ledger := db.ledger ++ [row] } := by
  unfold Db.insertLedger at h
  split at h
  · cases h
  · exact (Except.ok.inj h).symm

namespace Books

variable {db db' : Db}

/-- The books do not look at the other tables. -/
theorem transfer (h : Books db) (husers : db'.users = db.users) (hledger : db'.ledger = db.ledger)
    (hresv : db'.reservations = db.reservations) : Books db' := by
  refine ⟨?_, fun c => ?_, fun c => ?_⟩
  · rw [husers]
    exact h.users
  · rw [husers, hledger]
    exact h.closes c
  · rw [husers, hresv]
    exact h.holds c

/-- A ledger row and the balance move by one amount. -/
theorem post (h : Books db) {k delta : Int} {row : LedgerRow} (hk : db.Has k)
    (hrow : row.chat_id = k ∧ row.delta_micro_usd = delta)
    (husers : db'.users = (db.move k delta 0).users) (hledger : db'.ledger = db.ledger ++ [row])
    (hresv : db'.reservations = db.reservations) : Books db' := by
  refine ⟨?_, fun c => ?_, fun c => ?_⟩
  · rw [husers, move_chats]
    exact h.users
  · rw [husers, hledger, ledgerSum_append, balanceOf_move h.users hk, reservedOf_move h.users hk,
      h.closes c, hrow.1, hrow.2]
    split <;> omega
  · rw [husers, hresv, reservedOf_move h.users hk, h.holds c]
    split <;> omega

/-- A zero row needs no balance. -/
theorem postZero (h : Books db) {row : LedgerRow} (hrow : row.delta_micro_usd = 0)
    (husers : db'.users = db.users) (hledger : db'.ledger = db.ledger ++ [row])
    (hresv : db'.reservations = db.reservations) : Books db' := by
  refine ⟨?_, fun c => ?_, fun c => ?_⟩
  · rw [husers]
    exact h.users
  · rw [husers, hledger, ledgerSum_append, h.closes c, hrow]
    split <;> omega
  · rw [husers, hresv]
    exact h.holds c

/-- Money is set aside together with its reservation. -/
theorem setAside (h : Books db) {k need : Int} {row : Reservation} (hk : db.Has k)
    (hrow : row.chat_id = k ∧ row.micro_usd = need ∧ row.state = .opened)
    (husers : db'.users = (db.move k (-need) need).users) (hledger : db'.ledger = db.ledger)
    (hresv : db'.reservations = db.reservations ++ [row]) : Books db' := by
  refine ⟨?_, fun c => ?_, fun c => ?_⟩
  · rw [husers, move_chats]
    exact h.users
  · rw [husers, hledger, balanceOf_move h.users hk, reservedOf_move h.users hk, h.closes c]
    split <;> omega
  · rw [husers, hresv, openSum_append, reservedOf_move h.users hk, h.holds c, hrow.1, hrow.2.1,
      hrow.2.2]
    simp

/-- An open reservation is closed and its money given back. -/
theorem giveBack (h : Books db) (hids : (db.reservations.map Reservation.id).Nodup)
    {r : Reservation} (hr : r ∈ db.reservations) (hk : db.Has r.chat_id) (hopen : r.isOpen = true)
    {f : Reservation → Reservation}
    (hf : (f r).state ≠ .opened ∧ (f r).state ≠ .held)
    (husers : db'.users = (db.move r.chat_id r.micro_usd (-r.micro_usd)).users)
    (hledger : db'.ledger = db.ledger)
    (hresv : db'.reservations = table.update Reservation.id r.id f db.reservations) :
    Books db' := by
  have hsum : ∀ c, openSum c db'.reservations + (if r.chat_id = c then r.micro_usd else 0) =
      openSum c db.reservations := by
    intro c
    have hupdate := table.sum_update hids hr f fun r =>
      if r.chat_id = c ∧ (r.state = .opened ∨ r.state = .held) then r.micro_usd else 0
    have hin : r.state = .opened ∨ r.state = .held := by simpa [Reservation.isOpen] using hopen
    have hout : ¬((f r).state = .opened ∨ (f r).state = .held) := by
      simpa using hf
    simp only [hin, hout, and_true, and_false, if_false, add_zero] at hupdate
    rw [hresv]
    exact hupdate
  refine ⟨?_, fun c => ?_, fun c => ?_⟩
  · rw [husers, move_chats]
    exact h.users
  · rw [husers, hledger, balanceOf_move h.users hk, reservedOf_move h.users hk, h.closes c]
    split <;> omega
  · have hc := hsum c
    rw [husers, reservedOf_move h.users hk, h.holds c]
    split at hc <;> split <;> omega

/-- A reservation is closed or held that does not change what it holds. -/
theorem mark (h : Books db) {id : Nat} {f : Reservation → Reservation}
    (hf : ∀ r ∈ db.reservations, r.id = id → (f r).chat_id = r.chat_id ∧
      (f r).micro_usd = r.micro_usd ∧ (f r).isOpen = r.isOpen)
    (husers : db'.users = db.users) (hledger : db'.ledger = db.ledger)
    (hresv : db'.reservations = table.update Reservation.id id f db.reservations) : Books db' := by
  refine ⟨?_, fun c => ?_, fun c => ?_⟩
  · rw [husers]
    exact h.users
  · rw [husers, hledger]
    exact h.closes c
  · rw [husers, hresv, h.holds c]
    rw [openSum, openSum, table.map_update]
    intro r hr hid
    obtain ⟨hchat, hmicro, hopen⟩ := hf r hr hid
    have hiff : ((f r).state = .opened ∨ (f r).state = .held) ↔
        (r.state = .opened ∨ r.state = .held) := by
      have hbool := Bool.eq_iff_iff.mp hopen
      simpa only [Reservation.isOpen, Bool.or_eq_true, decide_eq_true_eq] using hbool
    simp only [hchat, hmicro, hiff]

end Books

theorem nextId_not_mem (ids : List Nat) : nextId ids ∉ ids := by
  have hle : ∀ id ∈ ids, id ≤ ids.foldr max 0 := by
    induction ids with
    | nil => simp
    | cons x ids ih =>
      intro id hid
      simp only [List.foldr_cons]
      obtain rfl | hid := List.mem_cons.mp hid
      · exact le_max_left _ _
      · exact (ih id hid).trans (le_max_right _ _)
  intro hmem
  have hself := hle _ hmem
  simp only [nextId] at hself
  omega

namespace Owners

variable {db db' : Db}

theorem transfer (h : Owners db) (hhas : ∀ c, db.Has c → db'.Has c)
    (hresv : ∀ c ∈ db'.reservations.map Reservation.chat_id,
      c ∈ db.reservations.map Reservation.chat_id ∨ db'.Has c)
    (hpay : ∀ c ∈ db'.payments.map Payment.chat_id,
      c ∈ db.payments.map Payment.chat_id ∨ db'.Has c)
    (hreferrals : ∀ r ∈ db'.referrals, r.status = .rewarded →
      r ∈ db.referrals ∨ db'.Has r.referrer_chat_id)
    (hids : (db'.referrals.map Referral.id).Nodup) : Owners db' := by
  refine ⟨fun c hc => ?_, fun c hc => ?_, fun r hr hstatus => ?_, hids⟩
  · obtain hc | hc := hresv c hc
    · exact hhas c (h.reservations c hc)
    · exact hc
  · obtain hc | hc := hpay c hc
    · exact hhas c (h.payments c hc)
    · exact hc
  · obtain hr | hr := hreferrals r hr hstatus
    · exact hhas _ (h.referrals r hr hstatus)
    · exact hr

/-- No row of the three tables is new. -/
theorem same (h : Owners db) (hhas : ∀ c, db.Has c → db'.Has c)
    (hresv : db'.reservations.map Reservation.chat_id = db.reservations.map Reservation.chat_id)
    (hpay : db'.payments.map Payment.chat_id = db.payments.map Payment.chat_id)
    (hreferrals : db'.referrals = db.referrals) : Owners db' := by
  refine h.transfer hhas (fun c hc => ?_) (fun c hc => ?_) (fun r hr _ => ?_) ?_
  · exact .inl (hresv ▸ hc)
  · exact .inl (hpay ▸ hc)
  · exact .inl (hreferrals ▸ hr)
  · exact hreferrals ▸ h.ids

end Owners

namespace Billed

variable {db db' : Db}

theorem transfer (h : Billed db) (hledger : db'.ledger = db.ledger)
    (hresv : db'.reservations = db.reservations) : Billed db' := by
  refine ⟨?_, fun id => ?_, fun l hl id hid => ?_⟩
  · rw [hresv]
    exact h.ids
  · rw [hledger]
    exact h.once id
  · rw [hledger] at hl
    rw [hresv]
    exact h.rows l hl id hid

/-- A row that bills no reservation. -/
theorem post (h : Billed db) {row : LedgerRow} (hrow : row.turn = none)
    (hledger : db'.ledger = db.ledger ++ [row]) (hresv : db'.reservations = db.reservations) :
    Billed db' := by
  refine ⟨?_, fun id => ?_, fun l hl id hid => ?_⟩
  · rw [hresv]
    exact h.ids
  · rw [hledger, List.countP_append]
    simpa [hrow] using h.once id
  · rw [hledger] at hl
    rw [hresv]
    obtain hl | hl := List.mem_append.mp hl
    · exact h.rows l hl id hid
    · rw [List.mem_singleton.mp hl, hrow] at hid
      cases hid

/-- Only a settled reservation is billed. -/
theorem unbilled (h : Billed db) {r : Reservation} (hr : r ∈ db.reservations)
    (hstate : r.state ≠ .settled) : db.ledger.countP (fun l => l.turn = some r.id) = 0 := by
  refine List.countP_eq_zero.mpr fun l hl => ?_
  simp only [decide_eq_true_eq]
  intro hturn
  obtain ⟨x, hx, hid, hsettled, -⟩ := h.rows l hl r.id hturn
  obtain rfl := List.inj_on_of_nodup_map h.ids hx hr hid
  exact hstate hsettled

/-- A reservation that is not settled changes its state. -/
theorem update (h : Billed db) {r : Reservation} (hr : r ∈ db.reservations)
    (hstate : r.state ≠ .settled) {f : Reservation → Reservation} (hf : ∀ r, (f r).id = r.id)
    (hledger : db'.ledger = db.ledger)
    (hresv : db'.reservations = table.update Reservation.id r.id f db.reservations) :
    Billed db' := by
  refine ⟨?_, fun id => ?_, fun l hl id hid => ?_⟩
  · rw [hresv, table.keys_update (fun r _ => hf r)]
    exact h.ids
  · rw [hledger]
    exact h.once id
  · rw [hledger] at hl
    obtain ⟨x, hx, rfl, hsettled, hbilled⟩ := h.rows l hl id hid
    have hne : x.id ≠ r.id := by
      intro heq
      obtain rfl := List.inj_on_of_nodup_map h.ids hx hr heq
      exact hstate hsettled
    rw [hresv]
    exact ⟨x, table.mem_update_of_ne hx hne, rfl, hsettled, hbilled⟩

/-- A new reservation. -/
theorem insert (h : Billed db) {row : Reservation} (hid : row.id ∉ db.reservations.map Reservation.id)
    (hledger : db'.ledger = db.ledger) (hresv : db'.reservations = db.reservations ++ [row]) :
    Billed db' := by
  refine ⟨?_, fun id => ?_, fun l hl id hturn => ?_⟩
  · rw [hresv]
    exact table.nodup_append h.ids hid
  · rw [hledger]
    exact h.once id
  · rw [hledger] at hl
    obtain ⟨x, hx, hrest⟩ := h.rows l hl id hturn
    rw [hresv]
    exact ⟨x, List.mem_append_left _ hx, hrest⟩

/-- The row that bills a reservation as it is settled. -/
theorem bill (h : Billed db) {r : Reservation} (hr : r ∈ db.reservations)
    (hunbilled : db.ledger.countP (fun l => l.turn = some r.id) = 0) (hstate : r.state = .settled)
    {row : LedgerRow} (hturn : row.turn = some r.id)
    (hbilled : r.billed = some (-row.delta_micro_usd))
    (hledger : db'.ledger = db.ledger ++ [row]) (hresv : db'.reservations = db.reservations) :
    Billed db' := by
  refine ⟨?_, fun id => ?_, fun l hl id hid => ?_⟩
  · rw [hresv]
    exact h.ids
  · rw [hledger, List.countP_append]
    by_cases hid : id = r.id
    · rw [hid, hunbilled, Nat.zero_add]
      exact List.countP_le_length
    · have hnot : [row].countP (fun l => l.turn = some id) = 0 := by
        simp [hturn, Ne.symm hid]
      rw [hnot]
      exact h.once id
  · rw [hledger] at hl
    rw [hresv]
    obtain hl | hl := List.mem_append.mp hl
    · exact h.rows l hl id hid
    · obtain rfl := List.mem_singleton.mp hl
      rw [hturn] at hid
      exact ⟨r, hr, Option.some.inj hid, hstate, hbilled⟩

end Billed

end pcoin.bot
