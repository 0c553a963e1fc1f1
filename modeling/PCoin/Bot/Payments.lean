import PCoin.Bot.Reconcile
import PCoin.Run.Basic
import PCoin.Table.Evolves

/-! What the operations of the bot make of the Stars payments. -/

namespace pcoin.bot

section Frame

variable {db db' : Db} {chatId actual now : Int} {id : Nat}

theorem payments_insertLedger {row : LedgerRow} (hop : db.insertLedger row = .ok db') :
    db'.payments = db.payments := by
  rw [insertLedger_ok hop]

theorem payments_bill {r : Reservation} (hop : bill db r actual now = .ok db') :
    db'.payments = db.payments := by
  obtain ⟨-, rfl⟩ | ⟨row, -, -, -, rfl⟩ := bill_ok hop
  · rfl
  · rfl

theorem payments_reserve {updateId : Option Int} {reqKey : Option String} {microUsd : Int}
    {allowOverdraft : Bool} {out : Reserved}
    (hop : reserve db chatId updateId reqKey microUsd allowOverdraft now = .ok (db', out)) :
    db'.payments = db.payments := by
  unfold reserve at hop
  split at hop
  · cases hop
  simp only at hop
  split at hop
  · cases hop
    rfl
  split at hop
  · cases hop
  rename_i u _
  by_cases hfunds : 0 < microUsd ∧ u.balance_micro_usd < (if allowOverdraft then 1 else microUsd)
  · rw [if_pos hfunds] at hop
    cases hop
  · rw [if_neg hfunds] at hop
    cases hop
    simp only
    split <;> rfl

theorem payments_settle {out : Settled} (hop : settle db id actual now = .ok (db', out)) :
    db'.payments = db.payments := by
  unfold settle at hop
  split at hop
  · cases hop
  split at hop
  · obtain ⟨db₁, hbill, hop⟩ := run.bind_eq_ok.mp hop
    cases hop
    have hpay := payments_bill hbill
    exact hpay
  · obtain ⟨db₁, hbill, hop⟩ := run.bind_eq_ok.mp hop
    cases hop
    have hpay := payments_bill hbill
    exact hpay
  · cases hop
    rfl

theorem payments_release {out : Released} (hop : release db id = .ok (db', out)) :
    db'.payments = db.payments := by
  unfold release at hop
  split at hop
  · cases hop
  split at hop
  · cases hop
    rfl
  · cases hop
    rfl

theorem payments_hold (db : Db) (id : Nat) : (hold db id).1.payments = db.payments := by
  unfold hold
  split
  · rfl
  split <;> rfl

theorem payments_ageOut (db : Db) (id : Nat) : (ageOut db id).payments = db.payments := by
  unfold ageOut
  split
  · rfl
  split <;> rfl

theorem payments_ageOutReservations (db : Db) (olderThanMinutes now : Int) :
    (ageOutReservations db olderThanMinutes now).payments = db.payments := by
  unfold ageOutReservations
  generalize stale db (now - olderThanMinutes * 60) = ids
  induction ids generalizing db with
  | nil => rfl
  | cons id ids ih => rw [List.foldl_cons, ih, payments_ageOut]

theorem payments_rebateFor (db : Db) (dep : Deposit) (micro now : Int) (rebate : Rebate) :
    (rebateFor db dep micro now rebate).1.payments = db.payments := by
  unfold rebateFor
  split
  · rfl
  simp only
  split
  · rfl
  rename_i db₁ hinsert
  have hpay := payments_insertLedger hinsert
  split
  · exact hpay
  · exact hpay

theorem payments_creditDeposit {rate : Option Int} {minDepositSat : Int} {rebate : Rebate}
    {out : Credited} (hop : creditDeposit db id rate minDepositSat now rebate = .ok (db', out)) :
    db'.payments = db.payments := by
  unfold creditDeposit at hop
  split at hop
  · cases hop
  split at hop
  · cases hop
  split at hop
  · cases hop
  split at hop
  · cases hop
    rfl
  split at hop
  · cases hop
  obtain ⟨split, -, hop⟩ := run.bind_eq_ok.mp hop
  split at hop
  · cases hop
  obtain ⟨db₁, hinsert, hop⟩ := run.bind_eq_ok.mp hop
  split at hop
  · cases hop
  obtain ⟨rfl, -⟩ := Prod.mk.inj (Except.ok.inj hop)
  refine (payments_rebateFor _ _ _ _ _).trans ?_
  rw [← payments_insertLedger hinsert]
  simp only
  split <;> rfl

theorem payments_openAccount (db : Db) (chatId giftMicro giftCapMicro : Int)
    (invitedBy : Option Int) (now : Int) :
    (openAccount db chatId giftMicro giftCapMicro invitedBy now).1.payments = db.payments := by
  have hinvite : ∀ db : Db, (recordInvite db chatId invitedBy).1.payments = db.payments := by
    intro db
    unfold recordInvite
    repeat' split
    all_goals rfl
  have hgift : ∀ (db : Db) (gift : Int), (giveGift db chatId gift now).1.payments = db.payments := by
    intro db gift
    unfold giveGift
    split
    · split
      · rename_i db₁ hinsert
        have hpay := payments_insertLedger hinsert
        exact hpay
      · rfl
    · rfl
  unfold openAccount
  split
  · rfl
  · simp only [hinvite, hgift]

theorem payments_payInviteReward {itemId : Option Nat} {rewardMicro minTopupMicro : Int}
    {enabled : Bool} {out : Paid}
    (hop : payInviteReward db chatId itemId rewardMicro minTopupMicro enabled now = .ok (db', out)) :
    db'.payments = db.payments := by
  unfold payInviteReward at hop
  split at hop
  · cases hop
    rfl
  split at hop
  · cases hop
    rfl
  split at hop
  · cases hop
    rfl
  split at hop
  · cases hop
    rfl
  split at hop
  · cases hop
    rfl
  split at hop
  · cases hop
    rfl
  obtain ⟨db₁, hinsert, hop⟩ := run.bind_eq_ok.mp hop
  cases hop
  have hpay := payments_insertLedger hinsert
  exact hpay

end Frame

/-- A payment enters with a charge and an id of its own, and with no refund. -/
theorem payments_creditStarsPayment {db db' : Db} {chatId now : Int} {sp : SuccessfulPayment}
    {out : StarsCredit} (hop : creditStarsPayment db chatId sp now = .ok (db', out)) :
    db'.payments = db.payments ∨ ∃ p : Payment, db'.payments = db.payments ++ [p] ∧
      p.id ∉ db.payments.map Payment.id ∧ p.charge_id ∉ db.payments.map Payment.charge_id ∧
      p.refund_state = none ∧ p.refunded = false := by
  unfold creditStarsPayment at hop
  split at hop
  · cases hop
    exact .inl rfl
  split at hop
  · cases hop
    exact .inl rfl
  rename_i hcharge
  split at hop
  · cases hop
    exact .inl rfl
  rename_i inv _
  split at hop
  · cases hop
    exact .inl rfl
  split at hop
  · cases hop
    exact .inl rfl
  split at hop
  · cases hop
    exact .inl rfl
  obtain ⟨db₁, hinsert, hop⟩ := run.bind_eq_ok.mp hop
  cases hop
  have hpay := payments_insertLedger hinsert
  refine .inr ⟨_, hpay, nextId_not_mem _, ?_, rfl, rfl⟩
  simpa using hcharge

/-- A refund that begins is of a payment that has not been refunded, and leaves it pending. -/
theorem payments_beginRefund {db db' : Db} {id : Nat} {clawback resumed : Bool} {now : Int}
    (hop : beginRefund db id clawback now = .ok (db', resumed)) :
    ∃ p, db.payment id = some p ∧ p.refund_state ≠ some .done ∧
      ((p.refund_state = some .pending ∧ db' = db) ∨
        ∃ taken, db'.payments = table.update Payment.id id
          (fun p => { p with refund_state := some .pending, refund_clawback := taken })
          db.payments) := by
  unfold beginRefund at hop
  split at hop
  · cases hop
  rename_i p hp
  obtain ⟨-, hid⟩ := table.find_spec hp
  split at hop
  · cases hop
  rename_i hdone
  rw [not_or] at hdone
  refine ⟨p, hp, hdone.1, ?_⟩
  split at hop
  · rename_i hpending
    cases hop
    exact .inl ⟨hpending, rfl⟩
  simp only at hop
  split at hop
  · cases hop
  split at hop
  · cases hop
  split at hop
  · cases hop
  obtain ⟨db₁, hinsert, hop⟩ := run.bind_eq_ok.mp hop
  cases hop
  have hpay := payments_insertLedger hinsert
  refine .inr ⟨inviteDependency db p.chat_id p.micro_usd && clawback, ?_⟩
  simp only [Db.setPayment, hpay, hid]
  rfl

theorem payments_finishRefund {db db' : Db} {id : Nat} {now : Int} {out : Option Int}
    (hop : finishRefund db id now = .ok (db', out)) :
    db' = db ∨ ∃ p, db.payment id = some p ∧ p.refund_state = some .pending ∧
      db'.payments = table.update Payment.id id
        (fun p => { p with refund_state := some .done, refunded := true }) db.payments := by
  unfold finishRefund at hop
  split at hop
  · cases hop
    exact .inl rfl
  rename_i p hp
  obtain ⟨-, hid⟩ := table.find_spec hp
  split at hop
  · cases hop
    exact .inl rfl
  rename_i hpending
  refine .inr ⟨p, hp, not_not.mp hpending, ?_⟩
  simp only at hop
  split at hop
  · cases hop
    rw [← hid]
    rfl
  split at hop
  · cases hop
    rw [← hid]
    rfl
  split at hop
  · cases hop
    rw [← hid]
    rfl
  obtain ⟨db₁, hinsert, hop⟩ := run.bind_eq_ok.mp hop
  cases hop
  have hpay := payments_insertLedger hinsert
  rw [← hid]
  exact hpay

theorem payments_undoRefund {db db' : Db} {id : Nat} {now : Int} {out : Option Int}
    (hop : undoRefund db id now = .ok (db', out)) :
    db' = db ∨ ∃ p, db.payment id = some p ∧ p.refund_state = some .pending ∧
      db'.payments = table.update Payment.id id
        (fun p => { p with refund_state := none, refund_clawback := false }) db.payments := by
  unfold undoRefund at hop
  split at hop
  · cases hop
    exact .inl rfl
  rename_i p hp
  obtain ⟨-, hid⟩ := table.find_spec hp
  split at hop
  · cases hop
    exact .inl rfl
  rename_i hpending
  refine .inr ⟨p, hp, not_not.mp hpending, ?_⟩
  obtain ⟨db₁, hinsert, hop⟩ := run.bind_eq_ok.mp hop
  cases hop
  have hpay := payments_insertLedger hinsert
  rw [← hid]
  simp only [Db.setPayment]
  rw [← hpay]
  rfl

/-- The operations of a refund. -/
def Op.isRefund : Op → Bool
  | .beginRefund _ _ _ | .finishRefund _ _ | .undoRefund _ _ => true
  | _ => false

/-- No other operation changes a payment that is there. -/
theorem payments_step {db db' : Db} {op : Op} (hop : op.isRefund = false)
    (hstep : step db op = some db') :
    db'.payments = db.payments ∨ ∃ p : Payment, db'.payments = db.payments ++ [p] ∧
      p.id ∉ db.payments.map Payment.id ∧ p.charge_id ∉ db.payments.map Payment.charge_id ∧
      p.refund_state = none ∧ p.refunded = false := by
  have himmediate : ∀ {α : Type} {r : Except Fault (Db × α)},
      (∀ db' out, r = .ok (db', out) → db'.payments = db.payments) →
        (immediate db r).payments = db.payments := by
    intro α r hr
    cases r with
    | error => rfl
    | ok p => exact hr p.1 p.2 rfl
  cases op with
  | reserve =>
    obtain rfl := Option.some.inj hstep
    exact .inl (himmediate fun _ _ h => payments_reserve h)
  | settle =>
    obtain rfl := Option.some.inj hstep
    exact .inl (himmediate fun _ _ h => payments_settle h)
  | release =>
    obtain rfl := Option.some.inj hstep
    exact .inl (himmediate fun _ _ h => payments_release h)
  | hold =>
    obtain rfl := Option.some.inj hstep
    exact .inl (payments_hold db _)
  | ageOut =>
    obtain rfl := Option.some.inj hstep
    exact .inl (payments_ageOut db _)
  | ageOutReservations =>
    obtain rfl := Option.some.inj hstep
    exact .inl (payments_ageOutReservations db _ _)
  | creditDeposit =>
    obtain rfl := Option.some.inj hstep
    exact .inl (himmediate fun _ _ h => payments_creditDeposit h)
  | openAccount =>
    obtain rfl := Option.some.inj hstep
    exact .inl (payments_openAccount db _ _ _ _ _)
  | payInviteReward =>
    obtain rfl := Option.some.inj hstep
    exact .inl (himmediate fun _ _ h => payments_payInviteReward h)
  | creditStarsPayment chatId sp now =>
    obtain rfl := Option.some.inj hstep
    cases hcredit : creditStarsPayment db chatId sp now with
    | error => exact .inl rfl
    | ok p => exact payments_creditStarsPayment hcredit
  | beginRefund => cases hop
  | finishRefund => cases hop
  | undoRefund => cases hop
  | others =>
    obtain rfl := Option.some.inj hstep
    exact .inl rfl

end pcoin.bot
