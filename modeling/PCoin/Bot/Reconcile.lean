import PCoin.Bot.Closing

namespace pcoin.bot

/-- The operations on the books, with their arguments. `others` is what the rest of the
bot writes: deposits and addresses it sees, invoices, jobs and items. -/
inductive Op
  | reserve (chatId : Int) (updateId : Option Int) (reqKey : Option String) (microUsd : Int)
      (allowOverdraft : Bool) (now : Int)
  | settle (reservationId : Nat) (actual now : Int)
  | release (reservationId : Nat)
  | hold (reservationId : Nat)
  | ageOut (reservationId : Nat)
  | ageOutReservations (olderThanMinutes now : Int)
  | creditDeposit (depositId : Nat) (rate : Option Int) (minDepositSat now : Int) (rebate : Rebate)
  | openAccount (chatId giftMicro giftCapMicro : Int) (invitedBy : Option Int) (now : Int)
  | payInviteReward (referredId : Int) (itemId : Option Nat) (rewardMicro minTopupMicro : Int)
      (enabled : Bool) (now : Int)
  | creditStarsPayment (chatId : Int) (sp : SuccessfulPayment) (now : Int)
  | beginRefund (paymentId : Nat) (clawback : Bool) (now : Int)
  | finishRefund (paymentId : Nat) (now : Int)
  | undoRefund (paymentId : Nat) (now : Int)
  | others (deposits : List Deposit) (addresses : List Address) (invoices : List Invoice)
      (jobs : List Job) (items : List Item)

/-- `immediate`: an operation that throws is rolled back. -/
def immediate {α : Type} (db : Db) : Except Fault (Db × α) → Db
  | .ok (db', _) => db'
  | .error _ => db

def step (db : Db) : Op → Option Db
  | .reserve chatId updateId reqKey microUsd allowOverdraft now =>
    some (immediate db (reserve db chatId updateId reqKey microUsd allowOverdraft now))
  | .settle id actual now => some (immediate db (settle db id actual now))
  | .release id => some (immediate db (release db id))
  | .hold id => some (hold db id).1
  | .ageOut id => some (ageOut db id)
  | .ageOutReservations olderThanMinutes now => some (ageOutReservations db olderThanMinutes now)
  | .creditDeposit id rate minDepositSat now rebate =>
    some (immediate db (creditDeposit db id rate minDepositSat now rebate))
  | .openAccount chatId giftMicro giftCapMicro invitedBy now =>
    some (openAccount db chatId giftMicro giftCapMicro invitedBy now).1
  | .payInviteReward referredId itemId rewardMicro minTopupMicro enabled now =>
    some (immediate db
      (payInviteReward db referredId itemId rewardMicro minTopupMicro enabled now))
  | .creditStarsPayment chatId sp now => some (immediate db (creditStarsPayment db chatId sp now))
  | .beginRefund id clawback now => some (immediate db (beginRefund db id clawback now))
  | .finishRefund id now => some (immediate db (finishRefund db id now))
  | .undoRefund id now => some (immediate db (undoRefund db id now))
  | .others deposits addresses invoices jobs items =>
    some { db with deposits := deposits, addresses := addresses, invoices := invoices, jobs := jobs,
                   items := items }

/-- No quote is negative. -/
def Quoted (_ : Db) : Op → Prop
  | .reserve _ _ _ microUsd _ _ => 0 ≤ microUsd
  | _ => True

instance (db : Db) : (op : Op) → Decidable (Quoted db op)
  | .reserve _ _ _ microUsd _ _ => inferInstanceAs (Decidable (0 ≤ microUsd))
  | .settle _ _ _ | .release _ | .hold _ | .ageOut _ | .ageOutReservations _ _
  | .creditDeposit _ _ _ _ _ | .openAccount _ _ _ _ _ | .payInviteReward _ _ _ _ _ _
  | .creditStarsPayment _ _ _ | .beginRefund _ _ _ | .finishRefund _ _ | .undoRefund _ _
  | .others _ _ _ _ _ => .isTrue trivial

/-- The rows that bill a reservation. -/
def billing (db : Db) (r : Reservation) : List LedgerRow :=
  db.ledger.filter fun l => l.turn = some r.id

/-- The books of every user close, and every reservation is billed at most once, only
when it is settled, and with the amount of the `settle` that closed it. -/
structure Closed (db : Db) : Prop where
  ledger : ∀ u ∈ db.users, ledgerSum u.chat_id db.ledger = u.balance_micro_usd + u.reserved_micro_usd
  reserved : ∀ u ∈ db.users, u.reserved_micro_usd = openSum u.chat_id db.reservations
  once : ∀ r ∈ db.reservations, (billing db r).length ≤ 1
  amount : ∀ r ∈ db.reservations, ∀ l ∈ billing db r, r.billed = some (-l.delta_micro_usd)
  released : ∀ r ∈ db.reservations, r.state = .released → billing db r = []
  noDrift : reconcile db = []

theorem sound_immediate {α : Type} {db : Db} {r : Except Fault (Db × α)} (h : Sound db)
    (hop : ∀ db' out, r = .ok (db', out) → Sound db') : Sound (immediate db r) := by
  cases r with
  | error => exact h
  | ok p => exact hop p.1 p.2 rfl

theorem sound_step {db db' : Db} {op : Op} (h : Sound db) (hquoted : Quoted db op)
    (hstep : step db op = some db') : Sound db' := by
  cases op with
  | reserve =>
    obtain rfl := Option.some.inj hstep
    exact sound_immediate h fun _ _ hop => sound_reserve h hquoted hop
  | settle =>
    obtain rfl := Option.some.inj hstep
    exact sound_immediate h fun _ _ hop => sound_settle h hop
  | release =>
    obtain rfl := Option.some.inj hstep
    exact sound_immediate h fun _ _ hop => sound_release h hop
  | hold =>
    obtain rfl := Option.some.inj hstep
    exact sound_hold h
  | ageOut =>
    obtain rfl := Option.some.inj hstep
    exact sound_ageOut h
  | ageOutReservations =>
    obtain rfl := Option.some.inj hstep
    exact sound_ageOutReservations h
  | creditDeposit =>
    obtain rfl := Option.some.inj hstep
    exact sound_immediate h fun _ _ hop => sound_creditDeposit h hop
  | openAccount =>
    obtain rfl := Option.some.inj hstep
    exact sound_openAccount h
  | payInviteReward =>
    obtain rfl := Option.some.inj hstep
    exact sound_immediate h fun _ _ hop => sound_payInviteReward h hop
  | creditStarsPayment =>
    obtain rfl := Option.some.inj hstep
    exact sound_immediate h fun _ _ hop => sound_creditStarsPayment h hop
  | beginRefund =>
    obtain rfl := Option.some.inj hstep
    exact sound_immediate h fun _ _ hop => sound_beginRefund h hop
  | finishRefund =>
    obtain rfl := Option.some.inj hstep
    exact sound_immediate h fun _ _ hop => sound_finishRefund h hop
  | undoRefund =>
    obtain rfl := Option.some.inj hstep
    exact sound_immediate h fun _ _ hop => sound_undoRefund h hop
  | others =>
    obtain rfl := Option.some.inj hstep
    exact h.aside rfl rfl rfl rfl (fun _ hr _ => .inl hr) h.owners.ids

/-- The row of a user is what the sums over the table see of the chat. -/
theorem sum_of_unique {users : List User} (hnodup : (users.map User.chat_id).Nodup) {u : User}
    (hu : u ∈ users) (c : User → Int) :
    (users.map fun x => if x.chat_id = u.chat_id then c x else 0).sum = c u := by
  induction users with
  | nil => cases hu
  | cons x users ih =>
    rw [List.map_cons, List.nodup_cons] at hnodup
    rw [List.map_cons, List.sum_cons]
    obtain rfl | hu := List.mem_cons.mp hu
    · have hrest : (users.map fun x => if x.chat_id = u.chat_id then c x else 0).sum = 0 := by
        refine List.sum_eq_zero fun n hn => ?_
        obtain ⟨y, hy, rfl⟩ := List.mem_map.mp hn
        rw [if_neg fun heq => hnodup.1 (List.mem_map.mpr ⟨y, hy, heq⟩)]
      rw [hrest, if_pos rfl, add_zero]
    · have hne : x.chat_id ≠ u.chat_id := fun heq =>
        hnodup.1 (List.mem_map.mpr ⟨u, hu, heq.symm⟩)
      rw [if_neg hne, zero_add, ih hnodup.2 hu]

theorem closed_of_sound {db : Db} (h : Sound db) : Closed db := by
  have hledger : ∀ u ∈ db.users,
      ledgerSum u.chat_id db.ledger = u.balance_micro_usd + u.reserved_micro_usd := by
    intro u hu
    rw [h.books.closes, balanceOf, reservedOf, sum_of_unique h.books.users hu,
      sum_of_unique h.books.users hu]
  have hreserved : ∀ u ∈ db.users, u.reserved_micro_usd = openSum u.chat_id db.reservations := by
    intro u hu
    rw [← h.books.holds, reservedOf, sum_of_unique h.books.users hu]
  have hrow : ∀ r ∈ db.reservations, ∀ l ∈ billing db r,
      r.state = .settled ∧ r.billed = some (-l.delta_micro_usd) := by
    intro r hr l hl
    obtain ⟨hl, hturn⟩ := List.mem_filter.mp hl
    obtain ⟨x, hx, hid, hstate, hbilled⟩ := h.billed.rows l hl r.id (by simpa using hturn)
    obtain rfl := List.inj_on_of_nodup_map h.billed.ids hx hr hid
    exact ⟨hstate, hbilled⟩
  refine ⟨hledger, hreserved, fun r hr => ?_, fun r hr l hl => (hrow r hr l hl).2,
    fun r hr hstate => ?_, ?_⟩
  · rw [billing, ← List.countP_eq_length_filter]
    exact h.billed.once r.id
  · refine List.eq_nil_iff_forall_not_mem.mpr fun l hl => ?_
    have hsettled := (hrow r hr l hl).1
    rw [hstate] at hsettled
    cases hsettled
  · refine List.flatMap_eq_nil_iff.mpr fun u hu => ?_
    rw [if_neg (not_not.mpr (hledger u hu)), if_neg (not_not.mpr (hreserved u hu)),
      List.append_nil]

theorem sound_empty : Sound {} := by
  refine ⟨⟨List.nodup_nil, fun c => rfl, fun c => rfl⟩, ⟨?_, ?_, ?_, List.nodup_nil⟩,
    ⟨List.nodup_nil, fun id => by simp, ?_⟩⟩
  all_goals simp

/-- The books always close: after any operations in any order, with quotes that are not
negative. -/
theorem books_always_close {db : Db} (hrun : run.Steps step Quoted {} db) : Closed db := by
  have hpreserve : ∀ db op db', Sound db → Quoted db op → step db op = some db' → Sound db' :=
    fun db op db' h hquoted hstep => sound_step h hquoted hstep
  exact closed_of_sound (hrun.invariant hpreserve sound_empty)

/-- A gift of $3, a turn quoted at $1 that ages out and is billed late at $1.25. -/
theorem books_always_close_late :
    ∃ db, run.exec step {} [.openAccount 7 3000000 0 none 100,
        .reserve 7 (some 5) none 1000000 false 100, .ageOutReservations 60 90000,
        .settle 1 1250000 90001] = some db ∧
      db.users = [⟨7, 1750000, 0⟩] ∧ Closed db := by
  have husers : (run.exec step {} [.openAccount 7 3000000 0 none 100,
      .reserve 7 (some 5) none 1000000 false 100, .ageOutReservations 60 90000,
      .settle 1 1250000 90001]).map (fun db => db.users) = some [⟨7, 1750000, 0⟩] := by
    decide +kernel
  obtain ⟨db, hexec, hdb⟩ := Option.map_eq_some_iff.mp husers
  refine ⟨db, hexec, hdb, books_always_close (run.steps_of_exec _ hexec ?_)⟩
  decide +kernel

/-- A negative quote is entered as a reservation, but nothing is moved for it. -/
theorem negative_quote_drifts :
    ¬∀ db, run.Steps step (fun _ _ => True) {} db → reconcile db = [] := by
  have hdrift : (run.exec step {} [.openAccount 7 0 0 none 100,
      .reserve 7 (some 5) none (-5) false 100]).map reconcile =
        some [.reservedVsOpen 7 0 (-5)] := by
    decide +kernel
  obtain ⟨db, hexec, hdb⟩ := Option.map_eq_some_iff.mp hdrift
  intro hall
  rw [hall db (run.steps_of_exec _ hexec (run.meets_true _ _))] at hdb
  cases hdb

end pcoin.bot
