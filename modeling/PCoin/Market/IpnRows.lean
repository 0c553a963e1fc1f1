import PCoin.Market.Inventory
import PCoin.Market.Ipn
import PCoin.Table.Evolves

namespace pcoin.market.ipn

open ladder (OrderRow OrderStatus Fill settleLadder releaseLadder)

/-- What may happen to the row of an order. An order that has left the unpaid states never
returns to them and keeps its payment, a payment is only written where there is none, and
the invoice of an unpaid order stays what it is. -/
structure Evolves (o o' : OrderRow) : Prop where
  order_id : o'.order_id = o.order_id
  left : o.status ∉ UNPAID → o'.status ∉ UNPAID ∧ o'.paid_payment_id = o.paid_payment_id
  paid : o'.paid_payment_id = o.paid_payment_id ∨
    (¬ truthy o.paid_payment_id ∧ truthy o'.paid_payment_id)
  unpaid : o'.status ∈ UNPAID → invoicePrice o' = invoicePrice o ∧
    (o.invoice_id.isSome → o'.invoice_id = o.invoice_id)

namespace Evolves

variable {o o' o'' : OrderRow}

theorem refl (o : OrderRow) : Evolves o o :=
  ⟨rfl, fun h => ⟨h, rfl⟩, .inl rfl, fun _ => ⟨rfl, fun _ => rfl⟩⟩

theorem paid_trans (h : Evolves o o') (h' : Evolves o' o'') :
    o''.paid_payment_id = o.paid_payment_id ∨
      (¬ truthy o.paid_payment_id ∧ truthy o''.paid_payment_id) := by
  obtain heq | ⟨hfree, hpaid⟩ := h.paid
  · rw [← heq]
    exact h'.paid
  · obtain heq' | ⟨hfree', -⟩ := h'.paid
    · exact .inr ⟨hfree, by rwa [heq']⟩
    · exact absurd hpaid hfree'

theorem trans (h : Evolves o o') (h' : Evolves o' o'') : Evolves o o'' where
  order_id := h'.order_id.trans h.order_id
  left := by
    intro hleft
    obtain ⟨hleft', hpaid⟩ := h.left hleft
    obtain ⟨hleft'', hpaid'⟩ := h'.left hleft'
    exact ⟨hleft'', hpaid'.trans hpaid⟩
  paid := h.paid_trans h'
  unpaid := by
    intro hunpaid
    obtain ⟨hprice', hinvoice'⟩ := h'.unpaid hunpaid
    have hunpaid' : o'.status ∈ UNPAID := by
      by_contra hleft
      exact (h'.left hleft).1 hunpaid
    obtain ⟨hprice, hinvoice⟩ := h.unpaid hunpaid'
    refine ⟨hprice'.trans hprice, fun hsome => ?_⟩
    have heq := hinvoice hsome
    rw [hinvoice' (by rwa [heq]), heq]

/-- A statement that leaves the payment and the invoice. -/
theorem of_kept (hid : o'.order_id = o.order_id) (hpaid : o'.paid_payment_id = o.paid_payment_id)
    (hprice : invoicePrice o' = invoicePrice o) (hinvoice : o'.invoice_id = o.invoice_id)
    (hleft : o.status ∉ UNPAID → o'.status ∉ UNPAID) : Evolves o o' :=
  ⟨hid, fun h => ⟨hleft h, hpaid⟩, .inl hpaid, fun _ => ⟨hprice, fun _ => hinvoice⟩⟩

/-- A statement for an order that has left the unpaid states. -/
theorem of_left (hid : o'.order_id = o.order_id) (hpaid : o'.paid_payment_id = o.paid_payment_id)
    (hleft : o'.status ∉ UNPAID) : Evolves o o' :=
  ⟨hid, fun _ => ⟨hleft, hpaid⟩, .inl hpaid, fun h => absurd h hleft⟩

/-- A statement that ties an unpaid order to a payment. -/
theorem of_tied (hid : o'.order_id = o.order_id) (hunpaid : o.status ∈ UNPAID)
    (hfree : ¬ truthy o.paid_payment_id) (hpaid : truthy o'.paid_payment_id)
    (hleft : o'.status ∉ UNPAID) : Evolves o o' :=
  ⟨hid, fun h => absurd hunpaid h, .inr ⟨hfree, hpaid⟩, fun h => absurd h hleft⟩

end Evolves

/-- What an order that has left the unpaid states is tied to never changes. -/
theorem tiedPayment_evolves {events : List EventRow} {o o' : OrderRow} {ev : Ev} {p : String}
    (htied : tiedPayment events o ev = some p) (h : Evolves o o') :
    tiedPayment events o' ev = some p := by
  unfold tiedPayment at htied
  split at htied
  · rename_i hpaid
    obtain heq | ⟨hfree, -⟩ := h.paid
    · rw [tiedPayment, heq, if_pos hpaid, htied]
    · exact absurd hpaid hfree
  · rename_i hfree
    split at htied
    · cases htied
    · rename_i hleft
      obtain ⟨hleft', heq⟩ := h.left hleft
      rw [tiedPayment, heq, if_neg hfree, if_neg hleft', h.order_id]
      exact htied

/-- What is logged later does not vouch for a payment. -/
theorem tiedPayment_append {events new : List EventRow} {ev : Ev} {n : Nat} (hev : ev.id < n)
    (hnew : ∀ e ∈ new, n ≤ e.id) (o : OrderRow) :
    tiedPayment (events ++ new) o ev = tiedPayment events o ev := by
  have hnone : new.filter (ev.vouches o.order_id) = [] := by
    rw [List.filter_eq_nil_iff]
    intro e he hvouches
    have hid := hnew e he
    simp only [Ev.vouches, Bool.and_eq_true] at hvouches
    have hlate := hvouches.2
    split at hlate
    · have := of_decide_eq_true hlate
      omega
    · have := of_decide_eq_true hlate
      omega
  rw [tiedPayment, List.filter_append, hnone, List.append_nil, ← tiedPayment]

/-- A callback that matched the invoice of an order matches it as long as the order is
unpaid. -/
theorem invoiceMismatch_evolves {d : Callback} {o o' : OrderRow} (hmatch : invoiceMismatch d o = none)
    (h : Evolves o o') (hunpaid : o'.status ∈ UNPAID) : invoiceMismatch d o' = none := by
  obtain ⟨hprice, hinvoice⟩ := h.unpaid hunpaid
  have hsome : o.invoice_id.isSome := by
    by_contra hnone
    rw [Option.not_isSome_iff_eq_none] at hnone
    rw [invoiceMismatch, hnone] at hmatch
    split at hmatch
    · cases hmatch
    · cases hmatch
    · split at hmatch
      · cases hmatch
      · split at hmatch
        · split at hmatch
          · cases hmatch
          · simp [js.trim] at hmatch
        · cases hmatch
  rw [invoiceMismatch, hprice, hinvoice hsome, ← invoiceMismatch]
  exact hmatch

/-! ### Statements -/

theorem Write.apply_evolves (w : Write) (o : OrderRow) : Evolves o (w.apply o) := by
  cases w with
  | note error => exact .of_kept rfl rfl rfl rfl id
  | queue error => exact .of_kept rfl rfl rfl rfl id
  | failed error => exact .of_left rfl rfl (by simp [Write.apply, UNPAID])
  | manual | unresolved error =>
    dsimp only [Write.apply]
    split
    · exact .of_kept rfl rfl rfl rfl id
    · exact .refl o
  | claim | unclaim error | recordSent txid | markDelivered txid | stuck | reviewed =>
    dsimp only [Write.apply]
    split
    · exact .of_left rfl rfl (by simp [UNPAID])
    · exact .refl o

theorem contradicted_evolves (d : Callback) (detail : String) (o : OrderRow) :
    Evolves o (contradicted d detail o) := by
  unfold contradicted
  split
  · exact .of_left rfl rfl (by simp [UNPAID])
  · exact .refl o

theorem moreMoney_evolves (d : Callback) (order : OrderRow) (rel : Option Release) (detail : String)
    (o : OrderRow) : Evolves o (moreMoney d order rel detail o) := by
  unfold moreMoney
  split
  · exact .refl o
  · split
    · rename_i hguard
      exact .of_left rfl rfl (by simp [moreHeld, hguard.2.1, UNPAID])
    · exact .refl o

theorem paidPaymentReversed_evolves (d : Callback) (o : OrderRow) :
    Evolves o (paidPaymentReversed d o) := by
  unfold paidPaymentReversed
  split
  · exact .of_left rfl rfl (by simp [UNPAID])
  · exact .refl o

theorem failPending_evolves (o : OrderRow) : Evolves o (failPending o) := by
  unfold failPending
  split
  · rename_i hpending
    exact .of_kept rfl rfl rfl rfl fun hleft => absurd (by simp [hpending, UNPAID]) hleft
  · exact .refl o

/-! ### The database -/

/-- The orders of a database evolve. -/
def Grows (db db' : ladder.State) : Prop :=
  table.Evolves OrderRow.order_id Evolves db.orders db'.orders

theorem Grows.refl (db : ladder.State) : Grows db db := table.Evolves.refl Evolves.refl _

theorem Grows.trans {db db' db'' : ladder.State} (h : Grows db db') (h' : Grows db' db'') :
    Grows db db'' :=
  table.Evolves.trans Evolves.trans h h'

theorem grows_updateOrder {db : ladder.State} {orderId : String} {f : OrderRow → OrderRow}
    (hid : ∀ o, (f o).order_id = o.order_id)
    (hf : ∀ o, table.find OrderRow.order_id orderId db.orders = some o → Evolves o (f o)) :
    Grows db (db.updateOrder orderId f) :=
  table.Evolves.update Evolves.refl (fun o ho => (hid o).trans ho) hf

/-- What a trade does to the orders: nothing, or an order is bought, or an unpaid order
expires. -/
inductive Traded (e : ladder.Event) (orders : List OrderRow) : List OrderRow → Prop
  | same (hbought : bought e = []) : Traded e orders orders
  | bought (new : OrderRow) (hbought : bought e = [new.order_id])
      (hfresh : new.order_id ∉ orders.map OrderRow.order_id) (hpaid : new.paid_payment_id = none)
      (hinvoice : new.invoice_id = none) : Traded e orders (orders ++ [new])
  | expired (orderId : String) (row : OrderRow) (hbought : bought e = [])
      (hrow : table.find OrderRow.order_id orderId orders = some row)
      (hpending : row.status = .pending) :
      Traded e orders (table.update OrderRow.order_id orderId
        (fun o => { o with status := .expired }) orders)

theorem traded_expire {e : ladder.Event} (he : bought e = []) (db : ladder.State) (orderId : String)
    (owner : Option String) : Traded e db.orders (ladder.expireWithRelease db orderId owner).orders := by
  unfold ladder.expireWithRelease
  split
  · exact .same he
  · split
    · rename_i o hfind hguard
      exact .expired orderId o he hfind hguard.1
    · exact .same he

theorem traded_sweepOrder {e : ladder.Event} (he : bought e = []) (db : ladder.State)
    (committed : Bool) (sweep : ladder.Sweep) :
    Traded e db.orders (ladder.sweepOrder db committed sweep).1.orders := by
  unfold ladder.sweepOrder
  split
  · dsimp only
    split
    · exact traded_expire he db _ none
    · exact .same he
  · split <;> exact .same he
  · split <;> exact .same he
  · exact .same he

theorem orders_reserveLadder {db db' : ladder.State} {orderId : String}
    {want : List ladder.Take → ladder.Rung → Int} {pcn : Int}
    (h : ladder.reserveLadder db orderId want = some (db', pcn)) : db'.orders = db.orders := by
  unfold ladder.reserveLadder at h
  dsimp only at h
  split at h
  · cases h
  · obtain ⟨rfl, -⟩ := Prod.mk.inj (Option.some.inj h)
    rfl

theorem traded_of_step {db db' : ladder.State} {e : ladder.Event} (htrade : isTrade e)
    (hstep : ladder.step db e = some db') : Traded e db.orders db'.orders := by
  cases e with
  | buy orderId email usd price want =>
    simp only [ladder.step, Option.bind_eq_bind, Option.bind_eq_some_iff] at hstep
    obtain ⟨_, hguard, ⟨db₁, pcn⟩, hreserve, hstep⟩ := hstep
    obtain rfl := Option.some.inj hstep
    dsimp only
    rw [orders_reserveLadder hreserve]
    exact .bought _ rfl (by simpa [guard] using hguard) rfl rfl
  | expire orderId owner =>
    obtain rfl := Option.some.inj hstep
    exact traded_expire rfl db orderId owner
  | sweepNext id committed =>
    simp only [ladder.step, Option.bind_eq_bind, Option.bind_eq_some_iff] at hstep
    obtain ⟨⟨_, sweep⟩, -, hstep⟩ := hstep
    dsimp only at hstep
    split at hstep <;> obtain rfl := Option.some.inj hstep
    · exact traded_sweepOrder rfl db committed sweep
    · exact traded_sweepOrder rfl db committed sweep
  | retire need | sweep | tick =>
    obtain rfl := Option.some.inj hstep
    exact .same rfl
  | settle orderId f | release orderId f | update orderId f | crash => cases htrade

theorem Traded.evolves {e : ladder.Event} {orders orders' : List OrderRow}
    (h : Traded e orders orders') : table.Evolves OrderRow.order_id Evolves orders orders' := by
  cases h with
  | same => exact table.Evolves.refl Evolves.refl _
  | bought new => exact table.Evolves.append Evolves.refl _
  | expired orderId row _ hrow hpending =>
    refine table.Evolves.update Evolves.refl (fun _ h => h) fun o ho => ?_
    obtain rfl : row = o := Option.some.inj (hrow.symm.trans ho)
    refine .of_kept rfl rfl rfl rfl fun hleft => ?_
    exact absurd (by simp [hpending, UNPAID]) hleft

end pcoin.market.ipn
