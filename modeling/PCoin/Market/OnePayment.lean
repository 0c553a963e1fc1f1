import PCoin.Market.IpnCalls

namespace pcoin.market.ipn

open ladder (OrderRow OrderStatus Fill settleLadder releaseLadder)

/-! ### What the database keeps -/

section

variable {db db' : ladder.State} {c : Call} {events : List EventRow}

theorem keepingId_eq {f : OrderRow → OrderRow} (hf : ∀ o, (f o).order_id = o.order_id) :
    ladder.keepingId f = f := by
  funext o
  unfold ladder.keepingId
  rw [← hf o]

theorem Effect.grows (h : Effect db c db') (hjustified : c.Justified events) : Grows db db' := by
  cases h with
  | read => exact .refl db
  | accept order depth row backed hpc hrow hfree hunpaid =>
    simp only [Call.Justified, hpc] at hjustified
    refine grows_updateOrder (fun _ => rfl) fun o ho => ?_
    obtain rfl : row = o := Option.some.inj (hrow.symm.trans ho)
    refine .of_tied rfl hunpaid hfree ?_ ?_
    · simpa [truthy] using hjustified.1.payment_id
    · cases backed <;> simp [accepted, UNPAID]
  | hold order depth why rel row detail hpc hrow hfree hunpaid =>
    simp only [Call.Justified, hpc] at hjustified
    refine grows_updateOrder (fun _ => rfl) fun o ho => ?_
    obtain rfl : row = o := Option.some.inj (hrow.symm.trans ho)
    refine .of_tied rfl hunpaid (by simp [hfree, truthy]) ?_ (by simp [held, UNPAID])
    simpa [truthy] using hjustified.payment_id
  | contradicted order detail =>
    exact grows_updateOrder (fun o => (contradicted_evolves c.d detail o).order_id)
      fun o _ => contradicted_evolves c.d detail o
  | moreMoney order rel detail =>
    exact grows_updateOrder (fun o => (moreMoney_evolves c.d order rel detail o).order_id)
      fun o _ => moreMoney_evolves c.d order rel detail o
  | close order row hpc hrow hpending =>
    refine grows_updateOrder (fun _ => rfl) fun o ho => ?_
    obtain rfl : row = o := Option.some.inj (hrow.symm.trans ho)
    refine .of_kept rfl rfl rfl rfl fun hleft => ?_
    exact absurd (by simp [hpending, UNPAID]) hleft
  | reversed order =>
    exact grows_updateOrder (fun o => (paidPaymentReversed_evolves c.d o).order_id)
      fun o _ => paidPaymentReversed_evolves c.d o

theorem inventory_of_step {e : ladder.Event} (h : ladder.Inventory db)
    (hstep : ladder.step db e = some db') : ladder.Inventory db' :=
  (ladder.moves_of_step h.rung_nos hstep).inventory h

theorem inventory_updateOrder (h : ladder.Inventory db) (orderId : String)
    {f : OrderRow → OrderRow} (hf : ∀ o, (f o).order_id = o.order_id) :
    ladder.Inventory (db.updateOrder orderId f) := by
  refine inventory_of_step h (e := .update orderId f) ?_
  rw [ladder.step, keepingId_eq hf]

/-- What a call does to the ladder is one of its steps. -/
theorem Effect.inventory (h : Effect db c db') (hinv : ladder.Inventory db) :
    ladder.Inventory db' := by
  cases h with
  | read => exact hinv
  | accept order depth row backed =>
    exact inventory_of_step hinv (e := .settle order.order_id fun o =>
      { accepted c.d backed o with paid_payment_id := some c.d.payment_id }) rfl
  | hold order depth why rel row detail => exact inventory_updateOrder hinv _ fun _ => rfl
  | contradicted order detail =>
    exact inventory_updateOrder hinv _ fun o => (contradicted_evolves c.d detail o).order_id
  | moreMoney order rel detail =>
    exact inventory_updateOrder hinv _ fun o => (moreMoney_evolves c.d order rel detail o).order_id
  | close order row =>
    exact inventory_of_step hinv (e := .release order.order_id fun o =>
      { o with status := closedStatus c.d }) rfl
  | reversed order =>
    exact inventory_updateOrder hinv _ fun o => (paidPaymentReversed_evolves c.d o).order_id

/-- The index on `paid_payment_id`. -/
def Unique (orders : List OrderRow) : Prop :=
  ∀ o ∈ orders, ∀ o' ∈ orders, o.paid_payment_id = o'.paid_payment_id →
    o.paid_payment_id ≠ none → o.order_id = o'.order_id

/-- An order and its payment. -/
def paidBy (o : OrderRow) : String × Option String := (o.order_id, o.paid_payment_id)

theorem Unique.update {orders : List OrderRow} (h : Unique orders) (orderId : String)
    {f : OrderRow → OrderRow} (hf : ∀ o, paidBy (f o) = paidBy o) :
    Unique (table.update OrderRow.order_id orderId f orders) := by
  intro o ho o' ho' heq hsome
  obtain ⟨x, hx, hcol⟩ := table.exists_of_mem_update hf ho
  obtain ⟨x', hx', hcol'⟩ := table.exists_of_mem_update hf ho'
  obtain ⟨hid, hpaid⟩ := Prod.mk.inj hcol
  obtain ⟨hid', hpaid'⟩ := Prod.mk.inj hcol'
  rw [← hid, ← hid']
  exact h x hx x' hx' (by rw [hpaid, hpaid', heq]) (by rwa [hpaid])

/-- A payment that no other order has can be written on an order. -/
theorem Unique.tie {orders : List OrderRow} (h : Unique orders) {orderId pid : String}
    (hunique : ∀ o ∈ orders, o.order_id ≠ orderId → o.paid_payment_id ≠ some pid)
    {f : OrderRow → OrderRow} (hid : ∀ o, (f o).order_id = o.order_id)
    (hpaid : ∀ o, (f o).paid_payment_id = some pid) :
    Unique (table.update OrderRow.order_id orderId f orders) := by
  have hcases : ∀ o ∈ table.update OrderRow.order_id orderId f orders,
      (o.order_id = orderId ∧ o.paid_payment_id = some pid) ∨ (o ∈ orders ∧ o.order_id ≠ orderId) := by
    intro o ho
    obtain ⟨x, hx, rfl⟩ := List.mem_map.mp ho
    split
    · rename_i hx'
      exact .inl ⟨(hid x).trans hx', hpaid x⟩
    · rename_i hx'
      exact .inr ⟨hx, hx'⟩
  intro o ho o' ho' heq hsome
  obtain ⟨ho, hp⟩ | ⟨ho, hne⟩ := hcases o ho
  · obtain ⟨ho', -⟩ | ⟨ho', hne'⟩ := hcases o' ho'
    · rw [ho, ho']
    · exact absurd (heq.symm.trans hp) (hunique o' ho' hne')
  · obtain ⟨-, hp'⟩ | ⟨ho', -⟩ := hcases o' ho'
    · exact absurd (heq.trans hp') (hunique o ho hne)
    · exact h o ho o' ho' heq hsome

theorem Unique.append {orders : List OrderRow} (h : Unique orders) {new : OrderRow}
    (hnew : new.paid_payment_id = none) : Unique (orders ++ [new]) := by
  intro o ho o' ho' heq hsome
  have hold : ∀ x ∈ orders ++ [new], x.paid_payment_id ≠ none → x ∈ orders := by
    intro x hx hxsome
    obtain hx | hx := List.mem_append.mp hx
    · exact hx
    · rw [List.mem_singleton.mp hx] at hxsome
      exact absurd hnew hxsome
  exact h o (hold o ho hsome) o' (hold o' ho' (heq ▸ hsome)) heq hsome

theorem Effect.unique (h : Effect db c db') (hunique : Unique db.orders) : Unique db'.orders := by
  cases h with
  | read => exact hunique
  | accept order depth row backed _ _ _ _ hfree =>
    exact hunique.tie hfree (fun _ => rfl) fun _ => rfl
  | hold order depth why rel row detail _ _ _ _ hfree =>
    exact hunique.tie hfree (fun _ => rfl) fun _ => rfl
  | contradicted order detail =>
    refine hunique.update _ fun o => ?_
    unfold ipn.contradicted
    split <;> rfl
  | moreMoney order rel detail =>
    refine hunique.update _ fun o => ?_
    unfold ipn.moreMoney
    split
    · rfl
    · split <;> rfl
  | close order row => exact hunique.update _ fun _ => rfl
  | reversed order =>
    refine hunique.update _ fun o => ?_
    unfold paidPaymentReversed
    split <;> rfl

theorem Traded.unique {e : ladder.Event} {orders orders' : List OrderRow}
    (h : Traded e orders orders') (hunique : Unique orders) : Unique orders' := by
  cases h with
  | same => exact hunique
  | bought new _ _ hpaid => exact hunique.append hpaid
  | expired orderId row => exact hunique.update _ fun _ => rfl

/-- The orders that wait for their invoice have none. -/
def Awaiting (buys : List String) (orders : List OrderRow) : Prop :=
  ∀ o ∈ orders, o.order_id ∈ buys → o.invoice_id = none

/-- An order and its invoice. -/
def invoicedBy (o : OrderRow) : String × Option String := (o.order_id, o.invoice_id)

theorem Awaiting.update {buys : List String} {orders : List OrderRow} (h : Awaiting buys orders)
    (orderId : String) {f : OrderRow → OrderRow} (hf : ∀ o, invoicedBy (f o) = invoicedBy o) :
    Awaiting buys (table.update OrderRow.order_id orderId f orders) := by
  intro o ho hbuys
  obtain ⟨x, hx, hcol⟩ := table.exists_of_mem_update hf ho
  obtain ⟨hid, hinvoice⟩ := Prod.mk.inj hcol
  rw [← hinvoice]
  exact h x hx (by rwa [hid])

theorem Awaiting.subset {buys buys' : List String} {orders : List OrderRow} (h : Awaiting buys orders)
    (hsub : buys' ⊆ buys) : Awaiting buys' orders :=
  fun o ho hid => h o ho (hsub hid)

/-- An order that gets its invoice no longer waits for it. -/
theorem Awaiting.invoiced {buys : List String} {orders : List OrderRow} (h : Awaiting buys orders)
    (orderId : String) (invoiceId : Option String) :
    Awaiting (buys.filter (· ≠ orderId))
      (table.update OrderRow.order_id orderId (fun o => { o with invoice_id := invoiceId }) orders) := by
  intro o ho hid
  obtain ⟨hid, hne⟩ := List.mem_filter.mp hid
  obtain ⟨x, hx, rfl⟩ := List.mem_map.mp ho
  by_cases heq : x.order_id = orderId
  · rw [if_pos heq] at hne
    exact absurd heq (of_decide_eq_true hne)
  · rw [if_neg heq] at hid ⊢
    exact h x hx hid

theorem Effect.awaiting {buys : List String} (h : Effect db c db') (hbuys : Awaiting buys db.orders) :
    Awaiting buys db'.orders := by
  cases h with
  | read => exact hbuys
  | accept | hold | close => exact hbuys.update _ fun _ => rfl
  | contradicted order detail =>
    refine hbuys.update _ fun o => ?_
    unfold ipn.contradicted
    split <;> rfl
  | moreMoney order rel detail =>
    refine hbuys.update _ fun o => ?_
    unfold ipn.moreMoney
    split
    · rfl
    · split <;> rfl
  | reversed order =>
    refine hbuys.update _ fun o => ?_
    unfold paidPaymentReversed
    split <;> rfl

theorem Traded.awaiting {e : ladder.Event} {buys : List String} {orders orders' : List OrderRow}
    (h : Traded e orders orders') (hbuys : Awaiting buys orders) :
    Awaiting (buys ++ ipn.bought e) orders' := by
  cases h with
  | same hbought =>
    rw [hbought, List.append_nil]
    exact hbuys
  | bought new hbought hfresh _ hinvoice =>
    intro o ho hid
    obtain ho | ho := List.mem_append.mp ho
    · obtain hid | hid := List.mem_append.mp hid
      · exact hbuys o ho hid
      · rw [hbought, List.mem_singleton] at hid
        exact absurd (List.mem_map.mpr ⟨o, ho, hid⟩) hfresh
    · rw [List.mem_singleton.mp ho]
      exact hinvoice
  | expired orderId row hbought =>
    rw [hbought, List.append_nil]
    exact hbuys.update _ fun _ => rfl

theorem Write.apply_kept (w : Write) (o : OrderRow) :
    paidBy (w.apply o) = paidBy o ∧ invoicedBy (w.apply o) = invoicedBy o := by
  cases w <;> dsimp only [Write.apply] <;> (try split) <;> exact ⟨rfl, rfl⟩

end

/-! ### Runs -/

structure Inv (s : State) : Prop where
  inventory : ladder.Inventory s.db
  unique : Unique s.db.orders
  awaiting : Awaiting s.buys s.db.orders
  events : ∀ e ∈ s.events, e.id < s.nextEvent
  calls : ∀ p ∈ s.calls, p.2.Sound s

section

variable {s t : State}

/-- A step other than a call's own. -/
theorem Inv.of_frame (h : Inv s) (hgrows : Grows s.db t.db) (hinventory : ladder.Inventory t.db)
    (hunique : Unique t.db.orders) (hawaiting : Awaiting t.buys t.db.orders)
    (hevents : t.events = s.events) (hnext : t.nextEvent = s.nextEvent)
    (hcalls : ∀ p ∈ t.calls, p ∈ s.calls ∨ p.2.pc = .log) : Inv t := by
  refine ⟨hinventory, hunique, hawaiting, ?_, fun p hp => ?_⟩
  · rw [hevents, hnext]
    exact h.events
  · obtain hp | hlog := hcalls p hp
    · exact (h.calls p hp).mono hgrows (.of_eq hnext hevents)
    · refine ⟨.inl hlog, ?_, ?_⟩
      · simp [hlog, Pc.order?]
      · simp [Call.Justified, hlog]

/-- What is under way elsewhere when a call goes on. -/
theorem perform_frame (hevents : ∀ e ∈ s.events, e.id < s.nextEvent) (c : Call) (detail : String) :
    (perform s c detail).1.calls = s.calls ∧ (perform s c detail).1.buys = s.buys ∧
      Logs s (perform s c detail).1 ∧
      ∀ e ∈ (perform s c detail).1.events, e.id < (perform s c detail).1.nextEvent := by
  unfold perform
  split
  · obtain ⟨hlogs, -, hevents'⟩ := logEvent_spec hevents c.d
    have hframe : (logEvent s c.d).1.calls = s.calls ∧ (logEvent s c.d).1.buys = s.buys := by
      unfold logEvent
      dsimp only
      split <;> exact ⟨rfl, rfl⟩
    exact ⟨hframe.1, hframe.2, hlogs, hevents'⟩
  all_goals try split
  all_goals exact ⟨rfl, rfl, .of_eq rfl rfl, hevents⟩

theorem mem_setCall {cid : Nat} {c : Option Call} {calls : List (Nat × Call)} {p : Nat × Call}
    (hp : p ∈ setCall cid c calls) : p ∈ calls ∨ some p.2 = c := by
  cases c with
  | none => exact .inl (List.mem_of_mem_filter hp)
  | some c =>
    obtain ⟨x, hx, rfl⟩ := List.mem_map.mp hp
    split
    · exact .inr rfl
    · exact .inl hx

/-- What a step of a call is. -/
theorem step_next {cid : Nat} {detail : String} (hstep : step s (.next cid detail) = some t) :
    ∃ c, table.find Prod.fst cid s.calls = some (cid, c) ∧
      t = { (perform s c detail).1 with
        calls := setCall cid (perform s c detail).2 (perform s c detail).1.calls } := by
  simp only [step, Option.bind_eq_bind, Option.bind_eq_some_iff] at hstep
  obtain ⟨⟨id, c⟩, hfind, hstep⟩ := hstep
  obtain rfl : id = cid := (table.find_spec hfind).2
  exact ⟨c, hfind, (Option.some.inj hstep).symm⟩

/-- What a step does to the rows of the orders, and what it keeps. -/
theorem step_spec {e : Event} (h : Inv s) (hstep : step s e = some t) : Grows s.db t.db ∧ Inv t := by
  cases e with
  | callback d =>
    obtain rfl := Option.some.inj hstep
    refine ⟨.refl _, h.of_frame (.refl _) h.inventory h.unique h.awaiting rfl rfl fun p hp => ?_⟩
    obtain hp | hp := List.mem_append.mp hp
    · exact .inl hp
    · exact .inr (by rw [List.mem_singleton.mp hp])
  | next cid detail =>
    obtain ⟨c, hfind, rfl⟩ := step_next hstep
    have hsound := h.calls _ (table.find_spec hfind).1
    have heffect := perform_effect s c detail
    have hgrows := heffect.grows hsound.justified
    obtain ⟨hcalls, hbuys, hlogs, hevents⟩ := perform_frame h.events c detail
    refine ⟨hgrows, heffect.inventory h.inventory, heffect.unique h.unique, ?_, hevents, fun p hp => ?_⟩
    · exact hbuys ▸ heffect.awaiting h.awaiting
    · obtain hp | hp := mem_setCall hp
      · rw [hcalls] at hp
        exact (h.calls p hp).mono hgrows hlogs
      · exact (perform_sound h.events hsound hp.symm).mono (.refl _) (.of_eq rfl rfl)
  | fail cid =>
    obtain rfl := Option.some.inj hstep
    refine ⟨.refl _, h.of_frame (.refl _) h.inventory h.unique h.awaiting rfl rfl fun p hp => ?_⟩
    exact .inl (List.mem_of_mem_filter hp)
  | trade e =>
    simp only [step, Option.bind_eq_bind, Option.bind_eq_some_iff] at hstep
    obtain ⟨_, hguard, db, hdb, hstep⟩ := hstep
    obtain rfl := Option.some.inj hstep
    have htraded := traded_of_step (by simpa [guard] using hguard) hdb
    exact ⟨htraded.evolves, h.of_frame htraded.evolves (inventory_of_step h.inventory hdb)
      (htraded.unique h.unique) (htraded.awaiting h.awaiting) rfl rfl fun p hp => .inl hp⟩
  | invoiced orderId invoiceId =>
    simp only [step, Option.bind_eq_bind, Option.bind_eq_some_iff] at hstep
    obtain ⟨_, hguard, hstep⟩ := hstep
    obtain rfl := Option.some.inj hstep
    have hbuys : orderId ∈ s.buys := by simpa [guard] using hguard
    have hgrows : Grows s.db (s.db.updateOrder orderId fun o => { o with invoice_id := invoiceId }) := by
      refine grows_updateOrder (fun _ => rfl) fun o ho => ?_
      obtain ⟨hmem, hid⟩ := table.find_spec ho
      have hnone : o.invoice_id = none := h.awaiting o hmem (by rwa [hid])
      exact ⟨rfl, fun hleft => ⟨hleft, rfl⟩, .inl rfl, fun _ => ⟨rfl, by simp [hnone]⟩⟩
    exact ⟨hgrows, h.of_frame hgrows (inventory_updateOrder h.inventory _ fun _ => rfl)
      (h.unique.update _ fun _ => rfl) (h.awaiting.invoiced orderId _) rfl rfl fun p hp => .inl hp⟩
  | invoiceFailed orderId =>
    simp only [step, Option.bind_eq_bind, Option.bind_eq_some_iff] at hstep
    obtain ⟨_, -, hstep⟩ := hstep
    obtain rfl := Option.some.inj hstep
    have hgrows : Grows s.db (s.db.updateOrder orderId failPending) :=
      grows_updateOrder (fun o => (failPending_evolves o).order_id) fun o _ => failPending_evolves o
    have hkept : ∀ o, paidBy (failPending o) = paidBy o ∧ invoicedBy (failPending o) = invoicedBy o := by
      intro o
      unfold failPending
      split <;> exact ⟨rfl, rfl⟩
    refine ⟨hgrows, h.of_frame hgrows ?_ (h.unique.update _ fun o => (hkept o).1) ?_ rfl rfl
      fun p hp => .inl hp⟩
    · exact inventory_updateOrder h.inventory _ fun o => (failPending_evolves o).order_id
    · exact (h.awaiting.update _ fun o => (hkept o).2).subset (List.filter_subset_self _)
  | drop orderId =>
    simp only [step, Option.bind_eq_bind, Option.bind_eq_some_iff] at hstep
    obtain ⟨_, -, hstep⟩ := hstep
    obtain rfl := Option.some.inj hstep
    have hmoves : ladder.Moves s.db (.release orderId id) (releaseLadder s.db orderId) :=
      ladder.moves_release orderId rfl rfl rfl
    exact ⟨.refl _, h.of_frame (.refl _) (hmoves.inventory h.inventory) h.unique h.awaiting rfl rfl
      fun p hp => .inl hp⟩
  | deliver orderId w =>
    simp only [step, Option.bind_eq_bind, Option.bind_eq_some_iff] at hstep
    obtain ⟨_, -, hstep⟩ := hstep
    obtain rfl := Option.some.inj hstep
    have hgrows : Grows s.db (s.db.updateOrder orderId w.apply) :=
      grows_updateOrder (fun o => (w.apply_evolves o).order_id) fun o _ => w.apply_evolves o
    refine ⟨hgrows, h.of_frame hgrows ?_ (h.unique.update _ fun o => (w.apply_kept o).1)
      (h.awaiting.update _ fun o => (w.apply_kept o).2) rfl rfl fun p hp => .inl hp⟩
    exact inventory_updateOrder h.inventory _ fun o => (w.apply_evolves o).order_id
  | crash =>
    obtain rfl := Option.some.inj hstep
    refine ⟨.refl _, h.of_frame (.refl _) (inventory_of_step h.inventory (e := .crash) rfl) h.unique
      ?_ rfl rfl ?_⟩
    · exact fun o _ hid => absurd hid List.not_mem_nil
    · exact fun p hp => absurd hp List.not_mem_nil

end

/-! ### One call -/

/-- The order is accepted for delivery in a transaction of the call: the callback pays it in
full and belongs to its invoice, the order was unpaid and tied to nothing, and now all it
has reserved is sold. -/
structure Accepted (c : Call) (o o' : OrderRow) (fills : List Fill) : Prop where
  pc : ∃ order depth, c.pc = .accept order depth
  pays : classify c.d = .pay
  no_parent : ¬ truthy (parentPaymentId c.d)
  matches_invoice : invoiceMismatch c.d o = none
  untied : ¬ truthy o.paid_payment_id
  unpaid : o.status ∈ UNPAID
  tied : o'.paid_payment_id = some c.d.payment_id
  has_fills : ∃ f ∈ fills, f.order_id = o.order_id
  sold : ∀ f ∈ fills, f.order_id = o.order_id → f.state = .sold

section

variable {s : State} {c : Call} {db : ladder.State} {orderId : String} {o o' : OrderRow}

/-- The order the call read has become the order that is there. -/
theorem Call.Sound.evolves (h : c.Sound s) {order : OrderRow} (hread : c.pc.order? = some order)
    (ho : s.order order.order_id = some o) : Evolves order o := by
  obtain ⟨x, hx, hevolves⟩ := h.seen order hread
  obtain rfl : x = o := Option.some.inj (hx.symm.trans ho)
  exact hevolves

/-- An unpaid order is tied to nothing. -/
theorem tiedPayment_eq_none (events : List EventRow) (ev : Ev) (hfree : ¬ truthy o.paid_payment_id)
    (hunpaid : o.status ∈ UNPAID) : tiedPayment events o ev = none := by
  rw [tiedPayment, if_neg hfree, if_pos hunpaid]

theorem tiedPayment_of_paid (events : List EventRow) (ev : Ev) {pid : String} (hpid : pid ≠ "")
    (hpaid : o.paid_payment_id = some pid) : tiedPayment events o ev = some pid := by
  rw [tiedPayment, hpaid, if_pos (by simpa [truthy] using hpid)]

variable (s c db o o') in
/-- What a call does to the row of an order, and what the order is tied to then. -/
inductive Change : Prop
  | same (hsame : o' = o)
  | accepted (hmoney : c.d.IsMoney) (haccepted : Accepted c o o' db.fills)
  | held (hmoney : c.d.IsMoney) (htied : tiedPayment s.events o c.ev = none)
      (hstatus : o'.status = .needs_review)
  | updated (hmoney : c.d.IsMoney) (htied : tiedPayment s.events o c.ev = some c.d.payment_id)
      (hstatus : o'.status = .needs_review)
  | closed (htied : tiedPayment s.events o c.ev = none) (hpending : o.status = .pending)
      (hmatch : invoiceMismatch c.d o = none) (hstatus : o'.status = closedStatus c.d)
      (hfills : db.fills = s.db.fills.map (Fill.move o.order_id .released))
  | reversed (htied : tiedPayment s.events o c.ev = some c.d.payment_id)
      (hstatus : o'.status = .needs_review)

theorem Effect.change (h : Effect s.db c db) (hinventory : ladder.Inventory s.db)
    (hsound : c.Sound s) (ho : s.order orderId = some o)
    (ho' : table.find OrderRow.order_id orderId db.orders = some o') : Change s c db o o' := by
  have hjustified := hsound.justified
  have hinventory' := h.inventory hinventory
  cases h with
  | read => exact .same (Option.some.inj (ho'.symm.trans ho))
  | accept order depth row backed hpc hrow hfree hunpaid _ hbacked =>
    simp only [Call.Justified, hpc] at hjustified
    obtain ⟨hmoney, hpays, hparent, hmatch⟩ := hjustified
    obtain ⟨rfl, rfl⟩ | hsame := table.find_update_cases ho ho' fun _ h => h
    · obtain rfl : row = o := Option.some.inj (hrow.symm.trans ho)
      have hid : row.order_id = order.order_id := (table.find_spec hrow).2
      cases backed with
      | false => exact .held hmoney (tiedPayment_eq_none _ _ hfree hunpaid) rfl
      | true =>
        obtain ⟨f, hf, hforder, hsold⟩ := hbacked rfl
        have hevolves := hsound.evolves (by rw [hpc, Pc.order?]) hrow
        refine .accepted hmoney ⟨⟨order, depth, hpc⟩, hpays, hparent, ?_, hfree, hunpaid, rfl,
          ⟨f, hf, by rw [hforder, hid]⟩, fun g hg hgorder => ?_⟩
        · exact invoiceMismatch_evolves hmatch hevolves hunpaid
        · rw [← hsold]
          exact hinventory'.uniform g hg f hf (by rw [hgorder, hforder, hid])
    · exact .same hsame
  | hold order depth why rel row detail hpc hrow hfree hunpaid =>
    simp only [Call.Justified, hpc] at hjustified
    obtain ⟨rfl, rfl⟩ | hsame := table.find_update_cases ho ho' fun _ h => h
    · obtain rfl : row = o := Option.some.inj (hrow.symm.trans ho)
      exact .held hjustified (tiedPayment_eq_none _ _ (by simp [hfree, truthy]) hunpaid) rfl
    · exact .same hsame
  | contradicted order detail hpc =>
    simp only [Call.Justified, hpc] at hjustified
    obtain ⟨-, rfl⟩ | hsame := table.find_update_cases ho ho'
      fun o h => (contradicted_evolves c.d detail o).order_id.trans h
    · unfold ipn.contradicted
      split
      · rename_i hguard
        exact .updated hjustified (tiedPayment_of_paid _ _ hjustified.payment_id hguard.1) rfl
      · exact .same rfl
    · exact .same hsame
  | moreMoney order rel detail hpc =>
    simp only [Call.Justified, hpc] at hjustified
    obtain ⟨-, rfl⟩ | hsame := table.find_update_cases ho ho'
      fun o h => (moreMoney_evolves c.d order rel detail o).order_id.trans h
    · unfold ipn.moreMoney
      split
      · exact .same rfl
      · split
        · rename_i hguard
          exact .updated hjustified (tiedPayment_of_paid _ _ hjustified.payment_id hguard.1)
            hguard.2.1
        · exact .same rfl
    · exact .same hsame
  | close order row hpc hrow hpending hfree =>
    simp only [Call.Justified, hpc] at hjustified
    obtain ⟨rfl, rfl⟩ | hsame := table.find_update_cases ho ho' fun _ h => h
    · obtain rfl : row = o := Option.some.inj (hrow.symm.trans ho)
      have hid : row.order_id = order.order_id := (table.find_spec hrow).2
      have hunpaid : row.status ∈ UNPAID := by simp [hpending, UNPAID]
      have hevolves := hsound.evolves (by rw [hpc, Pc.order?]) hrow
      refine .closed (tiedPayment_eq_none _ _ (by simp [hfree, truthy]) hunpaid) hpending ?_ rfl ?_
      · exact invoiceMismatch_evolves hjustified.2 hevolves hunpaid
      · rw [hid]
        exact congrArg ladder.State.fills (ladder.releaseLadder_spec s.db order.order_id)
    · exact .same hsame
  | reversed order hpc =>
    simp only [Call.Justified, hpc] at hjustified
    obtain ⟨rfl, rfl⟩ | hsame := table.find_update_cases ho ho'
      fun o h => (paidPaymentReversed_evolves c.d o).order_id.trans h
    · have hevolves := hsound.evolves (by rw [hpc, Pc.order?]) ho
      unfold paidPaymentReversed
      split
      · exact .reversed (tiedPayment_evolves hjustified.2 hevolves) rfl
      · exact .same rfl
    · exact .same hsame

theorem Change.enters (h : Change s c db o o') (hwas : o.status ≠ .awaiting_delivery)
    (hnow : o'.status = .awaiting_delivery) : Accepted c o o' db.fills := by
  cases h with
  | same hsame => exact absurd (hsame ▸ hnow) hwas
  | accepted _ haccepted => exact haccepted
  | held _ _ hstatus | updated _ _ hstatus | reversed _ hstatus => simp [hstatus] at hnow
  | closed _ _ _ hstatus =>
    rw [hstatus, closedStatus] at hnow
    split at hnow <;> cases hnow

theorem Change.other (h : Change s c db o o') (p : String)
    (htied : tiedPayment s.events o c.ev = some p) (hp : p ≠ c.d.payment_id) : o' = o := by
  cases h with
  | same hsame => exact hsame
  | accepted _ haccepted =>
    rw [tiedPayment_eq_none _ _ haccepted.untied haccepted.unpaid] at htied
    cases htied
  | held _ hnone | closed hnone =>
    rw [hnone] at htied
    cases htied
  | updated _ hown | reversed hown =>
    rw [hown] at htied
    exact absurd (Option.some.inj htied).symm hp

theorem Change.closes (h : Change s c db o o') (hfail : classify c.d = .fail)
    (hfree : tiedPayment s.events o c.ev = none) (hne : o' ≠ o) :
    o.status = .pending ∧ invoiceMismatch c.d o = none ∧
      db.fills = s.db.fills.map (Fill.move o.order_id .released) := by
  cases h with
  | same hsame => exact absurd hsame hne
  | accepted hmoney | held hmoney | updated hmoney => exact absurd hfail hmoney.not_fail
  | closed _ hpending hmatch _ hfills => exact ⟨hpending, hmatch, hfills⟩
  | reversed hown =>
    rw [hown] at hfree
    cases hfree

/-- The database a run starts from has the index on `paid_payment_id`, and its ladder is as
the market's code keeps it; nothing is under way. -/
structure Start (s : State) : Prop where
  inventory : ladder.Inventory s.db
  unique : Unique s.db.orders
  events : ∀ e ∈ s.events, e.id < s.nextEvent
  calls : s.calls = []
  buys : s.buys = []

theorem Start.inv (h : Start s) : Inv s := by
  refine ⟨h.inventory, h.unique, ?_, h.events, ?_⟩
  · rw [h.buys]
    exact fun o _ hid => absurd hid List.not_mem_nil
  · rw [h.calls]
    exact fun p hp => absurd hp List.not_mem_nil

/-- The rows of the orders only evolve along a run, and what is kept is kept. -/
theorem run_spec {t : State} (h : Inv s) (hrun : run.Steps step (fun _ _ => True) s t) :
    Grows s.db t.db ∧ Inv t := by
  induction hrun with
  | refl => exact ⟨.refl _, h⟩
  | tail _ _ hstep ih =>
    obtain ⟨hgrows, hinv⟩ := ih
    obtain ⟨hgrows', hinv'⟩ := step_spec hinv hstep
    exact ⟨hgrows.trans hgrows', hinv'⟩

/-- What a step of a call does to the row of an order. -/
theorem change_of_next {t u : State} {cid : Nat} {detail : String} (h : Inv t)
    (hcall : table.find Prod.fst cid t.calls = some (cid, c))
    (hstep : step t (.next cid detail) = some u) (ho : t.order orderId = some o)
    (ho' : u.order orderId = some o') : Change t c u.db o o' := by
  obtain ⟨c', hfind, rfl⟩ := step_next hstep
  obtain ⟨-, rfl⟩ := Prod.mk.inj (Option.some.inj (hfind.symm.trans hcall))
  exact (perform_effect t c' detail).change h.inventory (h.calls _ (table.find_spec hcall).1) ho ho'

end

/-- One payment, one order, and only a full payment releases coins. A payment is written at
most once on an order and never on two. When a callback takes an order to delivery, it does
so in `accept`, pays in full and belongs to the invoice of an order that was unpaid, and in
the same transaction all fills of the order are sold. A callback for another payment than
the order's changes nothing on it, and a failed one closes only a pending order that it
belongs to, and releases its fills with it. -/
theorem one_payment_one_order {s t : State} (hstart : Start s)
    (hrun : run.Steps step (fun _ _ => True) s t) :
    (∀ o ∈ t.db.orders, ∀ o' ∈ t.db.orders, o.paid_payment_id = o'.paid_payment_id →
      o.paid_payment_id ≠ none → o.order_id = o'.order_id) ∧
    (∀ u, run.Steps step (fun _ _ => True) t u → ∀ orderId o, t.order orderId = some o →
      ∃ o', u.order orderId = some o' ∧ (o'.paid_payment_id = o.paid_payment_id ∨
        (¬ truthy o.paid_payment_id ∧ truthy o'.paid_payment_id))) ∧
    ∀ cid c detail u, table.find Prod.fst cid t.calls = some (cid, c) →
      step t (.next cid detail) = some u →
      ∀ orderId o o', t.order orderId = some o → u.order orderId = some o' →
        (o.status ≠ .awaiting_delivery → o'.status = .awaiting_delivery →
          Accepted c o o' u.db.fills) ∧
        (∀ p, tiedPayment t.events o c.ev = some p → p ≠ c.d.payment_id → o' = o) ∧
        (classify c.d = .fail → tiedPayment t.events o c.ev = none → o' ≠ o →
          o.status = .pending ∧ invoiceMismatch c.d o = none ∧
            u.db.fills = t.db.fills.map (Fill.move o.order_id .released)) := by
  obtain ⟨-, hinv⟩ := run_spec hstart.inv hrun
  refine ⟨hinv.unique, fun u hrun' orderId o ho => ?_, ?_⟩
  · obtain ⟨hgrows, -⟩ := run_spec hinv hrun'
    obtain ⟨o', ho', hevolves⟩ := hgrows orderId o ho
    exact ⟨o', ho', hevolves.paid⟩
  · intro cid c detail u hcall hstep orderId o o' ho ho'
    have hchange := change_of_next hinv hcall hstep ho ho'
    exact ⟨hchange.enters, hchange.other, hchange.closes⟩

/-- A shop with ten units to sell. -/
def shop : State := { db := { rungs := [{ rung_no := 0, qty_total := 10 }] } }

/-- A callback for the invoice of an order of one dollar. -/
def paid (status : String) : Callback :=
  { payment_id := "p1", order_id := some "a", payment_status := status, actually_paid := .str "2.5",
    pay_amount := .str "2.5", price_amount := .num (.finite 1) "1", price_currency := .str "usd",
    invoice_id := some "i1" }

/-- Two callbacks of one payment are handled side by side, and both find the order unpaid. -/
def sideBySide : List Event :=
  [.trade (.buy "a" "ann" 100 1 fun _ _ => 4), .invoiced "a" (some "i1"),
    .callback (paid "confirmed"), .callback (paid "finished"),
    .next 0 "", .next 1 "", .next 0 "", .next 1 "", .next 0 "", .next 1 "", .next 0 "", .next 1 ""]

theorem one_payment_one_order_sideBySide :
    Start shop ∧ ∃ t u, run.exec step shop sideBySide = some t ∧ step t (.next 1 "") = some u ∧
      ∃ c o o', table.find Prod.fst 1 t.calls = some (1, c) ∧ t.order "a" = some o ∧
        u.order "a" = some o' ∧ o.status = .pending ∧ o'.status = .awaiting_delivery ∧
        Accepted c o o' u.db.fills := by
  have hfresh : ladder.Fresh shop.db := ⟨by decide, by decide, rfl⟩
  have hstart : Start shop := ⟨hfresh.inventory, by simp [Unique, shop], by simp [shop], rfl, rfl⟩
  have hstatuses : ((run.exec step shop sideBySide).bind fun t => (step t (.next 1 "")).bind fun u =>
      (t.order "a").bind fun o => (u.order "a").bind fun o' =>
        (table.find Prod.fst 1 t.calls).map fun p => (o.status, o'.status, p.1)) =
      some (.pending, .awaiting_delivery, 1) := by decide +kernel
  simp only [Option.bind_eq_some_iff, Option.map_eq_some_iff, Prod.mk.injEq] at hstatuses
  obtain ⟨t, hexec, u, hstep, o, ho, o', ho', ⟨_, c⟩, hcall, hwas, hnow, rfl⟩ := hstatuses
  have hrun := run.steps_of_exec sideBySide hexec (run.meets_true shop sideBySide)
  obtain ⟨-, -, hcalls⟩ := one_payment_one_order hstart hrun
  have haccepted := (hcalls 1 c "" u hcall hstep "a" o o' ho ho').1 (by simp [hwas]) hnow
  exact ⟨hstart, t, u, hexec, hstep, c, o, o', hcall, ho, ho', hwas, hnow, haccepted⟩

end pcoin.market.ipn
