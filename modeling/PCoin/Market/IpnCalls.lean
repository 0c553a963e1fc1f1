import PCoin.Market.IpnRows

namespace pcoin.market.ipn

open ladder (OrderRow OrderStatus Fill settleLadder releaseLadder)

/-! ### What a call does to the database -/

inductive Effect (db : ladder.State) (c : Call) : ladder.State → Prop
  | read : Effect db c db
  | accept (order : OrderRow) (depth : Nat) (row : OrderRow) (backed : Bool)
      (hpc : c.pc = .accept order depth)
      (hrow : table.find OrderRow.order_id order.order_id db.orders = some row)
      (hfree : ¬ truthy row.paid_payment_id) (hunpaid : row.status ∈ UNPAID)
      (hunique : ∀ o ∈ db.orders, o.order_id ≠ order.order_id →
        o.paid_payment_id ≠ some c.d.payment_id)
      (hbacked : backed → ∃ f ∈ (settleLadder db order.order_id).fills,
        f.order_id = order.order_id ∧ f.state = .sold) :
      Effect db c ((settleLadder db order.order_id).updateOrder order.order_id fun o =>
        { accepted c.d backed o with paid_payment_id := some c.d.payment_id })
  | hold (order : OrderRow) (depth : Nat) (why : Hold) (rel : Option Release) (row : OrderRow)
      (detail : String) (hpc : c.pc = .hold order depth why rel)
      (hrow : table.find OrderRow.order_id order.order_id db.orders = some row)
      (hfree : row.paid_payment_id = none) (hunpaid : row.status ∈ UNPAID)
      (hunique : ∀ o ∈ db.orders, o.order_id ≠ order.order_id →
        o.paid_payment_id ≠ some c.d.payment_id) :
      Effect db c (db.updateOrder order.order_id fun o =>
        { held c.d why rel detail o with paid_payment_id := some c.d.payment_id })
  | contradicted (order : OrderRow) (detail : String) (hpc : c.pc = .contradicted order) :
      Effect db c (db.updateOrder order.order_id (contradicted c.d detail))
  | moreMoney (order : OrderRow) (rel : Option Release) (detail : String)
      (hpc : c.pc = .moreMoney order rel) :
      Effect db c (db.updateOrder order.order_id (moreMoney c.d order rel detail))
  | close (order row : OrderRow) (hpc : c.pc = .close order)
      (hrow : table.find OrderRow.order_id order.order_id db.orders = some row)
      (hpending : row.status = .pending) (hfree : row.paid_payment_id = none) :
      Effect db c ((releaseLadder db order.order_id).setStatus order.order_id (closedStatus c.d))
  | reversed (order : OrderRow) (hpc : c.pc = .reversed order) :
      Effect db c (db.updateOrder order.order_id (paidPaymentReversed c.d))

theorem tie_eq_done {db db' : ladder.State} {orderId pid : String} {f : OrderRow → OrderRow}
    (h : tie db orderId pid f = .done db') :
    db' = db.updateOrder orderId (fun o => { f o with paid_payment_id := some pid }) ∧
      ∀ o ∈ db.orders, o.order_id ≠ orderId → o.paid_payment_id ≠ some pid := by
  unfold tie at h
  split at h
  · cases h
  · rename_i hany
    refine ⟨(Written.done.inj h).symm, fun o ho hne hpaid => hany ?_⟩
    exact List.any_eq_true.mpr ⟨o, ho, by simp [hne, hpaid]⟩

/-- The fills that are moved are sold afterwards. -/
theorem sold_of_moved {db : ladder.State} {orderId : String}
    (hmoved : 0 < (db.fills.filter (Fill.isOpen orderId)).length) :
    ∃ f ∈ (settleLadder db orderId).fills, f.order_id = orderId ∧ f.state = .sold := by
  obtain ⟨f, hf⟩ := List.exists_mem_of_length_pos hmoved
  obtain ⟨hf, hopen⟩ := List.mem_filter.mp hf
  refine ⟨{ f with state := .sold }, List.mem_map.mpr ⟨f, hf, if_pos hopen⟩, ?_, rfl⟩
  simp only [Fill.isOpen, Bool.and_eq_true, decide_eq_true_eq] at hopen
  exact hopen.1

theorem accept_effect {db db' : ladder.State} {c : Call} {order : OrderRow} {depth : Nat}
    (hpc : c.pc = .accept order depth) (h : accept db c.d order = .done db') : Effect db c db' := by
  unfold accept at h
  dsimp only at h
  split at h
  · cases h
  · rename_i row hrow
    split at h
    · cases h
    · rename_i hguard
      simp only [not_or, not_not] at hguard
      obtain ⟨rfl, hunique⟩ := tie_eq_done h
      refine .accept order depth row _ hpc hrow hguard.1 hguard.2.2 hunique fun hbacked => ?_
      obtain hmoved | hsold := Bool.or_eq_true _ _ |>.mp hbacked
      · exact sold_of_moved (of_decide_eq_true hmoved)
      · obtain ⟨f, hf, hspec⟩ := List.any_eq_true.mp hsold
        exact ⟨f, hf, by simpa using hspec⟩

theorem hold_effect {db db' : ladder.State} {c : Call} {order : OrderRow} {depth : Nat} {why : Hold}
    {rel : Option Release} {detail : String} (hpc : c.pc = .hold order depth why rel)
    (h : holdForHuman db c.d order why rel detail = .done db') : Effect db c db' := by
  unfold holdForHuman at h
  split at h
  · cases h
  · rename_i row hrow
    split at h
    · rename_i hguard
      obtain ⟨rfl, hunique⟩ := tie_eq_done h
      exact .hold order depth why rel row detail hpc hrow hguard.1 hguard.2.2 hunique
    · cases h

theorem close_effect {db : ladder.State} {c : Call} {order : OrderRow} (hpc : c.pc = .close order) :
    Effect db c (close db c.d order) := by
  unfold close
  dsimp only
  split
  · exact .read
  · rename_i row hrow
    split
    · rename_i hguard
      exact .close order row hpc hrow hguard.1 hguard.2
    · exact .read

theorem db_logEvent (s : State) (d : Callback) : (logEvent s d).1.db = s.db := by
  unfold logEvent
  dsimp only
  split <;> rfl

theorem perform_effect (s : State) (c : Call) (detail : String) :
    Effect s.db c (perform s c detail).1.db := by
  cases hpc : c.pc with
  | log =>
    simp only [perform, hpc, db_logEvent]
    exact .read
  | load | tied order depth | elsewhere order depth | holdRelease order depth
  | reload order depth | moreRelease order =>
    simp only [perform, hpc]
    exact .read
  | accept order depth =>
    simp only [perform, hpc]
    split
    · rename_i db' hdone
      exact accept_effect hpc hdone
    · exact .read
    · exact .read
  | hold order depth why rel =>
    simp only [perform, hpc]
    split
    · rename_i db' hdone
      exact hold_effect hpc hdone
    · exact .read
    · exact .read
  | contradicted order =>
    simp only [perform, hpc]
    exact .contradicted order detail hpc
  | moreMoney order rel =>
    simp only [perform, hpc]
    exact .moreMoney order rel detail hpc
  | close order =>
    simp only [perform, hpc]
    exact close_effect hpc
  | reversed order =>
    simp only [perform, hpc]
    exact .reversed order hpc

/-! ### What a call knows -/

/-- The callback reports money, for a payment that has an id. -/
structure Callback.IsMoney (d : Callback) : Prop where
  not_fail : classify d ≠ .fail
  not_wait : classify d ≠ .wait
  payment_id : d.payment_id ≠ ""

/-- The order as the call read it. -/
def Pc.order? : Pc → Option OrderRow
  | .log | .load => none
  | .tied order _ | .elsewhere order _ | .accept order _ | .holdRelease order _ | .hold order _ _ _
  | .reload order _ | .contradicted order | .moreRelease order | .moreMoney order _ | .close order
  | .reversed order => some order

/-- Why a call has come to where it is. -/
def Call.Justified (c : Call) (events : List EventRow) : Prop :=
  match c.pc with
  | .log | .load => True
  | .tied _ _ => classify c.d = .fail ∨ c.d.IsMoney
  | .elsewhere _ _ | .holdRelease _ _ | .hold _ _ _ _ | .reload _ _ | .contradicted _
  | .moreRelease _ | .moreMoney _ _ => c.d.IsMoney
  | .accept order _ =>
    c.d.IsMoney ∧ classify c.d = .pay ∧ ¬ truthy (parentPaymentId c.d) ∧
      invoiceMismatch c.d order = none
  | .close order => classify c.d = .fail ∧ invoiceMismatch c.d order = none
  | .reversed order => classify c.d = .fail ∧ tiedPayment events order c.ev = some c.d.payment_id

/-- A call that is under way has logged its callback, has read an order that is there, and
has come to where it is for a reason. -/
structure Call.Sound (c : Call) (s : State) : Prop where
  logged : c.pc = .log ∨ c.ev.id < s.nextEvent
  seen : ∀ order ∈ c.pc.order?, ∃ o, s.order order.order_id = some o ∧ Evolves order o
  justified : c.Justified s.events

/-- Rows have been logged. -/
def Logs (s t : State) : Prop :=
  s.nextEvent ≤ t.nextEvent ∧ ∃ new, t.events = s.events ++ new ∧ ∀ e ∈ new, s.nextEvent ≤ e.id

theorem Logs.of_eq {s t : State} (hnext : t.nextEvent = s.nextEvent) (hevents : t.events = s.events) :
    Logs s t :=
  ⟨hnext.ge, [], by simpa using hevents, by simp⟩

/-- What the others do leaves a call sound. -/
theorem Call.Sound.mono {c : Call} {s t : State} (h : c.Sound s) (hgrows : Grows s.db t.db)
    (hlogs : Logs s t) : c.Sound t := by
  obtain ⟨hle, new, hevents, hnew⟩ := hlogs
  refine ⟨h.logged.imp_right fun hid => lt_of_lt_of_le hid hle, fun order horder => ?_, ?_⟩
  · obtain ⟨o, ho, hevolves⟩ := h.seen order horder
    obtain ⟨o', ho', hevolves'⟩ := hgrows _ o ho
    exact ⟨o', ho', hevolves.trans hevolves'⟩
  · have hjustified := h.justified
    have hlogged := h.logged
    unfold Call.Justified at hjustified ⊢
    cases hpc : c.pc with
    | reversed order =>
      simp only [hpc] at hjustified ⊢
      obtain hlog | hid := hlogged
      · rw [hpc] at hlog
        cases hlog
      · rw [hevents, tiedPayment_append hid hnew]
        exact hjustified
    | log | load => trivial
    | _ => simpa only [hpc] using hjustified

theorem decide_spec {d : Callback} {order : Option OrderRow} {pc : Pc}
    (h : decide d order = some pc) :
    ∃ o, order = some o ∧ pc = .tied o 0 ∧ (classify d = .fail ∨ d.IsMoney) := by
  cases order with
  | none => cases h
  | some o =>
    unfold decide at h
    dsimp only at h
    split at h
    · rename_i hfail
      exact ⟨o, rfl, (Option.some.inj h).symm, .inl hfail⟩
    · cases h
    · rename_i hnotFail hnotWait
      split at h
      · cases h
      · rename_i hpid
        exact ⟨o, rfl, (Option.some.inj h).symm, .inr ⟨hnotFail, hnotWait, hpid⟩⟩

theorem samePayment_spec {d : Callback} {order : OrderRow} {pc : Pc}
    (h : samePayment d order = some pc) : pc = .contradicted order ∨ pc = .moreRelease order := by
  unfold samePayment at h
  split at h
  · cases h
  · split at h
    · split at h
      · exact .inl (Option.some.inj h).symm
      · cases h
    · split at h
      · cases h
      · split at h
        · exact .inr (Option.some.inj h).symm
        · cases h
    · cases h

theorem money_spec {d : Callback} {order : OrderRow} {depth : Nat} {tied : Option String} {pc : Pc}
    (h : money d order depth tied = some pc) :
    pc = .contradicted order ∨ pc = .moreRelease order ∨ pc = .elsewhere order depth := by
  unfold money at h
  split at h
  · exact (samePayment_spec h).imp_right .inl
  · split at h
    · cases h
    · exact .inr (.inr (Option.some.inj h).symm)

theorem terminal_spec {d : Callback} {order : OrderRow} {tied : Option String} {pc : Pc}
    (h : terminal d order tied = some pc) :
    (pc = .close order ∧ invoiceMismatch d order = none) ∨
      (pc = .reversed order ∧ tied = some d.payment_id) := by
  cases tied with
  | none =>
    simp only [terminal] at h
    split at h
    · cases h
    · split at h
      · cases h
      · rename_i hmatch
        exact .inl ⟨(Option.some.inj h).symm, not_not.mp hmatch⟩
  | some p =>
    simp only [terminal] at h
    split at h
    · rename_i htied
      split at h
      · exact .inr ⟨(Option.some.inj h).symm, by rw [htied.1]⟩
      · cases h
    · cases h

theorem holdFor_eq_none {d : Callback} {order : OrderRow} (hmoney : d.IsMoney)
    (h : holdFor d order = none) :
    classify d = .pay ∧ ¬ truthy (parentPaymentId d) ∧ invoiceMismatch d order = none := by
  unfold holdFor at h
  split at h
  · cases h
  · rename_i hparent
    split at h
    · cases h
    · rename_i hmatch
      refine ⟨?_, hparent, not_not.mp hmatch⟩
      have hfail := hmoney.not_fail
      have hwait := hmoney.not_wait
      cases hkind : classify d <;> simp_all

theorem settle_justified {c : Call} (order : OrderRow) (depth : Nat) (hmoney : c.d.IsMoney)
    (events : List EventRow) :
    ({ c with pc := settle c.d order depth } : Call).Justified events ∧
      (settle c.d order depth).order? = some order := by
  unfold settle
  split
  · rename_i hhold
    exact ⟨⟨hmoney, holdFor_eq_none hmoney hhold⟩, rfl⟩
  · exact ⟨hmoney, rfl⟩
  · exact ⟨hmoney, rfl⟩

theorem logEvent_spec {s : State} (hevents : ∀ e ∈ s.events, e.id < s.nextEvent) (d : Callback) :
    Logs s (logEvent s d).1 ∧ (logEvent s d).2.id < (logEvent s d).1.nextEvent ∧
      ∀ e ∈ (logEvent s d).1.events, e.id < (logEvent s d).1.nextEvent := by
  unfold logEvent
  dsimp only
  split
  · rename_i row hfind
    exact ⟨.of_eq rfl rfl, hevents row (List.mem_of_find?_eq_some hfind), hevents⟩
  · refine ⟨⟨Nat.le_succ _, [_], rfl, by simp⟩, Nat.lt_succ_self _, fun e he => ?_⟩
    obtain he | he := List.mem_append.mp he
    · exact Nat.lt_succ_of_lt (hevents e he)
    · rw [List.mem_singleton.mp he]
      exact Nat.lt_succ_self _

theorem Call.goto_eq_some {c c' : Call} {next : Option Pc} (h : c.goto next = some c') :
    ∃ pc, next = some pc ∧ c' = { c with pc := pc } := by
  obtain ⟨pc, hnext, heq⟩ := Option.map_eq_some_iff.mp h
  exact ⟨pc, hnext, heq.symm⟩

/-- A call that goes on with the order it has read. -/
theorem Call.Sound.goto {c : Call} {s : State} (h : c.Sound s) (hlog : c.pc ≠ .log)
    {order : OrderRow} (hread : c.pc.order? = some order) {pc : Pc} (horder : pc.order? = some order)
    (hjustified : ({ c with pc := pc } : Call).Justified s.events) :
    ({ c with pc := pc } : Call).Sound s := by
  refine ⟨.inr (h.logged.resolve_left hlog), fun order' horder' => ?_, hjustified⟩
  rw [horder, Option.mem_some_iff] at horder'
  subst horder'
  exact h.seen order hread

theorem Call.Sound.afterRace {c c' : Call} {s : State} (h : c.Sound s) (hlog : c.pc ≠ .log)
    {order : OrderRow} (hread : c.pc.order? = some order) {depth : Nat} (hmoney : c.d.IsMoney)
    (hc : c.goto (ipn.afterRace order depth) = some c') : c'.Sound s := by
  obtain ⟨pc, hpc, rfl⟩ := Call.goto_eq_some hc
  unfold ipn.afterRace at hpc
  split at hpc
  · cases hpc
  · obtain rfl := Option.some.inj hpc
    exact h.goto hlog hread rfl hmoney

/-- A call that goes on with the order as it reads it now. -/
theorem Call.Sound.reread {c : Call} {s : State} (h : c.Sound s) (hlog : c.pc ≠ .log)
    {orderId : String} {order : OrderRow} (hread : s.order orderId = some order) {depth : Nat}
    (hreason : classify c.d = .fail ∨ c.d.IsMoney) :
    ({ c with pc := .tied order depth } : Call).Sound s := by
  refine ⟨.inr (h.logged.resolve_left hlog), fun order' horder' => ?_, hreason⟩
  obtain rfl : order = order' := Option.some.inj horder'
  have hid : order.order_id = orderId := (table.find_spec hread).2
  exact ⟨order, by rw [hid, hread], .refl order⟩

theorem perform_sound {s : State} {c : Call} {detail : String}
    (hevents : ∀ e ∈ s.events, e.id < s.nextEvent) (h : c.Sound s) {c' : Call}
    (hc : (perform s c detail).2 = some c') : c'.Sound (perform s c detail).1 := by
  have hjustified := h.justified
  cases hpc : c.pc with
  | log =>
    simp only [perform, hpc, Option.some.injEq] at hc ⊢
    subst hc
    obtain ⟨-, hid, -⟩ := logEvent_spec hevents c.d
    exact ⟨.inr hid, by simp [Pc.order?], trivial⟩
  | load =>
    simp only [perform, hpc] at hc ⊢
    obtain ⟨pc, hpc', rfl⟩ := Call.goto_eq_some hc
    obtain ⟨o, horder, rfl, hreason⟩ := decide_spec hpc'
    obtain ⟨orderId, -, hfind⟩ := Option.bind_eq_some_iff.mp horder
    exact h.reread (by simp [hpc]) hfind hreason
  | tied order depth =>
    simp only [Call.Justified, hpc] at hjustified
    simp only [perform, hpc] at hc ⊢
    obtain ⟨pc, hpc', rfl⟩ := Call.goto_eq_some hc
    have hread : c.pc.order? = some order := by rw [hpc, Pc.order?]
    split at hpc'
    · rename_i hfail
      obtain ⟨rfl, hmatch⟩ | ⟨rfl, htied⟩ := terminal_spec hpc'
      · exact h.goto (by simp [hpc]) hread rfl ⟨hfail, hmatch⟩
      · exact h.goto (by simp [hpc]) hread rfl ⟨hfail, htied⟩
    · rename_i hfail
      have hmoney := hjustified.resolve_left hfail
      obtain rfl | rfl | rfl := money_spec hpc'
      · exact h.goto (by simp [hpc]) hread rfl hmoney
      · exact h.goto (by simp [hpc]) hread rfl hmoney
      · exact h.goto (by simp [hpc]) hread rfl hmoney
  | elsewhere order depth =>
    simp only [Call.Justified, hpc] at hjustified
    simp only [perform, hpc] at hc ⊢
    obtain ⟨pc, hpc', rfl⟩ := Call.goto_eq_some hc
    split at hpc'
    · cases hpc'
    · obtain rfl := Option.some.inj hpc'
      obtain ⟨hsettle, horder⟩ := settle_justified order depth hjustified s.events
      exact h.goto (by simp [hpc]) (by rw [hpc, Pc.order?]) horder hsettle
  | accept order depth =>
    simp only [Call.Justified, hpc] at hjustified
    simp only [perform, hpc] at hc ⊢
    split at hc
    · cases hc
    · exact h.afterRace (by simp [hpc]) (by rw [hpc, Pc.order?]) hjustified.1 hc
    · cases hc
  | holdRelease order depth =>
    simp only [Call.Justified, hpc] at hjustified
    simp only [perform, hpc] at hc ⊢
    obtain ⟨pc, hpc', rfl⟩ := Call.goto_eq_some hc
    obtain rfl := Option.some.inj hpc'
    exact h.goto (by simp [hpc]) (by rw [hpc, Pc.order?]) rfl hjustified
  | hold order depth why rel =>
    simp only [Call.Justified, hpc] at hjustified
    simp only [perform, hpc] at hc ⊢
    split at hc
    · cases hc
    · exact h.afterRace (by simp [hpc]) (by rw [hpc, Pc.order?]) hjustified hc
    · cases hc
  | reload order depth =>
    simp only [Call.Justified, hpc] at hjustified
    simp only [perform, hpc] at hc ⊢
    obtain ⟨pc, hpc', rfl⟩ := Call.goto_eq_some hc
    obtain ⟨o, hfind, rfl⟩ := Option.map_eq_some_iff.mp hpc'
    exact h.reread (by simp [hpc]) hfind (.inr hjustified)
  | moreRelease order =>
    simp only [Call.Justified, hpc] at hjustified
    simp only [perform, hpc] at hc ⊢
    obtain ⟨pc, hpc', rfl⟩ := Call.goto_eq_some hc
    obtain rfl := Option.some.inj hpc'
    exact h.goto (by simp [hpc]) (by rw [hpc, Pc.order?]) rfl hjustified
  | contradicted order | moreMoney order rel | close order | reversed order =>
    simp only [perform, hpc] at hc
    cases hc

end pcoin.market.ipn
