import PCoin.Bot.Payments
import Mathlib.Data.List.Infix

namespace pcoin.bot.refund

/-- The body of an answer; one that is no JSON object is left out. -/
structure Body where
  ok : Bool
  description : Option String := none
  error_code : Option Int := none
  retry_after : Option Int := none
deriving DecidableEq

/-- What comes of a request to Telegram. -/
inductive Http
  | response (status : Nat) (body : Option Body)
  | error (name message : String)
deriving DecidableEq

/-- What `TelegramClient.call` returns. -/
structure Reply where
  ok : Bool
  unknown : Bool := false
  rateLimited : Bool := false
  retryAfter : Option Int := none
  description : Option String := none
  errorCode : Option Int := none
deriving DecidableEq

/-- `TelegramClient.call`, once its request has come to an end. -/
def call : Http → Reply
  | .response status body =>
    if status = 429 then
      { ok := false, rateLimited := true, retryAfter := body.bind Body.retry_after,
        description := body.bind Body.description }
    else match body with
      | none =>
        { ok := false, unknown := true,
          description := some ("unreadable body (HTTP " ++ toString status ++ ")") }
      | some body =>
        if body.ok then { ok := true }
        else { ok := false, description := some (body.description.getD "unknown error"),
               errorCode := body.error_code }
  | .error name message =>
    { ok := false, unknown := true,
      description := some (if name = "AbortError" then "timeout" else message) }

/-- `/CHARGE_ALREADY_REFUNDED/i`. -/
def alreadyRefunded (description : Option String) : Bool :=
  "charge_already_refunded".toList <:+: (description.getD "").toList.map Char.toLower

/-- Telegram has confirmed the refund. -/
def Reply.confirms (r : Reply) : Bool := r.ok || (!r.unknown && alreadyRefunded r.description)

/-- Telegram has refused it, as the bot reads the answer. -/
def Reply.refuses (r : Reply) : Bool := !r.confirms && !r.unknown

/-- A `refundStarsPayment` that awaits Telegram, with the payment that `beginRefund` gave it. -/
structure Call where
  id : Nat
  payment : Payment
  sent : Bool := false
deriving DecidableEq

/-- The bot, and Telegram: the charges it has been asked to refund and those it has refunded. -/
structure State where
  db : Db := {}
  calls : List Call := []
  nextCall : Nat := 0
  requested : List String := []
  executed : List String := []
deriving DecidableEq

inductive Event
  /-- An admin presses Refund. -/
  | press (paymentId : Nat) (clawback : Bool) (now : Int)
  /-- The request of a call reaches Telegram. -/
  | arrive (id : Nat)
  | execute (chargeId : String)
  | answer (id : Nat) (http : Http) (now : Int)
  | crash
  /-- Anything else the bot does. -/
  | op (op : Op)

/-- The first half of `refundStarsPayment`, up to the request. -/
def press (s : State) (paymentId : Nat) (clawback : Bool) (now : Int) : State :=
  match beginRefund s.db paymentId clawback now with
  | .error _ => s
  | .ok (db, _) =>
    match db.payment paymentId with
    | none => { s with db := db }
    | some p => { s with db := db, calls := s.calls ++ [{ id := s.nextCall, payment := p }],
                         nextCall := s.nextCall + 1 }

/-- The second half of `refundStarsPayment`. -/
def conclude (db : Db) (p : Payment) (r : Reply) (now : Int) : Db :=
  if r.confirms then immediate db (finishRefund db p.id now)
  else if !r.unknown then immediate db (undoRefund db p.id now)
  else db

def step (s : State) : Event → Option State
  | .press paymentId clawback now => some (press s paymentId clawback now)
  | .arrive id => do
    let c ← table.find Call.id id s.calls
    guard (c.sent = false)
    return { s with calls := table.update Call.id id (fun c => { c with sent := true }) s.calls
                    requested := s.requested ++ [c.payment.charge_id] }
  | .execute chargeId => do
    guard (chargeId ∈ s.requested ∧ chargeId ∉ s.executed)
    return { s with executed := s.executed ++ [chargeId] }
  | .answer id http now => do
    let c ← table.find Call.id id s.calls
    -- Telegram answers what it was asked, and confirms only what it has done
    guard (http matches .response _ _ → c.sent)
    guard ((call http).confirms → c.payment.charge_id ∈ s.executed)
    return { s with db := conclude s.db c.payment (call http) now
                    calls := s.calls.filter (·.id ≠ id) }
  | .crash => some { s with calls := [] }
  | .op op => do
    guard (op.isRefund = false)
    let db ← bot.step s.db op
    return { s with db := db }

/-- Nothing is refunded after a refusal: a refusal or a rate limit reaches a pending payment
only while Telegram has not refunded it, and Telegram refunds a payment only while it is
pending. -/
def Heeded (s : State) : Event → Prop
  | .execute chargeId =>
    ∀ p ∈ s.db.payments, p.charge_id = chargeId → p.refund_state = some .pending
  | .answer id http _ => (call http).refuses → ∀ c ∈ table.find Call.id id s.calls,
    ∀ p ∈ s.db.payment c.payment.id, p.refund_state = some .pending → p.charge_id ∉ s.executed
  | _ => True

instance (s : State) : (e : Event) → Decidable (Heeded s e)
  | .execute chargeId => inferInstanceAs (Decidable (∀ p ∈ s.db.payments,
      p.charge_id = chargeId → p.refund_state = some .pending))
  | .answer id http _ => inferInstanceAs (Decidable ((call http).refuses →
      ∀ c ∈ table.find Call.id id s.calls, ∀ p ∈ s.db.payment c.payment.id,
        p.refund_state = some .pending → p.charge_id ∉ s.executed))
  | .press _ _ _ | .arrive _ | .crash | .op _ => .isTrue trivial

/-- The user has the Stars or the credit, not both and not neither. -/
structure Agrees (s : State) : Prop where
  off : ∀ p ∈ s.db.payments, p.charge_id ∈ s.executed →
    p.refund_state = some .pending ∨ p.refund_state = some .done
  back : ∀ p ∈ s.db.payments, p.refund_state = some .done → p.charge_id ∈ s.executed

/-- What every allowed step keeps. -/
structure Inv (s : State) : Prop extends Agrees s where
  ids : (s.db.payments.map Payment.id).Nodup
  charges : (s.db.payments.map Payment.charge_id).Nodup
  calls : ∀ c ∈ s.calls, ∃ p ∈ s.db.payments,
    p.id = c.payment.id ∧ p.charge_id = c.payment.charge_id
  requested : ∀ ch ∈ s.requested, ch ∈ s.db.payments.map Payment.charge_id
  executed : ∀ ch ∈ s.executed, ch ∈ s.requested

namespace Inv

variable {s : State}

theorem inj (h : Inv s) {p q : Payment} (hp : p ∈ s.db.payments) (hq : q ∈ s.db.payments)
    (hid : p.id = q.id) : p = q :=
  List.inj_on_of_nodup_map h.ids hp hq hid

/-- Only the payments of the database matter. -/
theorem same (h : Inv s) {db : Db} (hpay : db.payments = s.db.payments) :
    Inv { s with db := db } := by
  obtain ⟨⟨hoff, hback⟩, hids, hcharges, hcalls, hrequested, hexecuted⟩ := h
  constructor
  · constructor
    · simpa only [hpay] using hoff
    · simpa only [hpay] using hback
  · simpa only [hpay] using hids
  · simpa only [hpay] using hcharges
  · simpa only [hpay] using hcalls
  · simpa only [hpay] using hrequested
  · exact hexecuted

/-- A refund changes its payment to a state that agrees with what Telegram has done. -/
theorem update (h : Inv s) {db : Db} {id : Nat} {f : Payment → Payment}
    (hpay : db.payments = table.update Payment.id id f s.db.payments)
    (hf : ∀ p, (f p).id = p.id ∧ (f p).charge_id = p.charge_id)
    (hoff : ∀ p, s.db.payment id = some p → p.charge_id ∈ s.executed →
      (f p).refund_state = some .pending ∨ (f p).refund_state = some .done)
    (hback : ∀ p, s.db.payment id = some p → (f p).refund_state = some .done →
      p.charge_id ∈ s.executed) : Inv { s with db := db } := by
  have hids : db.payments.map Payment.id = s.db.payments.map Payment.id := by
    rw [hpay]
    exact table.map_update fun p _ _ => (hf p).1
  have hcharges : db.payments.map Payment.charge_id = s.db.payments.map Payment.charge_id := by
    rw [hpay]
    exact table.map_update fun p _ _ => (hf p).2
  have hrow : ∀ p ∈ db.payments, (∃ q, s.db.payment id = some q ∧ p = f q) ∨
      p ∈ s.db.payments := by
    intro p hp
    rw [hpay] at hp
    obtain ⟨q, hq, rfl⟩ := List.mem_map.mp hp
    split
    · rename_i hid
      subst hid
      exact .inl ⟨q, table.find_eq_some h.ids hq, rfl⟩
    · exact .inr hq
  refine ⟨⟨fun p hp hexec => ?_, fun p hp hdone => ?_⟩, hids ▸ h.ids, hcharges ▸ h.charges,
    fun c hc => ?_, fun ch hch => hcharges ▸ h.requested ch hch, h.executed⟩
  · obtain ⟨q, hq, rfl⟩ | hp := hrow p hp
    · exact hoff q hq ((hf q).2 ▸ hexec)
    · exact h.off p hp hexec
  · obtain ⟨q, hq, rfl⟩ | hp := hrow p hp
    · exact (hf q).2 ▸ hback q hq hdone
    · exact h.back p hp hdone
  · obtain ⟨p, hp, hid, hcharge⟩ := h.calls c hc
    have hp' : (if p.id = id then f p else p) ∈ db.payments := by
      rw [hpay]
      exact List.mem_map_of_mem hp
    refine ⟨_, hp', ?_⟩
    split
    · exact ⟨(hf p).1.trans hid, (hf p).2.trans hcharge⟩
    · exact ⟨hid, hcharge⟩

/-- A new payment. -/
theorem append (h : Inv s) {db : Db} {p : Payment} (hpay : db.payments = s.db.payments ++ [p])
    (hid : p.id ∉ s.db.payments.map Payment.id)
    (hcharge : p.charge_id ∉ s.db.payments.map Payment.charge_id) (hstate : p.refund_state = none) :
    Inv { s with db := db } := by
  refine ⟨⟨fun q hq hexec => ?_, fun q hq hdone => ?_⟩, ?_, ?_, fun c hc => ?_, fun ch hch => ?_,
    h.executed⟩
  · simp only [hpay, List.mem_append, List.mem_singleton] at hq
    obtain hq | rfl := hq
    · exact h.off q hq hexec
    · exact absurd (h.requested _ (h.executed _ hexec)) hcharge
  · simp only [hpay, List.mem_append, List.mem_singleton] at hq
    obtain hq | rfl := hq
    · exact h.back q hq hdone
    · rw [hstate] at hdone
      cases hdone
  · simp only [hpay]
    exact table.nodup_append h.ids hid
  · simp only [hpay]
    exact table.nodup_append h.charges hcharge
  · obtain ⟨q, hq, heq⟩ := h.calls c hc
    exact ⟨q, by simp [hpay, hq], heq⟩
  · simp only [hpay, List.map_append, List.mem_append]
    exact .inl (h.requested ch hch)

/-- The calls that are left, of those there were. -/
theorem fewer (h : Inv s) {calls : List Call} (hcalls : ∀ c ∈ calls, c ∈ s.calls) :
    Inv { s with calls := calls } :=
  ⟨⟨h.off, h.back⟩, h.ids, h.charges, fun c hc => h.calls c (hcalls c hc), h.requested, h.executed⟩

theorem press (h : Inv s) (paymentId : Nat) (clawback : Bool) (now : Int) :
    Inv (press s paymentId clawback now) := by
  unfold refund.press
  split
  · exact h
  rename_i db resumed hbegin
  obtain ⟨p, hp, hdone, hcases⟩ := payments_beginRefund hbegin
  have hdb : Inv { s with db := db } := by
    obtain ⟨hpending, rfl⟩ | ⟨taken, hpay⟩ := hcases
    · exact h
    · exact h.update hpay (fun _ => ⟨rfl, rfl⟩) (fun _ _ _ => .inl rfl) fun _ _ hd => by cases hd
  split
  · exact hdb
  · rename_i q hq
    obtain ⟨hq, -⟩ := table.find_spec hq
    refine ⟨⟨hdb.off, hdb.back⟩, hdb.ids, hdb.charges, fun c hc => ?_, hdb.requested, hdb.executed⟩
    obtain hc | rfl := List.mem_append.mp hc |>.imp id List.mem_singleton.mp
    · exact hdb.calls c hc
    · exact ⟨q, hq, rfl, rfl⟩

theorem conclude (h : Inv s) {c : Call} (hc : c ∈ s.calls) {r : Reply} {now : Int}
    (hconfirms : r.confirms → c.payment.charge_id ∈ s.executed)
    (hrefuses : r.refuses → ∀ p ∈ s.db.payment c.payment.id, p.refund_state = some .pending →
      p.charge_id ∉ s.executed) :
    Inv { s with db := conclude s.db c.payment r now } := by
  -- the call is for the charge of the row that it concludes
  have hcharge : ∀ p, s.db.payment c.payment.id = some p →
      p.charge_id = c.payment.charge_id := by
    intro p hp
    obtain ⟨hp, hid⟩ := table.find_spec hp
    obtain ⟨q, hq, hqid, hqcharge⟩ := h.calls c hc
    rw [h.inj hp hq (hid.trans hqid.symm), hqcharge]
  unfold refund.conclude
  split
  · rename_i hconf
    cases hfinish : finishRefund s.db c.payment.id now with
    | error => exact h
    | ok out =>
      obtain hsame | ⟨p, hp, -, hpay⟩ := payments_finishRefund hfinish
      · exact h.same (congrArg Db.payments hsame)
      · exact h.update hpay (fun _ => ⟨rfl, rfl⟩) (fun _ _ _ => .inr rfl)
          fun q hq _ => hcharge q hq ▸ hconfirms hconf
  split
  · rename_i hconf hunknown
    have href : r.refuses := by simp_all [Reply.refuses]
    cases hundo : undoRefund s.db c.payment.id now with
    | error => exact h
    | ok out =>
      obtain hsame | ⟨p, hp, hpending, hpay⟩ := payments_undoRefund hundo
      · exact h.same (congrArg Db.payments hsame)
      · refine h.update hpay (fun _ => ⟨rfl, rfl⟩) (fun q hq hexec => ?_) fun _ _ hd => by cases hd
        obtain rfl := Option.some.inj (hp.symm.trans hq)
        exact absurd hexec (hrefuses href p hp hpending)
  · exact h

end Inv

theorem inv_step (s : State) (e : Event) (t : State) (h : Inv s) (hheeded : Heeded s e)
    (hstep : step s e = some t) : Inv t := by
  cases e with
  | press paymentId clawback now =>
    obtain rfl := Option.some.inj hstep
    exact h.press paymentId clawback now
  | arrive id =>
    simp only [step, Option.bind_eq_bind, Option.bind_eq_some_iff] at hstep
    obtain ⟨c, hfind, -, -, hstep⟩ := hstep
    obtain rfl := Option.some.inj hstep
    obtain ⟨hc, -⟩ := table.find_spec hfind
    obtain ⟨p, hp, -, hcharge⟩ := h.calls c hc
    refine ⟨⟨h.off, h.back⟩, h.ids, h.charges, fun d hd => ?_, fun ch hch => ?_,
      fun ch hch => List.mem_append_left _ (h.executed ch hch)⟩
    · let sent (c : Call) : Call := { c with sent := true }
      have hsent : ∀ c, (sent c).payment = c.payment := fun _ => rfl
      obtain ⟨b, hb, heq⟩ := table.exists_of_mem_update hsent hd
      exact heq ▸ h.calls b hb
    · obtain hch | hch := List.mem_append.mp hch
      · exact h.requested ch hch
      · obtain rfl := List.mem_singleton.mp hch
        exact List.mem_map.mpr ⟨p, hp, hcharge⟩
  | execute chargeId =>
    simp only [step, Option.bind_eq_bind, Option.bind_eq_some_iff] at hstep
    obtain ⟨_, hguard, hstep⟩ := hstep
    obtain rfl := Option.some.inj hstep
    have hreq : chargeId ∈ s.requested ∧ chargeId ∉ s.executed := by simpa [guard] using hguard
    refine ⟨⟨fun p hp hexec => ?_, fun p hp hdone => List.mem_append_left _ (h.back p hp hdone)⟩,
      h.ids, h.charges, h.calls, h.requested, fun ch hch => ?_⟩
    · obtain hexec | hexec := List.mem_append.mp hexec
      · exact h.off p hp hexec
      · exact .inl (hheeded p hp (List.mem_singleton.mp hexec))
    · obtain hch | hch := List.mem_append.mp hch
      · exact h.executed ch hch
      · exact List.mem_singleton.mp hch ▸ hreq.1
  | answer id http now =>
    simp only [step, Option.bind_eq_bind, Option.bind_eq_some_iff] at hstep
    obtain ⟨c, hfind, -, -, _, hguard, hstep⟩ := hstep
    obtain rfl := Option.some.inj hstep
    obtain ⟨hc, -⟩ := table.find_spec hfind
    have hconfirms : (call http).confirms → c.payment.charge_id ∈ s.executed := by
      simpa [guard] using hguard
    have hrefuses := fun href p hp => hheeded href c hfind p hp
    exact (h.conclude hc hconfirms hrefuses).fewer fun c hc => (List.mem_filter.mp hc).1
  | crash =>
    obtain rfl := Option.some.inj hstep
    exact h.fewer fun c hc => absurd hc List.not_mem_nil
  | op op =>
    simp only [step, Option.bind_eq_bind, Option.bind_eq_some_iff] at hstep
    obtain ⟨_, hguard, db, hop, hstep⟩ := hstep
    obtain rfl := Option.some.inj hstep
    have hrefund : op.isRefund = false := by simpa [guard] using hguard
    obtain hpay | ⟨p, hpay, hid, hcharge, hstate, -⟩ := payments_step hrefund hop
    · exact h.same hpay
    · exact h.append hpay hid hcharge hstate

theorem inv_start : Inv {} := by
  refine ⟨⟨?_, ?_⟩, List.nodup_nil, List.nodup_nil, ?_, ?_, ?_⟩
  all_goals simp

/-- Where no refund is made after a refusal, the user is never left with both the Stars and
the credit, nor with neither. -/
theorem refund_agrees {s : State} (hrun : run.Steps step Heeded {} s) : Agrees s :=
  (hrun.invariant inv_step inv_start).toAgrees

/-- What a refund leaves of a payment: the calls in flight, the charges that Telegram has
refunded, the state of each payment, and the balances. -/
def outcome (s : State) : List Call × List String × List (Option RefundState) × List Int :=
  (s.calls, s.executed, s.db.payments.map Payment.refund_state,
    s.db.users.map User.balance_micro_usd)

/-- A top-up of 500 Stars for $9.75. -/
def topUp : List Event :=
  [.op (.openAccount 7 0 0 none 100),
   .op (.others [] [] [⟨1, 7, "inv-1", 500, 9750000, .pending⟩] [] []),
   .op (.creditStarsPayment 7 ⟨"ch", "inv-1", "XTR", 500⟩ 101)]

/-- The refund is made but its answer is lost, and Refund is pressed again. -/
def pressedTwice : List Event :=
  topUp ++ [.press 1 false 200, .arrive 0, .execute "ch", .answer 0 (.error "AbortError" "") 230,
    .press 1 false 240, .arrive 1]

/-- Telegram says the second time that it has refunded the charge. -/
theorem refund_agrees_pressedTwice :
    ∃ s, run.exec step {} (pressedTwice ++ [.answer 1
        (.response 400 (some ⟨false, some "Bad Request: CHARGE_ALREADY_REFUNDED", some 400, none⟩))
        241]) = some s ∧
      outcome s = ([], ["ch"], [some .done], [0]) ∧ Agrees s := by
  have hrun : (run.exec step {} (pressedTwice ++ [.answer 1
      (.response 400 (some ⟨false, some "Bad Request: CHARGE_ALREADY_REFUNDED", some 400, none⟩))
      241])).map outcome = some ([], ["ch"], [some .done], [0]) := by
    decide +kernel
  obtain ⟨s, hexec, hs⟩ := Option.map_eq_some_iff.mp hrun
  refine ⟨s, hexec, hs, refund_agrees (run.steps_of_exec _ hexec ?_)⟩
  decide +kernel

/-- The second time Telegram limits the rate: the credit is put back beside the Stars. -/
theorem rate_limit_restores_credit :
    ¬∀ s, run.Steps step (fun _ _ => True) {} s → s.calls = [] → Agrees s := by
  have hrun : (run.exec step {} (pressedTwice ++ [.answer 1
      (.response 429 (some ⟨false, some "Too Many Requests: retry after 5", some 429, some 5⟩))
      241])).map (fun s => (s.calls, s.db.payments.map fun p => (p.charge_id, p.refund_state),
        s.executed)) = some ([], [("ch", none)], ["ch"]) := by
    decide +kernel
  obtain ⟨s, hexec, hs⟩ := Option.map_eq_some_iff.mp hrun
  simp only [Prod.mk.injEq] at hs
  obtain ⟨hcalls, hpay, hexecuted⟩ := hs
  have hmem : ("ch", none) ∈ s.db.payments.map fun p => (p.charge_id, p.refund_state) := by
    rw [hpay]
    exact List.mem_singleton.mpr rfl
  obtain ⟨p, hp, heq⟩ := List.mem_map.mp hmem
  obtain ⟨hcharge, hstate⟩ := Prod.mk.inj heq
  intro hall
  have hoff := (hall s (run.steps_of_exec _ hexec (run.meets_true _ _)) hcalls).off p hp
  rw [hcharge, hstate, hexecuted] at hoff
  obtain h | h := hoff (List.mem_singleton.mpr rfl)
  · cases h
  · cases h

end pcoin.bot.refund
