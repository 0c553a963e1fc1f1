import PCoin.Market.Lock

namespace pcoin.market

/-- The condition on a run: a send is committed only under the claim it was made for,
before anybody has concluded that nothing was sent; a lookup after a failed send or by a
sweep still sees the transactions that pay the order, and none of them is conflicted; no
transaction of the order that was abandoned becomes live again; and no sweep takes away a
claim that was made after its in-flight check. -/
def Orderly (s : State) : Event → Prop
  | .commit fid _ => s.Locked ∧ (∀ x ∈ s.sends, x.fid = fid → x.era = s.claims) ∧
      ∀ c ∈ s.calls, c.pc ≠ .failedReview ∧ c.pc.swept ≠ some s.claims
  | .lookup fid => ∀ c ∈ s.call fid, c.pc = .failedLookup ∨ c.pc.era.isSome →
      ∀ tx ∈ s.paid, tx ∈ listtransactions s.history 1000 ∧ tx.confirmations > -1
  | .mark txid abandoned confirmations => ∀ tx ∈ s.history,
      (tx.mark txid abandoned confirmations).pays s.orderId = true → tx.pays s.orderId = true
  | .query fid _ => ∀ c ∈ s.call fid, ∀ era ∈ c.pc.swept,
      s.order.status = .sending → era = s.claims
  | _ => True

instance (s : State) : Decidable s.Locked :=
  inferInstanceAs (Decidable (s.order.status = .sending ∨ s.order.delivered_txid ≠ none))

instance (s : State) : (e : Event) → Decidable (Orderly s e)
  | .commit fid _ => inferInstanceAs (Decidable (s.Locked ∧
      (∀ x ∈ s.sends, x.fid = fid → x.era = s.claims) ∧
      ∀ c ∈ s.calls, c.pc ≠ .failedReview ∧ c.pc.swept ≠ some s.claims))
  | .lookup fid => inferInstanceAs (Decidable (∀ c ∈ s.call fid,
      c.pc = .failedLookup ∨ c.pc.era.isSome →
        ∀ tx ∈ s.paid, tx ∈ listtransactions s.history 1000 ∧ tx.confirmations > -1))
  | .mark txid abandoned confirmations => inferInstanceAs (Decidable (∀ tx ∈ s.history,
      (tx.mark txid abandoned confirmations).pays s.orderId = true → tx.pays s.orderId = true))
  | .query fid _ => inferInstanceAs (Decidable (∀ c ∈ s.call fid, ∀ era ∈ c.pc.swept,
      s.order.status = .sending → era = s.claims))
  | .deliver _ | .reconcileSending | .orderSend _ | .orderDeliver _ | .balance _ _ | .sent _
  | .throws _ | .next _ | .other _ | .settings _ _ | .tick | .crash => .isTrue trivial

/-- A lookup that covers what pays the order and finds nothing is right. -/
theorem paid_eq_nil {s : State} (h : Guard s) (hnone : findSentTx s.history s.orderId = none)
    (hcover : ∀ tx ∈ s.paid, tx ∈ listtransactions s.history 1000 ∧ tx.confirmations > -1) :
    s.paid = [] := by
  rw [List.eq_nil_iff_forall_not_mem]
  intro tx htx
  obtain ⟨hmem, hpays⟩ := List.mem_filter.mp htx
  simp only [Tx.pays, Bool.and_eq_true, decide_eq_true_eq, Bool.not_eq_true'] at hpays
  have hcategory := h.own tx hmem hpays.1
  obtain ⟨hlisted, hconfirmed⟩ := hcover tx htx
  rw [findSentTx, Option.map_eq_none_iff, List.find?_eq_none] at hnone
  exact hnone tx hlisted (by simp [hpays, hcategory, hconfirmed])

/-- The wallet commits the send of the claim in force. -/
theorem Guard.commit {s t : State} (h : Guard s) {fid : Nat} {txid : String} {x : Send}
    (hx : s.sends.find? (·.fid = fid) = some x) (hok : Orderly s (.commit fid txid))
    (ht : step s (.commit fid txid) = some t) : Guard t := by
  obtain ⟨hlocked, hera, hquiet⟩ := hok
  have hxmem := List.mem_of_find?_eq_some hx
  have hxfid : x.fid = fid := by simpa using List.find?_some hx
  have hxera := hera x hxmem hxfid
  have hunpaid := h.pending x hxmem hxera
  simp only [step, hx, Option.bind_eq_bind, Option.bind_some] at ht
  obtain rfl := Option.some.inj ht
  have hmem (d : Call) (hd : d ∈ s.calls.map fun c : Call =>
      if c.fid = fid ∧ c.pc = .send none then { c with pc := .send (some txid) } else c) :
      ∃ c ∈ s.calls, c.fid = d.fid ∧ c.pc.acts = d.pc.acts ∧ c.pc.unsent = d.pc.unsent ∧
        c.pc.era = d.pc.era ∧ c.pc.swept = d.pc.swept ∧
        (d.pc = .failedReview → c.pc = .failedReview) := by
    obtain ⟨c, hc, rfl⟩ := List.mem_map.mp hd
    refine ⟨c, hc, ?_⟩
    split
    · rename_i hsend
      rw [hsend.2]
      exact ⟨rfl, rfl, rfl, rfl, rfl, fun hreview => by cases hreview⟩
    · exact ⟨rfl, rfl, rfl, rfl, rfl, id⟩
  refine ⟨fun _ _ _ => hlocked, ?_, ?_, ?_, ?_, ?_, fun _ => hlocked, ?_, ?_, ?_, ?_, ?_⟩
  · intro d hd e he hdacts heacts
    obtain ⟨c, hc, hfid, hacts, _⟩ := hmem d hd
    obtain ⟨c', hc', hfid', hacts', _⟩ := hmem e he
    rw [← hfid, ← hfid']
    exact h.alone c hc c' hc' (hacts.trans hdacts) (hacts'.trans heacts)
  · intro d hd hdunsent
    obtain ⟨c, hc, _, _, hunsent, _⟩ := hmem d hd
    exact absurd hxera ((h.unsent c hc (hunsent.trans hdunsent)).2 x hxmem)
  · intro d hd hdreview
    obtain ⟨c, hc, _, _, _, _, _, hreview⟩ := hmem d hd
    exact absurd (hreview hdreview) (hquiet c hc).1
  · intro d hd era hdera
    obtain ⟨c, hc, _, _, _, hera', _⟩ := hmem d hd
    obtain ⟨hle, hnobody⟩ := h.sweeps c hc era (hera'.trans hdera)
    refine ⟨hle, ?_⟩
    intro hcurrent e he
    obtain ⟨c', hc', _, hacts', _⟩ := hmem e he
    exact hacts'.symm.trans (hnobody hcurrent c' hc')
  · intro d hd era hdswept hcurrent
    obtain ⟨c, hc, _, _, _, _, hswept, _⟩ := hmem d hd
    exact absurd (hswept.trans (hdswept.trans (congrArg some hcurrent))) (hquiet c hc).2
  · rw [State.paid] at hunpaid
    rw [State.paid, List.filter_append, hunpaid]
    exact List.length_filter_le _ _
  · intro tx htx hcomment
    rcases List.mem_append.mp htx with htx | htx
    · exact h.own tx htx hcomment
    · rw [List.mem_singleton.mp htx]
  · exact h.eras.sublist (List.filter_sublist.map _)
  · exact fun y hy => h.era_le y (List.mem_of_mem_filter hy)
  · intro y hy hcurrent
    obtain ⟨hymem, hyfid⟩ := List.mem_filter.mp hy
    obtain rfl := List.inj_on_of_nodup_map h.eras hymem hxmem (hcurrent.trans hxera.symm)
    simp [hxfid] at hyfid

theorem delivered_recordSent (o : Order) (txid : String) :
    (o.recordSent txid).delivered_txid ≠ none := by
  unfold Order.recordSent
  split
  · simp
  · assumption

/-- Everything a statement can do to the lock: take it, give it up, or leave it. -/
theorem statement_cases {s : State} {pc next : Pc} {order : Order}
    (h : statement s pc = some (order, next)) :
    (pc = .claim ∧ next = .recheck ∧ s.order.status = .awaiting_delivery ∧
        s.order.delivered_txid = none ∧
        order = { s.order with status := .sending, delivery_mode := some .auto }) ∨
      (next = .tail ∧ (pc = .release ∨ pc = .failedReview ∨
        (pc.swept.isSome ∧ s.order.status = .sending))) ∨
      (next ≠ .claim ∧ next.acts = false ∧ next.era = none ∧ (pc.late = true → next = .tail) ∧
        (s.Locked → order.status = .sending ∨ order.delivered_txid ≠ none)) := by
  cases pc with
  | select force =>
    simp only [statement] at h
    split at h
    · obtain ⟨rfl, rfl⟩ := Prod.mk.inj (Option.some.inj h)
      exact .inr (.inr ⟨by simp, rfl, rfl, by simp [Pc.late, Pc.acts], id⟩)
    · obtain ⟨rfl, rfl⟩ := Prod.mk.inj (Option.some.inj h)
      exact .inr (.inr ⟨by simp, rfl, rfl, by simp [Pc.late, Pc.acts], id⟩)
  | markManual =>
    obtain ⟨rfl, rfl⟩ := Prod.mk.inj (Option.some.inj h)
    exact .inr (.inr ⟨by simp, rfl, rfl, by simp [Pc.late, Pc.acts], id⟩)
  | floatTooLow =>
    obtain ⟨rfl, rfl⟩ := Prod.mk.inj (Option.some.inj h)
    exact .inr (.inr ⟨by simp, rfl, rfl, by simp [Pc.late, Pc.acts], id⟩)
  | claim =>
    simp only [statement] at h
    split at h
    · rename_i hfree
      obtain ⟨rfl, rfl⟩ := Prod.mk.inj (Option.some.inj h)
      exact .inl ⟨rfl, rfl, hfree.1, hfree.2, rfl⟩
    · obtain ⟨rfl, rfl⟩ := Prod.mk.inj (Option.some.inj h)
      exact .inr (.inr ⟨by simp, rfl, rfl, by simp [Pc.late], id⟩)
  | release =>
    simp only [statement] at h
    split at h
    · obtain ⟨rfl, rfl⟩ := Prod.mk.inj (Option.some.inj h)
      exact .inr (.inl ⟨rfl, .inl rfl⟩)
    · obtain ⟨rfl, rfl⟩ := Prod.mk.inj (Option.some.inj h)
      exact .inr (.inr ⟨by simp, rfl, rfl, by simp [Pc.late, Pc.acts], id⟩)
  | failedReview =>
    obtain ⟨rfl, rfl⟩ := Prod.mk.inj (Option.some.inj h)
    exact .inr (.inl ⟨rfl, .inr (.inl rfl)⟩)
  | recordSent txid =>
    obtain ⟨rfl, rfl⟩ := Prod.mk.inj (Option.some.inj h)
    exact .inr (.inr ⟨by simp, rfl, rfl, by simp [Pc.late],
        fun _ => .inr (delivered_recordSent _ _)⟩)
  | sweepSelect =>
    simp only [statement] at h
    split at h
    · obtain ⟨rfl, rfl⟩ := Prod.mk.inj (Option.some.inj h)
      exact .inr (.inr ⟨by simp, rfl, rfl, by simp [Pc.late, Pc.acts], id⟩)
    · obtain ⟨rfl, rfl⟩ := Prod.mk.inj (Option.some.inj h)
      exact .inr (.inr ⟨by simp, rfl, rfl, by simp [Pc.late, Pc.acts], id⟩)
  | sweepReview era =>
    simp only [statement] at h
    split at h
    · rename_i hsending
      obtain ⟨rfl, rfl⟩ := Prod.mk.inj (Option.some.inj h)
      exact .inr (.inl ⟨rfl, .inr (.inr ⟨rfl, hsending⟩)⟩)
    · obtain ⟨rfl, rfl⟩ := Prod.mk.inj (Option.some.inj h)
      exact .inr (.inr ⟨by simp, rfl, rfl, by simp [Pc.late, Pc.acts], id⟩)
  | adminSelect reviewed =>
    simp only [statement] at h
    split at h
    · obtain ⟨rfl, rfl⟩ := Prod.mk.inj (Option.some.inj h)
      cases reviewed with
      | true => exact .inr (.inr ⟨by simp, rfl, rfl, by simp [Pc.late, Pc.acts], id⟩)
      | false => exact .inr (.inr ⟨by simp, rfl, rfl, by simp [Pc.late, Pc.acts], id⟩)
    · obtain ⟨rfl, rfl⟩ := Prod.mk.inj (Option.some.inj h)
      exact .inr (.inr ⟨by simp, rfl, rfl, by simp [Pc.late, Pc.acts], id⟩)
  | adminReopen =>
    simp only [statement] at h
    split at h
    · rename_i hreview
      obtain ⟨rfl, rfl⟩ := Prod.mk.inj (Option.some.inj h)
      refine .inr (.inr ⟨by simp, rfl, rfl, by simp [Pc.late, Pc.acts], ?_⟩)
      rintro (hsending | hdelivered)
      · rw [hreview] at hsending
        cases hsending
      · exact .inr hdelivered
    · obtain ⟨rfl, rfl⟩ := Prod.mk.inj (Option.some.inj h)
      exact .inr (.inr ⟨by simp, rfl, rfl, by simp [Pc.late, Pc.acts], id⟩)
  | markSelect txid =>
    obtain ⟨rfl, rfl⟩ := Prod.mk.inj (Option.some.inj h)
    refine .inr (.inr ?_)
    split
    · exact ⟨by simp, rfl, rfl, by simp [Pc.late, Pc.acts], id⟩
    · exact ⟨by simp, rfl, rfl, by simp [Pc.late, Pc.acts], id⟩
  | markDelivered txid =>
    simp only [statement] at h
    split at h
    · obtain ⟨rfl, rfl⟩ := Prod.mk.inj (Option.some.inj h)
      exact .inr (.inr ⟨by simp, rfl, rfl, by simp [Pc.late, Pc.acts],
        fun _ => .inr (delivered_recordSent _ _)⟩)
    · obtain ⟨rfl, rfl⟩ := Prod.mk.inj (Option.some.inj h)
      exact .inr (.inr ⟨by simp, rfl, rfl, by simp [Pc.late, Pc.acts], id⟩)
  | _ => cases h

theorem proper_tail (c : Call) : ({ c with pc := .tail } : Call).Proper := by
  refine ⟨?_, fun _ => rfl⟩
  rintro (hclaim | hacts)
  · cases hclaim
  · cases hacts

theorem proper_statement {s : State} {c : Call} (h : c.Proper) {order : Order} {next : Pc}
    (hstatement : statement s c.pc = some (order, next)) :
    ({ c with pc := next } : Call).Proper := by
  rcases statement_cases hstatement with ⟨hclaim, rfl, _⟩ | ⟨rfl, _⟩ | ⟨hne, hacts, _, hlate, _⟩
  · exact ⟨fun _ => h.1 (.inl hclaim), fun _ => rfl⟩
  · exact proper_tail c
  · refine ⟨?_, ?_⟩
    · rintro (hclaim | hact)
      · exact absurd hclaim hne
      · rw [hacts] at hact
        cases hact
    · intro hentered
      rw [hlate (h.2 hentered)]
      rfl

/-- The lock is given up by a call that acts alone, or by a sweep while nobody acts;
in both cases nothing has paid the order. -/
theorem quiet_of_unlock {s : State} (h : Guard s) {c : Call} (hc : c ∈ s.calls)
    (hok : ∀ era ∈ c.pc.swept, s.order.status = .sending → era = s.claims)
    (hpc : c.pc = .release ∨ c.pc = .failedReview ∨
      (c.pc.swept.isSome ∧ s.order.status = .sending)) :
    s.paid = [] ∧ ∀ d ∈ s.calls, d.fid ≠ c.fid → d.pc.acts = false := by
  have halone (hacts : c.pc.acts = true) (d : Call) (hd : d ∈ s.calls) (hother : d.fid ≠ c.fid) :
      d.pc.acts = false := by
    by_contra hdacts
    exact hother (h.alone d hd c hc (by simpa using hdacts) hacts)
  rcases hpc with hpc | hpc | ⟨hswept, hsending⟩
  · exact ⟨(h.unsent c hc (by rw [hpc]; rfl)).1, halone (by rw [hpc]; rfl)⟩
  · exact ⟨h.reviewing c hc hpc, halone (by rw [hpc]; rfl)⟩
  · obtain ⟨era, hera⟩ := Option.isSome_iff_exists.mp hswept
    have hcurrent := hok era hera hsending
    have hquiet := (h.sweeps c hc era (Pc.era_of_swept hera)).2 hcurrent
    exact ⟨h.swept c hc era hera hcurrent, fun d hd _ => hquiet d hd⟩

/-- A statement is executed while its call waits for it. -/
theorem Guard.query {s t : State} (h : Guard s) (hcalls : Calls s) {c : Call} (hc : c ∈ s.calls)
    {order : Order} {next : Pc} (hstatement : statement s c.pc = some (order, next))
    (hok : ∀ era ∈ c.pc.swept, s.order.status = .sending → era = s.claims) {answered : Bool}
    (ht : t = { s with
      order := order
      claims := if c.pc = Pc.claim ∧ next = Pc.recheck then s.claims + 1 else s.claims }.goto c.fid
        (if answered then next else .tail)) : Guard t := by
  rcases statement_cases hstatement with
    ⟨hclaim, rfl, hstatus, hnone, rfl⟩ | ⟨rfl, hpc⟩ | ⟨hne, hacts, hera, _, hlock⟩
  · rw [if_pos ⟨hclaim, rfl⟩] at ht
    refine h.claim hcalls hc hstatus hnone ?_ ht
    cases answered with
    | true => exact .inl rfl
    | false => exact .inr rfl
  · rw [if_neg (by simp), ite_self] at ht
    obtain ⟨hunpaid, hquiet⟩ := quiet_of_unlock h hc hok hpc
    refine h.goto_quiet hcalls hc ⟨rfl, rfl⟩ ht (.inr ⟨hunpaid, ?_⟩)
    intro d hd
    subst ht
    rcases mem_goto hcalls hc hd with rfl | ⟨hd, hother⟩
    · rfl
    · exact hquiet d hd hother
  · have hrecheck : next ≠ Pc.recheck := by
      rintro rfl
      cases hacts
    rw [if_neg fun hboth => hrecheck hboth.2] at ht
    have hpc : (if answered then next else Pc.tail).acts = false ∧
        (if answered then next else Pc.tail).era = none := by
      cases answered with
      | true => exact ⟨hacts, hera⟩
      | false => exact ⟨rfl, rfl⟩
    refine h.goto_quiet hcalls hc hpc ht (.inl ?_)
    rw [ht]
    exact hlock

/-- A mark that makes no transaction of the order live again. -/
theorem Guard.mark {s : State} (h : Guard s) {txid : String} {abandoned : Bool} {confirmations : Int}
    (hok : Orderly s (.mark txid abandoned confirmations)) :
    Guard { s with history := s.history.map (Tx.mark txid abandoned confirmations) } := by
  refine h.history rfl ?_ fun tx' htx' hcomment => ?_
  · rw [State.paid, State.paid, List.filter_map, List.length_map, ← List.countP_eq_length_filter,
      ← List.countP_eq_length_filter]
    exact List.countP_mono_left hok
  · obtain ⟨tx, htx, rfl⟩ := List.mem_map.mp htx'
    have hown := h.own tx htx
    unfold Tx.mark at hcomment ⊢
    split at hcomment
    · rename_i hsame
      rw [if_pos hsame]
      exact hown hcomment
    · rename_i hsame
      rw [if_neg hsame]
      exact hown hcomment

end pcoin.market
