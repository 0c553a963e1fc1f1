import PCoin.Market.Orderly

namespace pcoin.market

/-- A call that moves on while it stays counted, or while it was not. -/
theorem Calls.moved {s : State} (h : Calls s) {c : Call} (hc : c ∈ s.calls) {pc : Pc}
    (hproper : ({ c with pc := pc } : Call).Proper) : Calls (s.goto c.fid pc) :=
  h.goto hc hproper rfl rfl rfl

/-- A call that is not in `sendingNow` may go wherever `sendingNow` is not needed. -/
theorem Call.Proper.early {c : Call} (h : c.Proper) (hearly : c.pc.late = false) {pc : Pc}
    (hpc : pc ≠ .claim ∧ pc.acts = false) : ({ c with pc := pc } : Call).Proper := by
  refine ⟨?_, ?_⟩
  · rintro (hclaim | hacts)
    · exact absurd hclaim hpc.1
    · rw [hpc.2] at hacts
      cases hacts
  · intro hentered
    rw [h.2 hentered] at hearly
    cases hearly

theorem Call.Proper.acting {c : Call} (h : c.Proper) (hacts : c.pc.acts = true) {pc : Pc}
    (hlate : pc.late = true) : ({ c with pc := pc } : Call).Proper :=
  ⟨fun _ => h.1 (.inr hacts), fun _ => hlate⟩

section Step

variable {s t : State} (hcalls : Calls s) (h : Guard s)

include hcalls h

/-- A call goes on to a place where it neither acts nor sweeps. -/
theorem quiet_step {c : Call} (hc : c ∈ s.calls) {pc : Pc}
    (hproper : ({ c with pc := pc } : Call).Proper) (hpc : pc.acts = false ∧ pc.era = none) :
    Calls (s.goto c.fid pc) ∧ Guard (s.goto c.fid pc) :=
  ⟨hcalls.moved hc hproper, h.goto_quiet hcalls hc hpc rfl (.inl id)⟩

/-- The same for a call that was not in `sendingNow`. -/
theorem early_step {c : Call} (hc : c ∈ s.calls) (hearly : c.pc.late = false) {pc : Pc}
    (hne : pc ≠ .claim) (hpc : pc.acts = false ∧ pc.era = none) :
    Calls (s.goto c.fid pc) ∧ Guard (s.goto c.fid pc) :=
  quiet_step hcalls h hc ((hcalls.proper c hc).early hearly ⟨hne, hpc.1⟩) hpc

/-- A call that acts on the order goes on acting, after `sendtoaddress`. -/
theorem acting_step {c : Call} (hc : c ∈ s.calls) (hacts : c.pc.acts = true) {pc : Pc}
    (hpc : pc.late = true ∧ pc.era = none) (hunsent : pc.unsent = true → c.pc.unsent = true)
    (hreview : pc = .failedReview → s.paid = []) :
    Calls (s.goto c.fid pc) ∧ Guard (s.goto c.fid pc) := by
  refine ⟨hcalls.moved hc ((hcalls.proper c hc).acting hacts hpc.1), ?_⟩
  refine h.goto hcalls hc rfl (.inl id) (fun _ => hacts) hunsent hreview ?_ ?_
  · intro era hera
    rw [hpc.2] at hera
    cases hera
  · intro era hswept
    rw [Pc.era_of_swept hswept] at hpc
    cases hpc.2

theorem lookup_step {fid : Nat} (hok : Orderly s (.lookup fid))
    (hstep : step s (.lookup fid) = some t) : Calls t ∧ Guard t := by
  simp only [step, Option.bind_eq_bind, Option.bind_eq_some_iff] at hstep
  obtain ⟨c, hcall, pc, hpc, hstep⟩ := hstep
  obtain rfl := Option.some.inj hstep
  obtain ⟨hc, rfl⟩ := call_spec hcall
  cases hat : c.pc with
  | lookup force =>
    rw [hat] at hpc
    cases hfound : findSentTx s.history s.orderId with
    | some txid =>
      rw [hfound] at hpc
      obtain rfl := Option.some.inj hpc
      exact early_step hcalls h hc (by rw [hat]; rfl) (by simp) ⟨rfl, rfl⟩
    | none =>
      rw [hfound] at hpc
      obtain rfl := Option.some.inj hpc
      split
      · exact early_step hcalls h hc (by rw [hat]; rfl) (by simp) ⟨rfl, rfl⟩
      · exact early_step hcalls h hc (by rw [hat]; rfl) (by simp) ⟨rfl, rfl⟩
  | failedLookup =>
    rw [hat] at hpc
    cases hfound : findSentTx s.history s.orderId with
    | some txid =>
      rw [hfound] at hpc
      obtain rfl := Option.some.inj hpc
      exact acting_step hcalls h hc (by rw [hat]; rfl) ⟨rfl, rfl⟩ (fun hunsent => by cases hunsent)
        (fun hreview => by cases hreview)
    | none =>
      rw [hfound] at hpc
      obtain rfl := Option.some.inj hpc
      exact acting_step hcalls h hc (by rw [hat]; rfl) ⟨rfl, rfl⟩ (fun hunsent => by cases hunsent)
        (fun _ => paid_eq_nil h hfound (hok c hcall (.inl hat)))
  | sweepLookup era =>
    rw [hat] at hpc
    cases hfound : findSentTx s.history s.orderId with
    | some txid =>
      rw [hfound] at hpc
      obtain rfl := Option.some.inj hpc
      exact early_step hcalls h hc (by rw [hat]; rfl) (by simp) ⟨rfl, rfl⟩
    | none =>
      rw [hfound] at hpc
      obtain rfl := Option.some.inj hpc
      have hunpaid := paid_eq_nil h hfound (hok c hcall (.inr (by rw [hat]; rfl)))
      refine ⟨hcalls.moved hc ((hcalls.proper c hc).early (by rw [hat]; rfl) ⟨by simp, rfl⟩), ?_⟩
      refine h.goto hcalls hc rfl (.inl id) (fun hacts => by cases hacts)
        (fun hunsent => by cases hunsent) (fun hreview => by cases hreview) ?_
        (fun _ _ _ => hunpaid)
      intro era' hera
      obtain rfl := Option.some.inj hera
      exact h.sweeps c hc era (by rw [hat]; rfl)
  | adminLookup reviewed =>
    rw [hat] at hpc
    obtain rfl := Option.some.inj hpc
    split
    · exact early_step hcalls h hc (by rw [hat]; rfl) (by simp) ⟨rfl, rfl⟩
    · exact early_step hcalls h hc (by rw [hat]; rfl) (by simp) ⟨rfl, rfl⟩
  | _ =>
    rw [hat] at hpc
    cases hpc

/-- The claimed order is sent. -/
theorem sendtoaddress_step {c : Call} (hc : c ∈ s.calls) (hpc : c.pc = .recheck) :
    Calls (s.sendtoaddress c.fid) ∧ Guard (s.sendtoaddress c.fid) := by
  refine ⟨hcalls.goto hc ?_ rfl rfl rfl, h.sendtoaddress hcalls hc hpc⟩
  exact (hcalls.proper c hc).acting (by rw [hpc]; rfl) rfl

theorem enterSending_step {c : Call} (hc : c ∈ s.calls) (hpc : c.pc = .balance) :
    Calls (s.enterSending c.fid) ∧ Guard (s.enterSending c.fid) := by
  have hout : c.entered = false := by
    by_contra hentered
    have hlate := (hcalls.proper c hc).2 (by simpa using hentered)
    rw [hpc] at hlate
    cases hlate
  refine ⟨hcalls.enterSending hc hout, ?_⟩
  have hmoved : Guard (s.goto c.fid .claim) :=
    h.goto_quiet hcalls hc ⟨rfl, rfl⟩ rfl (.inl id)
  refine hmoved.weaken ?_ rfl rfl rfl rfl rfl
  intro d hd
  obtain ⟨d', hd', rfl⟩ := List.mem_map.mp hd
  refine ⟨_, List.mem_map_of_mem hd', ?_⟩
  split
  · exact ⟨rfl, rfl⟩
  · exact ⟨rfl, rfl⟩

theorem balance_step {fid : Nat} {bal : Int} (hstep : step s (.balance fid bal) = some t) :
    Calls t ∧ Guard t := by
  simp only [step, Option.bind_eq_bind, Option.bind_eq_some_iff] at hstep
  obtain ⟨c, hcall, hstep⟩ := hstep
  obtain ⟨hc, rfl⟩ := call_spec hcall
  split at hstep
  · rename_i hat
    obtain rfl := Option.some.inj hstep
    split
    · exact early_step hcalls h hc (by rw [hat]; rfl) (by simp) ⟨rfl, rfl⟩
    · exact enterSending_step hcalls h hc hat
  · rename_i hat
    obtain rfl := Option.some.inj hstep
    split
    · exact acting_step hcalls h hc (by rw [hat]; rfl) ⟨rfl, rfl⟩ (fun _ => by rw [hat]; rfl)
        (fun hreview => by cases hreview)
    · exact sendtoaddress_step hcalls h hc hat
  · cases hstep

theorem sent_step {fid : Nat} (hstep : step s (.sent fid) = some t) : Calls t ∧ Guard t := by
  simp only [step, Option.bind_eq_bind, Option.bind_eq_some_iff] at hstep
  obtain ⟨c, hcall, hstep⟩ := hstep
  obtain ⟨hc, rfl⟩ := call_spec hcall
  split at hstep
  · rename_i txid hat
    obtain rfl := Option.some.inj hstep
    exact acting_step hcalls h hc (by rw [hat]; rfl) ⟨rfl, rfl⟩ (fun hunsent => by cases hunsent)
      (fun hreview => by cases hreview)
  · cases hstep

theorem throws_step {fid : Nat} (hstep : step s (.throws fid) = some t) : Calls t ∧ Guard t := by
  simp only [step, Option.bind_eq_bind, Option.bind_eq_some_iff] at hstep
  obtain ⟨c, hcall, hstep⟩ := hstep
  obtain ⟨hc, rfl⟩ := call_spec hcall
  split at hstep
  · rename_i hat
    obtain rfl := Option.some.inj hstep
    exact sendtoaddress_step hcalls h hc hat
  · rename_i reply hat
    obtain rfl := Option.some.inj hstep
    exact acting_step hcalls h hc (by rw [hat]; rfl) ⟨rfl, rfl⟩ (fun hunsent => by cases hunsent)
      (fun hreview => by cases hreview)
  · cases hstep
  · cases hstep
  · obtain rfl := Option.some.inj hstep
    exact quiet_step hcalls h hc (proper_tail c) ⟨rfl, rfl⟩

/-- A sweep that passes its in-flight check does so while nobody acts on the order. -/
theorem next_step {fid : Nat} (hstep : step s (.next fid) = some t) : Calls t ∧ Guard t := by
  simp only [step, Option.bind_eq_bind, Option.bind_eq_some_iff] at hstep
  obtain ⟨c, hcall, hstep⟩ := hstep
  obtain ⟨hc, rfl⟩ := call_spec hcall
  split at hstep
  · rename_i hat
    obtain rfl := Option.some.inj hstep
    split
    · rename_i hidle
      have hnobody (d : Call) (hd : d ∈ s.calls) : d.pc.acts = false := by
        by_contra hacts
        have hentered := (hcalls.proper d hd).1 (.inr (by simpa using hacts))
        have hmem : d ∈ s.calls.filter Call.entered := List.mem_filter.mpr ⟨hd, hentered⟩
        rw [hcalls.counted, List.length_eq_zero_iff] at hidle
        rw [hidle] at hmem
        cases hmem
      refine ⟨hcalls.moved hc ((hcalls.proper c hc).early (by rw [hat]; rfl) ⟨by simp, rfl⟩), ?_⟩
      refine h.goto hcalls hc rfl (.inl id) (fun hacts => by cases hacts)
        (fun hunsent => by cases hunsent) (fun hreview => by cases hreview) ?_
        (fun era hswept => by cases hswept)
      intro era hera
      obtain rfl := Option.some.inj hera
      exact ⟨le_refl _, fun _ => hnobody⟩
    · exact quiet_step hcalls h hc (proper_tail c) ⟨rfl, rfl⟩
  · obtain rfl := Option.some.inj hstep
    refine ⟨hcalls.leave hc, h.weaken ?_ rfl rfl rfl rfl rfl⟩
    exact fun d hd => ⟨d, List.mem_of_mem_filter hd, rfl, rfl⟩
  · cases hstep

theorem query_step {fid : Nat} {answered : Bool} (hok : Orderly s (.query fid answered))
    (hstep : step s (.query fid answered) = some t) : Calls t ∧ Guard t := by
  simp only [step, Option.bind_eq_bind, Option.bind_eq_some_iff] at hstep
  obtain ⟨c, hcall, ⟨order, next⟩, hstatement, hstep⟩ := hstep
  obtain ⟨hc, rfl⟩ := call_spec hcall
  have ht := (Option.some.inj hstep).symm
  refine ⟨?_, h.query hcalls hc hstatement (hok c hcall) ht⟩
  refine hcalls.goto hc ?_ (by rw [ht]; rfl) (by rw [ht]; rfl) (by rw [ht]; rfl)
  cases answered with
  | true => exact proper_statement (hcalls.proper c hc) hstatement
  | false => exact proper_tail c

theorem commit_step {fid : Nat} {txid : String} (hok : Orderly s (.commit fid txid))
    (hstep : step s (.commit fid txid) = some t) : Calls t ∧ Guard t := by
  have hcommit := hstep
  simp only [step, Option.bind_eq_bind, Option.bind_eq_some_iff] at hstep
  obtain ⟨x, hx, hstep⟩ := hstep
  refine ⟨?_, h.commit hx hok hcommit⟩
  obtain rfl := Option.some.inj hstep
  refine hcalls.map rfl ?_ ?_ rfl rfl
  · intro c
    split
    · exact ⟨rfl, rfl⟩
    · exact ⟨rfl, rfl⟩
  · intro c hc
    split
    · rename_i hsend
      exact (hcalls.proper c hc).acting (by rw [hsend.2]; rfl) rfl
    · exact hcalls.proper c hc

/-- Every step that meets the condition keeps the guard. -/
theorem guard_step {e : Event} (hok : Orderly s e) (hstep : step s e = some t) :
    Calls t ∧ Guard t := by
  cases e with
  | deliver force =>
    obtain rfl := Option.some.inj hstep
    exact ⟨hcalls.start ⟨by simp, rfl⟩, h.start ⟨rfl, rfl⟩⟩
  | reconcileSending =>
    obtain rfl := Option.some.inj hstep
    exact ⟨hcalls.start ⟨by simp, rfl⟩, h.start ⟨rfl, rfl⟩⟩
  | orderSend reviewed =>
    obtain rfl := Option.some.inj hstep
    exact ⟨hcalls.start ⟨by simp, rfl⟩, h.start ⟨rfl, rfl⟩⟩
  | orderDeliver txid =>
    obtain rfl := Option.some.inj hstep
    exact ⟨hcalls.start ⟨by simp, rfl⟩, h.start ⟨rfl, rfl⟩⟩
  | query fid answered => exact query_step hcalls h hok hstep
  | lookup fid => exact lookup_step hcalls h hok hstep
  | balance fid bal => exact balance_step hcalls h hstep
  | sent fid => exact sent_step hcalls h hstep
  | throws fid => exact throws_step hcalls h hstep
  | next fid => exact next_step hcalls h hstep
  | commit fid txid => exact commit_step hcalls h hok hstep
  | other tx =>
    simp only [step, guard, Option.bind_eq_bind, Option.bind_eq_some_iff] at hstep
    obtain ⟨_, hguard, hstep⟩ := hstep
    have hother : tx.comment ≠ s.orderId := by
      by_contra hsame
      rw [if_neg (not_not.mpr hsame)] at hguard
      cases hguard
    obtain rfl := Option.some.inj hstep
    refine ⟨hcalls.transfer rfl rfl rfl, h.history rfl ?_ ?_⟩
    · rw [State.paid, List.filter_append, List.filter_cons_of_neg (by simp [Tx.pays, hother]),
        List.filter_nil, List.append_nil]
      exact le_refl _
    · intro tx' htx hcomment
      rcases List.mem_append.mp htx with htx | htx
      · exact h.own tx' htx hcomment
      · rw [List.mem_singleton.mp htx] at hcomment
        exact absurd hcomment hother
  | mark txid abandoned confirmations =>
    obtain rfl := Option.some.inj hstep
    exact ⟨hcalls.transfer rfl rfl rfl, h.mark hok⟩
  | settings autoMaxUsd floatStop =>
    obtain rfl := Option.some.inj hstep
    exact ⟨hcalls.transfer rfl rfl rfl,
      h.weaken (fun d hd => ⟨d, hd, rfl, rfl⟩) rfl rfl rfl rfl rfl⟩
  | tick =>
    obtain rfl := Option.some.inj hstep
    exact ⟨hcalls.transfer rfl rfl rfl,
      h.weaken (fun d hd => ⟨d, hd, rfl, rfl⟩) rfl rfl rfl rfl rfl⟩
  | crash =>
    obtain rfl := Option.some.inj hstep
    refine ⟨⟨List.nodup_nil, fun c hc => (by cases hc), rfl, fun c hc => (by cases hc)⟩, ?_⟩
    exact h.weaken (fun d hd => (by cases hd)) rfl rfl rfl rfl rfl

end Step

/-- A process that has just started, and a wallet that knows nothing of the order. The
order itself may be in any state. -/
structure Initial (s : State) : Prop where
  calls : s.calls = []
  idle : s.sendingNow = 0
  sends : s.sends = []
  unknown : ∀ tx ∈ s.history, tx.comment ≠ s.orderId

theorem guard_initial {s : State} (h : Initial s) : Calls s ∧ Guard s := by
  have hunpaid : s.paid = [] := by
    rw [State.paid, List.filter_eq_nil_iff]
    intro tx htx
    simp [Tx.pays, h.unknown tx htx]
  refine ⟨⟨?_, ?_, ?_, ?_⟩, ⟨?_, ?_, ?_, ?_, ?_, ?_, ?_, ?_, ?_, ?_, ?_, ?_⟩⟩
  · simp [h.calls]
  · simp [h.calls]
  · simp [h.calls, h.idle]
  · simp [h.calls]
  · simp [h.calls]
  · simp [h.calls]
  · simp [h.calls]
  · simp [h.calls]
  · simp [h.calls]
  · simp [h.calls]
  · exact fun hne => absurd hunpaid hne
  · simp [hunpaid]
  · exact fun tx htx hcomment => absurd hcomment (h.unknown tx htx)
  · simp [h.sends]
  · simp [h.sends]
  · simp [h.sends]

/-- One order, one send: in every interleaving of deliveries, sweeps, admin actions and
crashes in which sends are committed in time, lookups see the order's transactions and find
none of them conflicted, none that was abandoned comes back to life and no sweep takes away
a later claim, at most one transaction that was not abandoned ever carries the order's id. -/
theorem one_order_one_send {s₀ s : State} (hinit : Initial s₀)
    (hrun : run.Steps step Orderly s₀ s) : s.paid.length ≤ 1 := by
  have hpreserve : ∀ s e t, Calls s ∧ Guard s → Orderly s e → step s e = some t →
      Calls t ∧ Guard t := by
    rintro s e t ⟨hcalls, h⟩ hok hstep
    exact guard_step hcalls h hok hstep
  exact (hrun.invariant hpreserve (guard_initial hinit)).2.one

/-- An order of $10 that waits for its delivery. -/
def paidOrder : State where
  orderId := "M1"
  order := { usd := 1000, quoted_pcn := 500, status := .awaiting_delivery }
  autoMaxUsd := 2500
  floatStop := 1000

theorem paidOrder_initial : Initial paidOrder := ⟨rfl, rfl, rfl, fun tx htx => by cases htx⟩

/-- `deliver` up to its call of `sendtoaddress`. -/
def upToSend (fid : Nat) : List Event :=
  [.query fid true, .lookup fid, .balance fid 9000, .query fid true, .balance fid 9000]

theorem one_order_one_send_delivered :
    ∃ s, run.exec step paidOrder ([.deliver false] ++ upToSend 0 ++
        [.commit 0 "aa", .sent 0, .query 0 true, .next 0]) = some s ∧
      s.order.delivered_txid = some "aa" ∧ s.paid.length ≤ 1 := by
  have hdelivered : (run.exec step paidOrder (([.deliver false] : List Event) ++ upToSend 0 ++
      ([.commit 0 "aa", .sent 0, .query 0 true, .next 0] : List Event))).map
        (fun s => s.order.delivered_txid) = some (some "aa") := by
    decide +kernel
  obtain ⟨s, hexec, hs⟩ := Option.map_eq_some_iff.mp hdelivered
  refine ⟨s, hexec, hs, one_order_one_send paidOrder_initial (run.steps_of_exec _ hexec ?_)⟩
  decide +kernel

/-- The first send fails at the client, the wallet does not know it yet, and the order
goes to a human, who sends it again. Then the wallet commits both. -/
theorem late_commit_sends_twice :
    ¬∀ s₀ s, Initial s₀ → run.Steps step (fun _ _ => True) s₀ s → s.paid.length ≤ 1 := by
  have htwice : (run.exec step paidOrder (([.deliver false] : List Event) ++ upToSend 0 ++
      ([.throws 0, .lookup 0, .query 0 true, .next 0, .orderSend true, .lookup 1, .query 1 true,
        .query 1 true] : List Event) ++ upToSend 1 ++
      ([.commit 1 "bb", .sent 1, .query 1 true, .commit 0 "aa"] : List Event))).map
        (fun s => s.paid.length) = some 2 := by
    decide +kernel
  obtain ⟨s, hexec, hlen⟩ := Option.map_eq_some_iff.mp htwice
  intro hall
  have hle := hall paidOrder s paidOrder_initial (run.steps_of_exec _ hexec (run.meets_true _ _))
  omega

end pcoin.market
