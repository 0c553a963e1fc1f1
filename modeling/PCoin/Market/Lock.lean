import PCoin.Market.Guard

namespace pcoin.market

namespace Guard

variable {s t : State}

/-- Fewer calls, and nothing else that the guard reads. -/
theorem weaken (h : Guard s) (hcalls : ∀ d ∈ t.calls, ∃ c ∈ s.calls, c.fid = d.fid ∧ c.pc = d.pc)
    (horder : t.order = s.order) (hclaims : t.claims = s.claims) (hid : t.orderId = s.orderId)
    (hhistory : t.history = s.history) (hsends : t.sends = s.sends) : Guard t := by
  have hpaid : t.paid = s.paid := by rw [State.paid, State.paid, hid, hhistory]
  have hlocked : s.Locked → t.Locked := by
    rw [State.Locked, State.Locked, horder]
    exact id
  refine ⟨?_, ?_, ?_, ?_, ?_, ?_, ?_, ?_, ?_, ?_, ?_, ?_⟩
  · intro d hd hacts
    obtain ⟨c, hc, _, hpc⟩ := hcalls d hd
    exact hlocked (h.locked c hc (hpc ▸ hacts))
  · intro d hd e he hdacts heacts
    obtain ⟨c, hc, hfid, hpc⟩ := hcalls d hd
    obtain ⟨c', hc', hfid', hpc'⟩ := hcalls e he
    rw [← hfid, ← hfid']
    exact h.alone c hc c' hc' (hpc ▸ hdacts) (hpc' ▸ heacts)
  · intro d hd hunsent
    obtain ⟨c, hc, _, hpc⟩ := hcalls d hd
    rw [hpaid, hsends, hclaims]
    exact h.unsent c hc (hpc ▸ hunsent)
  · intro d hd hreview
    obtain ⟨c, hc, _, hpc⟩ := hcalls d hd
    rw [hpaid]
    exact h.reviewing c hc (hpc.trans hreview)
  · intro d hd era hera
    obtain ⟨c, hc, _, hpc⟩ := hcalls d hd
    obtain ⟨hle, hquiet⟩ := h.sweeps c hc era (hpc ▸ hera)
    rw [hclaims]
    refine ⟨hle, ?_⟩
    intro hcurrent e he
    obtain ⟨c', hc', _, hpc'⟩ := hcalls e he
    exact hpc' ▸ hquiet hcurrent c' hc'
  · intro d hd era hera
    obtain ⟨c, hc, _, hpc⟩ := hcalls d hd
    rw [hclaims, hpaid]
    exact h.swept c hc era (hpc ▸ hera)
  · rw [hpaid]
    exact fun hne => hlocked (h.paid hne)
  · rw [hpaid]
    exact h.one
  · rw [hhistory, hid]
    exact h.own
  · rw [hsends]
    exact h.eras
  · rw [hsends, hclaims]
    exact h.era_le
  · rw [hsends, hclaims, hpaid]
    exact h.pending

/-- A call goes on and its statement changes the row. The lock stays, or it is given
up while nobody acts on the order and nothing has paid it. -/
theorem goto (h : Guard s) (hcalls : Calls s) {c : Call} (hc : c ∈ s.calls) {pc : Pc}
    {order : Order} (ht : t = { s with order := order }.goto c.fid pc)
    (hlock : (s.Locked → t.Locked) ∨ (s.paid = [] ∧ ∀ d ∈ t.calls, d.pc.acts = false))
    (hacts : pc.acts = true → c.pc.acts = true) (hunsent : pc.unsent = true → c.pc.unsent = true)
    (hreview : pc = .failedReview → s.paid = [])
    (hsweep : ∀ era, pc.era = some era →
      era ≤ s.claims ∧ (era = s.claims → ∀ d ∈ s.calls, d.pc.acts = false))
    (hswept : ∀ era, pc.swept = some era → era = s.claims → s.paid = []) : Guard t := by
  have hmem (d : Call) (hd : d ∈ t.calls) :
      d = { c with pc := pc } ∨ (d ∈ s.calls ∧ d.fid ≠ c.fid) := by
    subst ht
    exact mem_goto hcalls hc hd
  have hclaims : t.claims = s.claims := by rw [ht]; rfl
  have hsends : t.sends = s.sends := by rw [ht]; rfl
  have hhistory : t.history = s.history := by rw [ht]; rfl
  have hid : t.orderId = s.orderId := by rw [ht]; rfl
  have hpaid : t.paid = s.paid := by rw [State.paid, State.paid, hid, hhistory]
  -- a call that acts now has acted before, under the same number
  have hold (d : Call) (hd : d ∈ t.calls) (hdacts : d.pc.acts = true) :
      ∃ d' ∈ s.calls, d'.fid = d.fid ∧ d'.pc.acts = true := by
    rcases hmem d hd with rfl | ⟨hd, _⟩
    · exact ⟨c, hc, rfl, hacts hdacts⟩
    · exact ⟨d, hd, rfl, hdacts⟩
  refine ⟨?_, ?_, ?_, ?_, ?_, ?_, ?_, ?_, ?_, ?_, ?_, ?_⟩
  · intro d hd hdacts
    rcases hlock with hlock | ⟨_, hquiet⟩
    · obtain ⟨d', hd', _, hacts'⟩ := hold d hd hdacts
      exact hlock (h.locked d' hd' hacts')
    · rw [hquiet d hd] at hdacts
      cases hdacts
  · intro d hd e he hdacts heacts
    obtain ⟨d', hd', hfid, hdacts'⟩ := hold d hd hdacts
    obtain ⟨e', he', hfid', heacts'⟩ := hold e he heacts
    rw [← hfid, ← hfid']
    exact h.alone d' hd' e' he' hdacts' heacts'
  · intro d hd hdunsent
    rw [hpaid, hsends, hclaims]
    rcases hmem d hd with rfl | ⟨hd, _⟩
    · exact h.unsent c hc (hunsent hdunsent)
    · exact h.unsent d hd hdunsent
  · intro d hd hdreview
    rw [hpaid]
    rcases hmem d hd with rfl | ⟨hd, _⟩
    · exact hreview hdreview
    · exact h.reviewing d hd hdreview
  · intro d hd era hera
    have hsweeps : era ≤ s.claims ∧ (era = s.claims → ∀ d ∈ s.calls, d.pc.acts = false) := by
      rcases hmem d hd with rfl | ⟨hd, _⟩
      · exact hsweep era hera
      · exact h.sweeps d hd era hera
    rw [hclaims]
    refine ⟨hsweeps.1, ?_⟩
    intro hcurrent e he
    by_contra heacts
    obtain ⟨e', he', _, heacts'⟩ := hold e he (by simpa using heacts)
    rw [hsweeps.2 hcurrent e' he'] at heacts'
    cases heacts'
  · intro d hd era hera
    rw [hclaims, hpaid]
    rcases hmem d hd with rfl | ⟨hd, _⟩
    · exact hswept era hera
    · exact h.swept d hd era hera
  · rw [hpaid]
    intro hne
    rcases hlock with hlock | ⟨hnone, _⟩
    · exact hlock (h.paid hne)
    · exact absurd hnone hne
  · rw [hpaid]
    exact h.one
  · rw [hhistory, hid]
    exact h.own
  · rw [hsends]
    exact h.eras
  · rw [hsends, hclaims]
    exact h.era_le
  · rw [hsends, hclaims, hpaid]
    exact h.pending

/-- A call goes on to a place where it neither acts nor sweeps. -/
theorem goto_quiet (h : Guard s) (hcalls : Calls s) {c : Call} (hc : c ∈ s.calls) {pc : Pc}
    (hpc : pc.acts = false ∧ pc.era = none) {order : Order}
    (ht : t = { s with order := order }.goto c.fid pc)
    (hlock : (s.Locked → t.Locked) ∨ (s.paid = [] ∧ ∀ d ∈ t.calls, d.pc.acts = false)) :
    Guard t := by
  refine h.goto hcalls hc ht hlock ?_ ?_ ?_ ?_ ?_
  · intro hacts
    rw [hpc.1] at hacts
    cases hacts
  · intro hunsent
    rw [Pc.acts_of_unsent hunsent] at hpc
    cases hpc.1
  · intro hreview
    rw [hreview] at hpc
    cases hpc.1
  · intro era hera
    rw [hpc.2] at hera
    cases hera
  · intro era hswept
    rw [Pc.era_of_swept hswept] at hpc
    cases hpc.2

/-- A new call acts on nothing. -/
theorem start (h : Guard s) {pc : Pc} (hpc : pc.acts = false ∧ pc.era = none) :
    Guard (s.start pc) := by
  have hmem (d : Call) (hd : d ∈ (s.start pc).calls) :
      d ∈ s.calls ∨ (d.pc.acts = false ∧ d.pc.era = none) := by
    rcases List.mem_append.mp hd with hd | hd
    · exact .inl hd
    · rw [List.mem_singleton.mp hd]
      exact .inr hpc
  have hacting (d : Call) (hd : d ∈ (s.start pc).calls) (hacts : d.pc.acts = true) :
      d ∈ s.calls := by
    rcases hmem d hd with hd | ⟨hquiet, _⟩
    · exact hd
    · rw [hquiet] at hacts
      cases hacts
  have hsweeping (d : Call) (hd : d ∈ (s.start pc).calls) {era : Nat} (hera : d.pc.era = some era) :
      d ∈ s.calls := by
    rcases hmem d hd with hd | ⟨_, hnone⟩
    · exact hd
    · rw [hnone] at hera
      cases hera
  refine ⟨?_, ?_, ?_, ?_, ?_, ?_, h.paid, h.one, h.own, h.eras, h.era_le, h.pending⟩
  · exact fun d hd hacts => h.locked d (hacting d hd hacts) hacts
  · exact fun d hd e he hdacts heacts =>
      h.alone d (hacting d hd hdacts) e (hacting e he heacts) hdacts heacts
  · exact fun d hd hunsent => h.unsent d (hacting d hd (Pc.acts_of_unsent hunsent)) hunsent
  · exact fun d hd hreview => h.reviewing d (hacting d hd (by rw [hreview]; rfl)) hreview
  · intro d hd era hera
    obtain ⟨hle, hquiet⟩ := h.sweeps d (hsweeping d hd hera) era hera
    refine ⟨hle, ?_⟩
    intro hcurrent e he
    rcases hmem e he with he | ⟨heacts, _⟩
    · exact hquiet hcurrent e he
    · exact heacts
  · exact fun d hd era hera =>
      h.swept d (hsweeping d hd (Pc.era_of_swept hera)) era hera

/-- A call claims an order that nobody holds and nothing has paid. -/
theorem claim (h : Guard s) (hcalls : Calls s) {c : Call} (hc : c ∈ s.calls)
    (hstatus : s.order.status = .awaiting_delivery) (hnone : s.order.delivered_txid = none)
    {pc : Pc} (hpc : pc = .recheck ∨ pc = .tail)
    (ht : t = { s with order := { s.order with status := .sending, delivery_mode := some .auto }
                       claims := s.claims + 1 }.goto c.fid pc) : Guard t := by
  have hfree : ¬s.Locked := by simp [State.Locked, hstatus, hnone]
  have hnobody (d : Call) (hd : d ∈ s.calls) : d.pc.acts = false := by
    by_contra hacts
    exact hfree (h.locked d hd (by simpa using hacts))
  have hunpaid : s.paid = [] := by
    by_contra hne
    exact hfree (h.paid hne)
  have hpaid : t.paid = [] := by rw [ht]; exact hunpaid
  have hclaims : t.claims = s.claims + 1 := by rw [ht]; rfl
  have hsends : t.sends = s.sends := by rw [ht]; rfl
  have hlocked : t.Locked := by rw [ht]; exact .inl rfl
  have hmem (d : Call) (hd : d ∈ t.calls) :
      d = { c with pc := pc } ∨ (d ∈ s.calls ∧ d.fid ≠ c.fid) := by
    subst ht
    exact mem_goto hcalls hc hd
  have hacting (d : Call) (hd : d ∈ t.calls) (hacts : d.pc.acts = true) : d.fid = c.fid := by
    rcases hmem d hd with rfl | ⟨hd, _⟩
    · rfl
    · rw [hnobody d hd] at hacts
      cases hacts
  have hold (d : Call) (hd : d ∈ t.calls) {era : Nat} (hera : d.pc.era = some era) :
      d ∈ s.calls := by
    rcases hmem d hd with rfl | ⟨hd, _⟩
    · rcases hpc with rfl | rfl
      · cases hera
      · cases hera
    · exact hd
  have hera_ne (x : Send) (hx : x ∈ s.sends) : x.era ≠ s.claims + 1 :=
    fun heq => absurd (h.era_le x hx) (by rw [heq]; exact Nat.not_succ_le_self _)
  refine ⟨fun _ _ _ => hlocked, ?_, ?_, fun _ _ _ => hpaid, ?_, fun _ _ _ _ _ => hpaid,
    fun _ => hlocked, ?_, ?_, ?_, ?_, fun _ _ _ => hpaid⟩
  · intro d hd e he hdacts heacts
    rw [hacting d hd hdacts, hacting e he heacts]
  · intro d hd _
    rw [hsends, hclaims]
    exact ⟨hpaid, hera_ne⟩
  · intro d hd era hera
    have hle := (h.sweeps d (hold d hd hera) era hera).1
    rw [hclaims]
    refine ⟨hle.trans (Nat.le_succ _), ?_⟩
    intro hcurrent
    rw [hcurrent] at hle
    exact absurd hle (Nat.not_succ_le_self _)
  · rw [hpaid]
    exact Nat.zero_le _
  · rw [ht]
    exact h.own
  · rw [hsends]
    exact h.eras
  · rw [hsends, hclaims]
    exact fun x hx => (h.era_le x hx).trans (Nat.le_succ _)

/-- The one call that acts on the order sends, once under its claim. -/
theorem sendtoaddress (h : Guard s) (hcalls : Calls s) {c : Call} (hc : c ∈ s.calls)
    (hpc : c.pc = .recheck) : Guard (s.sendtoaddress c.fid) := by
  have hmoved : Guard (s.goto c.fid (.send none)) :=
    h.goto hcalls hc rfl (.inl id) (fun _ => by rw [hpc]; rfl) (fun hunsent => by cases hunsent)
      (fun hreview => by cases hreview) (fun era hera => by cases hera)
      (fun era hera => by cases hera)
  obtain ⟨hunpaid, hera⟩ := h.unsent c hc (by rw [hpc]; rfl)
  refine { hmoved with unsent := ?_, eras := ?_, era_le := ?_, pending := ?_ }
  · intro d hd hunsent
    rcases mem_goto hcalls hc hd with rfl | ⟨hd, hother⟩
    · cases hunsent
    · exact absurd (h.alone d hd c hc (Pc.acts_of_unsent hunsent) (by rw [hpc]; rfl)) hother
  · simp only [State.sendtoaddress, List.map_append, List.map_singleton]
    refine h.eras.append (List.nodup_singleton _) ?_
    intro era hold hnew
    obtain ⟨x, hx, rfl⟩ := List.mem_map.mp hold
    exact hera x hx (List.mem_singleton.mp hnew)
  · intro x hx
    rcases List.mem_append.mp hx with hx | hx
    · exact h.era_le x hx
    · rw [List.mem_singleton.mp hx]
      exact le_refl _
  · exact fun _ _ _ => hunpaid

/-- Transactions come and go while none begins to pay the order. -/
theorem history (h : Guard s) {history : List Tx} (ht : t = { s with history := history })
    (hpaid : t.paid.length ≤ s.paid.length)
    (hown : ∀ tx ∈ history, tx.comment = s.orderId → tx.category = .send) :
    Guard t := by
  have hnone (hs : s.paid = []) : t.paid = [] := by
    rw [hs, List.length_nil] at hpaid
    exact List.length_eq_zero_iff.mp (Nat.le_zero.mp hpaid)
  subst ht
  refine ⟨h.locked, h.alone, ?_, ?_, h.sweeps, ?_, ?_, hpaid.trans h.one, hown, h.eras, h.era_le,
    ?_⟩
  · intro c hc hunsent
    obtain ⟨hunpaid, hera⟩ := h.unsent c hc hunsent
    exact ⟨hnone hunpaid, hera⟩
  · exact fun c hc hreview => hnone (h.reviewing c hc hreview)
  · exact fun c hc era hera hcurrent => hnone (h.swept c hc era hera hcurrent)
  · exact fun hne => h.paid fun hs => hne (hnone hs)
  · exact fun x hx hcurrent => hnone (h.pending x hx hcurrent)

end Guard

end pcoin.market
