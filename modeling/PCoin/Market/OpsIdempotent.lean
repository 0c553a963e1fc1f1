import PCoin.Market.OpsKeyed

namespace pcoin.market.ops

/-- Of the requests that may still spend no two have one key, and no live transaction
carries the key of one of them. -/
structure Keyed (s : State) : Prop where
  apart : (s.spending.map fun p => p.req.key).Nodup
  clear : ∀ p ∈ s.spending, s.history.countP (created p.req.key) = 0
  once : KeyedOnce s

/-- At most one send may still count for the daily limit, and there is room for it. -/
structure Daily (s : State) : Prop where
  past : ∀ p ∈ s.lookups ++ s.spending, p.req.now ≤ s.now
  marked : ∀ e ∈ s.history, e.source = some .send → startsWithSend e.comment = true
  lone : ∀ p ∈ s.spending, ∀ q ∈ s.spending, p.req.endpoint = .send → q.req.endpoint = .send →
    p = q
  room : ∀ p ∈ s.spending, p.req.endpoint = .send →
    ((sentAt (isToday p.req.now) s.history + p.req.amount : ℕ) : ℚ) ≤ s.cfg.sendDayMaxPcn * 10 ^ 8
  capped : ∀ a, (sentFrom a s.history : ℚ) ≤ s.cfg.sendDayMaxPcn * 10 ^ 8

theorem nodup_of_subperm {l l' : List Pending} (h : l.Subperm l')
    (hnodup : (l'.map fun p => p.req.key).Nodup) : (l.map fun p => p.req.key).Nodup := by
  obtain ⟨m, hperm, hsub⟩ := h
  exact (hperm.map _).nodup_iff.mp ((hsub.map _).nodup hnodup)

@[simp] theorem mark_time (txid : String) (abandoned : Bool) (confirmations : Int) (e : Entry) :
    (e.mark txid abandoned confirmations).time = e.time := by
  unfold Entry.mark
  split <;> rfl

@[simp] theorem mark_comment (txid : String) (abandoned : Bool) (confirmations : Int) (e : Entry) :
    (e.mark txid abandoned confirmations).comment = e.comment := by
  unfold Entry.mark
  split <;> rfl

@[simp] theorem mark_source (txid : String) (abandoned : Bool) (confirmations : Int) (e : Entry) :
    (e.mark txid abandoned confirmations).source = e.source := by
  unfold Entry.mark
  split <;> rfl

@[simp] theorem mark_amount (txid : String) (abandoned : Bool) (confirmations : Int) (e : Entry) :
    (e.mark txid abandoned confirmations).amount = e.amount := by
  unfold Entry.mark
  split <;> rfl

@[simp] theorem sentAt_append (p : Nat → Bool) (l l' : List Entry) :
    sentAt p (l ++ l') = sentAt p l + sentAt p l' := by
  simp [sentAt]

theorem sentAt_mono {p q : Nat → Bool} (history : List Entry)
    (h : ∀ time, p time = true → q time = true) : sentAt p history ≤ sentAt q history := by
  refine List.sum_le_sum fun e _ => ?_
  by_cases hp : e.sentHere = true ∧ p e.time = true
  · simp [hp.1, hp.2, h _ hp.2]
  · rw [if_neg (by simpa using hp)]
    exact Nat.zero_le _

/-- Other transactions do not count as created. -/
theorem created_of_source_none {e : Entry} (h : e.source = none) (key : String) :
    created key e = false := by
  simp [created, h]

theorem noted_created {s : State} {e : Event} {history : List Entry} (hok : Alone s e)
    (h : Noted s e history) (key : String) :
    history.countP (created key) ≤ s.history.countP (created key) := by
  cases h with
  | same => exact le_rfl
  | other hsource => simp [List.countP_append, created_of_source_none hsource]
  | mark txid abandoned confirmations =>
    rw [List.countP_map]
    refine List.countP_mono_left fun x hx hcreated => ?_
    simp only [Function.comp_apply, created, mark_comment, mark_source, Bool.and_eq_true] at hcreated
    simp only [created, Bool.and_eq_true]
    exact ⟨⟨hok x hx hcreated.2 hcreated.1.1, hcreated.1.2⟩, hcreated.2⟩

theorem noted_sentAt {s : State} {e : Event} {history : List Entry} (hok : Alone s e)
    (h : Noted s e history) (p : Nat → Bool) : sentAt p history ≤ sentAt p s.history := by
  cases h with
  | same => exact le_rfl
  | other hsource => simp [sentAt, Entry.sentHere, hsource]
  | mark txid abandoned confirmations =>
    simp only [sentAt, List.map_map]
    refine List.sum_le_sum fun x hx => ?_
    simp only [Function.comp_apply, mark_time, mark_amount]
    by_cases hsent : (x.mark txid abandoned confirmations).sentHere = true ∧ p x.time = true
    · obtain ⟨hlive, hsource⟩ : (x.mark txid abandoned confirmations).isLive = true ∧
          x.source = some .send := by simpa [Entry.sentHere] using hsent.1
      have hx' : x.sentHere = true := by
        simp [Entry.sentHere, hok x hx (by simp [hsource]) hlive, hsource]
      simp [hsent.1, hsent.2, hx']
    · rw [if_neg (by simpa using hsent)]
      exact Nat.zero_le _

theorem noted_marked {s : State} {e : Event} {history : List Entry} (h : Noted s e history)
    (hmarked : ∀ x ∈ s.history, x.source = some .send → startsWithSend x.comment = true) :
    ∀ x ∈ history, x.source = some .send → startsWithSend x.comment = true := by
  cases h with
  | same => exact hmarked
  | other hsource =>
    intro x hx hsend
    obtain hx | hx := List.mem_append.mp hx
    · exact hmarked x hx hsend
    · obtain rfl := List.mem_singleton.mp hx
      rw [hsource] at hsend
      cases hsend
  | mark txid abandoned confirmations =>
    intro x hx hsend
    obtain ⟨y, hy, rfl⟩ := List.mem_map.mp hx
    rw [mark_comment]
    exact hmarked y hy (by simpa using hsend)

/-- A lookup that goes on has seen no live transaction with the key. -/
theorem look_key {cfg : Cfg} {history : List Entry} {r : Request}
    (h : look cfg history r = .ok ()) (e : Entry) (he : e ∈ recent history) :
    created r.key e = false := by
  by_contra hcreated
  have hkey : startsWithSend r.key = true ∨ r.endpoint = .refund := by
    have hok := r.key_ok
    cases hend : r.endpoint with
    | send =>
      rw [hend] at hok
      simp only [keyOk, Bool.and_eq_true] at hok
      exact .inl hok.1.1.1
    | refund => exact .inr rfl
  obtain ⟨hlive, hcomment, -⟩ : e.isLive = true ∧ e.comment = r.key ∧ ¬e.source = none := by
    simpa [created] using hcreated
  unfold look at h
  split at h
  · rename_i hend
    simp only at h
    split at h
    · cases h
    · rename_i hfind
      have hsend : startsWithSend e.comment = true := by
        rw [hcomment]
        exact hkey.resolve_right (by simp [hend])
      have hnot := List.find?_eq_none.mp hfind e
        (List.mem_filter.mpr ⟨he, by simp [hlive, hsend]⟩)
      exact hnot (by simpa using hcomment)
  · split at h
    · cases h
    · rename_i hfind
      exact List.find?_eq_none.mp hfind e he (by simp [hlive, hcomment])

/-- A send that goes on has, with what `listtransactions` shows of the last 24 hours, at
most a tenth of a unit over the limit. -/
theorem look_day {cfg : Cfg} {history : List Entry} {r : Request}
    (h : look cfg history r = .ok ()) (hend : r.endpoint = .send) (hcap : 0 < cfg.sendDayMaxPcn) :
    ((sentToday r.now ((recent history).filter fun e => e.isLive && startsWithSend e.comment) +
      r.amount : ℕ) : ℚ) ≤ cfg.sendDayMaxPcn * 10 ^ 8 + 1 / 10 := by
  simp only [look, hend] at h
  split at h
  · cases h
  · split at h
    · cases h
    · rename_i hday
      exact not_lt.mp fun hlt => hday ⟨hcap, hlt⟩

/-- What `opsSendPcn` itself sent counts in `sentToday`. -/
theorem sentAt_le_sentToday (now : Nat) {history : List Entry}
    (hmarked : ∀ e ∈ history, e.source = some .send → startsWithSend e.comment = true) :
    sentAt (isToday now) history ≤
      sentToday now (history.filter fun e => e.isLive && startsWithSend e.comment) := by
  induction history with
  | nil => exact le_rfl
  | cons e l ih =>
    have hrest := ih fun x hx => hmarked x (List.mem_cons_of_mem _ hx)
    have hhead : (if e.sentHere && isToday now e.time then e.amount.natAbs else 0) ≤
        sentToday now ([e].filter fun e => e.isLive && startsWithSend e.comment) := by
      by_cases hsent : e.sentHere = true
      · obtain ⟨hlive, hsource⟩ : e.isLive = true ∧ e.source = some .send := by
          simpa [Entry.sentHere] using hsent
        simp [hsent, hlive, hmarked e List.mem_cons_self hsource, sentToday]
      · simp [hsent]
    have hcons := List.filter_append (p := fun e : Entry => e.isLive && startsWithSend e.comment)
      [e] l
    rw [List.singleton_append] at hcons
    rw [hcons]
    simp only [sentAt, sentToday, List.map_cons, List.sum_cons, List.map_append, List.sum_append]
      at hrest hhead ⊢
    exact Nat.add_le_add hhead hrest

theorem keyed_step {s t : State} {e : Event} (h : Keyed s) (hok : Alone s e)
    (hstep : step s e = some t) : Keyed t := by
  obtain ⟨-, -, hmoves⟩ := step_moves hstep
  cases hmoves with
  | quiet hlookups hspending hhistory =>
    have hle := noted_created hok hhistory
    refine ⟨nodup_of_subperm hspending h.apart, fun p hp => ?_, fun key => ?_⟩
    · exact Nat.le_zero.mp ((hle _).trans (h.clear p (hspending.subset hp)).le)
    · exact (hle key).trans (h.once key)
  | looked hp he hlook hlookups hspending hhistory =>
    rename_i p
    subst he
    obtain ⟨hother, hold, -⟩ := hok p hp rfl
    -- the lookup sees the recent entries, and the old ones do not carry the key
    have hclear : s.history.countP (created p.req.key) = 0 := by
      rw [← old_append_recent s, List.countP_append]
      have hcount : (recent s.history).countP (created p.req.key) = 0 :=
        List.countP_eq_zero.mpr fun x hx => by simp [look_key hlook x hx]
      have hcount' : s.old.countP (created p.req.key) = 0 :=
        List.countP_eq_zero.mpr fun x hx => by simp [hold x hx]
      omega
    refine ⟨?_, fun q hq => ?_, fun key => ?_⟩
    · refine ((hspending.map _).nodup_iff).mpr (List.nodup_cons.mpr ⟨?_, h.apart⟩)
      intro hmem
      obtain ⟨q, hq, hkey⟩ := List.mem_map.mp hmem
      exact hother q hq hkey
    · rw [hhistory]
      obtain rfl | hq := List.mem_cons.mp (hspending.subset hq)
      · exact hclear
      · exact h.clear q hq
    · rw [hhistory]
      exact h.once key
  | commit hlookups hspending hhistory =>
    rename_i p txid
    have hnodup := nodup_of_subperm hspending h.apart
    rw [List.map_cons, List.nodup_cons] at hnodup
    have hp := h.clear p (hspending.subset List.mem_cons_self)
    have hentry : ∀ key, [p.entry s.now txid].countP (created key) =
        if p.req.key = key then 1 else 0 := by
      intro key
      simp [List.countP_cons, created, Pending.entry, Entry.isLive]
    refine ⟨hnodup.2, fun q hq => ?_, fun key => ?_⟩
    · have hne : p.req.key ≠ q.req.key := fun heq =>
        hnodup.1 (List.mem_map.mpr ⟨q, hq, heq.symm⟩)
      rw [hhistory, List.countP_append, hentry, if_neg hne]
      exact h.clear q (hspending.subset (List.mem_cons_of_mem _ hq))
    · rw [hhistory, List.countP_append, hentry]
      split
      · rename_i hkey
        rw [← hkey, hp]
      · exact h.once key

/-- A whole number within a tenth of a limit is within the limit, unless the limit is
less than a tenth below the next whole number. -/
theorem le_of_le_add_tenth {n : ℕ} {x : ℚ} (hx : Int.fract x < 9 / 10)
    (h : (n : ℚ) ≤ x + 1 / 10) : (n : ℚ) ≤ x := by
  have hfloor := Int.floor_add_fract x
  have hlt : (n : ℚ) < (⌊x⌋ + 1 : ℤ) := by
    push_cast
    linarith
  have hle : (n : ℤ) ≤ ⌊x⌋ := by
    have : (n : ℤ) < ⌊x⌋ + 1 := by exact_mod_cast hlt
    omega
  calc (n : ℚ) ≤ (⌊x⌋ : ℚ) := by exact_mod_cast hle
    _ ≤ x := Int.floor_le x

/-- A send at its commit is in the last 24 hours before the request came in, and so is
all that shares a window of 24 hours with it. -/
theorem window_isToday {now now' a time : Nat} (hnow : now ≤ now') (ha : now' / 1000 < a + 86400)
    (htime : a ≤ time) : isToday now time = true := by
  have hdiv : now / 1000 ≤ now' / 1000 := Nat.div_le_div_right hnow
  simp only [isToday, decide_eq_true_eq]
  omega

theorem sentFrom_entry {p : Pending} {now a : Nat} {txid : String} :
    sentFrom a [p.entry now txid] =
      if p.req.endpoint = .send ∧ a ≤ now / 1000 ∧ now / 1000 < a + 86400 then p.req.amount
      else 0 := by
  simp [sentFrom, sentAt, Pending.entry, Entry.sentHere, Entry.isLive, and_assoc]

theorem daily_step {s t : State} {e : Event} (hkeyed : Keyed s) (h : Daily s)
    (hcap : 0 < s.cfg.sendDayMaxPcn) (hfract : Int.fract (s.cfg.sendDayMaxPcn * 10 ^ 8) < 9 / 10)
    (hok : Alone s e) (hstep : step s e = some t) : Daily t := by
  obtain ⟨hcfg, hnow, hmoves⟩ := step_moves hstep
  have hpast : ∀ p ∈ s.spending, p.req.now ≤ t.now := fun p hp =>
    (h.past p (List.mem_append_right _ hp)).trans hnow
  have hpast' : ∀ p ∈ s.lookups, p.req.now ≤ t.now := fun p hp =>
    (h.past p (List.mem_append_left _ hp)).trans hnow
  cases hmoves with
  | quiet hlookups hspending hhistory =>
    have hsub := hspending.subset
    have hle := noted_sentAt hok hhistory
    refine ⟨fun p hp => ?_, noted_marked hhistory h.marked, fun p hp q hq => ?_,
      fun p hp hend => ?_, fun a => ?_⟩
    · obtain hp | hp := List.mem_append.mp hp
      · obtain hp | hp := hlookups p hp
        · exact hpast' p hp
        · exact hp.trans_le hnow
      · exact hpast p (hsub hp)
    · exact h.lone p (hsub hp) q (hsub hq)
    · rw [hcfg]
      refine le_trans ?_ (h.room p (hsub hp) hend)
      exact_mod_cast Nat.add_le_add_right (hle _) _
    · rw [hcfg]
      refine le_trans ?_ (h.capped a)
      exact_mod_cast hle _
  | looked hp he hlook hlookups hspending hhistory =>
    rename_i p
    subst he
    obtain ⟨-, -, hday⟩ := hok p hp rfl
    have hmem : ∀ q ∈ t.spending, q = p ∨ q ∈ s.spending := fun q hq =>
      List.mem_cons.mp (hspending.subset hq)
    refine ⟨fun q hq => ?_, by rw [hhistory]; exact h.marked, fun q hq r hr hqend hrend => ?_,
      fun q hq hend => ?_, by rw [hhistory, hcfg]; exact h.capped⟩
    · obtain hq | hq := List.mem_append.mp hq
      · exact hpast' q (hlookups hq)
      · obtain rfl | hq := hmem q hq
        · exact hpast' q hp
        · exact hpast q hq
    · obtain rfl | hq := hmem q hq
      · obtain rfl | hr := hmem r hr
        · rfl
        · exact absurd hrend ((hday hqend hcap).1 r hr)
      · obtain rfl | hr := hmem r hr
        · exact absurd hqend ((hday hrend hcap).1 q hq)
        · exact h.lone q hq r hr hqend hrend
    · rw [hhistory, hcfg]
      obtain rfl | hq := hmem q hq
      · -- the old entries do not count for today, the others were seen
        have hold : sentAt (isToday q.req.now) s.old = 0 := by
          refine List.sum_eq_zero fun x hx => ?_
          obtain ⟨e, he, rfl⟩ := List.mem_map.mp hx
          rw [if_neg (by simpa using (hday hend hcap).2 e he)]
        have hrecent := sentAt_le_sentToday q.req.now fun e (he : e ∈ recent s.history) =>
          h.marked e (List.mem_of_mem_drop he)
        have hsum : sentAt (isToday q.req.now) s.history =
            sentAt (isToday q.req.now) (recent s.history) := by
          conv_lhs => rw [← old_append_recent s]
          rw [sentAt_append, hold, Nat.zero_add]
        refine le_of_le_add_tenth hfract (le_trans ?_ (look_day hlook hend hcap))
        rw [hsum]
        exact_mod_cast Nat.add_le_add_right hrecent _
      · exact h.room q hq hend
  | commit hlookups hspending hhistory =>
    rename_i p txid
    have hsub : ∀ q ∈ t.spending, q ∈ s.spending := fun q hq =>
      hspending.subset (List.mem_cons_of_mem _ hq)
    have hp : p ∈ s.spending := hspending.subset List.mem_cons_self
    have hnodup := nodup_of_subperm hspending hkeyed.apart
    rw [List.map_cons, List.nodup_cons] at hnodup
    -- if this was a send, no other one is left
    have hrest : p.req.endpoint = .send → ∀ q ∈ t.spending, q.req.endpoint ≠ .send := by
      intro hend q hq hqend
      obtain rfl := h.lone q (hsub q hq) p hp hqend hend
      exact hnodup.1 (List.mem_map.mpr ⟨q, hq, rfl⟩)
    refine ⟨fun q hq => ?_, fun x hx hsend => ?_, fun q hq r hr => ?_, fun q hq hend => ?_,
      fun a => ?_⟩
    · obtain hq | hq := List.mem_append.mp hq
      · exact hpast' q (hlookups hq)
      · exact hpast q (hsub q hq)
    · rw [hhistory] at hx
      obtain hx | hx := List.mem_append.mp hx
      · exact h.marked x hx hsend
      · obtain rfl := List.mem_singleton.mp hx
        have hend : p.req.endpoint = .send := by simpa [Pending.entry] using hsend
        have hkey := p.req.key_ok
        rw [hend] at hkey
        simp only [keyOk, Bool.and_eq_true] at hkey
        exact hkey.1.1.1
    · exact h.lone q (hsub q hq) r (hsub r hr)
    · have hrefund : ¬p.req.endpoint = .send := fun hpend => hrest hpend q hq hend
      have hnone : sentAt (isToday q.req.now) [p.entry s.now txid] = 0 := by
        simp [sentAt, Entry.sentHere, Pending.entry, hrefund]
      rw [hhistory, hcfg, sentAt_append, hnone, Nat.add_zero]
      exact h.room q (hsub q hq) hend
    · have hsum : sentFrom a t.history = sentFrom a s.history + sentFrom a [p.entry s.now txid] := by
        rw [hhistory]
        exact sentAt_append _ _ _
      rw [hcfg, hsum, sentFrom_entry]
      split
      · rename_i hin
        obtain ⟨hend, -, hlt⟩ := hin
        refine le_trans ?_ (h.room p hp hend)
        have hmono : sentFrom a s.history ≤ sentAt (isToday p.req.now) s.history := by
          refine sentAt_mono _ fun time htime => ?_
          simp only [Bool.and_eq_true, decide_eq_true_eq] at htime
          exact window_isToday (h.past p (List.mem_append_right _ hp)) hlt htime.1
        exact_mod_cast Nat.add_le_add_right hmono _
      · exact h.capped a

/-- A wallet before the first request: the entries it has were not made by the endpoints. -/
structure Initial (s : State) : Prop where
  lookups : s.lookups = []
  balances : s.balances = []
  sends : s.sends = []
  foreign : ∀ e ∈ s.history, e.source = none

theorem keyed_initial {s : State} (h : Initial s) : Keyed s := by
  have hspending : s.spending = [] := by simp [State.spending, h.balances, h.sends]
  have hcount : ∀ key, s.history.countP (created key) = 0 := fun key =>
    List.countP_eq_zero.mpr fun e he => by simp [created_of_source_none (h.foreign e he)]
  exact ⟨by simp [hspending], by simp [hspending], fun key => by simp [hcount key]⟩

theorem daily_initial {s : State} (h : Initial s) (hcap : 0 < s.cfg.sendDayMaxPcn) : Daily s := by
  have hspending : s.spending = [] := by simp [State.spending, h.balances, h.sends]
  have hzero : ∀ a, sentFrom a s.history = 0 := by
    refine fun a => List.sum_eq_zero fun x hx => ?_
    obtain ⟨e, he, rfl⟩ := List.mem_map.mp hx
    simp [Entry.sentHere, h.foreign e he]
  refine ⟨by simp [h.lookups, hspending], fun e he hsend => ?_, by simp [hspending],
    by simp [hspending], fun a => ?_⟩
  · rw [h.foreign e he] at hsend
    cases hsend
  · rw [hzero]
    have : 0 < s.cfg.sendDayMaxPcn * 10 ^ 8 := by positivity
    exact_mod_cast this.le

theorem cfg_step {s t : State} {e : Event} (hstep : step s e = some t) : t.cfg = s.cfg :=
  (step_moves hstep).1

/-- Keyed sends are idempotent, and the daily limit holds, in every run in which each
lookup is made while no other request with its key, or that counts for the limit, is
between its lookup and its commit. -/
theorem keyed_sends_idempotent {s₀ s : State} (hinit : Initial s₀)
    (hcap : Int.fract (s₀.cfg.sendDayMaxPcn * 10 ^ 8) < 9 / 10)
    (hrun : run.Steps step Alone s₀ s) : KeyedOnce s ∧ DayCapped s := by
  have hpreserve : ∀ s e t, s.cfg = s₀.cfg ∧ Keyed s ∧ (0 < s.cfg.sendDayMaxPcn → Daily s) →
      Alone s e → step s e = some t →
      t.cfg = s₀.cfg ∧ Keyed t ∧ (0 < t.cfg.sendDayMaxPcn → Daily t) := by
    rintro s e t ⟨hcfg, hkeyed, hdaily⟩ hok hstep
    have hcfg' := cfg_step hstep
    refine ⟨hcfg'.trans hcfg, keyed_step hkeyed hok hstep, fun hpos => ?_⟩
    rw [hcfg'] at hpos
    exact daily_step hkeyed (hdaily hpos) hpos (by rw [hcfg]; exact hcap) hok hstep
  obtain ⟨-, hkeyed, hdaily⟩ := hrun.invariant hpreserve
    ⟨rfl, keyed_initial hinit, daily_initial hinit⟩
  exact ⟨hkeyed.once, fun hpos => (hdaily hpos).capped⟩

/-- A wallet with a token for both endpoints and a daily limit of 500 PCN. -/
def panel : State where
  cfg := { sendToken := some "st", refundToken := some "rt", sendDayMaxPcn := 500 }

theorem panel_initial : Initial panel := ⟨rfl, rfl, rfl, fun e he => by cases he⟩

/-- A form of the panel that sends `pcn`. -/
def form (key : String) (pcn : ℚ) : Post where
  endpoint := .send
  bearer := some "st"
  body := some ⟨key, "pc1qqqqqqqqqqqqqqqqqqqqqqqqqqqqqqqqqmtd2rq", some pcn⟩

theorem keyed_sends_idempotent_retried :
    ∃ s, run.exec step panel [.post (form "send:bounty" 300), .lookup 0, .balance 0 none,
        .commit 0 "aa", .post (form "send:bounty" 300), .lookup 1] = some s ∧
      s.answers = [(0, .sent "aa"), (1, .already "aa")] ∧ KeyedOnce s ∧ DayCapped s := by
  have hanswers : (run.exec step panel [.post (form "send:bounty" 300), .lookup 0,
      .balance 0 none, .commit 0 "aa", .post (form "send:bounty" 300), .lookup 1]).map
        (fun s => s.answers) = some [(0, .sent "aa"), (1, .already "aa")] := by
    decide +kernel
  obtain ⟨s, hexec, hs⟩ := Option.map_eq_some_iff.mp hanswers
  refine ⟨s, hexec, hs, keyed_sends_idempotent panel_initial ?_ (run.steps_of_exec _ hexec ?_)⟩
  · norm_num [panel]
  · decide +kernel

/-- A double click: both requests look before either has spent. -/
theorem double_click_sends_twice :
    ¬∀ s₀ s, Initial s₀ → run.Steps step (fun _ _ => True) s₀ s → KeyedOnce s := by
  have htwice : (run.exec step panel [.post (form "send:bounty" 200),
      .post (form "send:bounty" 200), .lookup 0, .lookup 1, .balance 0 none, .balance 1 none,
      .commit 0 "aa", .commit 1 "bb"]).map (fun s => s.history.countP (created "send:bounty")) =
        some 2 := by
    decide +kernel
  obtain ⟨s, hexec, hcount⟩ := Option.map_eq_some_iff.mp htwice
  intro hall
  have hle := hall panel s panel_initial (run.steps_of_exec _ hexec (run.meets_true _ _))
    "send:bounty"
  omega

end pcoin.market.ops
