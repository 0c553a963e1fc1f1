import PCoin.Market.Delivery
import Mathlib.Data.List.Nodup
import Mathlib.Order.Nat

namespace pcoin.market

/-- The call has claimed the order and may still send, give the claim back, or
conclude that nothing was sent. -/
def Pc.acts : Pc → Bool
  | .recheck => true
  | .release => true
  | .send _ => true
  | .failedLookup => true
  | .failedReview => true
  | _ => false

/-- The call has claimed the order and has not called `sendtoaddress`. -/
def Pc.unsent : Pc → Bool
  | .recheck => true
  | .release => true
  | _ => false

/-- The places of a call that has entered `sendingNow`. -/
def Pc.late : Pc → Bool
  | .claim => true
  | .recordSent _ => true
  | .tail => true
  | pc => pc.acts

/-- The number of claims before the in-flight check of a sweep that has passed it. -/
def Pc.era : Pc → Option Nat
  | .sweepLookup era => some era
  | .sweepReview era => some era
  | _ => none

/-- The number of claims before the in-flight check of a sweep that has found nothing
in the wallet. -/
def Pc.swept : Pc → Option Nat
  | .sweepReview era => some era
  | _ => none

theorem Pc.acts_of_unsent {pc : Pc} (h : pc.unsent = true) : pc.acts = true := by
  cases pc <;> simp [Pc.unsent, Pc.acts] at h ⊢

theorem Pc.era_of_swept {pc : Pc} {era : Nat} (h : pc.swept = some era) : pc.era = some era := by
  cases pc <;> simp_all [Pc.swept, Pc.era]

/-- A transaction with the order's id as its comment that was not abandoned. -/
def Tx.pays (orderId : String) (t : Tx) : Bool := t.comment = orderId && !t.abandoned

namespace State

/-- The transactions that pay the order. -/
def paid (s : State) : List Tx := s.history.filter (Tx.pays s.orderId)

/-- No call can claim the order: it is claimed, or recorded as delivered. -/
def Locked (s : State) : Prop := s.order.status = .sending ∨ s.order.delivered_txid ≠ none

end State

/-- A call that claims or has claimed the order has entered `sendingNow`. -/
def Call.Proper (c : Call) : Prop :=
  (c.pc = .claim ∨ c.pc.acts = true → c.entered = true) ∧ (c.entered = true → c.pc.late = true)

/-- The calls of the process and the counter of `sendingNow`. -/
structure Calls (s : State) : Prop where
  fids : (s.calls.map Call.fid).Nodup
  fresh : ∀ c ∈ s.calls, c.fid < s.nextFid
  counted : s.sendingNow = (s.calls.filter Call.entered).length
  proper : ∀ c ∈ s.calls, c.Proper

/-- The lock protects the order's payment: one call acts on it at a time, and it is
given up only while nothing was or will be sent. -/
structure Guard (s : State) : Prop where
  locked : ∀ c ∈ s.calls, c.pc.acts = true → s.Locked
  alone : ∀ c ∈ s.calls, ∀ d ∈ s.calls, c.pc.acts = true → d.pc.acts = true →
    c.fid = d.fid
  unsent : ∀ c ∈ s.calls, c.pc.unsent = true → s.paid = [] ∧ ∀ x ∈ s.sends, x.era ≠ s.claims
  reviewing : ∀ c ∈ s.calls, c.pc = .failedReview → s.paid = []
  sweeps : ∀ c ∈ s.calls, ∀ era, c.pc.era = some era →
    era ≤ s.claims ∧ (era = s.claims → ∀ d ∈ s.calls, d.pc.acts = false)
  swept : ∀ c ∈ s.calls, ∀ era, c.pc.swept = some era → era = s.claims → s.paid = []
  paid : s.paid ≠ [] → s.Locked
  one : s.paid.length ≤ 1
  own : ∀ t ∈ s.history, t.comment = s.orderId → t.category = .send
  eras : (s.sends.map Send.era).Nodup
  era_le : ∀ x ∈ s.sends, x.era ≤ s.claims
  pending : ∀ x ∈ s.sends, x.era = s.claims → s.paid = []

theorem call_spec {s : State} {fid : Nat} {c : Call} (h : s.call fid = some c) :
    c ∈ s.calls ∧ c.fid = fid :=
  ⟨List.mem_of_find?_eq_some h, by simpa using List.find?_some h⟩

/-- After `goto` the call is at its new place, and the others are where they were. -/
theorem mem_goto {s : State} (h : Calls s) {c d : Call} (hc : c ∈ s.calls) {pc : Pc}
    (hd : d ∈ (s.goto c.fid pc).calls) :
    d = { c with pc := pc } ∨ (d ∈ s.calls ∧ d.fid ≠ c.fid) := by
  obtain ⟨d', hd', rfl⟩ := List.mem_map.mp hd
  by_cases hfid : d'.fid = c.fid
  · obtain rfl := List.inj_on_of_nodup_map h.fids hd' hc hfid
    rw [if_pos rfl]
    exact .inl rfl
  · rw [if_neg hfid]
    exact .inr ⟨hd', hfid⟩

namespace Calls

variable {s t : State}

/-- A change of the calls that keeps their numbers and who has entered. -/
theorem map (h : Calls s) {g : Call → Call} (hcalls : t.calls = s.calls.map g)
    (hg : ∀ c, (g c).fid = c.fid ∧ (g c).entered = c.entered)
    (hproper : ∀ c ∈ s.calls, (g c).Proper)
    (hnow : t.sendingNow = s.sendingNow) (hnext : t.nextFid = s.nextFid) : Calls t := by
  have hfids : Call.fid ∘ g = Call.fid := funext fun c => (hg c).1
  have hentered : Call.entered ∘ g = Call.entered := funext fun c => (hg c).2
  refine ⟨?_, ?_, ?_, ?_⟩
  · rw [hcalls, List.map_map, hfids]
    exact h.fids
  · rw [hcalls, hnext]
    intro d hd
    obtain ⟨c, hc, rfl⟩ := List.mem_map.mp hd
    rw [(hg c).1]
    exact h.fresh c hc
  · rw [hcalls, hnow, List.filter_map, List.length_map, hentered]
    exact h.counted
  · rw [hcalls]
    intro d hd
    obtain ⟨c, hc, rfl⟩ := List.mem_map.mp hd
    exact hproper c hc

theorem transfer (h : Calls s) (hcalls : t.calls = s.calls) (hnow : t.sendingNow = s.sendingNow)
    (hnext : t.nextFid = s.nextFid) : Calls t :=
  h.map (g := id) (by rw [hcalls, List.map_id]) (fun _ => ⟨rfl, rfl⟩) h.proper hnow hnext

/-- A call goes on to its next `await`. -/
theorem goto (h : Calls s) {c : Call} (hc : c ∈ s.calls) {pc : Pc}
    (hproper : ({ c with pc := pc } : Call).Proper) (hcalls : t.calls = (s.goto c.fid pc).calls)
    (hnow : t.sendingNow = s.sendingNow) (hnext : t.nextFid = s.nextFid) : Calls t := by
  refine h.map hcalls ?_ ?_ hnow hnext
  · intro d
    split
    · exact ⟨rfl, rfl⟩
    · exact ⟨rfl, rfl⟩
  · intro d hd
    by_cases hfid : d.fid = c.fid
    · obtain rfl := List.inj_on_of_nodup_map h.fids hd hc hfid
      rw [if_pos rfl]
      exact hproper
    · rw [if_neg hfid]
      exact h.proper d hd

theorem start (h : Calls s) {pc : Pc} (hpc : pc ≠ .claim ∧ pc.acts = false) :
    Calls (s.start pc) := by
  refine ⟨?_, ?_, ?_, ?_⟩
  · simp only [State.start, List.map_append, List.map_singleton]
    refine h.fids.append (List.nodup_singleton _) ?_
    intro fid hold hnew
    obtain ⟨c, hc, rfl⟩ := List.mem_map.mp hold
    have hlt := h.fresh c hc
    rw [List.mem_singleton.mp hnew] at hlt
    exact lt_irrefl _ hlt
  · intro c hc
    show c.fid < s.nextFid + 1
    rcases List.mem_append.mp hc with hc | hc
    · exact (h.fresh c hc).trans (Nat.lt_succ_self _)
    · rw [List.mem_singleton.mp hc]
      exact Nat.lt_succ_self _
  · simp only [State.start, List.filter_append, List.length_append, h.counted]
    rfl
  · intro c hc
    rcases List.mem_append.mp hc with hc | hc
    · exact h.proper c hc
    · rw [List.mem_singleton.mp hc]
      refine ⟨?_, fun hentered => by cases hentered⟩
      rintro (hclaim | hacts)
      · exact absurd hclaim hpc.1
      · rw [hpc.2] at hacts
        cases hacts

/-- The calls around a call have other numbers. -/
theorem split (h : Calls s) {c : Call} (hc : c ∈ s.calls) :
    ∃ before after, s.calls = before ++ c :: after ∧ (∀ d ∈ before, d.fid ≠ c.fid) ∧
      ∀ d ∈ after, d.fid ≠ c.fid := by
  obtain ⟨before, after, hsplit⟩ := List.append_of_mem hc
  have hnodup := h.fids
  rw [hsplit] at hnodup
  simp only [List.map_append, List.map_cons, List.nodup_append, List.nodup_cons, List.mem_map,
    List.mem_cons] at hnodup
  obtain ⟨_, ⟨hafter, _⟩, hbefore⟩ := hnodup
  exact ⟨before, after, hsplit, fun d hd => hbefore d.fid ⟨d, hd, rfl⟩ c.fid (.inl rfl),
    fun d hd heq => hafter ⟨d, hd, heq⟩⟩

/-- `enterSending` counts a call that was not counted. -/
theorem enterSending (h : Calls s) {c : Call} (hc : c ∈ s.calls) (hout : c.entered = false) :
    Calls (s.enterSending c.fid) := by
  have hfid (d : Call) : (if d.fid = c.fid then { d with entered := true, pc := .claim } else d :
      Call).fid = d.fid := by
    split
    · rfl
    · rfl
  have hfids : Call.fid ∘ (fun d : Call =>
      if d.fid = c.fid then { d with entered := true, pc := .claim } else d) = Call.fid :=
    funext hfid
  refine ⟨?_, ?_, ?_, ?_⟩
  · simp only [State.enterSending, List.map_map, hfids]
    exact h.fids
  · intro d hd
    obtain ⟨d', hd', rfl⟩ := List.mem_map.mp hd
    rw [hfid]
    exact h.fresh d' hd'
  · obtain ⟨before, after, hsplit, hbefore, hafter⟩ := h.split hc
    have hsame (l : List Call) (hl : ∀ d ∈ l, d.fid ≠ c.fid) : l.map (fun d : Call =>
        if d.fid = c.fid then { d with entered := true, pc := .claim } else d) = l := by
      conv_rhs => rw [← List.map_id l]
      apply List.map_congr_left
      intro d hd
      simp [hl d hd]
    have hcounted : s.sendingNow = (before.filter Call.entered).length +
        (after.filter Call.entered).length := by
      rw [h.counted, hsplit, List.filter_append, List.filter_cons_of_neg (by simp [hout]),
        List.length_append]
    simp only [State.enterSending, hsplit, List.map_append, List.map_cons, hsame before hbefore,
      hsame after hafter, if_pos, hcounted, List.filter_append, List.filter_cons,
      List.length_append, List.length_cons]
    omega
  · intro d hd
    obtain ⟨d', hd', rfl⟩ := List.mem_map.mp hd
    by_cases heq : d'.fid = c.fid
    · rw [if_pos heq]
      exact ⟨fun _ => rfl, fun _ => rfl⟩
    · rw [if_neg heq]
      exact h.proper d' hd'

/-- A call that returns is not counted any more. -/
theorem leave (h : Calls s) {c : Call} (hc : c ∈ s.calls) : Calls (s.leave c) := by
  refine ⟨?_, ?_, ?_, ?_⟩
  · exact h.fids.sublist (List.filter_sublist.map _)
  · exact fun d hd => h.fresh d (List.mem_of_mem_filter hd)
  · obtain ⟨before, after, hsplit, hbefore, hafter⟩ := h.split hc
    have hsame (l : List Call) (hl : ∀ d ∈ l, d.fid ≠ c.fid) :
        l.filter (fun d => d.fid ≠ c.fid) = l := by
      apply List.filter_eq_self.mpr
      intro d hd
      simpa using hl d hd
    have hrest : (s.leave c).calls = before ++ after := by
      rw [State.leave, hsplit, List.filter_append, List.filter_cons_of_neg (by simp),
        hsame before hbefore, hsame after hafter]
    have hcounted := h.counted
    rw [hsplit, List.filter_append, List.filter_cons, List.length_append] at hcounted
    rw [hrest, List.filter_append, List.length_append]
    show (if c.entered = true then s.sendingNow - 1 else s.sendingNow) = _
    split
    · rename_i hentered
      rw [if_pos hentered, List.length_cons] at hcounted
      omega
    · rename_i hentered
      rwa [if_neg hentered] at hcounted
  · exact fun d hd => h.proper d (List.mem_of_mem_filter hd)

end Calls

end pcoin.market
