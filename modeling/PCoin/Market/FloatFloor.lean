import PCoin.Market.Desk
import Mathlib.Algebra.Order.BigOperators.Group.List

namespace pcoin.market

open Desk

/-- No send of an order is on its way to the wallet. -/
def Desk.Quiet (d : Desk) : Prop := ∀ o ∈ d.slots, o.st.sends = []

/-- Every send has left the balance at or above the stop level. -/
def Desk.FloorKept (d : Desk) : Prop := ∀ b ∈ d.left, d.floatStop ≤ b

/-- A re-check that lets an order be sent is made while no other send is on its way, and
there is room for the fee as well; otherwise coins leave the wallet only while no send is
on its way. -/
def Roomy (d : Desk) : Desk.Event → Prop
  | .balance id fid => ∀ o ∈ table.find Slot.id id d.slots, ∀ c ∈ o.st.call fid,
      c.pc = .recheck → d.floatStop ≤ d.balance - o.st.order.quoted_pcn →
        d.Quiet ∧ d.floatStop ≤ d.balance - o.cost
  | .coins amount => amount < 0 → d.Quiet
  | _ => True

instance (d : Desk) : Decidable d.Quiet :=
  inferInstanceAs (Decidable (∀ o ∈ d.slots, o.st.sends = []))

instance (d : Desk) : (e : Desk.Event) → Decidable (Roomy d e)
  | .balance id fid => inferInstanceAs (Decidable (∀ o ∈ table.find Slot.id id d.slots,
      ∀ c ∈ o.st.call fid, c.pc = .recheck → d.floatStop ≤ d.balance - o.st.order.quoted_pcn →
        d.Quiet ∧ d.floatStop ≤ d.balance - o.cost))
  | .coins amount => inferInstanceAs (Decidable (amount < 0 → d.Quiet))
  | .order _ _ | .commit _ _ _ | .crash => .isTrue trivial

/-- The number of sends on their way to the wallet. -/
def Desk.outstanding (d : Desk) : Nat := (d.slots.map fun o => o.st.sends.length).sum

/-- At most one send is on its way, and the wallet has room for it. -/
structure Floor (d : Desk) : Prop where
  ids : (d.slots.map Slot.id).Nodup
  stops : ∀ o ∈ d.slots, o.st.floatStop = d.floatStop
  single : d.outstanding ≤ 1
  room : ∀ o ∈ d.slots, o.st.sends ≠ [] → d.floatStop ≤ d.balance - o.cost
  kept : d.FloorKept

theorem quiet_of_outstanding {d : Desk} (h : d.outstanding = 0) : d.Quiet := by
  intro o ho
  have hle : o.st.sends.length ≤ d.outstanding :=
    List.single_le_sum (by simp) _ (List.mem_map.mpr ⟨o, ho, rfl⟩)
  exact List.length_eq_zero_iff.mp (by omega)

theorem outstanding_of_quiet {d : Desk} (h : d.Quiet) : d.outstanding = 0 := by
  refine List.sum_eq_zero fun n hn => ?_
  obtain ⟨o, ho, rfl⟩ := List.mem_map.mp hn
  simp [h o ho]

/-- Replacing the state of one order moves the number of sends by that order's change. -/
theorem outstanding_put {d : Desk} (hids : (d.slots.map Slot.id).Nodup) {o : Slot}
    (ho : o ∈ d.slots) (st : State) :
    (d.put o.id st).outstanding + o.st.sends.length = d.outstanding + st.sends.length :=
  table.sum_update hids ho (fun o => { o with st := st }) fun o => o.st.sends.length

theorem mem_put {d : Desk} (hids : (d.slots.map Slot.id).Nodup) {o x : Slot} (ho : o ∈ d.slots)
    {st : State} (hx : x ∈ (d.put o.id st).slots) :
    x = { o with st := st } ∨ (x ∈ d.slots ∧ x.id ≠ o.id) :=
  table.mem_update hids ho hx

/-- The parts of the invariant that do not look at the wallet. -/
theorem put_framed {d : Desk} (h : Floor d) {o : Slot} (ho : o ∈ d.slots) {st : State}
    (hframed : Framed o.st st) :
    ((d.put o.id st).slots.map Slot.id).Nodup ∧
      ∀ x ∈ (d.put o.id st).slots, x.st.floatStop = d.floatStop := by
  constructor
  · have hkeys : ((d.put o.id st).slots).map Slot.id = d.slots.map Slot.id := by
      refine table.keys_update (fun x hx => ?_) _
      rw [hx]
      exact hframed.orderId
    rw [hkeys]
    exact h.ids
  · intro x hx
    obtain rfl | ⟨hx, -⟩ := mem_put h.ids ho hx
    · exact hframed.stop.trans (h.stops o ho)
    · exact h.stops x hx

/-- A step of one order that leaves its sends as they are. -/
theorem floor_put {d : Desk} (h : Floor d) {o : Slot} (ho : o ∈ d.slots) {st : State}
    (hframed : Framed o.st st) (hsends : st.sends = o.st.sends) : Floor (d.put o.id st) := by
  obtain ⟨hids, hstops⟩ := put_framed h ho hframed
  refine ⟨hids, hstops, ?_, fun x hx hne => ?_, h.kept⟩
  · have hsum := outstanding_put h.ids ho st
    have hsingle := h.single
    rw [hsends] at hsum
    omega
  · obtain rfl | ⟨hx, -⟩ := mem_put h.ids ho hx
    · have hroom := h.room o ho (by rwa [← hsends])
      simp only [Slot.cost, hframed.quoted] at hroom ⊢
      exact hroom
    · exact h.room x hx hne

theorem floor_step {d t : Desk} {e : Desk.Event} (h : Floor d) (hok : Roomy d e)
    (hstep : d.step e = some t) : Floor t := by
  cases e with
  | order id e =>
    simp only [Desk.step, Option.bind_eq_bind, Option.bind_eq_some_iff] at hstep
    obtain ⟨o, hfind, _, hguard, st, hst, hstep⟩ := hstep
    obtain ⟨ho, rfl⟩ := table.find_spec hfind
    obtain rfl := Option.some.inj hstep
    have hroutine : routine o.st e = true := by simpa [guard] using hguard
    obtain ⟨hframed, hsends⟩ := step_routine hroutine hst
    exact floor_put h ho hframed hsends
  | balance id fid =>
    simp only [Desk.step, Option.bind_eq_bind, Option.bind_eq_some_iff] at hstep
    obtain ⟨o, hfind, st, hst, hstep⟩ := hstep
    obtain rfl := Option.some.inj hstep
    have hok' := hok o hfind
    obtain ⟨ho, rfl⟩ := table.find_spec hfind
    obtain ⟨hframed, hsends | ⟨c, hc, hpc, hpass, x, hsends⟩⟩ := step_balance hst
    · exact floor_put h ho hframed hsends
    · -- the order's send is the only one on its way
      rw [h.stops o ho] at hpass
      obtain ⟨hquiet, hroom⟩ := hok' c hc hpc hpass
      obtain ⟨hids, hstops⟩ := put_framed h ho hframed
      refine ⟨hids, hstops, ?_, fun y hy hne => ?_, h.kept⟩
      · have hsum := outstanding_put h.ids ho st
        rw [hsends, outstanding_of_quiet hquiet, hquiet o ho] at hsum
        simp only [List.nil_append, List.length_nil, List.length_singleton] at hsum
        omega
      · obtain rfl | ⟨hy, -⟩ := mem_put h.ids ho hy
        · simp only [Slot.cost, hframed.quoted] at hroom ⊢
          exact hroom
        · exact absurd (hquiet y hy) hne
  | commit id fid txid =>
    simp only [Desk.step, Option.bind_eq_bind, Option.bind_eq_some_iff] at hstep
    obtain ⟨o, hfind, _, -, st, hst, hstep⟩ := hstep
    obtain ⟨ho, rfl⟩ := table.find_spec hfind
    obtain rfl := Option.some.inj hstep
    obtain ⟨hframed, hne, hlt⟩ := step_commit hst
    obtain ⟨hids, hstops⟩ := put_framed h ho hframed
    have hzero : (d.put o.id st).outstanding = 0 := by
      have hsum := outstanding_put h.ids ho st
      have hsingle := h.single
      omega
    refine ⟨hids, hstops, ?_, fun x hx hxne => ?_, fun b hb => ?_⟩
    · exact hzero.le.trans (Nat.zero_le 1)
    · exact absurd (quiet_of_outstanding hzero x hx) hxne
    · obtain hb | hb := List.mem_append.mp hb
      · exact h.kept b hb
      · rw [List.mem_singleton.mp hb]
        exact h.room o ho hne
  | coins amount =>
    obtain rfl := Option.some.inj hstep
    refine ⟨h.ids, h.stops, h.single, fun o ho hne => ?_, h.kept⟩
    by_cases hneg : amount < 0
    · exact absurd (hok hneg o ho) hne
    · have hroom := h.room o ho hne
      simp only
      omega
  | crash =>
    obtain rfl := Option.some.inj hstep
    refine ⟨?_, ?_, ?_, ?_, h.kept⟩
    · rw [List.map_map]
      exact h.ids
    · simpa using h.stops
    · simp only [Desk.outstanding, List.map_map]
      exact h.single
    · simpa [Slot.cost] using h.room

/-- A desk whose orders are known under different ids, with nothing sent yet. -/
structure Desk.Fresh (d : Desk) : Prop where
  ids : (d.slots.map Slot.id).Nodup
  stops : ∀ o ∈ d.slots, o.st.floatStop = d.floatStop
  sends : d.Quiet
  left : d.left = []

/-- The float floor: in every interleaving of deliveries in which re-checks that pass are
not made while another send is on its way to the wallet, and leave room for the fee, no
send takes the balance below the stop level. -/
theorem float_floor_holds {d₀ d : Desk} (hfresh : d₀.Fresh)
    (hrun : run.Steps Desk.step Roomy d₀ d) : d.FloorKept := by
  have hpreserve : ∀ d e t, Floor d → Roomy d e → Desk.step d e = some t → Floor t :=
    fun d e t h hok hstep => floor_step h hok hstep
  refine (hrun.invariant hpreserve ⟨hfresh.ids, hfresh.stops, ?_, ?_, ?_⟩).kept
  · exact (outstanding_of_quiet hfresh.sends).le.trans (Nat.zero_le 1)
  · exact fun o ho hne => absurd (hfresh.sends o ho) hne
  · intro b hb
    rw [hfresh.left] at hb
    cases hb

/-- A paid order of 500 units. -/
def paidSlot (id : String) : Slot where
  st := { orderId := id
          order := { usd := 1000, quoted_pcn := 500, status := .awaiting_delivery }
          autoMaxUsd := 2500
          floatStop := 1000 }
  fee := 0

/-- Two paid orders, with room for one of them above the stop level. -/
def twoOrders : Desk where
  floatStop := 1000
  balance := 1900
  slots := [paidSlot "M1", paidSlot "M2"]

theorem twoOrders_fresh : twoOrders.Fresh :=
  ⟨by decide, by decide, by decide, rfl⟩

/-- `deliver` up to its re-check. -/
def upToRecheck (id : String) : List Desk.Event :=
  [.order id (.deliver false), .order id (.query 0 true), .order id (.lookup 0), .balance id 0,
    .order id (.query 0 true)]

theorem float_floor_holds_one :
    ∃ d, run.exec Desk.step twoOrders (upToRecheck "M1" ++ [.balance "M1" 0, .commit "M1" 0 "aa"] ++
        [.order "M2" (.deliver false), .order "M2" (.query 0 true), .order "M2" (.lookup 0),
          .balance "M2" 0]) = some d ∧ d.left = [1400] ∧ d.FloorKept := by
  have hleft : (run.exec Desk.step twoOrders (upToRecheck "M1" ++
      ([.balance "M1" 0, .commit "M1" 0 "aa"] : List Desk.Event) ++
      ([.order "M2" (.deliver false), .order "M2" (.query 0 true), .order "M2" (.lookup 0),
        .balance "M2" 0] : List Desk.Event))).map (fun d => d.left) = some [1400] := by
    decide +kernel
  obtain ⟨d, hexec, hd⟩ := Option.map_eq_some_iff.mp hleft
  refine ⟨d, hexec, hd, float_floor_holds twoOrders_fresh (run.steps_of_exec _ hexec ?_)⟩
  decide +kernel

/-- Both orders pass the re-check before either send reaches the wallet. -/
theorem two_sends_break_floor :
    ¬∀ d₀ d : Desk, d₀.Fresh → run.Steps Desk.step (fun _ _ => True) d₀ d → d.FloorKept := by
  have hleft : (run.exec Desk.step twoOrders (upToRecheck "M1" ++ upToRecheck "M2" ++
      ([.balance "M1" 0, .balance "M2" 0, .commit "M1" 0 "aa", .commit "M2" 0 "bb"] :
        List Desk.Event))).map (fun d => (d.floatStop, d.left)) = some (1000, [1400, 900]) := by
    decide +kernel
  obtain ⟨d, hexec, hd⟩ := Option.map_eq_some_iff.mp hleft
  obtain ⟨hstop, hd⟩ := Prod.mk.inj hd
  intro hall
  have hkept := hall twoOrders d twoOrders_fresh (run.steps_of_exec _ hexec (run.meets_true _ _))
  have hle := hkept 900 (by rw [hd]; decide)
  rw [hstop] at hle
  exact absurd hle (by decide)

end pcoin.market
