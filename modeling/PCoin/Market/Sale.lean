import PCoin.Market.Desk

namespace pcoin.market

/-- The statuses whose orders `outstandingOwed` counts. -/
def Status.owed : Status → Bool
  | .awaiting_delivery => true
  | .sending => true
  | .needs_review => true
  | .delivered => false
  | .other name => name = "pending"

/-- What an order adds to `outstandingOwed`. -/
def Slot.owed (o : Slot) : Int := if o.st.order.status.owed then o.st.order.quoted_pcn else 0

/-- `outstandingOwed`. -/
def Desk.outstandingOwed (d : Desk) : Int := (d.slots.map Slot.owed).sum

/-- The rows of the orders. -/
def Desk.rows (d : Desk) : List (String × Order) := d.slots.map fun o => (o.id, o.st.order)

/-- The place of a `/api/buy` request: `ownerSpendable` waits for the balance; the
reservation's transaction is not at `outstandingOwed` yet; it has passed the check of
`pcn` and has not committed. -/
inductive BuyPc
  | balance
  | reserve (ownerPcn : Int)
  | insert (ownerPcn pcn : Int)
deriving DecidableEq

/-- `backing.ownerPcn`, once it is read. -/
def BuyPc.ownerPcn : BuyPc → Option Int
  | .balance => none
  | .reserve ownerPcn => some ownerPcn
  | .insert ownerPcn _ => some ownerPcn

structure Buy where
  fid : Nat
  pc : BuyPc
deriving DecidableEq

/-- What was owed, the new order included, and what the hot wallet held when an order was
committed. -/
structure Sold where
  owed : Int
  balance : Int
deriving DecidableEq

/-- The market in float-only backing mode. `locked` is the request whose
`outstandingOwed` has locked the orders; `sold` is not in the source. -/
structure Sale where
  desk : Desk
  nextFid : Nat := 0
  buys : List Buy := []
  locked : Option Nat := none
  sold : List Sold := []
deriving DecidableEq

namespace Sale

/-- What can happen: a request begins, `floatBalance` answers it, its transaction checks
the amount that `reserveLadder` has reserved, commits the new order or is rolled back;
something at the desk; a callback, a sweep, a cancel or the operator changes the status
of an order, and a callback that holds it its amount; and the process dies. -/
inductive Event
  | buy
  | balance (fid : Nat)
  | check (fid : Nat) (pcn : Nat)
  | commit (fid : Nat) (slot : Slot)
  | rollback (fid : Nat)
  | desk (e : Desk.Event)
  | status (id : String) (status : Status) (quoted_pcn : Int)
  | crash

def buy? (s : Sale) (fid : Nat) : Option Buy := table.find Buy.fid fid s.buys

def goto (s : Sale) (fid : Nat) (pc : BuyPc) : Sale :=
  { s with buys := table.update Buy.fid fid (fun b => { b with pc := pc }) s.buys }

/-- The request ends, and its transaction with it. -/
def leave (s : Sale) (fid : Nat) : Sale :=
  { s with buys := s.buys.filter (·.fid ≠ fid)
           locked := if s.locked = some fid then none else s.locked }

/-- A row as `/api/buy` inserts it. -/
def newRow (d : Desk) (pcn : Int) (o : Slot) : Prop :=
  o.st.order.status = .other "pending" ∧ o.st.order.quoted_pcn = pcn ∧
    o.st.order.delivered_txid = none ∧ o.st.calls = [] ∧ o.st.sends = [] ∧
    o.st.floatStop = d.floatStop ∧ o.id ∉ d.slots.map Slot.id

instance (d : Desk) (pcn : Int) (o : Slot) : Decidable (newRow d pcn o) :=
  inferInstanceAs (Decidable (_ ∧ _))

def setStatus (st : State) (status : Status) (quoted_pcn : Int) : State :=
  { st with order := { st.order with status := status, quoted_pcn := quoted_pcn } }

def step (s : Sale) : Event → Option Sale
  | .buy => some { s with buys := s.buys ++ [⟨s.nextFid, .balance⟩], nextFid := s.nextFid + 1 }
  | .balance fid => do
    let b ← s.buy? fid
    guard (b.pc = .balance)
    -- a balance below zero is unreadable, and stops the sale
    return if s.desk.balance < 0 then s.leave fid else s.goto fid (.reserve s.desk.balance)
  | .check fid pcn => do
    let b ← s.buy? fid
    guard (s.locked = none)
    match b.pc with
    | .reserve ownerPcn =>
      if (pcn : Int) > ownerPcn - s.desk.outstandingOwed then return s.leave fid
      else return { s.goto fid (.insert ownerPcn pcn) with locked := some fid }
    | _ => none
  | .commit fid slot => do
    let b ← s.buy? fid
    match b.pc with
    | .insert _ pcn =>
      guard (newRow s.desk pcn slot)
      let desk := { s.desk with slots := s.desk.slots ++ [slot] }
      return { s.leave fid with desk := desk
                                sold := s.sold ++ [⟨desk.outstandingOwed, desk.balance⟩] }
    | _ => none
  | .rollback fid => do
    let _ ← s.buy? fid
    return s.leave fid
  | .desk e => do
    let desk ← s.desk.step e
    -- the locked rows cannot change before the transaction ends
    guard (s.locked = none ∨ desk.rows = s.desk.rows)
    return { s with desk := desk }
  | .status id status quoted_pcn => do
    guard (s.locked = none)
    let o ← table.find Slot.id id s.desk.slots
    return { s with desk := s.desk.put id (setStatus o.st status quoted_pcn) }
  | .crash => do
    let desk ← s.desk.step .crash
    return { s with desk := desk, buys := [], locked := none }

/-- At each commit of an order, all that was owed was in the hot wallet. -/
def Backed (s : Sale) : Prop := ∀ x ∈ s.sold, x.owed ≤ x.balance

/-- The balance that a request has read is still in the wallet when it commits. -/
def Current (s : Sale) : Event → Prop
  | .commit fid _ => ∀ b ∈ s.buy? fid, ∀ ownerPcn ∈ b.pc.ownerPcn, ownerPcn ≤ s.desk.balance
  | _ => True

instance (s : Sale) : (e : Event) → Decidable (Current s e)
  | .commit fid _ => inferInstanceAs (Decidable (∀ b ∈ s.buy? fid, ∀ ownerPcn ∈ b.pc.ownerPcn,
      ownerPcn ≤ s.desk.balance))
  | .buy | .balance _ | .check _ _ | .rollback _ | .desk _ | .status .. | .crash => .isTrue trivial

/-- A request that has passed the check holds the lock, and what is owed leaves room for
it in the balance it has read. -/
structure Checked (s : Sale) : Prop where
  fids : (s.buys.map Buy.fid).Nodup
  fresh : ∀ b ∈ s.buys, b.fid < s.nextFid
  inserting : ∀ b ∈ s.buys, ∀ ownerPcn pcn, b.pc = .insert ownerPcn pcn →
    s.locked = some b.fid ∧ s.desk.outstandingOwed + pcn ≤ ownerPcn
  backed : s.Backed

theorem owed_of_rows {d d' : Desk} (h : d'.rows = d.rows) :
    d'.outstandingOwed = d.outstandingOwed := by
  have hsum : ∀ d : Desk, d.outstandingOwed =
      (d.rows.map fun r => if r.2.status.owed then r.2.quoted_pcn else 0).sum := by
    intro d
    simp only [Desk.outstandingOwed, Desk.rows, List.map_map]
    rfl
  rw [hsum, hsum, h]

namespace Checked

variable {s : Sale}

/-- While no request holds the lock the orders may change. -/
theorem unlocked (h : Checked s) (hlock : s.locked = none) (desk : Desk) :
    Checked { s with desk := desk } := by
  refine ⟨h.fids, h.fresh, fun b hb ownerPcn pcn hpc => ?_, h.backed⟩
  have hlocked := (h.inserting b hb ownerPcn pcn hpc).1
  rw [hlock] at hlocked
  cases hlocked

theorem leave (h : Checked s) (fid : Nat) : Checked (s.leave fid) := by
  refine ⟨?_, fun b hb => ?_, fun b hb ownerPcn pcn hpc => ?_, h.backed⟩
  · exact (List.filter_sublist.map _).nodup h.fids
  · exact h.fresh b (List.mem_filter.mp hb).1
  · obtain ⟨hb, hne⟩ := List.mem_filter.mp hb
    obtain ⟨hlock, howed⟩ := h.inserting b hb ownerPcn pcn hpc
    refine ⟨?_, howed⟩
    have hne' : b.fid ≠ fid := by simpa using hne
    simp [Sale.leave, hlock, hne']

/-- A request moves on, and the others are where they were. -/
theorem goto (h : Checked s) {b : Buy} (hb : b ∈ s.buys) {pc : BuyPc} {locked : Option Nat}
    (hother : ∀ x ∈ s.buys, x.fid ≠ b.fid → ∀ ownerPcn pcn, x.pc ≠ .insert ownerPcn pcn ∨
      locked = s.locked)
    (hself : ∀ ownerPcn pcn, pc = .insert ownerPcn pcn →
      locked = some b.fid ∧ s.desk.outstandingOwed + pcn ≤ ownerPcn) :
    Checked { s.goto b.fid pc with locked := locked } := by
  have hkeys : (s.goto b.fid pc).buys.map Buy.fid = s.buys.map Buy.fid := by
    refine table.keys_update (fun x hx => ?_) _
    rfl
  refine ⟨?_, fun x hx => ?_, fun x hx ownerPcn pcn hpc => ?_, h.backed⟩
  · exact hkeys ▸ h.fids
  · obtain rfl | ⟨hx, -⟩ := table.mem_update h.fids hb hx
    · exact h.fresh b hb
    · exact h.fresh x hx
  · obtain rfl | ⟨hx, hne⟩ := table.mem_update h.fids hb hx
    · exact hself ownerPcn pcn hpc
    · obtain ⟨hlock, howed⟩ := h.inserting x hx ownerPcn pcn hpc
      refine ⟨?_, howed⟩
      obtain hnot | hlocked := hother x hx hne ownerPcn pcn
      · exact absurd hpc hnot
      · exact hlocked.trans hlock

end Checked

theorem checked_step {s t : Sale} {e : Event} (h : Checked s) (hok : Current s e)
    (hstep : s.step e = some t) : Checked t := by
  cases e with
  | buy =>
    obtain rfl := Option.some.inj hstep
    have hnew : s.nextFid ∉ s.buys.map Buy.fid := by
      intro hmem
      obtain ⟨b, hb, hfid⟩ := List.mem_map.mp hmem
      have := h.fresh b hb
      omega
    refine ⟨?_, fun b hb => ?_, fun b hb ownerPcn pcn hpc => ?_, h.backed⟩
    · exact table.nodup_append h.fids hnew
    · obtain hb | hb := List.mem_append.mp hb
      · exact Nat.lt_succ_of_lt (h.fresh b hb)
      · rw [List.mem_singleton.mp hb]
        exact Nat.lt_succ_self _
    · obtain hb | hb := List.mem_append.mp hb
      · exact h.inserting b hb ownerPcn pcn hpc
      · rw [List.mem_singleton.mp hb] at hpc
        cases hpc
  | balance fid =>
    simp only [step, Option.bind_eq_bind, Option.bind_eq_some_iff] at hstep
    obtain ⟨b, hfind, _, -, hstep⟩ := hstep
    obtain ⟨hb, rfl⟩ := table.find_spec hfind
    obtain rfl := Option.some.inj hstep
    split
    · exact h.leave b.fid
    · exact h.goto hb (fun x _ _ _ _ => .inr rfl) (fun _ _ hpc => by cases hpc)
  | check fid pcn =>
    simp only [step, Option.bind_eq_bind, Option.bind_eq_some_iff] at hstep
    obtain ⟨b, hfind, _, hguard, hstep⟩ := hstep
    obtain ⟨hb, rfl⟩ := table.find_spec hfind
    have hlock : s.locked = none := by simpa [guard] using hguard
    split at hstep
    · rename_i ownerPcn hpc
      split at hstep
      · obtain rfl := Option.some.inj hstep
        exact h.leave b.fid
      · rename_i hroom
        obtain rfl := Option.some.inj hstep
        refine h.goto hb (fun x hx _ ownerPcn pcn => .inl fun hins => ?_) ?_
        · have hlocked := (h.inserting x hx _ _ hins).1
          rw [hlock] at hlocked
          cases hlocked
        · intro ownerPcn' pcn' hins
          obtain ⟨rfl, rfl⟩ := BuyPc.insert.inj hins
          exact ⟨rfl, by omega⟩
    · cases hstep
  | commit fid slot =>
    simp only [step, Option.bind_eq_bind, Option.bind_eq_some_iff] at hstep
    obtain ⟨b, hfind, hstep⟩ := hstep
    have hcurrent := hok b hfind
    obtain ⟨hb, rfl⟩ := table.find_spec hfind
    split at hstep
    · rename_i ownerPcn pcn hpc
      simp only [Option.bind_eq_some_iff] at hstep
      obtain ⟨_, hguard, hstep⟩ := hstep
      obtain rfl := Option.some.inj hstep
      have hrow : newRow s.desk pcn slot := by simpa [guard] using hguard
      obtain ⟨hlock, howed⟩ := h.inserting b hb ownerPcn pcn hpc
      have hbalance := hcurrent ownerPcn (by rw [hpc]; rfl)
      have hleave : (s.leave b.fid).locked = none := by simp [Sale.leave, hlock]
      have hchecked := (h.leave b.fid).unlocked hleave
        { s.desk with slots := s.desk.slots ++ [slot] }
      refine ⟨hchecked.fids, hchecked.fresh, hchecked.inserting, fun x hx => ?_⟩
      obtain hx | hx := List.mem_append.mp hx
      · exact h.backed x hx
      · rw [List.mem_singleton.mp hx]
        have hslot : slot.owed = pcn := by simp [Slot.owed, hrow.1, hrow.2.1, Status.owed]
        simp only [Desk.outstandingOwed, List.map_append, List.sum_append, List.map_cons,
          List.map_nil, List.sum_singleton, hslot] at howed ⊢
        omega
    · cases hstep
  | rollback fid =>
    simp only [step, Option.bind_eq_bind, Option.bind_eq_some_iff] at hstep
    obtain ⟨b, hfind, hstep⟩ := hstep
    obtain rfl := Option.some.inj hstep
    exact h.leave fid
  | desk e =>
    simp only [step, Option.bind_eq_bind, Option.bind_eq_some_iff] at hstep
    obtain ⟨desk, -, _, hguard, hstep⟩ := hstep
    obtain rfl := Option.some.inj hstep
    have hrows : s.locked = none ∨ desk.rows = s.desk.rows := by
      by_contra hnot
      simp [guard, hnot] at hguard
    obtain hlock | hrows := hrows
    · exact h.unlocked hlock desk
    · refine ⟨h.fids, h.fresh, fun b hb ownerPcn pcn hpc => ?_, h.backed⟩
      obtain ⟨hlock, howed⟩ := h.inserting b hb ownerPcn pcn hpc
      refine ⟨hlock, ?_⟩
      rw [owed_of_rows hrows]
      exact howed
  | status id status quoted_pcn =>
    simp only [step, Option.bind_eq_bind, Option.bind_eq_some_iff] at hstep
    obtain ⟨_, hguard, o, -, hstep⟩ := hstep
    obtain rfl := Option.some.inj hstep
    have hlock : s.locked = none := by simpa [guard] using hguard
    exact h.unlocked hlock _
  | crash =>
    simp only [step, Option.bind_eq_bind, Option.bind_eq_some_iff] at hstep
    obtain ⟨desk, -, hstep⟩ := hstep
    obtain rfl := Option.some.inj hstep
    exact ⟨List.nodup_nil, by simp, by simp, h.backed⟩

/-- A market before the first request. -/
structure Opening (s : Sale) : Prop where
  buys : s.buys = []
  sold : s.sold = []

/-- The market never sells what it cannot hand over, in every run in which no request
commits after the balance it has read has gone down. -/
theorem sales_backed {s₀ s : Sale} (hopening : s₀.Opening)
    (hrun : run.Steps step Current s₀ s) : s.Backed := by
  have hpreserve : ∀ s e t, Checked s → Current s e → step s e = some t → Checked t :=
    fun s e t h hok hstep => checked_step h hok hstep
  refine (hrun.invariant hpreserve ⟨?_, ?_, ?_, ?_⟩).backed
  · simp [hopening.buys]
  · simp [hopening.buys]
  · simp [hopening.buys]
  · simp [Backed, hopening.sold]

/-- An order of 400 units that is paid, and 1000 units in the wallet. -/
def paidAndOpen : Sale where
  desk :=
    { floatStop := 0
      balance := 1000
      slots := [{ st := { orderId := "M1"
                          order := { usd := 1000, quoted_pcn := 400, status := .awaiting_delivery }
                          autoMaxUsd := 2500
                          floatStop := 0 }
                  fee := 0 }] }

theorem paidAndOpen_opening : paidAndOpen.Opening := ⟨rfl, rfl⟩

/-- The row of a second order. -/
def newSlot (pcn : Int) : Slot where
  st := { orderId := "M2"
          order := { usd := 1500, quoted_pcn := pcn, status := .other "pending" }
          autoMaxUsd := 2500
          floatStop := 0 }
  fee := 0

theorem sales_backed_two :
    ∃ s, run.exec step paidAndOpen [.buy, .balance 0, .check 0 600, .commit 0 (newSlot 600)] =
        some s ∧ s.sold = [⟨1000, 1000⟩] ∧ s.Backed := by
  have hsold : (run.exec step paidAndOpen [.buy, .balance 0, .check 0 600,
      .commit 0 (newSlot 600)]).map (fun s => s.sold) = some [⟨1000, 1000⟩] := by
    decide +kernel
  obtain ⟨s, hexec, hs⟩ := Option.map_eq_some_iff.mp hsold
  refine ⟨s, hexec, hs, sales_backed paidAndOpen_opening (run.steps_of_exec _ hexec ?_)⟩
  decide +kernel

/-- `deliver` for the first order, from the first `await` to `recordSent`. -/
def delivery : List Event :=
  [.desk (.order "M1" (.deliver false)), .desk (.order "M1" (.query 0 true)),
    .desk (.order "M1" (.lookup 0)), .desk (.balance "M1" 0), .desk (.order "M1" (.query 0 true)),
    .desk (.balance "M1" 0), .desk (.commit "M1" 0 "aa"), .desk (.order "M1" (.sent 0)),
    .desk (.order "M1" (.query 0 true))]

/-- A delivery that completes between the reading of the balance and the transaction
lowers both, and the request sells the whole old balance. -/
theorem delivery_between_oversells :
    ¬∀ s₀ s : Sale, s₀.Opening → run.Steps step (fun _ _ => True) s₀ s → s.Backed := by
  have hsold : (run.exec step paidAndOpen ([.buy, .balance 0] ++ delivery ++
      [.check 0 1000, .commit 0 (newSlot 1000)])).map (fun s => s.sold) =
        some [⟨1000, 600⟩] := by
    decide +kernel
  obtain ⟨s, hexec, hs⟩ := Option.map_eq_some_iff.mp hsold
  intro hall
  have hbacked := hall paidAndOpen s paidAndOpen_opening
    (run.steps_of_exec _ hexec (run.meets_true _ _))
  have hle := hbacked ⟨1000, 600⟩ (by rw [hs]; exact List.mem_singleton_self _)
  exact absurd hle (by decide)

end Sale

end pcoin.market
