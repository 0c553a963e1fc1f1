import PCoin.Market.Ladder
import Mathlib.Algebra.Order.BigOperators.Group.List

namespace pcoin.market.ladder

/-- What the fills of a rung in a state add up to. -/
def held (fills : List Fill) (rungNo : Nat) (state : FillState) : Int :=
  ((fills.filter fun f => f.rung_no = rungNo ∧ f.state = state).map Fill.qty).sum

/-- `UNIQUE (order_id, rung_no)`. -/
def Fill.key (f : Fill) : String × Nat := (f.order_id, f.rung_no)

/-- The counters of a rung are what its fills say, and within what it has. -/
structure Rung.Balanced (fills : List Fill) (r : Rung) : Prop where
  reserved : r.qty_reserved = held fills r.rung_no .reserved
  sold : r.qty_sold = held fills r.rung_no .sold
  retired : 0 ≤ r.qty_retired
  avail : 0 ≤ r.avail

structure Inventory (s : State) : Prop where
  rung_nos : (s.rungs.map Rung.rung_no).Nodup
  balanced : ∀ r ∈ s.rungs, r.Balanced s.fills
  qty : ∀ f ∈ s.fills, 0 < f.qty
  keys : (s.fills.map Fill.key).Nodup
  known : ∀ f ∈ s.fills, f.order_id ∈ s.orders.map OrderRow.order_id
  uniform : ∀ f ∈ s.fills, ∀ g ∈ s.fills, f.order_id = g.order_id → f.state = g.state

/-- Every fill is still there, and as it was if it was no longer reserved. -/
def Kept (s t : State) : Prop :=
  ∀ f ∈ s.fills, ∃ state, { f with state := state } ∈ t.fills ∧
    (f.state ≠ .reserved → state = f.state)

theorem Kept.refl (s : State) : Kept s s := fun f hf => ⟨f.state, hf, fun _ => rfl⟩

theorem Kept.of_subset {s t : State} (h : s.fills ⊆ t.fills) : Kept s t :=
  fun f hf => ⟨f.state, h hf, fun _ => rfl⟩

theorem Kept.trans {s t u : State} (hst : Kept s t) (htu : Kept t u) : Kept s u := by
  intro f hf
  obtain ⟨state, hmem, hstate⟩ := hst f hf
  obtain ⟨state', hmem', hstate'⟩ := htu _ hmem
  refine ⟨state', hmem', fun hne => ?_⟩
  have heq := hstate hne
  rw [hstate' (by simpa [heq] using hne)]
  exact heq

/-! ### Allocation -/

/-- What the loop adds: at most one amount from each rung, within what the rung has. -/
theorem allocate_spec (want : List Take → Rung → Int) (taken : List Take) (rungs : List Rung) :
    ∃ new, allocate want taken rungs = taken ++ new ∧
      (new.map Take.rung_no).Sublist (rungs.map Rung.rung_no) ∧
      ∀ x ∈ new, ∃ r ∈ rungs, r.rung_no = x.rung_no ∧ 0 < x.units ∧ x.units ≤ r.avail := by
  induction rungs generalizing taken with
  | nil => exact ⟨[], by simp [allocate], List.Sublist.refl _, by simp⟩
  | cons r rungs ih =>
    rw [allocate]
    split
    · obtain ⟨new, heq, hsub, hnew⟩ := ih taken
      refine ⟨new, heq, hsub.cons _, fun x hx => ?_⟩
      obtain ⟨r', hr', hspec⟩ := hnew x hx
      exact ⟨r', List.mem_cons_of_mem _ hr', hspec⟩
    · dsimp only
      split
      · exact ⟨[], by simp, List.nil_sublist _, by simp⟩
      · rename_i havail htake
        obtain ⟨new, heq, hsub, hnew⟩ := ih (taken ++ [⟨r.rung_no, min r.avail (want taken r)⟩])
        refine ⟨⟨r.rung_no, min r.avail (want taken r)⟩ :: new, by simpa using heq,
          hsub.cons_cons _, fun x hx => ?_⟩
        obtain rfl | hx := List.mem_cons.mp hx
        · exact ⟨r, List.mem_cons_self, rfl, by simpa using htake, min_le_left _ _⟩
        · obtain ⟨r', hr', hspec⟩ := hnew x hx
          exact ⟨r', List.mem_cons_of_mem _ hr', hspec⟩

theorem mem_of_rungsWithStock {rungs : List Rung} {r : Rung} (hr : r ∈ rungsWithStock rungs) :
    r ∈ rungs := by
  rw [rungsWithStock, List.mem_insertionSort] at hr
  exact List.mem_of_mem_filter hr

theorem nodup_rungsWithStock {rungs : List Rung} (h : (rungs.map Rung.rung_no).Nodup) :
    ((rungsWithStock rungs).map Rung.rung_no).Nodup := by
  have hperm := (List.perm_insertionSort (·.rung_no ≤ ·.rung_no)
    (rungs.filter fun r => r.qty_sold + r.qty_reserved + r.qty_retired < r.qty_total)).map
    Rung.rung_no
  rw [rungsWithStock, hperm.nodup_iff]
  exact (List.filter_sublist.map Rung.rung_no).nodup h

/-- Amounts to take from the rungs, at most one from each, within what they have. -/
structure Fits (takes : List Take) (rungs : List Rung) : Prop where
  nodup : (takes.map Take.rung_no).Nodup
  units : ∀ x ∈ takes, ∃ r ∈ rungs, r.rung_no = x.rung_no ∧ 0 < x.units ∧ x.units ≤ r.avail

theorem allocate_fits (want : List Take → Rung → Int) {rungs : List Rung}
    (h : (rungs.map Rung.rung_no).Nodup) : Fits (allocate want [] (rungsWithStock rungs)) rungs := by
  obtain ⟨new, heq, hsub, hnew⟩ := allocate_spec want [] (rungsWithStock rungs)
  rw [heq, List.nil_append]
  refine ⟨hsub.nodup (nodup_rungsWithStock h), fun x hx => ?_⟩
  obtain ⟨r, hr, hspec⟩ := hnew x hx
  exact ⟨r, mem_of_rungsWithStock hr, hspec⟩

/-- The amount taken from a rung. -/
def drawn (takes : List Take) (rungNo : Nat) : Int :=
  ((takes.filter (Take.rung_no · = rungNo)).map Take.units).sum

theorem Fits.drawn_le {takes : List Take} {rungs : List Rung} (h : Fits takes rungs)
    (hrungs : (rungs.map Rung.rung_no).Nodup) {r : Rung} (hr : r ∈ rungs) (havail : 0 ≤ r.avail) :
    0 ≤ drawn takes r.rung_no ∧ drawn takes r.rung_no ≤ r.avail := by
  by_cases hmem : r.rung_no ∈ takes.map Take.rung_no
  · obtain ⟨x, hx, hno⟩ := List.mem_map.mp hmem
    obtain ⟨r', hr', hno', hpos, hle⟩ := h.units x hx
    obtain rfl : r' = r := List.inj_on_of_nodup_map hrungs hr' hr (hno'.trans hno)
    have hdrawn : drawn takes r'.rung_no = x.units := by
      rw [drawn, ← hno, table.filter_key_of_mem h.nodup hx]
      simp
    omega
  · have hdrawn : drawn takes r.rung_no = 0 := by
      have hnil : takes.filter (Take.rung_no · = r.rung_no) = [] := by
        rw [List.filter_eq_nil_iff]
        intro x hx hno
        exact hmem (List.mem_map.mpr ⟨x, hx, of_decide_eq_true hno⟩)
      simp [drawn, hnil]
    omega

/-! ### Loops of deltas -/

theorem foldl_shift {β : Type*} (a b c : β → Int) (xs : List β) (r : Rung) :
    xs.foldl (fun r x => r.shift (a x) (b x) (c x)) r =
      r.shift (xs.map a).sum (xs.map b).sum (xs.map c).sum := by
  induction xs generalizing r with
  | nil => simp [Rung.shift]
  | cons x xs ih =>
    rw [List.foldl_cons, ih]
    simp [Rung.shift, add_assoc]

/-- A loop of deltas moves each rung by the sum of the deltas made for it. -/
theorem foldl_update_shift {β : Type*} (no : β → Nat) (a b c : β → Int) (xs : List β)
    (rungs : List Rung) :
    xs.foldl (fun rungs x =>
        table.update Rung.rung_no (no x) (·.shift (a x) (b x) (c x)) rungs) rungs =
      rungs.map fun r =>
        let own := xs.filter (no · = r.rung_no)
        r.shift (own.map a).sum (own.map b).sum (own.map c).sum := by
  have hkey : ∀ x r, (Rung.shift r (a x) (b x) (c x)).rung_no = r.rung_no := fun _ _ => rfl
  refine (table.foldl_update no (fun x r => r.shift (a x) (b x) (c x)) hkey xs rungs).trans ?_
  exact List.map_congr_left fun r _ => foldl_shift a b c _ r

/-! ### Reserving -/

theorem held_append (xs ys : List Fill) (rungNo : Nat) (state : FillState) :
    held (xs ++ ys) rungNo state = held xs rungNo state + held ys rungNo state := by
  simp [held, List.filter_append, List.map_append, List.sum_append]

theorem held_cons (f : Fill) (fills : List Fill) (rungNo : Nat) (state : FillState) :
    held (f :: fills) rungNo state =
      (if f.rung_no = rungNo ∧ f.state = state then f.qty else 0) + held fills rungNo state := by
  simp only [held, List.filter_cons]
  split <;> split <;> simp_all

/-- The fills that an order reserves. -/
def reservations (orderId : String) (takes : List Take) : List Fill :=
  takes.map fun x => { order_id := orderId, rung_no := x.rung_no, qty := x.units }

theorem mem_reservations {orderId : String} {takes : List Take} {f : Fill}
    (hf : f ∈ reservations orderId takes) :
    f.order_id = orderId ∧ f.state = .reserved ∧ ∃ x ∈ takes, x.units = f.qty := by
  obtain ⟨x, hx, rfl⟩ := List.mem_map.mp hf
  exact ⟨rfl, rfl, x, hx, rfl⟩

theorem held_reservations (orderId : String) (takes : List Take) (rungNo : Nat)
    (state : FillState) :
    held (reservations orderId takes) rungNo state =
      if state = .reserved then drawn takes rungNo else 0 := by
  induction takes with
  | nil => simp [held, reservations, drawn]
  | cons x takes ih =>
    have hcons : reservations orderId (x :: takes) =
        [{ order_id := orderId, rung_no := x.rung_no, qty := x.units }] ++
          reservations orderId takes := rfl
    rw [hcons, held_append, ih]
    by_cases hno : x.rung_no = rungNo <;> cases state <;> simp [held, drawn, hno]

/-- What `reserveLadder` does. -/
theorem reserveLadder_spec {s t : State} {orderId : String} {want : List Take → Rung → Int}
    {pcn : Int} (hrungs : (s.rungs.map Rung.rung_no).Nodup)
    (h : reserveLadder s orderId want = some (t, pcn)) :
    ∃ takes, Fits takes s.rungs ∧
      t = { s with
        fills := s.fills ++ reservations orderId takes
        rungs := s.rungs.map fun r => r.shift 0 (drawn takes r.rung_no) 0 } := by
  refine ⟨allocate want [] (rungsWithStock s.rungs), allocate_fits want hrungs, ?_⟩
  rw [reserveLadder] at h
  dsimp only at h
  split at h
  · cases h
  · obtain ⟨rfl, -⟩ := Prod.mk.inj (Option.some.inj h)
    rw [foldl_update_shift Take.rung_no (fun _ => 0) Take.units fun _ => 0]
    simp [reservations, drawn]

/-- A new order reserves. -/
theorem Inventory.reserve {s t : State} {orderId : String} {takes : List Take} (h : Inventory s)
    (hfits : Fits takes s.rungs) (hfresh : orderId ∉ s.orders.map OrderRow.order_id)
    (hrungs : t.rungs = s.rungs.map fun r => r.shift 0 (drawn takes r.rung_no) 0)
    (hfills : t.fills = s.fills ++ reservations orderId takes)
    (horders : t.orders.map OrderRow.order_id = s.orders.map OrderRow.order_id ++ [orderId]) :
    Inventory t := by
  have hnew : ∀ f ∈ s.fills, f.order_id ≠ orderId := fun f hf heq => hfresh (heq ▸ h.known f hf)
  refine ⟨?_, fun r' hr' => ?_, fun f hf => ?_, ?_, fun f hf => ?_, fun f hf g hg heq => ?_⟩
  · rw [hrungs, List.map_map]
    exact h.rung_nos
  · rw [hrungs] at hr'
    obtain ⟨r, hr, rfl⟩ := List.mem_map.mp hr'
    have hbal := h.balanced r hr
    have hle := (hfits.drawn_le h.rung_nos hr hbal.avail).2
    rw [hfills]
    refine ⟨?_, ?_, ?_, ?_⟩
    · rw [held_append, held_reservations, if_pos rfl]
      simp only [Rung.shift, hbal.reserved]
    · rw [held_append, held_reservations, if_neg (by simp)]
      simp only [Rung.shift, hbal.sold]
    · simpa [Rung.shift] using hbal.retired
    · simp only [Rung.shift, Rung.avail] at hle ⊢
      omega
  · rw [hfills] at hf
    obtain hf | hf := List.mem_append.mp hf
    · exact h.qty f hf
    · obtain ⟨-, -, x, hx, hqty⟩ := mem_reservations hf
      obtain ⟨-, -, -, hpos, -⟩ := hfits.units x hx
      omega
  · rw [hfills, List.map_append, List.nodup_append]
    refine ⟨h.keys, ?_, ?_⟩
    · have hkeys : (reservations orderId takes).map Fill.key =
          (takes.map Take.rung_no).map fun no => (orderId, no) := by
        rw [reservations, List.map_map, List.map_map]
        rfl
      rw [hkeys]
      exact hfits.nodup.map fun _ _ heq => (Prod.mk.inj heq).2
    · intro k hk k' hk' heq
      obtain ⟨f, hf, rfl⟩ := List.mem_map.mp hk
      obtain ⟨g, hg, rfl⟩ := List.mem_map.mp hk'
      exact hnew f hf ((Prod.mk.inj heq).1.trans (mem_reservations hg).1)
  · rw [horders, List.mem_append]
    rw [hfills] at hf
    obtain hf | hf := List.mem_append.mp hf
    · exact .inl (h.known f hf)
    · exact .inr (by simp [(mem_reservations hf).1])
  · rw [hfills] at hf hg
    obtain hf | hf := List.mem_append.mp hf <;> obtain hg | hg := List.mem_append.mp hg
    · exact h.uniform f hf g hg heq
    · exact absurd (heq.trans (mem_reservations hg).1) (hnew f hf)
    · exact absurd (heq.symm.trans (mem_reservations hf).1) (hnew g hg)
    · rw [(mem_reservations hf).2.1, (mem_reservations hg).2.1]

/-! ### Settling and releasing -/

/-- What is moved of a rung when the fills of an order are. -/
def moved (fills : List Fill) (orderId : String) (rungNo : Nat) : Int :=
  (((fills.filter (Fill.isOpen orderId)).filter (Fill.rung_no · = rungNo)).map Fill.qty).sum

/-- A fill after `moveFills`. -/
def Fill.move (orderId : String) (toState : FillState) (f : Fill) : Fill :=
  if f.isOpen orderId then { f with state := toState } else f

theorem moved_cons (f : Fill) (fills : List Fill) (orderId : String) (rungNo : Nat) :
    moved (f :: fills) orderId rungNo =
      (if f.isOpen orderId ∧ f.rung_no = rungNo then f.qty else 0) +
        moved fills orderId rungNo := by
  simp only [moved, List.filter_cons]
  by_cases hopen : f.isOpen orderId <;> by_cases hno : f.rung_no = rungNo <;> simp [hopen, hno]

theorem held_move (orderId : String) {toState : FillState} (hto : toState ≠ .reserved)
    (fills : List Fill) (rungNo : Nat) (state : FillState) :
    held (fills.map (Fill.move orderId toState)) rungNo state =
      held fills rungNo state + (if state = toState then moved fills orderId rungNo else 0) -
        (if state = .reserved then moved fills orderId rungNo else 0) := by
  induction fills with
  | nil => simp [held, moved]
  | cons f fills ih =>
    rw [List.map_cons, held_cons, held_cons, ih, moved_cons]
    by_cases hopen : f.isOpen orderId
    · have hstate : f.state = .reserved := by
        simp only [Fill.isOpen, Bool.and_eq_true, decide_eq_true_eq] at hopen
        exact hopen.2
      by_cases hno : f.rung_no = rungNo <;>
        cases state <;> cases toState <;> simp_all [Fill.move] <;> omega
    · simp only [Fill.move, hopen, Bool.false_eq_true, if_false, false_and, zero_add]
      abel

theorem moved_nonneg {fills : List Fill} (h : ∀ f ∈ fills, 0 < f.qty) (orderId : String)
    (rungNo : Nat) : 0 ≤ moved fills orderId rungNo := by
  refine List.sum_nonneg fun n hn => ?_
  obtain ⟨f, hf, rfl⟩ := List.mem_map.mp hn
  exact (h f (List.mem_of_mem_filter (List.mem_of_mem_filter hf))).le

theorem Fill.move_of_closed {f : Fill} (h : f.state ≠ .reserved) (orderId : String)
    (toState : FillState) : f.move orderId toState = f := by
  simp [Fill.move, Fill.isOpen, h]

theorem Fill.move_key (orderId : String) (toState : FillState) (f : Fill) :
    (f.move orderId toState).key = f.key := by
  unfold Fill.move
  split <;> rfl

theorem Fill.move_qty (orderId : String) (toState : FillState) (f : Fill) :
    (f.move orderId toState).qty = f.qty := by
  unfold Fill.move
  split <;> rfl

/-- A fill moves out of `reserved` or stays as it is. -/
theorem Fill.mem_move {fills : List Fill} {f : Fill} (hf : f ∈ fills) (orderId : String)
    (toState : FillState) :
    ∃ state, { f with state := state } ∈ fills.map (Fill.move orderId toState) ∧
      (f.state ≠ .reserved → state = f.state) := by
  refine ⟨(f.move orderId toState).state, List.mem_map.mpr ⟨f, hf, ?_⟩, fun hne => ?_⟩
  · unfold Fill.move
    split <;> rfl
  · rw [Fill.move_of_closed hne]

theorem sum_neg_qty (fills : List Fill) :
    (fills.map fun f => -f.qty).sum = -(fills.map Fill.qty).sum := by
  rw [List.sum_neg, List.map_map]
  rfl

theorem settleLadder_spec (s : State) (orderId : String) :
    settleLadder s orderId = { s with
      fills := s.fills.map (Fill.move orderId .sold)
      rungs := s.rungs.map fun r =>
        let n := moved s.fills orderId r.rung_no
        r.shift n (-n) 0 } := by
  rw [settleLadder, moveFills,
    foldl_update_shift Fill.rung_no Fill.qty (fun f => -f.qty) fun _ => 0]
  simp only [moved, sum_neg_qty, List.sum_map_zero]
  rfl

theorem releaseLadder_spec (s : State) (orderId : String) :
    releaseLadder s orderId = { s with
      fills := s.fills.map (Fill.move orderId .released)
      rungs := s.rungs.map fun r => r.shift 0 (-moved s.fills orderId r.rung_no) 0 } := by
  rw [releaseLadder, moveFills,
    foldl_update_shift Fill.rung_no (fun _ => 0) (fun f => -f.qty) fun _ => 0]
  simp only [moved, sum_neg_qty, List.sum_map_zero]
  rfl

/-- The fills of an order move to a state, and the rungs with them. -/
theorem Inventory.move {s t : State} (h : Inventory s) (orderId : String) (toState : FillState)
    {g : Rung → Rung} (hno : ∀ r, (g r).rung_no = r.rung_no)
    (hbalanced : ∀ r ∈ s.rungs, r.Balanced s.fills →
      (g r).Balanced (s.fills.map (Fill.move orderId toState)))
    (hrungs : t.rungs = s.rungs.map g)
    (hfills : t.fills = s.fills.map (Fill.move orderId toState))
    (horders : t.orders.map OrderRow.order_id = s.orders.map OrderRow.order_id) :
    Inventory t := by
  have hid : ∀ f : Fill, (f.move orderId toState).order_id = f.order_id :=
    fun f => (Prod.mk.inj (Fill.move_key orderId toState f)).1
  refine ⟨?_, fun r' hr' => ?_, fun f' hf' => ?_, ?_, fun f' hf' => ?_, ?_⟩
  · rw [hrungs, List.map_map]
    have hnos : Rung.rung_no ∘ g = Rung.rung_no := funext hno
    rw [hnos]
    exact h.rung_nos
  · rw [hrungs] at hr'
    obtain ⟨r, hr, rfl⟩ := List.mem_map.mp hr'
    rw [hfills]
    exact hbalanced r hr (h.balanced r hr)
  · rw [hfills] at hf'
    obtain ⟨f, hf, rfl⟩ := List.mem_map.mp hf'
    rw [Fill.move_qty]
    exact h.qty f hf
  · rw [hfills, List.map_map]
    have hkeys : Fill.key ∘ Fill.move orderId toState = Fill.key :=
      funext (Fill.move_key orderId toState)
    rw [hkeys]
    exact h.keys
  · rw [hfills] at hf'
    obtain ⟨f, hf, rfl⟩ := List.mem_map.mp hf'
    rw [hid, horders]
    exact h.known f hf
  · rw [hfills]
    intro f' hf' g' hg' heq
    obtain ⟨f, hf, rfl⟩ := List.mem_map.mp hf'
    obtain ⟨g, hg, rfl⟩ := List.mem_map.mp hg'
    rw [hid, hid] at heq
    have hstate := h.uniform f hf g hg heq
    -- both fills are open, or neither is
    have hopen : f.isOpen orderId = g.isOpen orderId := by rw [Fill.isOpen, Fill.isOpen, heq, hstate]
    simp only [Fill.move, hopen]
    split
    · rfl
    · exact hstate

theorem Rung.Balanced.settle {fills : List Fill} {r : Rung} (h : r.Balanced fills)
    (orderId : String) :
    (r.shift (moved fills orderId r.rung_no) (-moved fills orderId r.rung_no) 0).Balanced
      (fills.map (Fill.move orderId .sold)) := by
  refine ⟨?_, ?_, ?_, ?_⟩
  · rw [held_move orderId (by simp)]
    simp [Rung.shift, h.reserved, sub_eq_add_neg]
  · rw [held_move orderId (by simp)]
    simp [Rung.shift, h.sold]
  · simpa [Rung.shift] using h.retired
  · have havail := h.avail
    simp only [Rung.shift, Rung.avail] at havail ⊢
    omega

theorem Rung.Balanced.release {fills : List Fill} {r : Rung} (h : r.Balanced fills)
    (hqty : ∀ f ∈ fills, 0 < f.qty) (orderId : String) :
    (r.shift 0 (-moved fills orderId r.rung_no) 0).Balanced
      (fills.map (Fill.move orderId .released)) := by
  refine ⟨?_, ?_, ?_, ?_⟩
  · rw [held_move orderId (by simp)]
    simp [Rung.shift, h.reserved, sub_eq_add_neg]
  · rw [held_move orderId (by simp)]
    simp [Rung.shift, h.sold]
  · simpa [Rung.shift] using h.retired
  · have havail := h.avail
    have hmoved := moved_nonneg hqty orderId r.rung_no
    simp only [Rung.shift, Rung.avail] at havail ⊢
    omega

/-! ### Retiring -/

theorem retireFromLadder_spec {rungs : List Rung} (h : (rungs.map Rung.rung_no).Nodup)
    (need : Int) : ∃ takes, Fits takes rungs ∧ retireFromLadder rungs need =
      (rungs.map fun r => r.shift 0 0 (drawn takes r.rung_no), (takes.map Take.units).sum) := by
  refine ⟨_, allocate_fits (fun taken _ => need - (taken.map Take.units).sum) h, ?_⟩
  rw [retireFromLadder]
  rw [foldl_update_shift Take.rung_no (fun _ => 0) (fun _ => 0) Take.units]
  simp only [drawn, List.sum_map_zero]

/-- What is left on the rungs. -/
def left (rungs : List Rung) : Int := (rungs.map fun r => max 0 r.avail).sum

theorem left_nonneg (rungs : List Rung) : 0 ≤ left rungs := by
  refine List.sum_nonneg fun n hn => ?_
  obtain ⟨r, -, rfl⟩ := List.mem_map.mp hn
  exact le_max_left _ _

theorem left_rungsWithStock (rungs : List Rung) : left (rungsWithStock rungs) = left rungs := by
  have hperm := (List.perm_insertionSort (fun r r' : Rung => r.rung_no ≤ r'.rung_no)
    (rungs.filter fun r => r.qty_sold + r.qty_reserved + r.qty_retired < r.qty_total)).map
      fun r => max 0 r.avail
  rw [left, rungsWithStock, hperm.sum_eq, left]
  clear hperm
  induction rungs with
  | nil => rfl
  | cons r rungs ih =>
    rw [List.filter_cons]
    split
    · simp only [List.map_cons, List.sum_cons, ih]
    · rename_i hnone
      have havail : r.avail ≤ 0 := by
        simp only [decide_eq_true_eq] at hnone
        simp only [Rung.avail]
        omega
      simp only [List.map_cons, List.sum_cons, ih, max_eq_left havail, zero_add]

/-- The loop takes what is needed, or all there is. -/
theorem allocate_sum (need : Int) (taken : List Take) (rungs : List Rung) :
    ((allocate (fun taken _ => need - (taken.map Take.units).sum) taken rungs).map Take.units).sum =
      min (max need (taken.map Take.units).sum) ((taken.map Take.units).sum + left rungs) := by
  induction rungs generalizing taken with
  | nil => simp [allocate, left]
  | cons r rungs ih =>
    have hcons : left (r :: rungs) = max 0 r.avail + left rungs := List.sum_cons
    have hnonneg := left_nonneg rungs
    rw [allocate]
    split
    · rw [ih, hcons]
      omega
    · dsimp only
      split
      · rw [hcons]
        omega
      · rw [ih, hcons]
        simp only [List.map_append, List.map_cons, List.map_nil, List.sum_append,
          List.sum_singleton]
        omega

theorem retireFromLadder_eq (rungs : List Rung) (need : Int) :
    (retireFromLadder rungs need).2 = min (max need 0) (left rungs) := by
  have hsum := allocate_sum need [] (rungsWithStock rungs)
  rw [left_rungsWithStock, List.map_nil, List.sum_nil, zero_add] at hsum
  exact hsum

theorem retireFromLadder_amount {rungs : List Rung} (h : (rungs.map Rung.rung_no).Nodup)
    (need : Int) :
    0 ≤ (retireFromLadder rungs need).2 ∧ (retireFromLadder rungs need).2 ≤ max need 0 := by
  have hfits := allocate_fits (fun taken _ => need - (taken.map Take.units).sum) h
  constructor
  · refine List.sum_nonneg fun n hn => ?_
    obtain ⟨x, hx, rfl⟩ := List.mem_map.mp hn
    obtain ⟨-, -, -, hpos, -⟩ := hfits.units x hx
    exact hpos.le
  · rw [retireFromLadder_eq]
    exact min_le_left _ _

/-- What is taken from the rungs one by one is what is taken in all. -/
theorem sum_drawn {takes : List Take} {rungs : List Rung} (h : (rungs.map Rung.rung_no).Nodup)
    (hmem : ∀ x ∈ takes, x.rung_no ∈ rungs.map Rung.rung_no) :
    (rungs.map fun r => drawn takes r.rung_no).sum = (takes.map Take.units).sum := by
  induction takes with
  | nil => simp [drawn]
  | cons x takes ih =>
    obtain ⟨r, hr, hno⟩ := List.mem_map.mp (hmem x List.mem_cons_self)
    have hdrawn : ∀ r' : Rung, drawn (x :: takes) r'.rung_no =
        (if r'.rung_no = r.rung_no then x.units else 0) + drawn takes r'.rung_no := by
      intro r'
      rw [hno]
      by_cases heq : r'.rung_no = x.rung_no
      · simp [drawn, heq]
      · simp [drawn, heq, Ne.symm heq]
    have hone : (rungs.map fun r' => if r'.rung_no = r.rung_no then x.units else 0).sum =
        x.units := by
      rw [List.sum_map_ite, table.filter_key_of_mem h hr]
      simp
    simp only [hdrawn, List.sum_map_add, hone, List.map_cons, List.sum_cons]
    rw [ih fun y hy => hmem y (List.mem_cons_of_mem _ hy)]

/-- What has been retired of the whole ladder. -/
def retiredUnits (rungs : List Rung) : Int := (rungs.map Rung.qty_retired).sum

/-- The counters of the rungs grow by what is retired. -/
theorem retiredUnits_retire {rungs : List Rung} (h : (rungs.map Rung.rung_no).Nodup) (need : Int) :
    retiredUnits (retireFromLadder rungs need).1 =
      retiredUnits rungs + (retireFromLadder rungs need).2 := by
  obtain ⟨takes, hfits, hretire⟩ := retireFromLadder_spec h need
  have hmem : ∀ x ∈ takes, x.rung_no ∈ rungs.map Rung.rung_no := by
    intro x hx
    obtain ⟨r, hr, hno, -⟩ := hfits.units x hx
    exact List.mem_map.mpr ⟨r, hr, hno⟩
  rw [hretire, ← sum_drawn h hmem, retiredUnits, retiredUnits, ← List.sum_map_add, List.map_map]
  rfl

theorem Inventory.retire {s t : State} (h : Inventory s) {takes : List Take}
    (hfits : Fits takes s.rungs)
    (hrungs : t.rungs = s.rungs.map fun r => r.shift 0 0 (drawn takes r.rung_no))
    (hfills : t.fills = s.fills)
    (horders : t.orders.map OrderRow.order_id = s.orders.map OrderRow.order_id) :
    Inventory t := by
  refine ⟨?_, fun r' hr' => ?_, hfills ▸ h.qty, hfills ▸ h.keys, ?_, hfills ▸ h.uniform⟩
  · rw [hrungs, List.map_map]
    exact h.rung_nos
  · rw [hrungs] at hr'
    obtain ⟨r, hr, rfl⟩ := List.mem_map.mp hr'
    have hbal := h.balanced r hr
    obtain ⟨hdrawn, hle⟩ := hfits.drawn_le h.rung_nos hr hbal.avail
    have hretired := hbal.retired
    rw [hfills]
    refine ⟨?_, ?_, ?_, ?_⟩
    · simpa [Rung.shift] using hbal.reserved
    · simpa [Rung.shift] using hbal.sold
    · simp only [Rung.shift]
      omega
    · simp only [Rung.shift, Rung.avail] at hle ⊢
      omega
  · rw [hfills, horders]
    exact h.known

/-! ### Runs -/

/-- What a step does to the rungs, the fills and the ids of the orders. -/
inductive Moves (s : State) (e : Event) (t : State) : Prop
  | idle (hrungs : t.rungs = s.rungs) (hfills : t.fills = s.fills)
      (horders : t.orders.map OrderRow.order_id = s.orders.map OrderRow.order_id)
  | reserve (orderId : String) (takes : List Take) (hfits : Fits takes s.rungs)
      (hfresh : orderId ∉ s.orders.map OrderRow.order_id)
      (hrungs : t.rungs = s.rungs.map fun r => r.shift 0 (drawn takes r.rung_no) 0)
      (hfills : t.fills = s.fills ++ reservations orderId takes)
      (horders : t.orders.map OrderRow.order_id = s.orders.map OrderRow.order_id ++ [orderId])
  | settle (orderId : String)
      (hrungs : t.rungs = s.rungs.map fun r =>
        r.shift (moved s.fills orderId r.rung_no) (-moved s.fills orderId r.rung_no) 0)
      (hfills : t.fills = s.fills.map (Fill.move orderId .sold))
      (horders : t.orders.map OrderRow.order_id = s.orders.map OrderRow.order_id)
  | release (orderId : String)
      (hrungs : t.rungs = s.rungs.map fun r => r.shift 0 (-moved s.fills orderId r.rung_no) 0)
      (hfills : t.fills = s.fills.map (Fill.move orderId .released))
      (horders : t.orders.map OrderRow.order_id = s.orders.map OrderRow.order_id)
  | retire (need : Int) (he : e = .retire need) (takes : List Take) (hfits : Fits takes s.rungs)
      (hrungs : t.rungs = s.rungs.map fun r => r.shift 0 0 (drawn takes r.rung_no))
      (hfills : t.fills = s.fills)
      (horders : t.orders.map OrderRow.order_id = s.orders.map OrderRow.order_id)

section

variable {s t : State} {e : Event}

theorem ids_updateOrder (s : State) (orderId : String) {f : OrderRow → OrderRow}
    (hf : ∀ o, (f o).order_id = o.order_id) :
    (s.updateOrder orderId f).orders.map OrderRow.order_id = s.orders.map OrderRow.order_id :=
  table.map_update fun o _ _ => hf o

theorem moves_settle (orderId : String) (hrungs : t.rungs = s.rungs) (hfills : t.fills = s.fills)
    (horders : t.orders.map OrderRow.order_id = s.orders.map OrderRow.order_id) :
    Moves s e (settleLadder t orderId) := by
  rw [settleLadder_spec]
  refine .settle orderId ?_ ?_ horders
  · rw [hrungs, hfills]
  · rw [hfills]

theorem moves_release (orderId : String) (hrungs : t.rungs = s.rungs) (hfills : t.fills = s.fills)
    (horders : t.orders.map OrderRow.order_id = s.orders.map OrderRow.order_id) :
    Moves s e (releaseLadder t orderId) := by
  rw [releaseLadder_spec]
  refine .release orderId ?_ ?_ horders
  · rw [hrungs, hfills]
  · rw [hfills]

theorem moves_expire (orderId : String) (owner : Option String) :
    Moves s e (expireWithRelease s orderId owner) := by
  unfold expireWithRelease
  split
  · exact .idle rfl rfl rfl
  · split
    · exact moves_release orderId rfl rfl (ids_updateOrder s orderId fun _ => rfl)
    · exact .idle rfl rfl rfl

theorem moves_sweepOrder (committed : Bool) (sweep : Sweep) :
    Moves s e (sweepOrder s committed sweep).1 := by
  unfold sweepOrder
  split
  · dsimp only
    split
    · exact moves_expire _ none
    · exact .idle rfl rfl rfl
  · split
    · exact moves_release _ rfl rfl rfl
    · exact .idle rfl rfl rfl
  · split
    · exact moves_settle _ rfl rfl rfl
    · exact .idle rfl rfl rfl
  · exact .idle rfl rfl rfl

/-- The sweeps under way are no part of the inventory. -/
theorem Moves.with_sweeps {sweeps : List (Nat × Sweep)} (h : Moves s e t) :
    Moves s e { t with sweeps := sweeps } := by
  cases h with
  | idle hrungs hfills horders => exact .idle hrungs hfills horders
  | reserve orderId takes hfits hfresh hrungs hfills horders =>
    exact .reserve orderId takes hfits hfresh hrungs hfills horders
  | settle orderId hrungs hfills horders => exact .settle orderId hrungs hfills horders
  | release orderId hrungs hfills horders => exact .release orderId hrungs hfills horders
  | retire need he takes hfits hrungs hfills horders =>
    exact .retire need he takes hfits hrungs hfills horders

theorem moves_of_step (hnos : (s.rungs.map Rung.rung_no).Nodup) (hstep : step s e = some t) :
    Moves s e t := by
  cases e with
  | buy orderId email usd price want =>
    simp only [step, Option.bind_eq_bind, Option.bind_eq_some_iff] at hstep
    obtain ⟨_, hguard, ⟨u, pcn⟩, hreserve, hstep⟩ := hstep
    obtain rfl := Option.some.inj hstep
    obtain ⟨takes, hfits, rfl⟩ := reserveLadder_spec hnos hreserve
    exact .reserve orderId takes hfits (by simpa [guard] using hguard) rfl rfl (List.map_append ..)
  | settle orderId f =>
    obtain rfl := Option.some.inj hstep
    exact moves_settle orderId rfl rfl (ids_updateOrder s orderId fun _ => rfl)
  | release orderId f =>
    obtain rfl := Option.some.inj hstep
    exact moves_release orderId rfl rfl (ids_updateOrder s orderId fun _ => rfl)
  | expire orderId owner =>
    obtain rfl := Option.some.inj hstep
    exact moves_expire orderId owner
  | retire need =>
    obtain rfl := Option.some.inj hstep
    obtain ⟨takes, hfits, hretire⟩ := retireFromLadder_spec hnos need
    exact .retire need rfl takes hfits (congrArg Prod.fst hretire) rfl rfl
  | update orderId f =>
    obtain rfl := Option.some.inj hstep
    exact .idle rfl rfl (ids_updateOrder s orderId fun _ => rfl)
  | sweepNext id committed =>
    simp only [step, Option.bind_eq_bind, Option.bind_eq_some_iff] at hstep
    obtain ⟨⟨_, sweep⟩, -, hstep⟩ := hstep
    dsimp only at hstep
    split at hstep <;> obtain rfl := Option.some.inj hstep
    · exact (moves_sweepOrder committed sweep).with_sweeps
    · exact (moves_sweepOrder committed sweep).with_sweeps
  | sweep | tick | crash =>
    obtain rfl := Option.some.inj hstep
    exact .idle rfl rfl rfl

theorem Moves.inventory (h : Inventory s) (hmoves : Moves s e t) : Inventory t := by
  cases hmoves with
  | idle hrungs hfills horders =>
    refine ⟨hrungs ▸ h.rung_nos, ?_, hfills ▸ h.qty, hfills ▸ h.keys, ?_, hfills ▸ h.uniform⟩
    · rw [hrungs, hfills]
      exact h.balanced
    · rw [hfills, horders]
      exact h.known
  | reserve orderId takes hfits hfresh hrungs hfills horders =>
    exact h.reserve hfits hfresh hrungs hfills horders
  | settle orderId hrungs hfills horders =>
    refine h.move orderId .sold ?_ ?_ hrungs hfills horders
    · exact fun _ => rfl
    · exact fun r _ hbal => hbal.settle orderId
  | release orderId hrungs hfills horders =>
    refine h.move orderId .released ?_ ?_ hrungs hfills horders
    · exact fun _ => rfl
    · exact fun r _ hbal => hbal.release h.qty orderId
  | retire need he takes hfits hrungs hfills horders =>
    exact h.retire hfits hrungs hfills horders

theorem Moves.kept (hmoves : Moves s e t) : Kept s t := by
  cases hmoves with
  | idle hrungs hfills => exact .of_subset (hfills ▸ List.Subset.refl _)
  | reserve orderId takes hfits hfresh hrungs hfills =>
    exact .of_subset (hfills ▸ List.subset_append_left _ _)
  | settle orderId hrungs hfills =>
    intro f hf
    rw [hfills]
    exact Fill.mem_move hf orderId .sold
  | release orderId hrungs hfills =>
    intro f hf
    rw [hfills]
    exact Fill.mem_move hf orderId .released
  | retire need he takes hfits hrungs hfills => exact .of_subset (hfills ▸ List.Subset.refl _)

theorem retiredUnits_shift (rungs : List Rung) (a b : Rung → Int) :
    retiredUnits (rungs.map fun r => r.shift (a r) (b r) 0) = retiredUnits rungs := by
  rw [retiredUnits, retiredUnits, List.map_map]
  exact congrArg List.sum (List.map_congr_left fun r _ => add_zero r.qty_retired)

/-- Only retirement moves what is retired. -/
theorem Moves.retiredUnits_eq (he : ∀ need, e ≠ .retire need) (hmoves : Moves s e t) :
    retiredUnits t.rungs = retiredUnits s.rungs := by
  cases hmoves with
  | idle hrungs => rw [hrungs]
  | reserve orderId takes hfits hfresh hrungs => rw [hrungs, retiredUnits_shift]
  | settle orderId hrungs => rw [hrungs, retiredUnits_shift]
  | release orderId hrungs => rw [hrungs, retiredUnits_shift]
  | retire need heq => exact absurd heq (he need)

end

theorem inventory_steps {s t : State} (h : Inventory s)
    (hrun : run.Steps step (fun _ _ => True) s t) : Inventory t ∧ Kept s t := by
  induction hrun with
  | refl => exact ⟨h, .refl s⟩
  | tail _ _ hstep ih =>
    have hmoves := moves_of_step ih.1.rung_nos hstep
    exact ⟨hmoves.inventory ih.1, ih.2.trans hmoves.kept⟩

/-- The ladder as it is seeded. -/
structure Fresh (s : State) : Prop where
  rung_nos : (s.rungs.map Rung.rung_no).Nodup
  counters : ∀ r ∈ s.rungs, 0 ≤ r.qty_total ∧ r.qty_sold = 0 ∧ r.qty_reserved = 0 ∧
    r.qty_retired = 0
  fills : s.fills = []

theorem Fresh.inventory {s : State} (h : Fresh s) : Inventory s := by
  have hheld : ∀ no state, held s.fills no state = 0 := fun no state => by simp [h.fills, held]
  refine ⟨h.rung_nos, fun r hr => ?_, ?_, ?_, ?_, ?_⟩
  · obtain ⟨htotal, hsold, hreserved, hretired⟩ := h.counters r hr
    refine ⟨?_, ?_, ?_, ?_⟩
    · rw [hheld, hreserved]
    · rw [hheld, hsold]
    · rw [hretired]
    · rw [Rung.avail, hsold, hreserved, hretired]
      omega
  all_goals simp [h.fills]

theorem Inventory.held_nonneg {s : State} (h : Inventory s) (no : Nat) (state : FillState) :
    0 ≤ held s.fills no state := by
  refine List.sum_nonneg fun n hn => ?_
  obtain ⟨f, hf, rfl⟩ := List.mem_map.mp hn
  exact (h.qty f (List.mem_of_mem_filter hf)).le

/-- Whatever order the transactions of the ladder come in, the counters of every rung are
the sums of its fills and stay within the rung, the fills of an order move together, and a
fill that has left `reserved` stays as it is. -/
theorem inventory_conserved {s t : State} (hfresh : Fresh s)
    (hrun : run.Steps step (fun _ _ => True) s t) :
    (∀ r ∈ t.rungs,
      r.qty_reserved = held t.fills r.rung_no .reserved ∧
      r.qty_sold = held t.fills r.rung_no .sold ∧
      0 ≤ r.qty_sold ∧ 0 ≤ r.qty_reserved ∧ 0 ≤ r.qty_retired ∧
      r.qty_sold + r.qty_reserved + r.qty_retired ≤ r.qty_total) ∧
    (∀ f ∈ t.fills, 0 < f.qty) ∧
    (t.fills.map Fill.key).Nodup ∧
    (∀ f ∈ t.fills, ∀ g ∈ t.fills, f.order_id = g.order_id → f.state = g.state) ∧
    ∀ u, run.Steps step (fun _ _ => True) t u → ∀ f ∈ t.fills,
      ∃ state, { f with state := state } ∈ u.fills ∧ (f.state ≠ .reserved → state = f.state) := by
  have hinv := (inventory_steps hfresh.inventory hrun).1
  refine ⟨fun r hr => ?_, hinv.qty, hinv.keys, hinv.uniform,
    fun u hlater => (inventory_steps hinv hlater).2⟩
  have hbal := hinv.balanced r hr
  have havail := hbal.avail
  rw [Rung.avail] at havail
  refine ⟨hbal.reserved, hbal.sold, ?_, ?_, hbal.retired, by omega⟩
  · rw [hbal.sold]
    exact hinv.held_nonneg r.rung_no .sold
  · rw [hbal.reserved]
    exact hinv.held_nonneg r.rung_no .reserved

/-- Two rungs of ten units. -/
def seeded : State := { rungs := [{ rung_no := 0, qty_total := 10 }, { rung_no := 1, qty_total := 10 }] }

/-- Twelve units are sold over both rungs, five more are reserved and swept, and four are
retired. -/
def traded : List Event :=
  [.buy "a" "ann" 100 1 fun taken _ => 12 - (taken.map Take.units).sum,
    .buy "b" "bob" 50 1 fun taken _ => 5 - (taken.map Take.units).sum,
    .settle "a" fun o => { o with status := .awaiting_delivery },
    .tick, .tick, .tick, .sweep, .sweepNext 0 true, .sweepNext 0 true, .retire 4, .crash]

theorem inventory_conserved_traded :
    Fresh seeded ∧ ∃ t, run.exec step seeded traded = some t ∧
      t.rungs.map (fun r => (r.qty_sold, r.qty_reserved, r.qty_retired)) = [(10, 0, 0), (2, 0, 4)] ∧
      t.fills.map Fill.state = [.sold, .sold, .released] ∧
      ∀ f ∈ t.fills, ∀ g ∈ t.fills, f.order_id = g.order_id → f.state = g.state := by
  have hfresh : Fresh seeded := ⟨by decide, by decide, rfl⟩
  obtain ⟨t, hexec⟩ : ∃ t, run.exec step seeded traded = some t :=
    Option.isSome_iff_exists.mp (by decide +kernel)
  refine ⟨hfresh, t, hexec, ?_, ?_, ?_⟩
  · have hrungs : ((run.exec step seeded traded).map fun t =>
        t.rungs.map fun r => (r.qty_sold, r.qty_reserved, r.qty_retired)) =
          some [(10, 0, 0), (2, 0, 4)] := by decide +kernel
    rw [hexec] at hrungs
    exact Option.some.inj hrungs
  · have hfills : ((run.exec step seeded traded).map fun t => t.fills.map Fill.state) =
        some [.sold, .sold, .released] := by decide +kernel
    rw [hexec] at hfills
    exact Option.some.inj hfills
  · exact (inventory_conserved hfresh
      (run.steps_of_exec traded hexec (run.meets_true seeded traded))).2.2.2.1

end pcoin.market.ladder
