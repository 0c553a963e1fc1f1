import PCoin.Keeper.Live
import Mathlib.Algebra.BigOperators.Group.List.Basic

namespace pcoin.peg

open run (Prog Routine Steps Surroundings)

variable {w : World} {n : Nat} {s : Site} {st : Ledger} {chain : List Swap} {next : Prog Ledger Trade}

/-! ### The ledger against the chain -/

/-- The ledger is of the day of the last swap, and has all that was spent on it. -/
structure Booked (st : Ledger) (chain : List Swap) : Prop where
  day : st.day = chain.getLast?.map Swap.day
  spent : ∀ d ∈ st.day, ∀ buying, spentOn chain buying d ≤ st.spent buying
  past : ∀ d ∈ st.day, ∀ x ∈ chain, x.day ≤ d

theorem booked_fresh : Booked {} [] where
  day := rfl
  spent _ hd := nomatch hd
  past _ hd := nomatch hd

theorem Booked.nagged {nagged : List Nagged} (h : Booked st chain) :
    Booked { st with nagged := nagged } chain :=
  ⟨h.day, h.spent, h.past⟩

theorem spentOn_append (past : List Swap) (x : Swap) (buying : Bool) (day : Nat) :
    spentOn (past ++ [x]) buying day =
      spentOn past buying day + if x.buying = buying ∧ x.day = day then x.amount else 0 := by
  unfold spentOn
  rw [List.filter_append, List.map_append, List.sum_append]
  congr 1
  by_cases h : x.buying = buying ∧ x.day = day <;> simp [h]

theorem spentOn_eq_zero {buying : Bool} {day : Nat} (h : ∀ x ∈ chain, x.day ≠ day) :
    spentOn chain buying day = 0 := by
  unfold spentOn
  rw [List.filter_eq_nil_iff.mpr fun x hx hday => h x hx (of_decide_eq_true hday).2]
  rfl

/-- The ledger of a day that the chain has come to has all that was spent on it. -/
structure Ready (today : Nat) (st : Ledger) (chain : List Swap) : Prop where
  day : st.day = some today
  spent : (∀ y ∈ chain.getLast?, y.day ≤ today) →
    (∀ buying, spentOn chain buying today ≤ st.spent buying) ∧ ∀ x ∈ chain, x.day ≤ today

theorem Booked.ready (h : Booked st chain) (today : Nat) : Ready today (st.on today) chain := by
  unfold Ledger.on
  split
  · rename_i hday
    exact ⟨hday, fun _ => ⟨h.spent today hday, h.past today hday⟩⟩
  · rename_i hother
    refine ⟨rfl, fun hreached => ?_⟩
    have hearlier : ∀ x ∈ chain, x.day < today := by
      intro x hx
      obtain ⟨y, hy⟩ : ∃ y, chain.getLast? = some y :=
        Option.isSome_iff_exists.mp (List.getLast?_isSome.mpr (List.ne_nil_of_mem hx))
      have hday : st.day = some y.day := by rw [h.day, hy]; rfl
      have hne : y.day ≠ today := fun heq => hother (heq ▸ hday)
      exact lt_of_le_of_lt (h.past _ hday x hx) (lt_of_le_of_ne (hreached y hy) hne)
    refine ⟨fun buying => ?_, fun x hx => (hearlier x hx).le⟩
    rw [spentOn_eq_zero fun x hx => (hearlier x hx).ne]
    cases buying <;> rfl

/-- A trade that was saved is booked. -/
theorem Ready.spend {today : Nat} {x : Swap} {budget : ℚ} (h : Ready today st chain)
    (hreached : ∀ y ∈ chain.getLast?, y.day ≤ today) (hday : x.day = today)
    (hamount : x.amount ≤ budget) : Booked (st.spend x.buying budget) (chain ++ [x]) := by
  obtain ⟨hspent, hpast⟩ := h.spent hreached
  have hsame : (st.spend x.buying budget).day = some today := h.day
  refine ⟨?_, fun d hd buying => ?_, fun d hd y hy => ?_⟩
  · rw [hsame, List.getLast?_append, ← hday]
    rfl
  · obtain rfl : today = d := Option.some.inj (hsame.symm.trans hd)
    rw [spentOn_append]
    have hbefore := hspent buying
    cases buying <;> cases x.buying <;>
    · simp only [Ledger.spent, Ledger.spend, hday, Bool.false_eq_true, reduceCtorEq, if_true,
        if_false, true_and, false_and] at hbefore ⊢
      linarith
  · obtain rfl : today = d := Option.some.inj (hsame.symm.trans hd)
    obtain hy | hy := List.mem_append.mp hy
    · exact hpast y hy
    · rw [List.mem_singleton.mp hy, hday]

/-! ### The budget against the limits -/

theorem units_pos (buying : Bool) : 0 < units buying := by
  cases buying <;> norm_num [units]

/-- No more is spent than the budget. -/
theorem amt_in_le (buying : Bool) (budget : ℚ) : (amt_in buying budget : ℚ) / units buying ≤ budget :=
  (div_le_iff₀ (units_pos buying)).mpr (Int.floor_le _)

theorem run_budget_within {t : Tuning} {buying : Bool} {want spent_today have_ : ℚ}
    (h : 0 < run_budget t buying want spent_today have_) :
    spent_today + run_budget t buying want spent_today have_ ≤ t.daily_cap buying ∧
      run_budget t buying want spent_today have_ ≤ t.max_per_run buying ∧
      t.floor buying ≤ have_ - run_budget t buying want spent_today have_ := by
  have hbudget : run_budget t buying want spent_today have_ =
      min want (min (t.max_per_run buying) (min (t.daily_cap buying - spent_today)
        (max 0 (have_ - t.floor buying)))) := by
    cases buying <;> rfl
  have hcap := hbudget.trans_le ((min_le_right _ _).trans (min_le_left _ _))
  have hday := hbudget.trans_le ((min_le_right _ _).trans ((min_le_right _ _).trans (min_le_left _ _)))
  have hfloat := hbudget.trans_le
    ((min_le_right _ _).trans ((min_le_right _ _).trans (min_le_right _ _)))
  have hleft : max 0 (have_ - t.floor buying) = have_ - t.floor buying :=
    max_eq_right (not_lt.mp fun hneg => by
      rw [max_eq_left hneg.le] at hfloat
      linarith)
  rw [hleft] at hfloat
  exact ⟨by linarith, hcap, by linarith⟩

/-! ### The run -/

/-- What holds of the file and the chain wherever a run may stop. -/
structure Sound (n : Nat) (s : Site) : Prop where
  within : s.Within
  booked : Booked (s.file.getD {}) s.chain
  runs : ∀ x ∈ s.chain, x.run ≤ n

/-- The chain has a swap of this run. -/
def Swapped (n : Nat) (s : Site) : Prop := ∃ x ∈ s.chain.getLast?, x.run = n

/-- A swap is executed if it is answered. -/
def Executes (s t : Site) (x : Swap) : Bool → Prop
  | true => s.reaches x.day ∧ t = { s with chain := s.chain ++ [x] }
  | false => t = s

/-- A run on the file and the chain, whose swap is answered on the day that it has named. -/
def around (w : World) (n : Nat) : Surroundings Act Act.Reply Site where
  step s a r t := match a, r with
    | .load, r => r = s.file.getD {} ∧ t = s
    | .save st, _ => t = { s with file := some st }
    | .swap buying amt_in, r => Executes s t ⟨n, w, w.today, buying, amt_in⟩ r
    | _, _ => t = s
  rely _ s t := t = s
  wait a s := match a with
    | .save _ => Sound n s ∨ s.Within ∧ Swapped n s
    | _ => Sound n s
  meet _ _ _ := True

/-- The run goes well from here, and ends well. -/
def Goes (w : World) (n : Nat) (p : Live) (s : Site) : Prop :=
  (around w n).Ensures (fun _ => Sound n) (fun _ => Sound n) p s

theorem goes_load {f : Ledger → Live} (hs : Sound n s) (h : Goes w n (f (s.file.getD {})) s) :
    Goes w n (.act .load f) s := by
  rintro _ rfl
  refine ⟨hs, ?_⟩
  rintro r t ⟨rfl, rfl⟩
  exact ⟨trivial, h⟩

theorem goes_save {f : Unit → Live} (hs : Sound n s ∨ s.Within ∧ Swapped n s)
    (h : Goes w n (f ()) { s with file := some st }) : Goes w n (.act (.save st) f) s := by
  rintro _ rfl
  refine ⟨hs, ?_⟩
  rintro r t rfl
  exact ⟨trivial, h⟩

/-- The approval changes nothing of the file and of the swaps. -/
theorem approves_ensures (buying : Bool) (amt_in : ℤ) (hs : Sound n s) :
    (around w n).Ensures (fun _ t => t = s) (fun _ t => t = s) (approves buying amt_in) s := by
  have hreceipt : ∀ ok, (around w n).Ensures (fun _ t => t = s) (fun _ t => t = s) (receipt ok) s :=
    fun ok => by cases ok <;> rfl
  rintro _ rfl
  refine ⟨hs, ?_⟩
  rintro allowance _ rfl
  refine ⟨trivial, ?_⟩
  dsimp only
  split
  · rintro _ rfl
    refine ⟨hs, ?_⟩
    rintro ok _ rfl
    exact ⟨trivial, hreceipt ok⟩
  · rfl

/-- A trade that is executed, and answered. -/
theorem execute_ensures (o : Trade) (hs : Sound n s) :
    (around w n).Ensures
      (fun _ t => Executes s t ⟨n, w, w.today, o.buying, amt_in o.buying o.amount⟩ true)
      (fun _ t => t = s) (execute o) s := by
  refine (approves_ensures o.buying _ hs).bind ?_
  rintro _ _ rfl
  rintro _ rfl
  refine ⟨hs, ?_⟩
  rintro ok t ht
  refine ⟨trivial, ?_⟩
  cases ok with
  | true => exact ht
  | false => exact ht

theorem Sound.nagged {nagged : List Nagged} (h : Sound n s) :
    Sound n { s with file := some { s.file.getD {} with nagged := nagged } } :=
  ⟨⟨h.within.within, h.within.runs⟩, h.booked.nagged, h.runs⟩

/-- An alert leaves the swaps, and what is booked of them. -/
theorem notify_goes {alert : Alert} (hs : Sound n s)
    (h : ∀ t : Site, t.chain = s.chain → Sound n t → Goes w n (live next) t) :
    Goes w n (live (notify_throttled w alert next)) s := by
  refine goes_load hs ?_
  dsimp only
  split
  · exact h s rfl hs
  · exact goes_save (.inl hs) (h _ rfl hs.nagged)

/-- A swap within its limits, of a run that has none yet. -/
theorem Site.Within.append {x : Swap} (h : s.Within) (hx : x.Within s.chain)
    (hrun : ∀ y ∈ s.chain, y.run ≠ x.run) : Site.Within { s with chain := s.chain ++ [x] } := by
  refine ⟨fun past y rest heq => ?_, ?_⟩
  · obtain rfl | ⟨rest, z, rfl⟩ := List.eq_nil_or_concat' rest
    · obtain ⟨rfl, hlast⟩ := List.append_inj' heq rfl
      exact List.singleton_inj.mp hlast ▸ hx
    · rw [← List.cons_append, ← List.append_assoc] at heq
      exact h.within past y rest (List.append_inj' heq rfl).1
  · rw [List.map_append, List.nodup_append]
    refine ⟨h.runs, List.nodup_singleton _, ?_⟩
    intro r hr r' hr' heq
    obtain ⟨y, hy, rfl⟩ := List.mem_map.mp hr
    exact hrun y hy (heq.trans (List.mem_singleton.mp hr'))

theorem trade_goes {t : Tuning} {have_ : ℚ × ℚ} {buying : Bool} {want budget : ℚ}
    (hs : Sound n s) (hbefore : ∀ x ∈ s.chain, x.run < n) (hready : Ready w.today st s.chain)
    (ht : w.tuning = some t) (hfloat : w.float = some have_)
    (hbudget : budget = run_budget t buying want (st.spent buying)
      (if buying then have_.1 else have_.2)) :
    Goes w n (live (trade { w with swaps := true } buying budget st)) s := by
  unfold trade
  split
  · exact notify_goes hs fun _ _ ht => ht
  rename_i hpositive
  split
  · exact hs
  refine ((execute_ensures ⟨buying, budget⟩ hs).mono (fun _ _ h => h) fun _ _ h => h ▸ hs).bind ?_
  rintro _ _ ⟨hreached, rfl⟩
  have hamount := amt_in_le buying budget
  obtain ⟨hday, hrun, hfloor⟩ := run_budget_within (hbudget ▸ not_le.mp hpositive)
  rw [← hbudget] at hday hrun hfloor
  have hx : Swap.Within s.chain ⟨n, w, w.today, buying, amt_in buying budget⟩ := by
    have hspent := (hready.spent hreached).1 buying
    exact ⟨t, ht, have_, hfloat, (add_le_add hspent hamount).trans hday, hamount.trans hrun,
      hfloor.trans (sub_le_sub_left hamount _)⟩
  have hwithin := hs.within.append hx fun y hy => (hbefore y hy).ne
  refine goes_save (.inr ⟨hwithin, ⟨_, List.getLast?_concat, rfl⟩⟩) ?_
  refine ⟨⟨hwithin.within, hwithin.runs⟩, ?_, fun y hy => ?_⟩
  · exact hready.spend (x := ⟨n, w, w.today, buying, amt_in buying budget⟩) hreached rfl hamount
  · obtain hy | hy := List.mem_append.mp hy
    · exact (hbefore y hy).le
    · exact (List.mem_singleton.mp hy ▸ le_refl n)

theorem aim_tuning {t : Tuning} {w_res u_res : ℚ} {buying : Bool} {target : ℚ}
    (h : aim w = .trades t w_res u_res buying target) : w.tuning = some t := by
  unfold aim at h
  split at h
  · cases h
  next t' htuning =>
    rw [htuning]
    congr 1
    split at h
    · cases h
    split at h
    · cases h
    split at h
    · cases h
    dsimp only at h
    split at h
    · cases h
    split at h
    · cases h
    split at h <;> cases h
    rfl

/-- A run goes well, whatever it reads, from where no run has gone wrong. -/
theorem trades_goes (hs : Sound n s) (hbefore : ∀ x ∈ s.chain, x.run < n) :
    Goes w n (trades w) s := by
  unfold trades main
  split
  · exact hs
  · exact notify_goes hs fun _ _ ht => ht
  rename_i t w_res u_res buying target haim
  have ht : w.tuning = some t := aim_tuning (w := { w with swaps := true }) haim
  refine goes_load hs ?_
  unfold act
  dsimp only
  split
  · exact hs
  rename_i have_ hfloat
  split
  · exact hs
  have hready := hs.booked.ready w.today
  split
  · exact notify_goes hs fun t' hchain ht' => trade_goes ht' (hchain ▸ hbefore) (hchain ▸ hready)
      ht hfloat rfl
  · exact trade_goes hs hbefore hready ht hfloat rfl

/-! ### The runs, one after another -/

/-- The run that is going goes well from here. -/
def Keeper.Inv (s : Keeper) : Prop :=
  match s.running with
  | none => Sound s.runs s.site
  | some r => Goes r.world s.runs r.program s.site

theorem Sound.mono {m : Nat} (h : Sound n s) (hle : n ≤ m) : Sound m s :=
  ⟨h.within, h.booked, fun x hx => (h.runs x hx).trans hle⟩

theorem inv_fresh : Keeper.Inv {} where
  within := ⟨fun past x rest h => (by cases past <;> cases h), List.nodup_nil⟩
  booked := booked_fresh
  runs _ hx := nomatch hx

/-- Wherever a run may stop, its swaps were within the limits. -/
theorem Goes.within {p : Live} (h : Goes w n p s) : s.Within := by
  cases p with
  | done a => exact Sound.within h
  | fail e => exact Sound.within h
  | act a k =>
    have hwait := (h s rfl).1
    cases a with
    | save st => exact hwait.elim Sound.within And.left
    | _ => exact Sound.within hwait

theorem Keeper.Inv.within {s : Keeper} (h : s.Inv) : s.site.Within := by
  unfold Keeper.Inv at h
  split at h
  · exact h.within
  · exact Goes.within h

/-- A run that owes nothing leaves all booked. -/
theorem Goes.leave {s : Keeper} {r : Running} (hrunning : s.running = some r)
    (h : Goes r.world s.runs r.program s.site) (howes : ¬s.Owes) : Sound s.runs s.site := by
  obtain ⟨w, p⟩ := r
  cases p with
  | done a => exact h
  | fail e => exact h
  | act a k =>
    have hwait := (h s.site rfl).1
    cases a with
    | save st =>
      refine hwait.resolve_right fun hswapped => howes ?_
      rw [Keeper.Owes, hrunning]
      exact hswapped.2
    | _ => exact hwait

theorem Goes.act {a : Act} {k : a.Reply → Live} {r : a.Reply} {t : Site}
    (h : Goes w n (.act a k) s) (hstep : (around w n).step s a r t) : Goes w n (k r) t :=
  ((h s rfl).2 r t hstep).2

/-- The run that is going, before a step of it. -/
theorem Keeper.Inv.goes {s : Keeper} {r : Running} (h : s.Inv) (hrunning : s.running = some r) :
    Goes r.world s.runs r.program s.site := by
  rw [Keeper.Inv, hrunning] at h
  exact h

theorem Keeper.Inv.swapped {s t : Keeper} {buying : Bool} {amt_in : ℤ} {k : Bool → Live} {fate : Fate}
    (h : s.Inv) (hrunning : s.running = some ⟨w, .act (.swap buying amt_in) k⟩)
    (hok : Kept s (.swap fate))
    (hstep : s.swapped w ⟨s.runs, w, 0, buying, amt_in⟩ k fate = some t) : t.Inv := by
  have hgoes := h.goes hrunning
  cases fate with
  | answered day =>
    obtain rfl : day = w.today := hok _ hrunning
    simp only [Keeper.swapped, Keeper.lands] at hstep
    split at hstep
    · cases hstep
      exact hgoes.act (a := .swap buying amt_in) (r := true) ⟨‹_›, rfl⟩
    · cases hstep
  | unanswered day => exact hok.elim
  | flying =>
    cases hstep
    exact hgoes.act (a := .swap buying amt_in) (r := false) rfl
  | failed =>
    cases hstep
    exact hgoes.act (a := .swap buying amt_in) (r := false) rfl

/-- A step that is kept leaves the runs going well. -/
theorem Keeper.Inv.step {s t : Keeper} {e : Event} (h : s.Inv) (hok : Kept s e)
    (hstep : s.step e = some t) : t.Inv := by
  cases e with
  | start w =>
    rw [Keeper.step] at hstep
    split at hstep
    next hnone =>
      cases hstep
      have hsound : Sound s.runs s.site := by
        rw [Keeper.Inv, Option.isNone_iff_eq_none.mp hnone] at h
        exact h
      exact trades_goes (hsound.mono (Nat.le_succ _))
        fun x hx => Nat.lt_succ_of_le (hsound.runs x hx)
    · cases hstep
  | load =>
    rw [Keeper.step] at hstep
    split at hstep
    next hrunning =>
      cases hstep
      exact (h.goes hrunning).act ⟨rfl, rfl⟩
    · cases hstep
  | save =>
    rw [Keeper.step] at hstep
    split at hstep
    next hrunning =>
      cases hstep
      exact (h.goes hrunning).act rfl
    · cases hstep
  | allowance m =>
    rw [Keeper.step] at hstep
    split at hstep
    next hrunning =>
      cases hstep
      exact (h.goes hrunning).act rfl
    · cases hstep
  | approve ok =>
    rw [Keeper.step] at hstep
    split at hstep
    next hrunning =>
      cases hstep
      exact (h.goes hrunning).act rfl
    · cases hstep
  | swap fate =>
    rw [Keeper.step] at hstep
    split at hstep
    next hrunning => exact h.swapped hrunning hok hstep
    · cases hstep
  | leave =>
    rw [Keeper.step] at hstep
    split at hstep
    next hsome =>
      cases hstep
      obtain ⟨r, hr⟩ := Option.isSome_iff_exists.mp hsome
      exact Goes.leave (s := s) hr (h.goes hr) hok
    · cases hstep
  | land k day => exact hok.elim

/-- In every run whose swaps are answered on their day and then saved, whatever is read, and wherever
a run stops, the swaps that were executed stay within the limits. -/
theorem within_day {s : Keeper} (hrun : Steps Keeper.step Kept {} s) : s.site.Within :=
  (hrun.invariant (fun _ _ _ h hok hstep => h.step hok hstep) inv_fresh).within

namespace sample

def tuning : Tuning :=
  { dead_band := 3 / 100, sanity_ratio := 5, daily_usdt_cap := 25, daily_wpcn_cap := 2000, min_usdt := 5,
    min_wpcn := 200, buy := true, buy_floor_usd := 0, sell := true, anchor_index := false,
    max_usdt_per_run := 10, max_wpcn_per_run := 400 }

/-- The pool is at half the price. -/
def cheap : World :=
  { tuning := some tuning, posted := some (1 / 5), pool := some (1000, 100), now := 86400, today := 1,
    float := some (100, 1000) }

def buys (fate : Fate) : List Event :=
  [.start cheap, .load, .allowance 0, .approve true, .swap fate]

/-- The third of three swaps is over the day's cap. -/
def overCap : List Swap → Bool
  | [x, y, z] => !Decidable.decide (z.Within [x, y])
  | _ => false

end sample

open sample in
theorem within_day_bought : ∃ s, run.exec Keeper.step {} (buys (.answered 1) ++ [.save, .leave]) = some s ∧
    s.site.chain.map Swap.amount = [10] ∧ s.site.Within := by
  have hrun : (run.exec Keeper.step {} (buys (.answered 1) ++ [.save, .leave])).map
      (fun s => s.site.chain.map Swap.amount) = some [10] := by decide +kernel
  obtain ⟨s, hexec, hamounts⟩ := Option.map_eq_some_iff.mp hrun
  have hmeets : run.Meets Keeper.step Kept {} (buys (.answered 1) ++ [.save, .leave]) := by
    decide +kernel
  exact ⟨s, hexec, hamounts, within_day (run.steps_of_exec _ hexec hmeets)⟩

open sample in
/-- The receipts of three buys in a day are not had, none of them is booked, and together they are
over the day's cap. -/
theorem lost_receipts_exceed :
    ¬∀ s, Steps Keeper.step (fun _ _ => True) {} s → s.site.Within := by
  intro h
  have hover : (run.exec Keeper.step {} (buys (.unanswered 1) ++ .leave :: buys (.unanswered 1) ++
      .leave :: buys (.unanswered 1))).any (fun s => overCap s.site.chain) = true := by decide +kernel
  obtain ⟨s, hexec, hover⟩ := (Option.any_eq_true _ _).mp hover
  have hwithin := h s (run.steps_of_exec _ hexec (run.meets_true _ _))
  unfold overCap at hover
  split at hover
  next x y z hchain =>
    exact absurd (hwithin.within [x, y] z [] hchain) (by simpa using hover)
  · cases hover

end pcoin.peg
