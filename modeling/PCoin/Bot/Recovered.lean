import PCoin.Bot.Recover

namespace pcoin.bot.watch

/-- The explorer confirms a deposit at a height, deep enough, and the rate is usable and values
it below the threshold. -/
structure Confirmed (cfg : Config) (t : Tick) (r : Row) (height : Int) : Prop where
  read : ∃ tx reachable is_coinbase confirmations, t.tx r.id = .read tx reachable ∧
    tx.status = some "confirmed" ∧ tx.height = some height ∧ tx.is_coinbase = some is_coinbase ∧
    tx.confirmations = some confirmations ∧ cfg.needed is_coinbase ≤ confirmations
  pos : 0 < height
  floor : cfg.minBlockHeight ≤ height
  rate : ∃ rateE12, t.rate = some rateE12 ∧ 0 < rateE12 ∧
    valueMicro r rateE12 < cfg.corroborateAboveMicro

/-- The request budget suffices for the open rows. -/
def Budgeted (t : Tick) (s : State) : Prop :=
  ∀ dep ∈ s.openRows, t.tx dep.id ≠ .exhausted ∧
    ∀ second, t.corroborator = some second → second dep.id ≠ .exhausted

section

variable {cfg : Config} {t : Tick} {s : State} {r : Row} {height : Int}

/-- The recorded height decides a deposit that the explorer confirms. -/
theorem redriveDeposit_confirmed (h : Inv s) (hr : r ∈ s.rows) (hopen : r.status ≠ .credited)
    (hconf : Confirmed cfg t r height) :
    if r.block_height = none ∨ r.block_height = some height then
      ∃ db micro rateE12, redriveDeposit cfg t s r =
        .ok ({ s with db := db }.set r.id (Row.stamp micro rateE12 t.now), .credited)
    else redriveDeposit cfg t s r = .ok (hold s r) := by
  obtain ⟨tx, reachable, is_coinbase, confirmations, htx, hstatus, hheight, hcoinbase, hconfs, hdeep⟩ :=
    hconf.read
  obtain ⟨rateE12, hrate, hpos, hsmall⟩ := hconf.rate
  obtain ⟨-, -, hissued⟩ := h.rows r hr
  obtain ⟨-, c, hchat, -⟩ := h.issued _ hissued
  have hsome : (some height).filter (fun x => decide (0 < x)) = some height := by simp [hconf.pos]
  have hchat' : r.chat_id ≠ none := fun hnone => by
    change r.chat_id = some c at hchat
    rw [hnone] at hchat
    cases hchat
  split
  · rename_i hsame
    obtain ⟨db, micro, hcredit⟩ := @creditDepositSafe_ok cfg s r h hr hopen rateE12 hpos t.now
    refine ⟨db, micro, rateE12, ?_⟩
    have hany : (r.block_height.any fun x => decide (x ≠ height)) = false := by
      obtain hnone | hsame := hsame
      · rw [hnone]
        rfl
      · rw [hsame]
        simp
    simp only [redriveDeposit, htx, hheight, hsome, if_neg (not_lt.mpr hconf.floor), hany, hcoinbase,
      hconfs, if_neg (not_lt.mpr hdeep), hstatus, badStatus, hchat', hrate, if_neg (not_le.mpr hsmall),
      Bool.false_eq_true, if_false, hcredit]
    rfl
  · rename_i hother
    obtain ⟨hnone, hne⟩ := not_or.mp hother
    have hany : (r.block_height.any fun x => decide (x ≠ height)) = true := by
      obtain ⟨old, hold⟩ := Option.ne_none_iff_exists'.mp hnone
      rw [hold] at hne ⊢
      simpa using hne
    simp only [redriveDeposit, htx, hheight, hsome, if_neg (not_lt.mpr hconf.floor), hany, if_true]

theorem redriveDeposit_budget {dep : Row} (htx : t.tx dep.id ≠ .exhausted)
    (hsecond : ∀ second, t.corroborator = some second → second dep.id ≠ .exhausted) :
    redriveDeposit cfg t s dep ≠ .error .budget := by
  have hcredit (rateE12 : Int) : creditDepositSafe cfg s dep rateE12 t.now ≠ .error .budget := by
    unfold creditDepositSafe
    split <;> simp
  unfold redriveDeposit
  repeat' split
  all_goals first
    | exact hcredit _
    | (rename_i hexhausted; exact absurd hexhausted (by first | exact htx | exact hsecond _ (by assumption)))
    | simp

/-- The loop leaves alone what it is not for. -/
theorem mem_redriveLoop {deps : List Row} (h : Inv s) (hdeps : ∀ dep ∈ deps, dep ∈ s.rows)
    (hopen : ∀ dep ∈ deps, dep.status ≠ .credited) (hids : (deps.map Row.id).Nodup) (hr : r ∈ s.rows)
    (hnot : r.id ∉ deps.map Row.id) : r ∈ (redriveLoop cfg t deps s).rows := by
  induction deps generalizing s with
  | nil => exact hr
  | cons dep deps ih =>
    rw [List.map_cons, List.nodup_cons] at hids
    rw [List.map_cons, List.mem_cons, not_or] at hnot
    have hnext {s' : State} (hs' : Redriven s s' dep.id) : r ∈ (redriveLoop cfg t deps s').rows := by
      refine ih hs'.inv (fun x hx => ?_) (fun x hx => hopen x (List.mem_cons_of_mem _ hx)) hids.2
        (hs'.mem hr hnot.1) hnot.2
      exact hs'.mem (hdeps x (List.mem_cons_of_mem _ hx))
        fun heq => hids.1 (heq ▸ List.mem_map_of_mem hx)
    have hdep := hdeps dep List.mem_cons_self
    have hstatus := hopen dep List.mem_cons_self
    unfold redriveLoop
    split
    · rename_i s' o hop
      exact hnext (h.redriveDeposit hdep hstatus hop)
    · exact hr
    · exact hnext (h.redriven_set hdep hstatus fun _ => ⟨rfl, rfl, rfl, rfl⟩)

/-- A row that the loop reaches ends as the recorded height says. -/
theorem redriveLoop_confirmed {deps : List Row} (h : Inv s) (hdeps : ∀ dep ∈ deps, dep ∈ s.rows)
    (hopen : ∀ dep ∈ deps, dep.status ≠ .credited) (hids : (deps.map Row.id).Nodup)
    (hbudget : ∀ dep ∈ deps, t.tx dep.id ≠ .exhausted ∧
      ∀ second, t.corroborator = some second → second dep.id ≠ .exhausted)
    (hconf : Confirmed cfg t r height) (hr : r ∈ deps) :
    ∃ x ∈ (redriveLoop cfg t deps s).rows, x.id = r.id ∧
      x.status = if r.block_height = none ∨ r.block_height = some height then .credited else .held := by
  induction deps generalizing s with
  | nil => cases hr
  | cons dep deps ih =>
    rw [List.map_cons, List.nodup_cons] at hids
    have hdep := hdeps dep List.mem_cons_self
    have hstatus := hopen dep List.mem_cons_self
    have hrest {s' : State} (hs' : Redriven s s' dep.id) : ∀ x ∈ deps, x ∈ s'.rows := fun x hx =>
      hs'.mem (hdeps x (List.mem_cons_of_mem _ hx)) fun heq => hids.1 (heq ▸ List.mem_map_of_mem hx)
    obtain ⟨htx, hsecond⟩ := hbudget dep List.mem_cons_self
    obtain rfl | hr := List.mem_cons.mp hr
    · have hturn {s' : State} {f : Row → Row} (hs' : Redriven s s' r.id)
          (hrows : s'.rows = table.update Row.id r.id f s.rows) (hf : (f r).id = r.id) :
          f r ∈ (redriveLoop cfg t deps s').rows := by
        refine mem_redriveLoop hs'.inv (hrest hs') (fun x hx => hopen x (List.mem_cons_of_mem _ hx))
          hids.2 ?_ (hf ▸ hids.1)
        rw [hrows]
        exact table.mem_update_self hdep
      have hdecided := redriveDeposit_confirmed h hdep hstatus hconf
      split at hdecided
      · rename_i hsame
        obtain ⟨db, micro, rateE12, hop⟩ := hdecided
        have hmem := hturn (h.redriveDeposit hdep hstatus hop) rfl rfl
        rw [redriveLoop, hop]
        exact ⟨_, hmem, rfl, (if_pos hsame).symm⟩
      · rename_i hother
        have hmem := hturn (h.redriveDeposit hdep hstatus hdecided) rfl rfl
        rw [redriveLoop, hdecided]
        exact ⟨_, hmem, rfl, (if_neg hother).symm⟩
    · have hnext {s' : State} (hs' : Redriven s s' dep.id) := ih hs'.inv (hrest hs')
        (fun x hx => hopen x (List.mem_cons_of_mem _ hx)) hids.2
        (fun x hx => hbudget x (List.mem_cons_of_mem _ hx)) hr
      unfold redriveLoop
      split
      · rename_i s' o hop
        exact hnext (h.redriveDeposit hdep hstatus hop)
      · rename_i hop
        exact absurd hop (redriveDeposit_budget htx hsecond)
      · exact hnext (h.redriven_set hdep hstatus fun _ => ⟨rfl, rfl, rfl, rfl⟩)

end

/-- A deposit that the explorer confirms is credited by the next re-drive exactly when it is one
of the open rows that are selected, and the height recorded for it is the one it has now. -/
theorem recovered_iff (cfg : Config) (es : List Step) (t : Tick) (r : Row) (height : Int)
    (hr : r ∈ (es.foldl (step cfg) {}).rows) (hconf : Confirmed cfg t r height)
    (hbudget : Budgeted t (es.foldl (step cfg) {})) :
    let s := es.foldl (step cfg) {}
    (∃ x ∈ (redriveHeld cfg t s).rows, x.id = r.id ∧ x.status = .credited) ↔
      r.status = .credited ∨ (r ∈ s.openRows.take window ∧
        (r.block_height = none ∨ r.block_height = some height)) := by
  intro s
  have h : Inv s := inv_run cfg es inv_init
  have hfinal := h.redriveHeld cfg t
  have hunique {x y : Row} (hx : x ∈ (redriveHeld cfg t s).rows) (hy : y ∈ (redriveHeld cfg t s).rows)
      (hid : x.id = y.id) : x = y := List.inj_on_of_nodup_map hfinal.ids hx hy hid
  have hstays (hnot : r ∉ s.openRows.take window) : r ∈ (redriveHeld cfg t s).rows := by
    refine mem_redriveLoop h (fun dep hdep => (h.selected.1 dep hdep).1)
      (fun dep hdep => (h.selected.1 dep hdep).2) h.selected.2 hr fun hmem => ?_
    obtain ⟨dep, hdep, hid⟩ := List.mem_map.mp hmem
    exact hnot (List.inj_on_of_nodup_map h.ids (h.selected.1 dep hdep).1 hr hid ▸ hdep)
  by_cases hselected : r ∈ s.openRows.take window
  · have hopen := (h.selected.1 r hselected).2
    obtain ⟨x, hx, hid, hstatus⟩ := redriveLoop_confirmed h (fun dep hdep => (h.selected.1 dep hdep).1)
      (fun dep hdep => (h.selected.1 dep hdep).2) h.selected.2
      (fun dep hdep => hbudget dep (List.mem_of_mem_take hdep)) hconf hselected
    constructor
    · rintro ⟨y, hy, hid', hcredited⟩
      obtain rfl := hunique hy hx (hid'.trans hid.symm)
      refine .inr ⟨hselected, ?_⟩
      by_contra hother
      rw [if_neg hother, hcredited] at hstatus
      cases hstatus
    · rintro (hcredited | ⟨-, hsame⟩)
      · exact absurd hcredited hopen
      · exact ⟨x, hx, hid, by rw [hstatus, if_pos hsame]⟩
  · have hmem := hstays hselected
    constructor
    · rintro ⟨y, hy, hid, hcredited⟩
      exact .inl (hunique hy hmem hid ▸ hcredited)
    · rintro (hcredited | ⟨hin, -⟩)
      · exact ⟨r, hmem, rfl, hcredited⟩
      · exact absurd hin hselected

/-- The explorer has the transaction of every row at a height, 10 deep, and a coin is a dollar. -/
def answers (height : Int) : Tick :=
  { now := 100
    rate := some 1000000000000
    tx := fun _ => .read ⟨some "confirmed", some height, some 10, some false, some "hash"⟩ true
    corroborator := none }

/-- A deposit of 10 coins that is first seen at height 3000. -/
def sighted : List Step :=
  [.user 1, .assign "pc1q" 1, .confirmed (answers 3000) "pc1q" ⟨String.ofList (List.replicate 64 'a'), some 1000000000, some 3000⟩]

def sightedRow : Row :=
  { id := 1, txid := String.ofList (List.replicate 64 'a'), address := "pc1q", chat_id := some 1
    status := .confirming, amount_sat := 1000000000, block_height := some 3000, first_seen_at := 100 }

theorem confirmed_at {height : Int} (hheight : 2800 ≤ height) :
    Confirmed {} (answers height) sightedRow height :=
  ⟨⟨_, _, _, _, rfl, rfl, rfl, rfl, rfl, by decide⟩, by omega, hheight, ⟨_, rfl, by decide, by decide⟩⟩

theorem budgeted_at (height : Int) (s : State) : Budgeted (answers height) s :=
  fun _ _ => ⟨by simp [answers], by simp [answers]⟩

theorem recovered_sighted :
    let s := sighted.foldl (step {}) {}
    (∃ x ∈ (redriveHeld {} (answers 3000) s).rows, x.id = sightedRow.id ∧ x.status = .credited) ↔
      sightedRow.status = .credited ∨ (sightedRow ∈ s.openRows.take window ∧
        (sightedRow.block_height = none ∨ sightedRow.block_height = some 3000)) :=
  recovered_iff {} sighted (answers 3000) sightedRow 3000 (by decide +kernel) (confirmed_at (by decide))
    (budgeted_at 3000 _)

/-- A reorganisation moves the transaction one block up, and the re-drive holds the deposit. -/
theorem moved_deposit_held :
    ∃ (es : List Step) (t : Tick) (r : Row) (height : Int),
      r ∈ (es.foldl (step {}) {}).rows ∧ Confirmed {} t r height ∧
        Budgeted t (es.foldl (step {}) {}) ∧
        ¬ ∃ x ∈ (redriveHeld {} t (es.foldl (step {}) {})).rows, x.id = r.id ∧ x.status = .credited :=
  ⟨sighted, answers 3001, sightedRow, 3001, by decide +kernel, confirmed_at (by decide),
    budgeted_at 3001 _, by decide +kernel⟩

end pcoin.bot.watch
