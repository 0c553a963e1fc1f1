import PCoin.Market.Retire
import Mathlib.Algebra.Order.Floor.Ring
import Mathlib.Tactic.Linarith

open floating

namespace pcoin.market.retire

/-- What was retired on a UTC day. -/
def retiredOn (rows : List Row) (day : Nat) : Int :=
  ((rows.filter fun r => r.day = day).map Row.pcn_retired).sum

/-- How many outputs were counted on a UTC day. -/
def countedOn (rows : List Row) (day : Nat) : Nat := rows.countP fun r => r.day = day

/-- The cap in units. -/
def Env.cap (env : Env) : ℚ := env.retireDailyCapPcn * 10 ^ 8

/-- A share of the day is rounded up by no more than `up` units, and with that and the error of the
doubles the cap stays below the next whole unit. -/
def Slack (env : Env) (rows : List Row) (day : Nat) (up : ℚ) : Prop :=
  0 ≤ env.cap ∧
    (∀ r ∈ rows, r.day = day →
      toUnits (env.share r.pcn_spent) ≤ (env.share r.pcn_spent).val * 10 ^ 8 + up) ∧
    env.cap + up + (countedOn rows day + 3) * env.cap / 2 ^ 52 < ⌊env.cap⌋ + 1

/-- Every output of the block that qualifies is counted, except those still to be read. -/
def Pending (env : Env) (rows : List Row) (h : Int) (rest : List Spend) : Prop :=
  ∀ o ∈ env.outputs h, env.Qualifies o → o.key ∈ rows.map Row.key ∨ o ∈ rest

/-- What the doubles may be wrong by, in units, after the retirements of a day. -/
def drift (env : Env) (rows : List Row) (day : Nat) : ℚ :=
  (3 * env.cap + 2 * (countedOn rows day * env.cap) + 2 * retiredOn rows day) / 2 ^ 53

/-- The pass has room for what it may still retire on this day. -/
structure Room (env : Env) (s : State) (pass : Pass) : Prop where
  retired : 0 ≤ pass.retired
  left : pass.capLeft ≤ 0 ∨ pass.capLeft ≤ env.dailyCap ∧
    retiredOn s.rows s.day + pass.capLeft.val * 10 ^ 8 ≤
      env.cap + pass.retired.val * 10 ^ 8 + drift env s.rows s.day

/-- What holds of a scan at each `await`. -/
def Scanning (env : Env) (s : State) : Pc → Prop
  | .tip | .cursor _ => True
  | .first _ => s.cursor = none
  | .today _ start => s.cursor = some start
  | .block pass h => s.cursor = some (h - 1) ∧ Room env s pass
  | .select pass h o address rest =>
    s.cursor = some (h - 1) ∧ Room env s pass ∧ Pending env s.rows h (o :: rest) ∧
      o.payee = some address
  | .transact pass h o address system rest =>
    s.cursor = some (h - 1) ∧ Room env s pass ∧ Pending env s.rows h (o :: rest) ∧
      o.payee = some address ∧ env.systemOf address = some system ∧
      env.want o ≤ pass.capLeft - pass.retired
  | .setCursor pass h =>
    s.cursor = some (h - 1) ∧ Room env s pass ∧ Pending env s.rows h []

/-- Every output that qualifies in the blocks the cursor has passed is counted. -/
def Covered (env : Env) (s : State) : Prop :=
  ∀ first ∈ s.origin, ∀ last ∈ s.cursor, first ≤ last ∧
    ∀ h, first < h → h ≤ last → Pending env s.rows h []

structure Counted (env : Env) (s : State) : Prop where
  inventory : ladder.Inventory s.shop
  keys : (s.rows.map Row.key).Nodup
  amounts : ∀ r ∈ s.rows, 0 ≤ r.pcn_retired
  days : ∀ r ∈ s.rows, r.day ≤ s.day
  origin : s.origin = none ↔ s.cursor = none
  covered : Covered env s
  shares : ∀ r ∈ s.rows, 0 ≤ env.share r.pcn_spent ∧ env.share r.pcn_spent ≤ env.dailyCap
  capped : ∀ day up, Slack env s.rows day up → (retiredOn s.rows day : ℚ) ≤ env.cap
  ratio : s.scan ≠ none → 0 < env.ratio
  scan : ∀ pc ∈ s.scan, Scanning env s pc

section

variable {env : Env} {s t : State}

theorem retiredToday_eq (h : ∀ r ∈ s.rows, r.day ≤ s.day) :
    s.retiredToday = fromUnits (retiredOn s.rows s.day) := by
  rw [State.retiredToday, retiredOn]
  congr 3
  refine List.filter_congr fun r hr => ?_
  have hle := h r hr
  simp only [decide_eq_decide]
  omega

theorem retiredOn_append (rows : List Row) (row : Row) (day : Nat) :
    retiredOn (rows ++ [row]) day =
      retiredOn rows day + if row.day = day then row.pcn_retired else 0 := by
  by_cases h : row.day = day <;> simp [retiredOn, List.filter_append, h]

theorem retiredOn_nonneg {rows : List Row} (h : ∀ r ∈ rows, 0 ≤ r.pcn_retired) (day : Nat) :
    0 ≤ retiredOn rows day := by
  refine List.sum_nonneg fun n hn => ?_
  obtain ⟨r, hr, rfl⟩ := List.mem_map.mp hn
  exact h r (List.mem_of_mem_filter hr)

/-- Nothing has been retired on a day to come. -/
theorem retiredOn_future (h : ∀ r ∈ s.rows, r.day ≤ s.day) : retiredOn s.rows (s.day + 1) = 0 := by
  have hnil : s.rows.filter (fun r => r.day = s.day + 1) = [] := by
    rw [List.filter_eq_nil_iff]
    intro r hr
    have hle := h r hr
    simp only [decide_eq_true_eq]
    omega
  rw [retiredOn, hnil]
  rfl

theorem countedOn_append (rows : List Row) (row : Row) (day : Nat) :
    countedOn (rows ++ [row]) day = countedOn rows day + if row.day = day then 1 else 0 := by
  simp [countedOn, List.countP_append, List.countP_singleton]

theorem Slack.of_append {rows : List Row} {row : Row} {day : Nat} {up : ℚ}
    (h : Slack env (rows ++ [row]) day up) : Slack env rows day up := by
  obtain ⟨hcap, hup, hlt⟩ := h
  refine ⟨hcap, fun r hr => hup r (List.mem_append_left _ hr), lt_of_le_of_lt ?_ hlt⟩
  have hcount : countedOn rows day ≤ countedOn (rows ++ [row]) day := by
    rw [countedOn_append]
    exact Nat.le_add_right _ _
  have hcast : (countedOn rows day : ℚ) ≤ countedOn (rows ++ [row]) day := by exact_mod_cast hcount
  gcongr

theorem Pending.mono {rows rows' : List Row} {h : Int} {rest rest' : List Spend}
    (hpending : Pending env rows h rest) (hrows : rows.map Row.key ⊆ rows'.map Row.key)
    (hrest : ∀ o ∈ rest, env.Qualifies o → o.key ∈ rows'.map Row.key ∨ o ∈ rest') :
    Pending env rows' h rest' := by
  intro o ho hq
  obtain hkey | hmem := hpending o ho hq
  · exact .inl (hrows hkey)
  · exact hrest o hmem hq

/-- Skipping the outputs that are not looked up. -/
theorem scanning_advance {pass : Pass} {h : Int} {rest : List Spend}
    (hcursor : s.cursor = some (h - 1)) (hroom : Room env s pass)
    (hpending : Pending env s.rows h rest) : Scanning env s (advance pass h rest) := by
  induction rest with
  | nil => exact ⟨hcursor, hroom, hpending⟩
  | cons o rest ih =>
    rw [advance]
    split
    · rename_i hpayee
      refine ih (hpending.mono (List.Subset.refl _) fun x hx hq => .inr ?_)
      obtain rfl | hx := List.mem_cons.mp hx
      · simp [Env.Qualifies, hpayee] at hq
      · exact hx
    · rename_i address hpayee
      exact ⟨hcursor, hroom, hpending, hpayee⟩

theorem scanning_next {pass : Pass} {h : Int} (hcursor : s.cursor = some (h - 1))
    (hroom : Room env s pass) : ∀ pc ∈ pass.next h, Scanning env s pc := by
  intro pc hpc
  rw [Pass.next] at hpc
  split at hpc
  · obtain rfl := Option.some.inj hpc
    exact ⟨hcursor, hroom⟩
  · cases hpc

theorem fromUnits_le {u : Int} (h : 0 ≤ u) :
    (fromUnits u).val * 10 ^ 8 ≤ u + u / 2 ^ 53 := by
  have hu : (0 : ℚ) ≤ u := by exact_mod_cast h
  have hle := Number.of_le (p := 53) (x := u / 10 ^ 8) (by positivity)
  rw [fromUnits]
  linarith

theorem le_fromUnits {u : Int} (h : 0 ≤ u) :
    u - u / 2 ^ 53 ≤ (fromUnits u).val * 10 ^ 8 := by
  have hu : (0 : ℚ) ≤ u := by exact_mod_cast h
  have hle := Number.le_of (p := 53) (x := u / 10 ^ 8) (by positivity)
  rw [fromUnits]
  linarith

theorem fromUnits_nonneg {u : Int} (h : 0 ≤ u) : 0 ≤ fromUnits u :=
  Number.of_nonneg (div_nonneg (by exact_mod_cast h) (by norm_num))

theorem share_pos {value : Int} (hratio : 0 < env.ratio) (hvalue : 0 < value) :
    0 < env.share value :=
  Number.pos_mul (Number.of_pos (div_pos (by exact_mod_cast hvalue) (by norm_num))) hratio

/-- A difference of doubles that is positive is that of two in this order, rounded. -/
theorem sub_bounds {a b : Double} (h : 0 < a - b) :
    b.val < a.val ∧ (a - b).val ≤ (a.val - b.val) + (a.val - b.val) / 2 ^ 53 := by
  have hlt : b.val < a.val := by
    by_contra hge
    exact absurd (Number.of_mono (p := 53) (sub_nonpos.mpr (not_lt.mp hge))) (not_le_of_gt h)
  exact ⟨hlt, Number.of_le (sub_nonneg.mpr hlt.le)⟩

/-- What is left of a positive cap is no more than the cap as it was entered, rounded. -/
theorem left_le {left : Double} (hpos : 0 < left) (hle : left ≤ env.dailyCap) :
    0 < env.cap ∧ left.val * 10 ^ 8 ≤ env.cap + env.cap / 2 ^ 53 := by
  have hcap : 0 < env.retireDailyCapPcn := by
    by_contra hge
    exact absurd (Number.of_mono (p := 53) (not_lt.mp hge)) (not_le_of_gt (hpos.trans_le hle))
  have hof := (Number.le_iff.mp hle).trans (Number.of_le hcap.le)
  rw [Env.cap]
  exact ⟨by positivity, by linarith⟩

/-- What the room of a pass says when it is not used up. -/
theorem Room.of_want {pass : Pass} {o : Spend} (h : Room env s pass) (hratio : 0 < env.ratio)
    (hvalue : 0 < o.value) (hwant : env.want o ≤ pass.capLeft - pass.retired) :
    0 < pass.capLeft - pass.retired ∧ 0 < pass.capLeft ∧ pass.capLeft ≤ env.dailyCap ∧
      retiredOn s.rows s.day + pass.capLeft.val * 10 ^ 8 ≤
        env.cap + pass.retired.val * 10 ^ 8 + drift env s.rows s.day := by
  have hpos : 0 < pass.capLeft - pass.retired := (share_pos hratio hvalue).trans_le hwant
  have hleft : 0 < pass.capLeft := hpos.trans_le (Number.sub_le _ h.retired)
  obtain hnone | hroom := h.left
  · exact absurd hnone (not_le_of_gt hleft)
  · exact ⟨hpos, hleft, hroom⟩

/-- What the scan has room for is within what a day begins with. -/
theorem Room.want_le {pass : Pass} {o : Spend} (h : Room env s pass) (hratio : 0 < env.ratio)
    (hvalue : 0 < o.value) (hwant : env.want o ≤ pass.capLeft - pass.retired) :
    env.want o ≤ env.dailyCap := by
  obtain ⟨-, -, hcap, -⟩ := h.of_want hratio hvalue hwant
  exact (hwant.trans (Number.sub_le _ h.retired)).trans hcap

/-- The room of a pass that begins: nothing, or what the cap has over what was retired. -/
theorem Room.start {pass : Pass} (hretired : 0 ≤ retiredOn s.rows s.day)
    (hleft : pass.capLeft = max 0 (env.dailyCap - fromUnits (retiredOn s.rows s.day)))
    (hpass : pass.retired = 0) : Room env s pass := by
  refine ⟨hpass.ge, ?_⟩
  obtain hle | hlt := le_or_gt (env.dailyCap - fromUnits (retiredOn s.rows s.day)) 0
  · exact .inl (by rw [hleft, max_eq_left hle])
  · rw [max_eq_right hlt.le] at hleft
    have hnonneg := fromUnits_nonneg hretired
    have hcapLeft : pass.capLeft ≤ env.dailyCap := hleft.le.trans (Number.sub_le _ hnonneg)
    refine .inr ⟨hcapLeft, ?_⟩
    obtain ⟨-, hsub⟩ := sub_bounds hlt
    obtain ⟨hcap, hdaily⟩ := left_le (hlt.trans_le (Number.sub_le _ hnonneg)) le_rfl
    have hunits := le_fromUnits hretired
    have hcast : (0 : ℚ) ≤ retiredOn s.rows s.day := by exact_mod_cast hretired
    have hcount : 0 ≤ (countedOn s.rows s.day : ℚ) * env.cap := by positivity
    rw [drift, hleft, hpass, Number.val_zero]
    linarith

/-- The next day leaves a pass with as much room. -/
theorem Room.tick {pass : Pass} (h : Room env s pass) (hdays : ∀ r ∈ s.rows, r.day ≤ s.day) :
    Room env { s with day := s.day + 1 } pass := by
  refine ⟨h.retired, ?_⟩
  obtain hle | hlt := le_or_gt pass.capLeft 0
  · exact .inl hle
  · obtain hnone | ⟨hcapLeft, -⟩ := h.left
    · exact .inl hnone
    · obtain ⟨hcap, hleft⟩ := left_le hlt hcapLeft
      have hretired := Number.val_nonneg h.retired
      have hcount : 0 ≤ (countedOn s.rows (s.day + 1) : ℚ) * env.cap := by positivity
      refine .inr ⟨hcapLeft, ?_⟩
      rw [drift, retiredOn_future hdays, Int.cast_zero]
      linarith

/-- The room that a retirement leaves: the running total loses no more than the drift says. -/
theorem Room.transact {pass : Pass} {o : Spend} {row : Row} {got : Int} (h : Room env s pass)
    (hratio : 0 < env.ratio) (hvalue : 0 < o.value)
    (hwant : env.want o ≤ pass.capLeft - pass.retired) (hgot : 0 ≤ got) (hday : row.day = s.day)
    (hrow : row.pcn_retired = got) (hrows : t.rows = s.rows ++ [row]) (ht : t.day = s.day) :
    Room env t { pass with retired := pass.retired + fromUnits got } := by
  obtain ⟨hpos, hleft, hcapLeft, hsum⟩ := h.of_want hratio hvalue hwant
  obtain ⟨hcap, hdaily⟩ := left_le hleft hcapLeft
  obtain ⟨hlt, -⟩ := sub_bounds hpos
  have hunits := le_fromUnits hgot
  have hnonneg := Number.val_nonneg (fromUnits_nonneg hgot)
  have hretired := Number.val_nonneg h.retired
  have hadd : pass.retired.val + (fromUnits got).val -
      (pass.retired.val + (fromUnits got).val) / 2 ^ 53 ≤ (pass.retired + fromUnits got).val :=
    Number.le_of (add_nonneg hretired hnonneg)
  have hcast : (0 : ℚ) ≤ got := by exact_mod_cast hgot
  refine ⟨Number.nonneg_add h.retired (fromUnits_nonneg hgot), .inr ⟨hcapLeft, ?_⟩⟩
  rw [drift] at hsum ⊢
  simp only [hrows, ht, retiredOn_append, countedOn_append, if_pos hday, hrow]
  push_cast
  linarith

/-- The retirement does not go past the cap. -/
theorem capped_transact {pass : Pass} {o : Spend} {row : Row} {got : Int} {up : ℚ}
    (h : Room env s pass) (hratio : 0 < env.ratio) (hvalue : 0 < o.value)
    (hwant : env.want o ≤ pass.capLeft - pass.retired) (hgot : got ≤ max (toUnits (env.want o)) 0)
    (hspent : row.pcn_spent = o.value) (hday : row.day = s.day)
    (hslack : Slack env (s.rows ++ [row]) s.day up) (hcapped : (retiredOn s.rows s.day : ℚ) ≤ env.cap) :
    (retiredOn s.rows s.day + got : ℚ) ≤ env.cap := by
  obtain ⟨hpos, hleft, hcapLeft, hsum⟩ := h.of_want hratio hvalue hwant
  obtain ⟨hcap, hdaily⟩ := left_le hleft hcapLeft
  obtain ⟨hlt, hsub⟩ := sub_bounds hpos
  have hretired := Number.val_nonneg h.retired
  obtain ⟨-, hup, hwhole⟩ := hslack
  have hunits := hup row (by simp) hday
  rw [hspent] at hunits
  have hwant' : (env.share o.value).val ≤ (pass.capLeft - pass.retired).val := hwant
  obtain hzero | hle : got ≤ 0 ∨ got ≤ toUnits (env.share o.value) := by
    rw [Env.want] at hgot
    omega
  · have hcast : (got : ℚ) ≤ 0 := by exact_mod_cast hzero
    linarith
  · -- what is counted is a whole number of units
    have hcast : (got : ℚ) ≤ toUnits (env.share o.value) := by exact_mod_cast hle
    rw [countedOn_append, if_pos hday] at hwhole
    push_cast at hwhole
    rw [drift] at hsum
    have hfloor : retiredOn s.rows s.day + got < ⌊env.cap⌋ + 1 := by
      have hlt : (retiredOn s.rows s.day + got : ℚ) < ⌊env.cap⌋ + 1 := by linarith
      exact_mod_cast hlt
    have hfloor' : ((retiredOn s.rows s.day + got : Int) : ℚ) ≤ ⌊env.cap⌋ := by
      exact_mod_cast Int.lt_add_one_iff.mp hfloor
    push_cast at hfloor'
    exact hfloor'.trans (Int.floor_le _)

/-- A scan reads only the cursor, the rows and the day. -/
theorem Scanning.congr {pc : Pc} (h : Scanning env s pc) (hcursor : t.cursor = s.cursor)
    (hrows : t.rows = s.rows) (hday : t.day = s.day) : Scanning env t pc := by
  have hroom : ∀ {pass}, Room env s pass → Room env t pass := fun h =>
    ⟨h.retired, by rw [hrows, hday]; exact h.left⟩
  cases pc with
  | tip | cursor => trivial
  | first | today => exact hcursor.trans h
  | block => exact ⟨hcursor.trans h.1, hroom h.2⟩
  | select => exact ⟨hcursor.trans h.1, hroom h.2.1, hrows ▸ h.2.2.1, h.2.2.2⟩
  | transact => exact ⟨hcursor.trans h.1, hroom h.2.1, hrows ▸ h.2.2.1, h.2.2.2⟩
  | setCursor => exact ⟨hcursor.trans h.1, hroom h.2.1, hrows ▸ h.2.2⟩

theorem Scanning.tick {pc : Pc} (h : Scanning env s pc) (hdays : ∀ r ∈ s.rows, r.day ≤ s.day) :
    Scanning env { s with day := s.day + 1 } pc := by
  cases pc with
  | tip | cursor => trivial
  | first | today => exact h
  | block => exact ⟨h.1, h.2.tick hdays⟩
  | select => exact ⟨h.1, h.2.1.tick hdays, h.2.2⟩
  | transact => exact ⟨h.1, h.2.1.tick hdays, h.2.2⟩
  | setCursor => exact ⟨h.1, h.2.1.tick hdays, h.2.2⟩

/-- The scan goes on somewhere else, or ends. -/
theorem Counted.resume (h : Counted env s) {next : Option Pc} (hratio : next ≠ none → 0 < env.ratio)
    (hscan : ∀ pc ∈ next, Scanning env s pc) : Counted env { s with scan := next } :=
  ⟨h.inventory, h.keys, h.amounts, h.days, h.origin, h.covered, h.shares, h.capped, hratio,
    fun pc hpc => (hscan pc hpc).congr rfl rfl rfl⟩

theorem Counted.stop (h : Counted env s) : Counted env { s with scan := none } :=
  h.resume (fun hne => absurd rfl hne) (fun _ hpc => by cases hpc)

/-- The cursor moves to a block that is finished, or to where it begins. -/
theorem Counted.setCursor (h : Counted env s) {height : Int}
    (hcursor : s.cursor = none ∨ s.cursor = some (height - 1) ∧ Pending env s.rows height []) :
    Counted env { setCursor s height with scan := none } := by
  refine ⟨h.inventory, h.keys, h.amounts, h.days, ?_, ?_, h.shares, h.capped, fun hne => absurd rfl hne,
    fun _ hpc => by cases hpc⟩
  · simp [retire.setCursor]
  · intro first hfirst last hlast
    obtain rfl : height = last := Option.some.inj hlast
    obtain hnone | ⟨hsome, hpending⟩ := hcursor
    · have horigin : (retire.setCursor s height).origin = some height := by
        rw [retire.setCursor, h.origin.mpr hnone]
        rfl
      obtain rfl : height = first := Option.some.inj (horigin.symm.trans hfirst)
      exact ⟨le_rfl, fun h' hlt hle => absurd hle (not_le_of_gt hlt)⟩
    · obtain ⟨first', horigin⟩ : ∃ first', s.origin = some first' := by
        rw [← Option.ne_none_iff_exists']
        intro hnone
        rw [h.origin.mp hnone] at hsome
        cases hsome
      have hfirst' : (retire.setCursor s height).origin = some first' := by
        rw [retire.setCursor, horigin]
        rfl
      obtain rfl : first' = first := Option.some.inj (hfirst'.symm.trans hfirst)
      obtain ⟨hle, hall⟩ := h.covered first' horigin (height - 1) hsome
      refine ⟨by omega, fun h' hlt hle' => ?_⟩
      by_cases heq : h' = height
      · rw [heq]
        exact hpending
      · exact hall h' hlt (by omega)

theorem value_pos_of_payee {o : Spend} {address : String} (h : o.payee = some address) :
    0 < o.value := by
  rw [Spend.payee, Option.filter_eq_some_iff] at h
  simpa using (of_decide_eq_true h.2).2

/-- What the transaction writes. -/
theorem transact_spec {height : Int} {o : Spend} {address system : String} {got : Int}
    (ht : transact env s height o address system = some (t, got)) :
    o.key ∉ s.rows.map Row.key ∧ ∃ row rungs, row.key = o.key ∧ row.day = s.day ∧
      row.pcn_spent = o.value ∧ row.pcn_retired = got ∧
      ladder.retireFromLadder s.shop.rungs (toUnits (env.want o)) = (rungs, got) ∧
      t = { s with shop := { s.shop with rungs := rungs }, rows := s.rows ++ [row] } := by
  rw [retire.transact] at ht
  split at ht
  · cases ht
  · rename_i hnew
    generalize hretire : ladder.retireFromLadder s.shop.rungs (toUnits (env.want o)) = r at ht ⊢
    obtain ⟨rungs, amount⟩ := r
    obtain ⟨rfl, rfl⟩ := Prod.mk.inj (Option.some.inj ht)
    exact ⟨hnew, _, rungs, rfl, rfl, rfl, rfl, rfl, rfl⟩

/-- The row of an output, claimed with what the ladder gave for it. -/
theorem Counted.transact (h : Counted env s) {pass : Pass} {height : Int} {o : Spend}
    {address system : String} {rest : List Spend} {got : Int}
    (hscan : Scanning env s (.transact pass height o address system rest)) (hratio : 0 < env.ratio)
    (ht : transact env s height o address system = some (t, got)) :
    Counted env { t with scan := none } ∧ t.cursor = s.cursor ∧
      Room env t { pass with retired := pass.retired + fromUnits got } ∧
      Pending env t.rows height rest := by
  obtain ⟨hcursor, hroom, hpending, hpayee, -, hwant⟩ := hscan
  have hvalue := value_pos_of_payee hpayee
  obtain ⟨hpos, hmax⟩ :=
    ladder.retireFromLadder_amount h.inventory.rung_nos (toUnits (env.want o))
  obtain ⟨hnew, row, rungs, hkey, hday, hspent, hgot, hretire, rfl⟩ := transact_spec ht
  rw [hretire] at hpos hmax
  have hrows : s.rows.map Row.key ⊆ (s.rows ++ [row]).map Row.key := by
    rw [List.map_append]
    exact List.subset_append_left _ _
  have hstep : ladder.step s.shop (.retire (toUnits (env.want o))) =
      some { s.shop with rungs := rungs } := by rw [ladder.step, hretire]
  have hinv := (ladder.moves_of_step h.inventory.rung_nos hstep).inventory h.inventory
  refine ⟨⟨hinv, ?_, ?_, ?_, h.origin, ?_, ?_, ?_, fun hne => absurd rfl hne,
    fun _ hpc => by cases hpc⟩, rfl, hroom.transact hratio hvalue hwant hpos hday hgot rfl rfl,
    hpending.mono hrows fun x hx _ => ?_⟩
  · exact table.nodup_append h.keys (hkey ▸ hnew)
  · intro r hr
    obtain hr | hr := List.mem_append.mp hr
    · exact h.amounts r hr
    · rw [List.mem_singleton.mp hr, hgot]
      exact hpos
  · intro r hr
    obtain hr | hr := List.mem_append.mp hr
    · exact h.days r hr
    · rw [List.mem_singleton.mp hr, hday]
  · intro first hfirst last hlast
    obtain ⟨hle, hall⟩ := h.covered first hfirst last hlast
    exact ⟨hle, fun h' hlt hle' => (hall h' hlt hle').mono hrows fun _ hx => by cases hx⟩
  · intro r hr
    obtain hr | hr := List.mem_append.mp hr
    · exact h.shares r hr
    · rw [List.mem_singleton.mp hr, hspent]
      exact ⟨(share_pos hratio hvalue).le, hroom.want_le hratio hvalue hwant⟩
  · intro day up hslack
    have hcapped := h.capped day up hslack.of_append
    rw [retiredOn_append]
    by_cases heq : s.day = day
    · subst heq
      rw [if_pos hday, hgot]
      push_cast
      exact capped_transact hroom hratio hvalue hwant hmax hspent hday hslack hcapped
    · rwa [if_neg (by rwa [hday]), add_zero]
  · obtain rfl | hx := List.mem_cons.mp hx
    · exact .inl (List.mem_map.mpr ⟨row, by simp, hkey⟩)
    · exact .inr hx

theorem counted_answered (h : Counted env s) {pc : Pc} {next : Option Pc} (hpc : s.scan = some pc)
    (hnext : answered env s pc = some next) : Counted env { s with scan := next } := by
  have hratio : 0 < env.ratio := h.ratio (by simp [hpc])
  have hscan := h.scan pc hpc
  refine h.resume (fun _ => hratio) ?_
  cases pc with
  | cursor safeTip =>
    rw [answered] at hnext
    split at hnext <;> obtain rfl := Option.some.inj hnext
    · rename_i hnone
      rintro pc ⟨⟩
      exact hnone
    · rename_i start hstart
      split
      · rintro pc ⟨⟩
      · rintro pc ⟨⟩
        exact hstart
  | today safeTip start =>
    obtain rfl := Option.some.inj hnext
    refine scanning_next (by rw [hscan]; simp) (.start (retiredOn_nonneg h.amounts s.day) ?_ rfl)
    rw [retiredToday_eq h.days]
  | block pass height =>
    obtain rfl := Option.some.inj hnext
    split
    · rintro pc ⟨⟩
      exact scanning_advance hscan.1 hscan.2 fun o ho _ => .inr ho
    · rintro pc ⟨⟩
  | select pass height o address rest =>
    obtain ⟨hcursor, hroom, hpending, hpayee⟩ := hscan
    rw [answered] at hnext
    split at hnext
    · rename_i hnone
      obtain rfl := Option.some.inj hnext
      rintro pc ⟨⟩
      refine scanning_advance hcursor hroom (hpending.mono (List.Subset.refl _) fun x hx hq => .inr ?_)
      obtain rfl | hx := List.mem_cons.mp hx
      · simp [Env.Qualifies, hpayee, hnone] at hq
      · exact hx
    · rename_i system hsystem
      split at hnext <;> obtain rfl := Option.some.inj hnext
      · rintro pc ⟨⟩
      · rename_i hwant
        rintro pc ⟨⟩
        exact ⟨hcursor, hroom, hpending, hpayee, hsystem, not_lt.mp hwant⟩
  | tip | first | transact | setCursor => cases hnext

theorem counted_written (h : Counted env s) {pc : Pc} {next : Option Pc} (hpc : s.scan = some pc)
    (hnext : written env s pc = some (t, next)) (told : Bool) :
    Counted env { t with scan := if told then next else none } := by
  have hratio : 0 < env.ratio := h.ratio (by simp [hpc])
  have hscan := h.scan pc hpc
  -- the state after the write, and what the scan finds there if it is told
  have hwrite : Counted env { t with scan := none } ∧ ∀ pc ∈ next, Scanning env t pc := by
    cases pc with
    | first safeTip =>
      obtain ⟨rfl, rfl⟩ := Prod.mk.inj (Option.some.inj hnext)
      exact ⟨h.setCursor (.inl hscan), fun pc hpc => by cases hpc⟩
    | transact pass height o address system rest =>
      rw [written] at hnext
      split at hnext
      · rename_i hnone
        obtain ⟨rfl, rfl⟩ := Prod.mk.inj (Option.some.inj hnext)
        refine ⟨h.stop, ?_⟩
        rintro pc ⟨⟩
        obtain ⟨hcursor, hroom, hpending, -⟩ := hscan
        refine scanning_advance hcursor hroom (hpending.mono (List.Subset.refl _) fun x hx _ => ?_)
        obtain rfl | hx := List.mem_cons.mp hx
        · rw [transact] at hnone
          split at hnone
          · rename_i hmem
            exact .inl hmem
          · cases hnone
        · exact .inr hx
      · rename_i u got htransact
        obtain ⟨rfl, rfl⟩ := Prod.mk.inj (Option.some.inj hnext)
        obtain ⟨hcounted, hcursor, hroom, hpending⟩ := h.transact hscan hratio htransact
        refine ⟨hcounted, ?_⟩
        rintro pc ⟨⟩
        exact scanning_advance (hcursor.trans hscan.1) hroom hpending
    | setCursor pass height =>
      obtain ⟨rfl, rfl⟩ := Prod.mk.inj (Option.some.inj hnext)
      obtain ⟨hcursor, hroom, hpending⟩ := hscan
      refine ⟨h.setCursor (.inr ⟨hcursor, hpending⟩), scanning_next (by simp [setCursor]) ?_⟩
      exact ⟨hroom.retired, hroom.left⟩
    | tip | cursor | today | block | select => cases hnext
  cases told with
  | false => exact hwrite.1
  | true => exact hwrite.1.resume (fun _ => hratio) fun pc hpc => (hwrite.2 pc hpc).congr rfl rfl rfl

theorem counted_step {e : Event} (h : Counted env s) (hstep : step env s e = some t) :
    Counted env t := by
  cases e with
  | scan =>
    obtain rfl := Option.some.inj hstep
    split
    · rename_i hidle
      exact h.resume (fun _ => hidle.2.2.1) (by rintro pc ⟨⟩; trivial)
    · exact h
  | tip reply =>
    simp only [step, Option.bind_eq_bind, Option.bind_eq_some_iff] at hstep
    obtain ⟨_, hguard, hstep⟩ := hstep
    obtain rfl := Option.some.inj hstep
    have htip : s.scan = some .tip := by simpa [guard] using hguard
    refine h.resume (fun _ => h.ratio (by simp [htip])) fun pc hpc => ?_
    obtain ⟨tip, -, rfl⟩ := Option.map_eq_some_iff.mp hpc
    trivial
  | read ok =>
    cases ok with
    | false =>
      simp only [step, Option.bind_eq_bind, Option.bind_eq_some_iff] at hstep
      obtain ⟨pc, -, _, -, hstep⟩ := hstep
      obtain rfl := Option.some.inj hstep
      exact h.stop
    | true =>
      simp only [step, Option.bind_eq_bind, Option.bind_eq_some_iff] at hstep
      obtain ⟨pc, hpc, next, hnext, hstep⟩ := hstep
      obtain rfl := Option.some.inj hstep
      exact counted_answered h hpc hnext
  | write done told =>
    cases done with
    | false =>
      simp only [step, Option.bind_eq_bind, Option.bind_eq_some_iff] at hstep
      obtain ⟨pc, -, _, -, hstep⟩ := hstep
      obtain rfl := Option.some.inj hstep
      exact h.stop
    | true =>
      simp only [step, Option.bind_eq_bind, Option.bind_eq_some_iff] at hstep
      obtain ⟨pc, hpc, ⟨u, next⟩, hnext, hstep⟩ := hstep
      obtain rfl := Option.some.inj hstep
      exact counted_written h hpc hnext told
  | ladder e =>
    simp only [step, Option.bind_eq_bind, Option.bind_eq_some_iff] at hstep
    obtain ⟨_, -, shop, hshop, hstep⟩ := hstep
    obtain rfl := Option.some.inj hstep
    have hinv := (ladder.moves_of_step h.inventory.rung_nos hshop).inventory h.inventory
    exact ⟨hinv, h.keys, h.amounts, h.days, h.origin, h.covered, h.shares, h.capped, h.ratio,
      fun pc hpc => (h.scan pc hpc).congr rfl rfl rfl⟩
  | tick =>
    obtain rfl := Option.some.inj hstep
    exact ⟨h.inventory, h.keys, h.amounts, fun r hr => (h.days r hr).trans (Nat.le_succ _), h.origin,
      h.covered, h.shares, h.capped, h.ratio, fun pc hpc => (h.scan pc hpc).tick h.days⟩
  | crash =>
    obtain rfl := Option.some.inj hstep
    have hinv := (ladder.moves_of_step h.inventory.rung_nos (e := .crash) rfl).inventory h.inventory
    exact ⟨hinv, h.keys, h.amounts, h.days, h.origin, h.covered, h.shares, h.capped,
      fun hne => absurd rfl hne, fun _ hpc => by cases hpc⟩

/-- A row comes with what was taken from the ladder for it, and nothing is taken without
one. -/
def Taken (env : Env) (s t : State) : Prop :=
  (t.rows = s.rows ∧
    ladder.retiredUnits t.shop.rungs = ladder.retiredUnits s.shop.rungs) ∨
  ∃ row, t.rows = s.rows ++ [row] ∧
    ladder.retireFromLadder s.shop.rungs (toUnits (env.share row.pcn_spent)) =
      (t.shop.rungs, row.pcn_retired) ∧
    ladder.retiredUnits t.shop.rungs = ladder.retiredUnits s.shop.rungs + row.pcn_retired

theorem taken_written (hnos : (s.shop.rungs.map ladder.Rung.rung_no).Nodup) {pc : Pc}
    {next : Option Pc} (hnext : written env s pc = some (t, next)) : Taken env s t := by
  cases pc with
  | first | setCursor =>
    obtain ⟨rfl, -⟩ := Prod.mk.inj (Option.some.inj hnext)
    exact .inl ⟨rfl, rfl⟩
  | transact pass height o address system rest =>
    rw [written] at hnext
    split at hnext
    · obtain ⟨rfl, -⟩ := Prod.mk.inj (Option.some.inj hnext)
      exact .inl ⟨rfl, rfl⟩
    · rename_i u got htransact
      obtain ⟨rfl, -⟩ := Prod.mk.inj (Option.some.inj hnext)
      obtain ⟨-, row, rungs, -, -, hspent, hgot, hretire, rfl⟩ := transact_spec htransact
      have hunits := ladder.retiredUnits_retire hnos (toUnits (env.want o))
      rw [hretire] at hunits
      refine .inr ⟨row, rfl, ?_, ?_⟩
      · rw [hspent, hgot]
        exact hretire
      · rw [hgot]
        exact hunits
  | tip | cursor | today | block | select => cases hnext

theorem taken_step {e : Event} (h : ladder.Inventory s.shop) (hstep : step env s e = some t) :
    Taken env s t := by
  cases e with
  | scan =>
    obtain rfl := Option.some.inj hstep
    split <;> exact .inl ⟨rfl, rfl⟩
  | tip reply =>
    simp only [step, Option.bind_eq_bind, Option.bind_eq_some_iff] at hstep
    obtain ⟨_, -, hstep⟩ := hstep
    obtain rfl := Option.some.inj hstep
    exact .inl ⟨rfl, rfl⟩
  | read ok =>
    cases ok <;> simp only [step, Option.bind_eq_bind, Option.bind_eq_some_iff] at hstep <;>
      obtain ⟨_, -, _, -, hstep⟩ := hstep <;> obtain rfl := Option.some.inj hstep <;>
      exact .inl ⟨rfl, rfl⟩
  | write done told =>
    cases done with
    | false =>
      simp only [step, Option.bind_eq_bind, Option.bind_eq_some_iff] at hstep
      obtain ⟨_, -, _, -, hstep⟩ := hstep
      obtain rfl := Option.some.inj hstep
      exact .inl ⟨rfl, rfl⟩
    | true =>
      simp only [step, Option.bind_eq_bind, Option.bind_eq_some_iff] at hstep
      obtain ⟨pc, -, ⟨u, next⟩, hnext, hstep⟩ := hstep
      obtain rfl := Option.some.inj hstep
      have htaken := taken_written h.rung_nos hnext
      exact htaken
  | ladder e =>
    simp only [step, Option.bind_eq_bind, Option.bind_eq_some_iff] at hstep
    obtain ⟨_, hguard, shop, hshop, hstep⟩ := hstep
    obtain rfl := Option.some.inj hstep
    refine .inl ⟨rfl, (ladder.moves_of_step h.rung_nos hshop).retiredUnits_eq ?_⟩
    rintro need rfl
    simp [guard, others] at hguard
  | tick | crash =>
    obtain rfl := Option.some.inj hstep
    exact .inl ⟨rfl, rfl⟩

/-- Once set, the height the counting began at stays. -/
theorem origin_step {e : Event} {first : Int} (h : s.origin = some first)
    (hstep : step env s e = some t) : t.origin = some first := by
  cases e with
  | scan =>
    obtain rfl := Option.some.inj hstep
    split <;> exact h
  | tip reply =>
    simp only [step, Option.bind_eq_bind, Option.bind_eq_some_iff] at hstep
    obtain ⟨_, -, hstep⟩ := hstep
    obtain rfl := Option.some.inj hstep
    exact h
  | read ok =>
    cases ok <;> simp only [step, Option.bind_eq_bind, Option.bind_eq_some_iff] at hstep <;>
      obtain ⟨_, -, _, -, hstep⟩ := hstep <;> obtain rfl := Option.some.inj hstep <;> exact h
  | write done told =>
    cases done with
    | false =>
      simp only [step, Option.bind_eq_bind, Option.bind_eq_some_iff] at hstep
      obtain ⟨_, -, _, -, hstep⟩ := hstep
      obtain rfl := Option.some.inj hstep
      exact h
    | true =>
      simp only [step, Option.bind_eq_bind, Option.bind_eq_some_iff] at hstep
      obtain ⟨pc, -, ⟨u, next⟩, hnext, hstep⟩ := hstep
      obtain rfl := Option.some.inj hstep
      cases pc with
      | first | setCursor =>
        obtain ⟨rfl, -⟩ := Prod.mk.inj (Option.some.inj hnext)
        simp [setCursor, h]
      | transact pass height o address system rest =>
        rw [written] at hnext
        split at hnext
        · obtain ⟨rfl, -⟩ := Prod.mk.inj (Option.some.inj hnext)
          exact h
        · rename_i u got htransact
          obtain ⟨rfl, -⟩ := Prod.mk.inj (Option.some.inj hnext)
          obtain ⟨-, row, rungs, -, -, -, -, -, rfl⟩ := transact_spec htransact
          exact h
      | tip | cursor | today | block | select => cases hnext
  | ladder e =>
    simp only [step, Option.bind_eq_bind, Option.bind_eq_some_iff] at hstep
    obtain ⟨_, -, shop, -, hstep⟩ := hstep
    obtain rfl := Option.some.inj hstep
    exact h
  | tick | crash =>
    obtain rfl := Option.some.inj hstep
    exact h

/-- The database before the first scan. -/
structure Start (s : State) : Prop where
  shop : ladder.Fresh s.shop
  rows : s.rows = []
  scan : s.scan = none
  origin : s.origin = s.cursor

theorem Start.counted (h : Start s) (env : Env) : Counted env s := by
  refine ⟨h.shop.inventory, ?_, ?_, ?_, by rw [h.origin], ?_, ?_, ?_, ?_, ?_⟩
  · simp [h.rows]
  · simp [h.rows]
  · simp [h.rows]
  · intro first hfirst last hlast
    rw [h.origin] at hfirst
    obtain rfl : first = last := Option.some.inj (hfirst.symm.trans hlast)
    exact ⟨le_rfl, fun _ hlt hle => absurd hle (not_le_of_gt hlt)⟩
  · simp [h.rows]
  · intro day up hslack
    simpa [h.rows, retiredOn] using hslack.1
  · simp [h.scan]
  · simp [h.scan]

theorem toUnits_nonneg {pcn : Double} (h : 0 ≤ pcn) : 0 ≤ toUnits pcn := by
  have hproduct : 0 ≤ (pcn * Number.of 53 (10 ^ 8)).val :=
    Number.val_nonneg (Number.nonneg_mul h (Number.of_nonneg (by norm_num)))
  exact Int.floor_nonneg.mpr (add_nonneg hproduct (by norm_num))

theorem toUnits_le {pcn : Double} (h : 0 ≤ pcn) :
    (toUnits pcn : ℚ) ≤ pcn.val * 10 ^ 8 + pcn.val * 10 ^ 8 / 2 ^ 53 + 1 / 2 := by
  have hunits : (Number.of 53 (10 ^ 8)).val = 10 ^ 8 :=
    nearest_eq_self (n := 10 ^ 8) (e := 0) (by norm_num) (by norm_num)
  have hpcn := Number.val_nonneg h
  have hle : (pcn * Number.of 53 (10 ^ 8)).val ≤
      pcn.val * (Number.of 53 (10 ^ 8)).val + pcn.val * (Number.of 53 (10 ^ 8)).val / 2 ^ 53 :=
    Number.of_le (by rw [hunits]; positivity)
  rw [hunits] at hle
  rw [toUnits]
  exact (Int.floor_le _).trans (by linarith)

/-- A cap of whole units leaves room for half a unit, as long as the day has few retirements for
its size. -/
theorem Counted.slack_of_whole (h : Counted env s) {day : Nat} (hcap : 0 ≤ env.cap)
    (hwhole : (⌊env.cap⌋ : ℚ) = env.cap) (hfew : (countedOn s.rows day + 4) * env.cap < 2 ^ 51) :
    Slack env s.rows day (1 / 2 + env.cap / 2 ^ 52) := by
  refine ⟨hcap, fun r hr _ => ?_, by rw [hwhole]; linarith⟩
  obtain ⟨hnonneg, hle⟩ := h.shares r hr
  have hunits := toUnits_le hnonneg
  obtain hzero | hpos := hnonneg.eq_or_lt
  · rw [← hzero, Number.val_zero] at hunits ⊢
    linarith
  · obtain ⟨-, hshare⟩ := left_le hpos hle
    linarith

/-- Whatever fails and in whatever order, the outputs between where the counting began and
the cursor are counted exactly once, and what was retired for them was taken from the ladder
with the row. A day stays within the cap when rounding its shares up does not reach past it: with
a cap of whole units, as long as its retirements are not too many. -/
theorem retirement_counts_once (hstart : Start s)
    (hrun : run.Steps (step env) (fun _ _ => True) s t) :
    (t.rows.map Row.key).Nodup ∧
    (∀ first ∈ s.cursor, t.origin = some first) ∧
    (∀ first ∈ t.origin, ∀ last ∈ t.cursor, ∀ h, first < h → h ≤ last →
      ∀ o ∈ env.outputs h, env.Qualifies o → (t.rows.filter (Row.key · = o.key)).length = 1) ∧
    (∀ day up, Slack env t.rows day up → (retiredOn t.rows day : ℚ) ≤ env.cap) ∧
    (∀ day, 0 ≤ env.cap → ⌊env.cap⌋ = env.cap → (countedOn t.rows day + 4) * env.cap < 2 ^ 51 →
      (retiredOn t.rows day : ℚ) ≤ env.cap) ∧
    ladder.retiredUnits t.shop.rungs = (t.rows.map Row.pcn_retired).sum ∧
    ∀ e u, step env t e = some u → Taken env t u := by
  have hcounted : Counted env t :=
    hrun.invariant (fun _ _ _ h _ hstep => counted_step h hstep) (hstart.counted env)
  refine ⟨hcounted.keys, fun first hfirst => ?_, fun first hfirst last hlast h hlt hle o ho hq => ?_,
    hcounted.capped, fun day hcap hwhole hfew =>
      hcounted.capped day _ (hcounted.slack_of_whole hcap hwhole hfew), ?_,
    fun e u hstep => taken_step hcounted.inventory hstep⟩
  · have hkeep : ∀ u e v, u.origin = some first → True → step env u e = some v →
        v.origin = some first := fun _ _ _ h _ hstep => origin_step h hstep
    refine hrun.invariant hkeep ?_
    rw [hstart.origin]
    exact hfirst
  · obtain hkey | hnil := (hcounted.covered first hfirst last hlast).2 h hlt hle o ho hq
    · obtain ⟨row, hrow, hkey⟩ := List.mem_map.mp hkey
      rw [← hkey, table.filter_key_of_mem hcounted.keys hrow]
      rfl
    · cases hnil
  · -- by induction on the run, with the invariant at every state of it
    have hsum : ∀ u, run.Steps (step env) (fun _ _ => True) s u →
        ladder.retiredUnits u.shop.rungs = (u.rows.map Row.pcn_retired).sum := by
      intro u hu
      induction hu with
      | refl =>
        rw [hstart.rows]
        refine List.sum_eq_zero fun n hn => ?_
        obtain ⟨r, hr, rfl⟩ := List.mem_map.mp hn
        exact (hstart.shop.counters r hr).2.2.2
      | tail hrun' _ hstep ih =>
        have hinv := (hrun'.invariant (fun _ _ _ h _ hstep => counted_step h hstep)
          (hstart.counted env)).inventory
        obtain ⟨hrows, hunits⟩ | ⟨row, hrows, -, hunits⟩ := taken_step hinv hstep
        · rw [hunits, hrows, ih]
        · rw [hunits, hrows, ih]
          simp
    exact hsum t hrun

end

/-- One payment of one unit to a service, of which three fifths are to be retired, and a cap of so
many units. -/
def oneUnit (cap : ℚ) : Env where
  retireRatioPct := 60
  minConf := 1
  retireDailyCapPcn := cap / 10 ^ 8
  systems := ["bot"]
  spend_addresses a := if a = "p" then some "bot" else none
  block h := if h = 6 then [⟨"t", [⟨some "p", 1⟩]⟩] else []

def oneUnitStart : State := { shop := ladder.seeded, cursor := some 5 }

/-- A scan whose transaction is committed without the process hearing of it, a scan that
finds the cap used up, and on the next day one that finds the output counted. -/
def oneUnitRun : List Event :=
  [.scan, .tip (some 7), .read true, .read true, .read true, .read true, .write true false,
    .scan, .tip (some 7), .read true, .read true, .read true, .read true,
    .tick, .scan, .tip (some 7), .read true, .read true, .read true, .read true, .write true true,
    .write true true]

theorem oneUnitStart_start : Start oneUnitStart := ⟨⟨by decide, by decide, rfl⟩, rfl, rfl, rfl⟩

/-- What was retired is rounded to whole units, past a cap of four fifths of one. -/
theorem rounding_passes_cap :
    Start oneUnitStart ∧
      ∃ t, run.exec (step (oneUnit (4 / 5))) oneUnitStart oneUnitRun = some t ∧
        ¬ (retiredOn t.rows 0 : ℚ) ≤ (oneUnit (4 / 5)).cap := by
  obtain ⟨t, hexec⟩ : ∃ t, run.exec (step (oneUnit (4 / 5))) oneUnitStart oneUnitRun = some t :=
    Option.isSome_iff_exists.mp (by decide +kernel)
  refine ⟨oneUnitStart_start, t, hexec, ?_⟩
  have hone : (run.exec (step (oneUnit (4 / 5))) oneUnitStart oneUnitRun).map
      (fun t => retiredOn t.rows 0) = some 1 := by decide +kernel
  rw [hexec] at hone
  obtain hone : retiredOn t.rows 0 = 1 := Option.some.inj hone
  norm_num [hone, oneUnit, Env.cap]

/-- A cap of one unit has room for it. -/
theorem retirement_counts_once_unit :
    ∃ t, run.exec (step (oneUnit 1)) oneUnitStart oneUnitRun = some t ∧
      t.cursor = some 6 ∧ t.rows.length = 1 ∧
      (retiredOn t.rows 0 : ℚ) ≤ (oneUnit 1).cap := by
  obtain ⟨t, hexec⟩ : ∃ t, run.exec (step (oneUnit 1)) oneUnitStart oneUnitRun = some t :=
    Option.isSome_iff_exists.mp (by decide +kernel)
  have hend : (run.exec (step (oneUnit 1)) oneUnitStart oneUnitRun).map
      (fun t => (t.cursor, t.rows.length, countedOn t.rows 0)) = some (some 6, 1, 1) := by
    decide +kernel
  rw [hexec] at hend
  obtain ⟨hcursor, hlength, hcount⟩ : t.cursor = some 6 ∧ t.rows.length = 1 ∧
      countedOn t.rows 0 = 1 := by simpa using hend
  have hrun := run.steps_of_exec oneUnitRun hexec (run.meets_true oneUnitStart oneUnitRun)
  have hcap : (oneUnit 1).cap = 1 := by norm_num [Env.cap, oneUnit]
  refine ⟨t, hexec, hcursor, hlength,
    (retirement_counts_once oneUnitStart_start hrun).2.2.2.2.1 0 ?_ ?_ ?_⟩ <;> rw [hcap]
  · norm_num
  · norm_num
  · norm_num [hcount]

end pcoin.market.retire
