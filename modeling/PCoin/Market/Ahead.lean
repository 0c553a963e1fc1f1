import PCoin.Market.RetireOnce

open floating

namespace pcoin.market.retire

section

variable {env : Env} {s t : State}

/-- What a step does to a scan. -/
inductive Move (env : Env) (s : State) : Event → State → Prop
  | still (e : Event) (t : State) (h : e = .scan ∨ e = .tick ∨ ∃ l, e = .ladder l)
      (cursor : t.cursor = s.cursor) (rows : t.rows = s.rows)
      (day : t.day = s.day ∨ t.day = s.day + 1) (scan : t.scan = s.scan) : Move env s e t
  | start (idle : s.scan = none) : Move env s .scan { s with scan := some .tip }
  | tip (reply : Option Int) (scan : s.scan = some .tip) :
      Move env s (.tip reply) { s with scan := reply.map fun tip => .cursor (tip - env.minConf) }
  | failed (e : Event) (h : e = .read false ∨ ∃ told, e = .write false told) :
      Move env s e { s with scan := none }
  | crash (shop : ladder.State) : Move env s .crash { s with scan := none, shop := shop }
  | read (pc : Pc) (next : Option Pc) (scan : s.scan = some pc)
      (h : answered env s pc = some next) : Move env s (.read true) { s with scan := next }
  | write (pc : Pc) (u : State) (next : Option Pc) (told : Bool) (scan : s.scan = some pc)
      (h : written env s pc = some (u, next)) :
      Move env s (.write true told) { u with scan := if told then next else none }

theorem move_of_step {e : Event} (hstep : step env s e = some t) : Move env s e t := by
  cases e with
  | scan =>
    obtain rfl := Option.some.inj hstep
    split
    · rename_i hidle
      exact .start hidle.1
    · exact .still _ _ (.inl rfl) rfl rfl (.inl rfl) rfl
  | tip reply =>
    simp only [step, Option.bind_eq_bind, Option.bind_eq_some_iff] at hstep
    obtain ⟨_, hguard, hstep⟩ := hstep
    obtain rfl := Option.some.inj hstep
    exact .tip reply (by simpa [guard] using hguard)
  | read ok =>
    cases ok with
    | false =>
      simp only [step, Option.bind_eq_bind, Option.bind_eq_some_iff] at hstep
      obtain ⟨pc, -, _, -, hstep⟩ := hstep
      obtain rfl := Option.some.inj hstep
      exact .failed _ (.inl rfl)
    | true =>
      simp only [step, Option.bind_eq_bind, Option.bind_eq_some_iff] at hstep
      obtain ⟨pc, hpc, next, hnext, hstep⟩ := hstep
      obtain rfl := Option.some.inj hstep
      exact .read pc next hpc hnext
  | write done told =>
    cases done with
    | false =>
      simp only [step, Option.bind_eq_bind, Option.bind_eq_some_iff] at hstep
      obtain ⟨pc, -, _, -, hstep⟩ := hstep
      obtain rfl := Option.some.inj hstep
      exact .failed _ (.inr ⟨told, rfl⟩)
    | true =>
      simp only [step, Option.bind_eq_bind, Option.bind_eq_some_iff] at hstep
      obtain ⟨pc, hpc, ⟨u, next⟩, hnext, hstep⟩ := hstep
      obtain rfl := Option.some.inj hstep
      exact .write pc u next told hpc hnext
  | ladder e =>
    simp only [step, Option.bind_eq_bind, Option.bind_eq_some_iff] at hstep
    obtain ⟨_, -, shop, -, hstep⟩ := hstep
    obtain rfl := Option.some.inj hstep
    exact .still _ _ (.inr (.inr ⟨_, rfl⟩)) rfl rfl (.inl rfl) rfl
  | tick =>
    obtain rfl := Option.some.inj hstep
    exact .still _ _ (.inr (.inl rfl)) rfl rfl (.inr rfl) rfl
  | crash =>
    obtain rfl := Option.some.inj hstep
    exact .crash _

/-- A place on the chain: an output of a block, with those before and after it. -/
structure Spot where
  height : Int
  before : List Spend
  output : Spend
  after : List Spend

structure Spot.On (env : Env) (x : Spot) : Prop where
  outputs : env.outputs x.height = x.before ++ x.output :: x.after
  qualifies : env.Qualifies x.output

/-- The output is behind the scan for good: it is counted, and its share is within what a
day begins with. -/
def Good (env : Env) (rows : List Row) (o : Spend) : Prop :=
  env.Qualifies o → o.key ∈ rows.map Row.key ∧ env.want o ≤ env.dailyCap

/-- The outputs still to be read are of an earlier block or lead up to the spot. -/
def Leads (env : Env) (x : Spot) (k : Int) (rest : List Spend) : Prop :=
  k < x.height ∧ (∀ o ∈ rest, o ∈ env.outputs k) ∨
    k = x.height ∧ ∃ between, (∀ o ∈ between, o ∈ x.before) ∧ rest = between ++ x.output :: x.after

/-- The scan is not past the spot. -/
def Short (env : Env) (x : Spot) : Pc → Prop
  | .tip | .cursor _ | .first _ | .today _ _ => True
  | .block _ k => k ≤ x.height
  | .select _ k o _ rest | .transact _ k o _ _ rest => Leads env x k (o :: rest)
  | .setCursor _ k => k < x.height

/-- The spot is the first that holds up the scan, if any does. -/
structure Ahead (env : Env) (x : Spot) (s : State) : Prop where
  cursor : ∃ c, s.cursor = some c ∧ -1 ≤ c ∧ c < x.height ∧
    ∀ k, c < k → k < x.height → ∀ o ∈ env.outputs k, Good env s.rows o
  before : ∀ o ∈ x.before, Good env s.rows o
  scan : ∀ pc ∈ s.scan, Short env x pc

/-- The scan goes on with what is after the spot. -/
def Passed (x : Spot) (s : State) : Prop := ∃ pass, s.scan = some (advance pass x.height x.after)

theorem Good.mono {rows rows' : List Row} {o : Spend} (h : Good env rows o)
    (hrows : rows.map Row.key ⊆ rows'.map Row.key) : Good env rows' o :=
  fun hq => ⟨hrows (h hq).1, (h hq).2⟩

variable {x : Spot}

theorem Leads.tail {k : Int} {o : Spend} {rest : List Spend} (h : Leads env x k (o :: rest)) :
    Leads env x k rest ∨ k = x.height ∧ o = x.output ∧ rest = x.after := by
  obtain ⟨hlt, hmem⟩ | ⟨heq, between, hbetween, hrest⟩ := h
  · exact .inl (.inl ⟨hlt, fun y hy => hmem y (List.mem_cons_of_mem _ hy)⟩)
  · cases between with
    | nil =>
      obtain ⟨rfl, rfl⟩ := List.cons.inj hrest
      exact .inr ⟨heq, rfl, rfl⟩
    | cons y between =>
      obtain ⟨-, rfl⟩ := List.cons.inj hrest
      exact .inl (.inr ⟨heq, between, fun z hz => hbetween z (List.mem_cons_of_mem _ hz), rfl⟩)

theorem short_advance (hx : x.On env) {pass : Pass} {k : Int} {rest : List Spend}
    (h : Leads env x k rest) : Short env x (advance pass k rest) := by
  induction rest with
  | nil =>
    obtain ⟨hlt, -⟩ | ⟨-, between, -, hrest⟩ := h
    · exact hlt
    · simp at hrest
  | cons o rest ih =>
    rw [advance]
    split
    · rename_i hpayee
      obtain h | ⟨-, rfl, -⟩ := h.tail
      · exact ih h
      · have hq := hx.qualifies
        simp [Env.Qualifies, hpayee] at hq
    · exact h

theorem short_next {pass : Pass} {k : Int} (h : k ≤ x.height) :
    ∀ pc ∈ pass.next k, Short env x pc := by
  intro pc hpc
  rw [Pass.next] at hpc
  split at hpc
  · obtain rfl := Option.some.inj hpc
    exact h
  · cases hpc

/-- A scan that goes on after the spot is past it. -/
theorem length_of_short {pass : Pass} {rest : List Spend}
    (h : Short env x (advance pass x.height rest)) : x.after.length < rest.length := by
  induction rest with
  | nil => exact absurd h (lt_irrefl _)
  | cons o rest ih =>
    rw [advance] at h
    split at h
    · have hlt := ih h
      rw [List.length_cons]
      omega
    · obtain ⟨hlt, -⟩ | ⟨-, between, -, hrest⟩ := h
      · exact absurd hlt (lt_irrefl _)
      · rw [hrest, List.length_append, List.length_cons]
        omega

theorem Ahead.not_passed (h : Ahead env x s) : ¬ Passed x s := by
  rintro ⟨pass, hscan⟩
  exact lt_irrefl _ (length_of_short (h.scan _ hscan))

/-- The rows only grow. -/
theorem Ahead.congr (h : Ahead env x s) (hcursor : t.cursor = s.cursor)
    (hrows : s.rows.map Row.key ⊆ t.rows.map Row.key) (hscan : ∀ pc ∈ t.scan, Short env x pc) :
    Ahead env x t := by
  obtain ⟨c, hc, hneg, hlt, hall⟩ := h.cursor
  exact ⟨⟨c, hcursor.trans hc, hneg, hlt, fun k hk hk' o ho => (hall k hk hk' o ho).mono hrows⟩,
    fun o ho => (h.before o ho).mono hrows, hscan⟩

theorem transact_key (env : Env) (s : State) (height : Int) (o : Spend) (address system : String) :
    (∀ u got, transact env s height o address system = some (u, got) →
      o.key ∈ u.rows.map Row.key) ∧
    (transact env s height o address system = none → o.key ∈ s.rows.map Row.key) := by
  constructor
  · intro u got htransact
    obtain ⟨-, row, rungs, hkey, -, -, -, -, rfl⟩ := transact_spec htransact
    exact List.mem_map.mpr ⟨row, by simp, hkey⟩
  · intro hnone
    rw [transact] at hnone
    split at hnone
    · assumption
    · cases hnone

theorem short_answered (hx : x.On env) (hcounted : Counted env s) (h : Ahead env x s) {pc : Pc}
    {next : Option Pc} (hpc : s.scan = some pc) (hnext : answered env s pc = some next) :
    ∀ pc ∈ next, Short env x pc := by
  have hscan := hcounted.scan pc hpc
  have hshort := h.scan pc hpc
  obtain ⟨c, hc, -, hlt, -⟩ := h.cursor
  cases pc with
  | cursor safeTip =>
    rw [answered, hc] at hnext
    obtain rfl := Option.some.inj hnext
    split <;> rintro pc ⟨⟩
    trivial
  | today safeTip start =>
    obtain rfl := Option.some.inj hnext
    obtain rfl : c = start := Option.some.inj (hc.symm.trans hscan)
    exact short_next hlt
  | block pass k =>
    obtain rfl := Option.some.inj hnext
    split
    · rintro pc ⟨⟩
      refine short_advance hx ?_
      obtain hlt | heq := lt_or_eq_of_le (show k ≤ x.height from hshort)
      · exact .inl ⟨hlt, fun o ho => ho⟩
      · exact .inr ⟨heq, x.before, fun o ho => ho, by rw [heq, hx.outputs]⟩
    · rintro pc ⟨⟩
  | select pass k o address rest =>
    obtain ⟨-, -, -, hpayee⟩ := hscan
    rw [answered] at hnext
    split at hnext
    · rename_i hnone
      obtain rfl := Option.some.inj hnext
      rintro pc ⟨⟩
      obtain hrest | ⟨-, rfl, -⟩ := Leads.tail hshort
      · exact short_advance hx hrest
      · have hq := hx.qualifies
        simp [Env.Qualifies, hpayee, hnone] at hq
    · split at hnext <;> obtain rfl := Option.some.inj hnext <;> rintro pc ⟨⟩
      exact hshort
  | tip | first | transact | setCursor => cases hnext

/-- A write leaves the scan short of the spot, or takes it past. -/
theorem ahead_written (hx : x.On env) (hcounted : Counted env s) (h : Ahead env x s) {pc : Pc}
    {next : Option Pc} (hpc : s.scan = some pc) (hnext : written env s pc = some (t, next)) :
    Ahead env x { t with scan := none } ∧
      ((∀ pc ∈ next, Short env x pc) ∨
        (∃ pass, next = some (advance pass x.height x.after)) ∧
          env.want x.output ≤ env.dailyCap ∧ x.output.key ∈ t.rows.map Row.key) := by
  have hratio : 0 < env.ratio := hcounted.ratio (by simp [hpc])
  have hscan := hcounted.scan pc hpc
  have hshort := h.scan pc hpc
  cases pc with
  | first safeTip =>
    obtain ⟨c, hc, -⟩ := h.cursor
    rw [show s.cursor = none from hscan] at hc
    cases hc
  | transact pass k o address system rest =>
    obtain ⟨-, hroom, -, hpayee, -, hwant⟩ := hscan
    have hcap := hroom.want_le hratio (value_pos_of_payee hpayee) hwant
    obtain ⟨hsome, hnone⟩ := transact_key env s k o address system
    rw [written] at hnext
    split at hnext
    · rename_i htransact
      obtain ⟨rfl, rfl⟩ := Prod.mk.inj (Option.some.inj hnext)
      refine ⟨h.congr rfl (List.Subset.refl _) (fun _ hpc => by cases hpc), ?_⟩
      obtain hrest | ⟨rfl, rfl, rfl⟩ := Leads.tail hshort
      · exact .inl (by rintro pc ⟨⟩; exact short_advance hx hrest)
      · exact .inr ⟨⟨_, rfl⟩, hcap, hnone htransact⟩
    · rename_i u got htransact
      obtain ⟨rfl, rfl⟩ := Prod.mk.inj (Option.some.inj hnext)
      have hkey := hsome _ _ htransact
      obtain ⟨-, row, rungs, -, -, -, -, -, rfl⟩ := transact_spec htransact
      refine ⟨h.congr rfl (List.map_subset _ (List.subset_append_left _ _))
        (fun _ hpc => by cases hpc), ?_⟩
      obtain hrest | ⟨rfl, rfl, rfl⟩ := Leads.tail hshort
      · exact .inl (by rintro pc ⟨⟩; exact short_advance hx hrest)
      · exact .inr ⟨⟨_, rfl⟩, hcap, hkey⟩
  | setCursor pass k =>
    obtain ⟨rfl, rfl⟩ := Prod.mk.inj (Option.some.inj hnext)
    obtain ⟨c, hc, hneg, -, hall⟩ := h.cursor
    obtain ⟨hcursor, -, -⟩ := hscan
    obtain rfl : c = k - 1 := Option.some.inj (hc.symm.trans hcursor)
    have hlt : k < x.height := hshort
    refine ⟨⟨⟨k, rfl, by omega, hlt, fun k' hk => hall k' (by omega)⟩, h.before,
      fun _ hpc => by cases hpc⟩, .inl (short_next (by omega))⟩
  | tip | cursor | today | block | select => cases hnext

/-- The only way past the spot is to count it, within what a day begins with. -/
theorem ahead_step (hx : x.On env) (hcounted : Counted env s) (h : Ahead env x s) {e : Event}
    (hstep : step env s e = some t) :
    Ahead env x t ∨
      Passed x t ∧ env.want x.output ≤ env.dailyCap ∧ x.output.key ∈ t.rows.map Row.key := by
  have hstop : Ahead env x { s with scan := none } :=
    h.congr rfl (List.Subset.refl _) (fun _ hpc => by cases hpc)
  cases move_of_step hstep with
  | still _ _ _ hcursor hrows _ hscan =>
    exact .inl (h.congr hcursor (by rw [hrows]; exact List.Subset.refl _) (hscan ▸ h.scan))
  | start =>
    exact .inl (h.congr rfl (List.Subset.refl _) (by rintro pc ⟨⟩; trivial))
  | tip reply =>
    refine .inl (h.congr rfl (List.Subset.refl _) fun pc hpc => ?_)
    obtain ⟨tip, -, rfl⟩ := Option.map_eq_some_iff.mp hpc
    trivial
  | failed => exact .inl hstop
  | crash => exact .inl (hstop.congr rfl (List.Subset.refl _) (fun _ hpc => by cases hpc))
  | read pc next hpc hnext =>
    exact .inl (h.congr rfl (List.Subset.refl _) (short_answered hx hcounted h hpc hnext))
  | write pc u next told hpc hnext =>
    obtain ⟨hahead, hgoes⟩ := ahead_written hx hcounted h hpc hnext
    cases told with
    | false => exact .inl hahead
    | true =>
      obtain hshort | ⟨⟨pass, hpass⟩, hcap, hkey⟩ := hgoes
      · exact .inl (hahead.congr rfl (List.Subset.refl _) hshort)
      · exact .inr ⟨⟨pass, hpass⟩, hcap, hkey⟩

/-- The node and the database answer, the node with a chain of at least this height. -/
def Answers (height : Int) : Event → Prop
  | .tip reply => ∃ tip ∈ reply, height ≤ tip
  | .read ok => ok = true
  | .write done told => done = true ∧ told = true
  | .ladder _ | .tick => True
  | .scan | .crash => False

/-- A pass with the whole cap before it, up to the spot at least. -/
structure Pass.Whole (env : Env) (x : Spot) (pass : Pass) : Prop where
  safeTip : x.height ≤ pass.safeTip
  capLeft : pass.capLeft = env.dailyCap
  retired : pass.retired = 0

/-- The pass began on a day on which nothing had been retired, and has retired nothing. -/
def Fresh (env : Env) (x : Spot) (s : State) : Pc → Prop
  | .tip => retiredOn s.rows s.day = 0
  | .cursor safeTip | .today safeTip _ => x.height ≤ safeTip ∧ retiredOn s.rows s.day = 0
  | .first _ => False
  | .block pass _ | .select pass _ _ _ _ | .transact pass _ _ _ _ _ | .setCursor pass _ =>
    pass.Whole env x

theorem fresh_advance {pass : Pass} (h : pass.Whole env x) (k : Int) (rest : List Spend) :
    Fresh env x s (advance pass k rest) := by
  induction rest with
  | nil => exact h
  | cons o rest ih =>
    rw [advance]
    split
    · exact ih
    · exact h

theorem fresh_next {pass : Pass} {k : Int} (h : pass.Whole env x) (hk : k ≤ x.height) :
    ∃ pc ∈ pass.next k, Fresh env x s pc := by
  rw [Pass.next, if_pos (hk.trans h.safeTip)]
  exact ⟨_, rfl, h⟩

/-- The output a scan short of the spot is at is behind it, or is the output of the spot. -/
theorem Leads.good (h : Ahead env x s) {k : Int} {o : Spend} {rest : List Spend}
    (hcursor : s.cursor = some (k - 1)) (hleads : Leads env x k (o :: rest)) :
    Good env s.rows o ∨ k = x.height ∧ o = x.output ∧ rest = x.after := by
  obtain ⟨c, hc, -, -, hall⟩ := h.cursor
  obtain rfl : c = k - 1 := Option.some.inj (hc.symm.trans hcursor)
  obtain ⟨hlt, hmem⟩ | ⟨heq, between, hbetween, hrest⟩ := hleads
  · exact .inl (hall k (by omega) hlt o (hmem o List.mem_cons_self))
  · cases between with
    | nil =>
      obtain ⟨rfl, rfl⟩ := List.cons.inj hrest
      exact .inr ⟨heq, rfl, rfl⟩
    | cons y between =>
      obtain ⟨rfl, -⟩ := List.cons.inj hrest
      exact .inl (h.before _ (hbetween _ List.mem_cons_self))

theorem qualifies_of_payee {o : Spend} {address system : String} (hpayee : o.payee = some address)
    (hsystem : env.systemOf address = some system) : env.Qualifies o := by
  simp [Env.Qualifies, hpayee, hsystem]

theorem Spot.On.want_pos (hx : x.On env) (hratio : 0 < env.ratio) : 0 < env.want x.output := by
  obtain ⟨system, hsystem⟩ := Option.isSome_iff_exists.mp hx.qualifies
  obtain ⟨address, hpayee, -⟩ := Option.bind_eq_some_iff.mp hsystem
  exact share_pos hratio (value_pos_of_payee hpayee)

theorem fresh_answered (hx : x.On env) (hcounted : Counted env s) (hahead : Ahead env x s)
    (hcap : env.want x.output ≤ env.dailyCap) {pc : Pc} {next : Option Pc}
    (hpc : s.scan = some pc) (h : Fresh env x s pc) (hnext : answered env s pc = some next) :
    ∃ pc ∈ next, Fresh env x s pc := by
  have hratio : 0 < env.ratio := hcounted.ratio (by simp [hpc])
  have hscan := hcounted.scan pc hpc
  have hshort := hahead.scan pc hpc
  obtain ⟨c, hc, hneg, hlt, -⟩ := hahead.cursor
  cases pc with
  | cursor safeTip =>
    rw [answered, hc] at hnext
    obtain rfl := Option.some.inj hnext
    rw [if_neg (by have hle := h.1; omega)]
    exact ⟨_, rfl, h⟩
  | today safeTip start =>
    obtain rfl := Option.some.inj hnext
    obtain rfl : c = start := Option.some.inj (hc.symm.trans hscan)
    refine fresh_next ⟨h.1, ?_, rfl⟩ hlt
    rw [retiredToday_eq hcounted.days, h.2]
    simpa [fromUnits] using (hx.want_pos hratio).le.trans hcap
  | block pass k =>
    obtain rfl := Option.some.inj hnext
    obtain rfl : c = k - 1 := Option.some.inj (hc.symm.trans hscan.1)
    rw [if_pos (by omega)]
    exact ⟨_, rfl, fresh_advance h k _⟩
  | select pass k o address rest =>
    obtain ⟨hcursor, -, -, hpayee⟩ := hscan
    rw [answered] at hnext
    split at hnext
    · obtain rfl := Option.some.inj hnext
      exact ⟨_, rfl, fresh_advance h k rest⟩
    · rename_i system hsystem
      have hwant : env.want o ≤ env.dailyCap := by
        obtain hgood | ⟨-, rfl, -⟩ := Leads.good hahead hcursor hshort
        · exact (hgood (qualifies_of_payee hpayee hsystem)).2
        · exact hcap
      have hleft : ¬ env.want o > pass.capLeft - pass.retired := by
        rw [h.capLeft, h.retired, Number.self_sub_zero]
        exact not_lt_of_ge hwant
      rw [if_neg hleft] at hnext
      obtain rfl := Option.some.inj hnext
      exact ⟨_, rfl, h⟩
  | tip | first | transact | setCursor => cases hnext

theorem fresh_written (hcounted : Counted env s) (hahead : Ahead env x s) {pc : Pc}
    {next : Option Pc} (hpc : s.scan = some pc) (h : Fresh env x s pc)
    (hnext : written env s pc = some (t, next)) :
    (∃ pc ∈ next, Fresh env x t pc) ∨ ∃ pass, next = some (advance pass x.height x.after) := by
  have hscan := hcounted.scan pc hpc
  have hshort := hahead.scan pc hpc
  cases pc with
  | first => exact absurd h id
  | transact pass k o address system rest =>
    obtain ⟨hcursor, -, -, hpayee, hsystem, -⟩ := hscan
    rw [written] at hnext
    obtain hgood | ⟨rfl, rfl, rfl⟩ := Leads.good hahead hcursor hshort
    · -- an output behind the spot is counted, so the pass still has retired nothing
      have hkey := (hgood (qualifies_of_payee hpayee hsystem)).1
      have hnone : transact env s k o address system = none := by rw [transact, if_pos hkey]
      rw [hnone] at hnext
      obtain ⟨rfl, rfl⟩ := Prod.mk.inj (Option.some.inj hnext)
      exact .inl ⟨_, rfl, fresh_advance h k rest⟩
    · split at hnext <;> obtain ⟨-, rfl⟩ := Prod.mk.inj (Option.some.inj hnext) <;>
        exact .inr ⟨_, rfl⟩
  | setCursor pass k =>
    obtain ⟨rfl, rfl⟩ := Prod.mk.inj (Option.some.inj hnext)
    have hlt : k < x.height := hshort
    exact .inl (fresh_next h (by omega))
  | tip | cursor | today | block | select => cases hnext

/-- A fresh pass that is answered goes on up to the spot. -/
theorem fresh_step (hx : x.On env) (hcounted : Counted env s) (hahead : Ahead env x s)
    (hcap : env.want x.output ≤ env.dailyCap) {pc : Pc} (hpc : s.scan = some pc)
    (h : Fresh env x s pc) {e : Event} (hans : Answers (x.height + env.minConf) e)
    (hstep : step env s e = some t) : (∃ pc ∈ t.scan, Fresh env x t pc) ∨ Passed x t := by
  cases move_of_step hstep with
  | still _ _ _ _ hrows hday hscan =>
    refine .inl ⟨pc, hscan.trans hpc, ?_⟩
    have hzero : retiredOn s.rows s.day = 0 → retiredOn t.rows t.day = 0 := by
      intro hzero
      rw [hrows]
      obtain heq | heq := hday <;> rw [heq]
      · exact hzero
      · exact retiredOn_future hcounted.days
    cases pc with
    | tip => exact hzero h
    | cursor | today => exact ⟨h.1, hzero h.2⟩
    | first => exact h
    | block | select | transact | setCursor => exact h
  | start => exact absurd hans id
  | tip reply htip =>
    obtain rfl := Option.some.inj (hpc.symm.trans htip)
    obtain ⟨tip, rfl, hle⟩ := hans
    exact .inl ⟨_, rfl, by omega, h⟩
  | failed _ hfailed =>
    obtain rfl | ⟨told, rfl⟩ := hfailed
    · exact absurd hans Bool.false_ne_true
    · exact absurd hans.1 Bool.false_ne_true
  | crash => exact absurd hans id
  | read pc' next hpc' hnext =>
    obtain rfl := Option.some.inj (hpc.symm.trans hpc')
    obtain ⟨pc', hmem, hfresh⟩ := fresh_answered hx hcounted hahead hcap hpc h hnext
    refine .inl ⟨pc', hmem, ?_⟩
    cases pc' <;> exact hfresh
  | write pc' u next told hpc' hnext =>
    obtain rfl := Option.some.inj (hpc.symm.trans hpc')
    obtain rfl := hans.2
    obtain ⟨pc', hmem, hfresh⟩ | ⟨pass, hpass⟩ := fresh_written hcounted hahead hpc h hnext
    · refine .inl ⟨pc', hmem, ?_⟩
      cases pc' <;> exact hfresh
    · exact .inr ⟨pass, hpass⟩

theorem counted_exec (hcounted : Counted env s) (es : List Event)
    (hexec : run.exec (step env) s es = some t) : Counted env t :=
  (run.steps_of_exec es hexec (run.meets_true s es)).invariant
    (fun _ _ _ h _ hstep => counted_step h hstep) hcounted

/-- The only step that counts an output. -/
theorem new_row {e : Event} (hstep : step env s e = some t) :
    t.rows = s.rows ∨ ∃ told pass k o address system rest row, e = .write true told ∧
      s.scan = some (.transact pass k o address system rest) ∧ o.key ∉ s.rows.map Row.key ∧
      t.rows = s.rows ++ [row] ∧ row.key = o.key ∧ row.pcn_spent = o.value ∧
      row.pcn_retired = min (max (toUnits (env.want o)) 0) (ladder.left s.shop.rungs) := by
  cases move_of_step hstep with
  | still _ _ _ _ hrows => exact .inl hrows
  | start | tip | failed | crash | read => exact .inl rfl
  | write pc u next told hpc hnext =>
    cases pc with
    | first | setCursor =>
      obtain ⟨rfl, -⟩ := Prod.mk.inj (Option.some.inj hnext)
      exact .inl rfl
    | transact pass k o address system rest =>
      rw [written] at hnext
      split at hnext
      · obtain ⟨rfl, -⟩ := Prod.mk.inj (Option.some.inj hnext)
        exact .inl rfl
      · rename_i v got htransact
        obtain ⟨rfl, -⟩ := Prod.mk.inj (Option.some.inj hnext)
        obtain ⟨hnew, row, rungs, hrow, -, hspent, hgot, hretire, rfl⟩ := transact_spec htransact
        refine .inr ⟨told, pass, k, o, address, system, rest, row, rfl, hpc, hnew, rfl, hrow, hspent, ?_⟩
        rw [hgot, ← ladder.retireFromLadder_eq, hretire]
    | tip | cursor | today | block | select => cases hnext

theorem rows_step {e : Event} (hstep : step env s e = some t) : s.rows ⊆ t.rows := by
  obtain hrows | ⟨_, _, _, _, _, _, _, row, -, -, -, hrows, -⟩ := new_row hstep
  · rw [hrows]
    exact List.Subset.refl _
  · rw [hrows]
    exact List.subset_append_left _ _

theorem rows_steps {ok : State → Event → Prop} (hrun : run.Steps (step env) ok s t) :
    s.rows ⊆ t.rows := by
  have hkeep : ∀ u e v, s.rows ⊆ u.rows → ok u e → step env u e = some v → s.rows ⊆ v.rows :=
    fun _ _ _ hsub _ hstep => List.Subset.trans hsub (rows_step hstep)
  exact hrun.invariant hkeep (List.Subset.refl _)

theorem rows_exec (es : List Event) (hexec : run.exec (step env) s es = some t) :
    s.rows ⊆ t.rows :=
  rows_steps (run.steps_of_exec es hexec (run.meets_true s es))

/-- Some state of the run is past the spot. -/
def Passes (env : Env) (x : Spot) (s : State) (es : List Event) : Prop :=
  ∃ es' v, es' <+: es ∧ run.exec (step env) s es' = some v ∧ Passed x v ∧
    x.output.key ∈ v.rows.map Row.key

theorem Passes.cons {e : Event} {es : List Event} (hstep : step env s e = some t)
    (h : Passes env x t es) : Passes env x s (e :: es) := by
  obtain ⟨es', v, hprefixed, hexec, hpassed⟩ := h
  exact ⟨e :: es', v, List.cons_prefix_cons.mpr ⟨rfl, hprefixed⟩, by simpa [run.exec, hstep] using hexec,
    hpassed⟩

theorem passes_head {e : Event} {es : List Event} (hstep : step env s e = some t)
    (hpassed : Passed x t) (hkey : x.output.key ∈ t.rows.map Row.key) : Passes env x s (e :: es) :=
  .cons hstep ⟨[], t, List.nil_prefix, rfl, hpassed, hkey⟩

theorem Passes.extend {es : List Event} (h : Passes env x s es) (es' : List Event) :
    Passes env x s (es ++ es') := by
  obtain ⟨es₁, v, hprefixed, h⟩ := h
  exact ⟨es₁, v, hprefixed.trans (List.prefix_append _ _), h⟩

theorem Passes.append {es es' : List Event} (hexec : run.exec (step env) s es = some t)
    (h : Passes env x t es') : Passes env x s (es ++ es') := by
  obtain ⟨es₁, v, hprefixed, hexec', h⟩ := h
  refine ⟨es ++ es₁, v, (List.prefix_append_right_inj es).mpr hprefixed, ?_, h⟩
  rw [run.exec_append, hexec]
  exact hexec'

theorem Passes.key {es : List Event} (h : Passes env x s es)
    (hexec : run.exec (step env) s es = some t) : x.output.key ∈ t.rows.map Row.key := by
  obtain ⟨es', v, ⟨es'', rfl⟩, hexec', -, hkey⟩ := h
  rw [run.exec_append, hexec'] at hexec
  exact List.map_subset _ (rows_exec es'' hexec) hkey

theorem ahead_exec (hx : x.On env) (hcounted : Counted env s) (h : Ahead env x s) (es : List Event)
    (hexec : run.exec (step env) s es = some t) :
    Ahead env x t ∨ Passes env x s es ∧ env.want x.output ≤ env.dailyCap := by
  induction es generalizing s with
  | nil =>
    obtain rfl := Option.some.inj hexec
    exact .inl h
  | cons e es ih =>
    obtain ⟨u, hstep, hexec⟩ := Option.bind_eq_some_iff.mp hexec
    obtain hahead | ⟨hpassed, hcap, hkey⟩ := ahead_step hx hcounted h hstep
    · obtain hahead | ⟨hpasses, hcap⟩ := ih (counted_step hcounted hstep) hahead hexec
      · exact .inl hahead
      · exact .inr ⟨hpasses.cons hstep, hcap⟩
    · exact .inr ⟨passes_head hstep hpassed hkey, hcap⟩

/-- A fresh pass that is answered to its end is past the spot at some time. -/
theorem passes_of_fresh (hx : x.On env) (hcounted : Counted env s) (h : Ahead env x s)
    (hcap : env.want x.output ≤ env.dailyCap) {pc : Pc} (hpc : s.scan = some pc)
    (hfresh : Fresh env x s pc) (es : List Event) (hexec : run.exec (step env) s es = some t)
    (hans : ∀ e ∈ es, Answers (x.height + env.minConf) e) (hend : t.scan = none) :
    Passes env x s es := by
  induction es generalizing s pc with
  | nil =>
    obtain rfl := Option.some.inj hexec
    rw [hend] at hpc
    cases hpc
  | cons e es ih =>
    obtain ⟨u, hstep, hexec⟩ := Option.bind_eq_some_iff.mp hexec
    obtain hahead | ⟨hpassed, -, hkey⟩ := ahead_step hx hcounted h hstep
    · obtain ⟨pc', hpc', hfresh'⟩ | hpassed :=
        fresh_step hx hcounted h hcap hpc hfresh (hans e List.mem_cons_self) hstep
      · exact (ih (counted_step hcounted hstep) hahead hpc' hfresh' hexec
          fun e he => hans e (List.mem_cons_of_mem _ he)).cons hstep
      · exact absurd hpassed hahead.not_passed
    · exact passes_head hstep hpassed hkey

/-- The output is counted with its whole share. -/
def InFull (env : Env) (rows : List Row) (o : Spend) : Prop :=
  ∃ r ∈ rows, r.key = o.key ∧ r.pcn_spent = o.value ∧ r.pcn_retired = toUnits (env.want o)

/-- A transaction that counts the output finds its share on the ladder. -/
def Stocked (env : Env) (o : Spend) (s : State) (e : Event) : Prop :=
  ∀ told pass k address system rest, e = .write true told →
    s.scan = some (.transact pass k o address system rest) → o.key ∉ s.rows.map Row.key →
      toUnits (env.want o) ≤ ladder.left s.shop.rungs

theorem taken_eq_iff {o : Spend} (h : 0 ≤ env.want o) (left : Int) :
    min (max (toUnits (env.want o)) 0) left = toUnits (env.want o) ↔
      toUnits (env.want o) ≤ left := by
  have hpos := toUnits_nonneg h
  omega

/-- The step that counts the output of the spot. -/
theorem counts_of_step (hcounted : Counted env s) (h : Ahead env x s) {e : Event}
    (hnew : x.output.key ∉ s.rows.map Row.key) (hstep : step env s e = some t)
    (hkey : x.output.key ∈ t.rows.map Row.key) :
    ∃ told pass k address system rest row, e = .write true told ∧
      s.scan = some (.transact pass k x.output address system rest) ∧ t.rows = s.rows ++ [row] ∧
      row.key = x.output.key ∧ row.pcn_spent = x.output.value ∧
      row.pcn_retired = min (max (toUnits (env.want x.output)) 0) (ladder.left s.shop.rungs) := by
  obtain hrows | ⟨told, pass, k, o, address, system, rest, row, rfl, hscan, hfresh, hrows, hrow,
    hspent, hgot⟩ := new_row hstep
  · exact absurd (hrows ▸ hkey) hnew
  · obtain ⟨hcursor, -, -, hpayee, hsystem, -⟩ := hcounted.scan _ hscan
    obtain hgood | ⟨rfl, rfl, rfl⟩ := Leads.good h hcursor (h.scan _ hscan)
    · exact absurd (hgood (qualifies_of_payee hpayee hsystem)).1 hfresh
    · exact ⟨told, pass, _, address, system, _, row, rfl, hscan, hrows, hrow, hspent, hgot⟩

theorem stocked_of_counted {o : Spend} (es : List Event) (hkey : o.key ∈ s.rows.map Row.key) :
    run.Meets (step env) (Stocked env o) s es := by
  induction es generalizing s with
  | nil => trivial
  | cons e es ih =>
    refine ⟨fun _ _ _ _ _ _ _ _ hnew => absurd hkey hnew, fun t hstep => ?_⟩
    exact ih (List.map_subset _ (rows_step hstep) hkey)

/-- A transaction that is carried out leaves its output counted. -/
theorem key_of_write {told : Bool} {pass : Pass} {k : Int} {o : Spend} {address system : String}
    {rest : List Spend} (hstep : step env s (.write true told) = some t)
    (hscan : s.scan = some (.transact pass k o address system rest)) : o.key ∈ t.rows.map Row.key := by
  obtain ⟨hsome, hnone⟩ := transact_key env s k o address system
  simp only [step, hscan, written, Option.bind_eq_bind, Option.bind_some] at hstep
  split at hstep <;> obtain rfl := Option.some.inj hstep
  · rename_i htransact
    exact hnone htransact
  · rename_i u got htransact
    exact hsome u got htransact

/-- An output that comes to be counted is within the cap, and is counted in full when the ladder
has its share. -/
theorem in_full_iff (hx : x.On env) (hratio : 0 < env.ratio) (hcounted : Counted env s)
    (h : Ahead env x s) (hnew : x.output.key ∉ s.rows.map Row.key) (es : List Event)
    (hexec : run.exec (step env) s es = some t) (hkey : x.output.key ∈ t.rows.map Row.key) :
    env.want x.output ≤ env.dailyCap ∧
      (InFull env t.rows x.output ↔ run.Meets (step env) (Stocked env x.output) s es) := by
  induction es generalizing s with
  | nil =>
    obtain rfl := Option.some.inj hexec
    exact absurd hkey hnew
  | cons e es ih =>
    obtain ⟨u, hstep, hexec'⟩ := Option.bind_eq_some_iff.mp hexec
    have hu := counted_step hcounted hstep
    have hmeets : run.Meets (step env) (Stocked env x.output) s (e :: es) ↔
        Stocked env x.output s e ∧ run.Meets (step env) (Stocked env x.output) u es :=
      ⟨fun h => ⟨h.1, h.2 u hstep⟩, fun h => ⟨h.1, fun v hv => by
        obtain rfl := Option.some.inj (hstep.symm.trans hv)
        exact h.2⟩⟩
    rw [hmeets]
    by_cases hcounts : x.output.key ∈ u.rows.map Row.key
    · obtain ⟨told, pass, k, address, system, rest, row, rfl, hscan, hrows, hrow, hspent, hgot⟩ :=
        counts_of_step hcounted h hnew hstep hcounts
      have hleft : Stocked env x.output s (.write true told) ↔
          toUnits (env.want x.output) ≤ ladder.left s.shop.rungs :=
        ⟨fun h => h told pass k address system rest rfl hscan hnew, fun h _ _ _ _ _ _ _ _ _ => h⟩
      have hmem : row ∈ t.rows := rows_exec es hexec' (by rw [hrows]; simp)
      have hunits := taken_eq_iff (hx.want_pos hratio).le (ladder.left s.shop.rungs)
      obtain ⟨-, hroom, -, hpayee, -, hwant⟩ := hcounted.scan _ hscan
      refine ⟨hroom.want_le hratio (value_pos_of_payee hpayee) hwant, ?_⟩
      rw [hleft, and_iff_left (stocked_of_counted es hcounts), ← hunits, ← hgot]
      constructor
      · rintro ⟨r, hr, hkey', -, hfull⟩
        obtain rfl := List.inj_on_of_nodup_map (counted_exec hu es hexec').keys hr hmem
          (hkey'.trans hrow.symm)
        exact hfull
      · exact fun hfull => ⟨row, hmem, hrow, hspent, hfull⟩
    · have hstocked : Stocked env x.output s e := by
        rintro told pass k address system rest rfl hscan -
        exact absurd (key_of_write hstep hscan) hcounts
      have hahead : Ahead env x u := (ahead_step hx hcounted h hstep).resolve_right
        fun hpassed => hcounts hpassed.2.2
      rw [and_iff_right hstocked]
      exact ih hu hahead hcounts hexec'

end

end pcoin.market.retire
