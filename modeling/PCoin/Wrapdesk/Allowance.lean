import PCoin.Run.Basic
import PCoin.Wrapdesk.SettledOnce
import Mathlib.Algebra.Order.BigOperators.Group.List
import Mathlib.Tactic.Linarith

/-! What one deposit address takes, and what is sent in a day. -/

namespace pcoin.wrapdesk.watch

open keeper

/-- A transfer that `--send` has handed to the node, for a deposit at an address, on a UTC day. -/
structure Payment where
  key : String
  address : String
  tx : Tx
  amount : ℚ
  day : String
deriving DecidableEq

/-- The tool with what it has paid. A broadcast that failed may have reached the node. -/
structure Books where
  state : State := {}
  paid : List Payment := []
  lost : List Payment := []
  /-- The UTC day that the run of `--send` has read. -/
  day : String := ""
deriving DecidableEq

def State.addressOf (s : State) (key : String) : String :=
  ((table.find Outstanding.key key s.outstanding).map Outstanding.address).getD ""

/-- What is moved is a whole number of the token's units. -/
def Proc.moved (p : Proc) : ℚ := units p.amount / 10 ^ WPCN_DECIMALS

def State.payment (s : State) (p : Proc) (tx : Tx) (day : String) : Payment :=
  ⟨p.key, s.addressOf p.key, tx, p.moved, day⟩

inductive Op
  | tool (e : Event) (day : String)
  | forced (arg : String) (hash : Option Hash)

/-- The event reads the clock as it is. -/
def Event.on (day : String) : Event → Bool
  | .send _ d => d = day
  | .remembers d => d = day
  | _ => true

def Books.after (b : Books) (t : State) (day : String) : Event → Books
  | .send _ _ => { b with state := t, day := day }
  | .sends _ _ ok => match b.state.proc, t.sent.getLast? with
    | some p, some tx =>
      if ok then { b with state := t, paid := b.paid ++ [b.state.payment p tx day] }
      else { b with state := t, lost := b.lost ++ [b.state.payment p tx day] }
    | _, _ => { b with state := t }
  | .accepts tx =>
    { b with
      state := t
      paid := b.paid ++ (b.lost.filter (·.tx = tx)).map fun x => { x with day := day }
      lost := b.lost.filter (·.tx ≠ tx) }
  | _ => { b with state := t }

def Books.step (cfg : Config) (b : Books) : Op → Option Books
  | .tool e day => do
    guard (e.on day)
    let t ← watch.step cfg b.state e
    return b.after t day e
  | .forced arg hash => do
    guard (b.state.proc = none)
    let t ← force b.state arg hash
    return { b with state := t }

/-! ### The allowance, and the day -/

/-- The most that a release can be. -/
def Config.whole (cfg : Config) : ℚ := cfg.PER_PERSON * (1 - cfg.FEE_PCT / 100)

/-- What a refund takes of the allowance. What is no number counts in full. -/
def Amount.uses (cfg : Config) : Amount → ℚ
  | .nan => cfg.whole
  | .infinite negative => if negative then 0 else cfg.whole
  | .num back => max 0 (min back cfg.PER_PERSON) * (1 - cfg.FEE_PCT / 100)

/-- What a record takes of the allowance of its address. What is not known counts in full. -/
def Seen.uses (cfg : Config) (v : Seen) : ℚ :=
  (if v.released then v.send_wpcn.getD cfg.whole else 0) +
    (if v.refunded then (v.refund_pcn.map (Amount.uses cfg)).getD cfg.whole else 0)

/-- What a refund can be of. -/
def Amount.Nonneg : Amount → Prop
  | .nan => False
  | .infinite negative => negative = false
  | .num back => 0 ≤ back

instance : DecidablePred Amount.Nonneg
  | .nan => .isFalse id
  | .infinite negative => inferInstanceAs (Decidable (negative = false))
  | .num back => inferInstanceAs (Decidable (0 ≤ back))

def isReleased (seen : List Seen) (key : String) : Bool :=
  (table.find Seen.key key seen).any Seen.released

def at_ (address : String) (v : Seen) : Bool := endsWith v.key (":" ++ address)

/-- What an address has taken: what is recorded of its deposits, and what was paid for those that are
not recorded released. -/
def Books.used (cfg : Config) (b : Books) (address : String) : ℚ :=
  ((b.state.seen.filter (at_ address)).map (Seen.uses cfg)).sum +
    ((b.paid.filter fun x => decide (x.address = address) && !isReleased b.state.seen x.key).map
      Payment.amount).sum

def paidOn (paid : List Payment) (day : String) : ℚ :=
  ((paid.filter (·.day = day)).map Payment.amount).sum

/-- A run that is about to pay stays within the allowance of the address, and what was paid in a day
within the cap. -/
structure Books.Within (cfg : Config) (b : Books) : Prop where
  allowance : ∀ p ∈ b.state.proc, ∀ nonce, p.point = .send nonce →
    b.used cfg (b.state.addressOf p.key) + p.amount ≤ cfg.whole
  daily : ∀ x ∈ b.paid, paidOn b.paid x.day ≤ cfg.SEND_DAILY_CAP

/-- What a run of `--send` that is let through has to find. Every release at the address has its
amount and is no refund, and every amount of a refund is a number and not negative; what was paid at
the address is recorded released; the sums are not over their limits by the tolerance, and the amount
is not rounded up. -/
structure Plain (cfg : Config) (b : Books) (p : Proc) (day : String) : Prop where
  released : ∀ v ∈ b.state.seen, at_ (b.state.addressOf p.key) v = true → v.released = true →
    v.send_wpcn.isSome = true ∧ v.refunded = false
  refunded : ∀ v ∈ b.state.seen, at_ (b.state.addressOf p.key) v = true →
    ∀ back ∈ v.refund_pcn, back.Nonneg
  settled : ∀ x ∈ b.paid, x.address = b.state.addressOf p.key →
    isReleased b.state.seen x.key = true
  ceiling : ∀ used ∈ (allowanceUsed cfg b.state.seen (b.state.addressOf p.key)).finite,
    used + p.amount ≤ cfg.PER_ADDRESS_CEILING + 1 / 10 ^ 9 → used + p.amount ≤ cfg.PER_ADDRESS_CEILING
  cap : sent_today b.state.sends day + p.amount ≤ cfg.SEND_DAILY_CAP + 1 / 10 ^ 9 →
    sent_today b.state.sends day + p.amount ≤ cfg.SEND_DAILY_CAP
  moved : p.moved ≤ p.amount

/-- A transfer is broadcast and recorded on the day that the run has read, and a broadcast that
failed has not reached the node. -/
def Orderly (cfg : Config) (b : Books) : Op → Prop
  | .tool (.send arg day) _ => ∀ p ∈ (send cfg b.state (bare arg) day).toOption, Plain cfg b p day
  | .tool (.sends _ _ true) day => day = b.day
  | .tool (.remembers day) _ => day = b.day
  | .tool .dies _ => ∀ p ∈ b.state.proc, ∀ tx, p.point ≠ .remember tx
  | .tool (.accepts tx) _ => ∀ x ∈ b.lost, x.tx ≠ tx
  | _ => True

variable {cfg : Config} {b : Books} {s : State} {p : Proc}

/-- What `--send` has checked of the deposit that it pays. -/
theorem send_spec {txid day : String} (h : send cfg s txid day = .ok p) :
    p.point = .connect ∧ 0 < p.amount ∧
      ((allowanceUsed cfg s.seen (s.addressOf p.key)).add (.num p.amount)).exceeds
        (cfg.PER_ADDRESS_CEILING + 1 / 10 ^ 9) = false ∧
      sent_today s.sends day + p.amount ≤ cfg.SEND_DAILY_CAP + 1 / 10 ^ 9 ∧
      isReleased s.seen p.key = false ∧
      (table.find Send.key p.key s.sends).any (!·.confirmed) = false := by
  unfold send at h
  split at h
  next key hkey =>
    split at h
    next out hout =>
      split at h
      next dest hdest =>
        simp only [run.throws_unless_eq_ok] at h
        obtain ⟨hamount, hreleased, -, hallowance, hdaily, hunconfirmed, h⟩ := h
        cases h
        have haddress : s.addressOf key = out.address := by
          rw [State.addressOf, hout]
          rfl
        exact ⟨rfl, not_le.mp hamount, by rw [haddress]; exact Bool.eq_false_iff.mpr hallowance,
          not_lt.mp hdaily, Bool.eq_false_iff.mpr hreleased, Bool.eq_false_iff.mpr hunconfirmed⟩
      · cases h
    · cases h
  · cases h

/-- What `--send` takes a record for, where it is a number. -/
def Seen.charged (cfg : Config) (v : Seen) : ℚ := (v.charge cfg).finite.getD 0

theorem Seen.charge_eq {v : Seen} (hrefunded : ∀ back ∈ v.refund_pcn, back.Nonneg) :
    v.charge cfg = .num (v.charged cfg) := by
  unfold Seen.charged Seen.charge
  split
  · rfl
  · split
    · split
      · rename_i back hback
        have hnonneg := hrefunded back hback
        cases back with
        | nan => exact hnonneg.elim
        | infinite negative =>
          obtain rfl : negative = false := hnonneg
          rfl
        | num q => rfl
      · rfl
    · rfl

theorem foldl_add_num (qs : List ℚ) (q : ℚ) :
    (qs.map Amount.num).foldl Amount.add (.num q) = .num (q + qs.sum) := by
  induction qs generalizing q with
  | nil => simp
  | cons x qs ih =>
    rw [List.map_cons, List.foldl_cons, Amount.add, ih, List.sum_cons, add_assoc]

/-- The sum of what `--send` takes the records for, if they are numbers. -/
theorem allowanceUsed_eq {seen : List Seen} {address : String}
    (hrefunded : ∀ v ∈ seen, at_ address v = true → ∀ back ∈ v.refund_pcn, back.Nonneg) :
    allowanceUsed cfg seen address = .num ((seen.filter (at_ address)).map (Seen.charged cfg)).sum := by
  have hnums : (seen.filter (at_ address)).map (Seen.charge cfg) =
      ((seen.filter (at_ address)).map (Seen.charged cfg)).map Amount.num := by
    rw [List.map_map]
    refine List.map_congr_left fun v hv => ?_
    obtain ⟨hmem, hat⟩ := List.mem_filter.mp hv
    exact Seen.charge_eq (hrefunded v hmem hat)
  have hsum := foldl_add_num ((seen.filter (at_ address)).map (Seen.charged cfg)) 0
  rw [← hnums, zero_add] at hsum
  exact hsum

theorem ceiling_le_whole (hfee : cfg.FEE_PCT ≤ 5) (hlimit : 0 < cfg.PER_PERSON) :
    cfg.PER_ADDRESS_CEILING ≤ cfg.whole :=
  mul_le_mul_of_nonneg_left (by linarith) hlimit.le

/-- A record whose amounts are all known takes what it is taken for. -/
theorem Seen.uses_eq_charged {v : Seen}
    (hreleased : v.released = true → v.send_wpcn.isSome = true ∧ v.refunded = false)
    (hrefunded : ∀ back ∈ v.refund_pcn, back.Nonneg)
    (hknown : v.refunded = true → v.refund_pcn.isSome = true) (hlimit : 0 < cfg.PER_PERSON) :
    v.uses cfg = v.charged cfg := by
  unfold Seen.uses Seen.charged Seen.charge
  by_cases hrel : v.released = true
  · obtain ⟨hsome, href⟩ := hreleased hrel
    obtain ⟨amount, hamount⟩ := Option.isSome_iff_exists.mp hsome
    simp [hrel, href, hamount, Amount.finite]
  · by_cases href : v.refunded = true
    · obtain ⟨back, hback⟩ := Option.isSome_iff_exists.mp (hknown href)
      have hback' := hrefunded back hback
      cases back with
      | nan => exact hback'.elim
      | infinite negative =>
        obtain rfl : negative = false := hback'
        simp [hrel, href, hback, Amount.uses, Amount.upTo, Amount.times, Amount.finite, Config.whole]
      | num q =>
        have hnonneg : 0 ≤ min q cfg.PER_PERSON := le_min hback' hlimit.le
        simp [hrel, href, hback, max_eq_right hnonneg, Amount.uses, Amount.upTo, Amount.times,
          Amount.finite]
    · simp [hrel, href, Amount.finite]

theorem Seen.charged_nonneg {v : Seen} (hamount : ∀ a ∈ v.send_wpcn, 0 < a)
    (hrefunded : ∀ back ∈ v.refund_pcn, back.Nonneg) (hfee : cfg.FEE_PCT ≤ 5)
    (hlimit : 0 < cfg.PER_PERSON) : 0 ≤ v.charged cfg := by
  have hceiling : 0 ≤ cfg.PER_ADDRESS_CEILING := mul_nonneg hlimit.le (by norm_num)
  have hrate : 0 ≤ 1 - cfg.FEE_PCT / 100 := by linarith
  unfold Seen.charged Seen.charge
  split
  · cases hv : v.send_wpcn with
    | none => exact le_refl 0
    | some a => exact (hamount a hv).le
  · split
    · split
      · rename_i back hback
        have hback' := hrefunded back hback
        cases back with
        | nan => exact hback'.elim
        | infinite negative =>
          obtain rfl : negative = false := hback'
          exact mul_nonneg hlimit.le hrate
        | num q => exact mul_nonneg (le_min hback' hlimit.le) hrate
      · exact hceiling
    · exact le_refl 0

/-- A payment that is let through, where nothing is amiss, is within the allowance. -/
theorem Plain.fits {day : String} (h : Plain cfg b p day)
    (hamounts : ∀ v ∈ b.state.seen, ∀ a ∈ v.send_wpcn, 0 < a) (hpositive : 0 < p.amount)
    (hchecked : ((allowanceUsed cfg b.state.seen (b.state.addressOf p.key)).add (.num p.amount)).exceeds
      (cfg.PER_ADDRESS_CEILING + 1 / 10 ^ 9) = false) (hfee : cfg.FEE_PCT ≤ 5)
    (hlimit : 0 < cfg.PER_PERSON) :
    b.used cfg (b.state.addressOf p.key) + p.amount ≤ cfg.whole := by
  have hused : allowanceUsed cfg b.state.seen (b.state.addressOf p.key) = _ := allowanceUsed_eq h.refunded
  rw [hused, Amount.add, Amount.exceeds, decide_eq_false_iff_not, not_lt] at hchecked
  have htotal := h.ceiling _ (by rw [hused]; rfl) hchecked
  have hmem : ∀ v ∈ b.state.seen.filter (at_ (b.state.addressOf p.key)),
      v ∈ b.state.seen ∧ at_ (b.state.addressOf p.key) v = true := fun v hv => List.mem_filter.mp hv
  have hnonneg : ∀ v ∈ b.state.seen.filter (at_ (b.state.addressOf p.key)), 0 ≤ v.charged cfg :=
    fun v hv => Seen.charged_nonneg (hamounts v (hmem v hv).1)
      (h.refunded v (hmem v hv).1 (hmem v hv).2) hfee hlimit
  -- a refund without its amount counts as the whole, which leaves no room for a payment
  have hknown : ∀ v ∈ b.state.seen.filter (at_ (b.state.addressOf p.key)), v.refunded = true →
      v.refund_pcn.isSome = true := by
    intro v hv hrefunded
    by_contra hunknown
    have hunreleased : v.released = false := Bool.eq_false_iff.mpr fun hreleased => by
      have hfalse := (h.released v (hmem v hv).1 (hmem v hv).2 hreleased).2
      rw [hrefunded] at hfalse
      cases hfalse
    have hcharge : v.charged cfg = cfg.PER_ADDRESS_CEILING := by
      simp [Seen.charged, Seen.charge, hunreleased, hrefunded,
        Option.not_isSome_iff_eq_none.mp hunknown, Amount.finite]
    have hle := List.single_le_sum (fun x hx => by
      obtain ⟨u, hu, rfl⟩ := List.mem_map.mp hx
      exact hnonneg u hu) _ (List.mem_map.mpr ⟨v, hv, rfl⟩)
    rw [hcharge] at hle
    linarith
  have huses : (b.state.seen.filter (at_ (b.state.addressOf p.key))).map (Seen.uses cfg) =
      (b.state.seen.filter (at_ (b.state.addressOf p.key))).map (Seen.charged cfg) :=
    List.map_congr_left fun v hv => Seen.uses_eq_charged (h.released v (hmem v hv).1 (hmem v hv).2)
      (h.refunded v (hmem v hv).1 (hmem v hv).2) (hknown v hv) hlimit
  have hopen : b.paid.filter (fun x => decide (x.address = b.state.addressOf p.key) &&
      !isReleased b.state.seen x.key) = [] := by
    refine List.filter_eq_nil_iff.mpr fun x hx hopen => ?_
    obtain ⟨haddress, hunreleased⟩ := Bool.and_eq_true_iff.mp hopen
    rw [h.settled x hx (of_decide_eq_true haddress)] at hunreleased
    cases hunreleased
  rw [Books.used, huses, hopen]
  have hwhole := ceiling_le_whole hfee hlimit
  simp only [List.map_nil, List.sum_nil, add_zero]
  exact htotal.trans hwhole

/-! ### What the ledger keeps -/

/-- What was broadcast and is not yet in the ledger. -/
def Proc.owing (p : Proc) : ℚ :=
  match p.point with
  | .remember _ => p.moved
  | _ => 0

def Books.owing (b : Books) (day : String) : ℚ :=
  if b.day = day then (b.state.proc.map Proc.owing).getD 0 else 0

/-- What a run has made sure of before it pays. -/
def Checked (cfg : Config) (b : Books) (p : Proc) : Prop :=
  b.used cfg (b.state.addressOf p.key) + p.amount ≤ cfg.whole ∧
    sent_today b.state.sends b.day + p.amount ≤ cfg.SEND_DAILY_CAP

/-- What holds of a run of `--send` at its point. -/
def Fits (cfg : Config) (b : Books) (p : Proc) : Prop :=
  0 < p.amount ∧ p.moved ≤ p.amount ∧ match p.point with
    | .connect => Checked cfg b p ∧ table.find Send.key p.key b.state.sends = none
    | .nonce => Checked cfg b p ∧ table.find Send.key p.key b.state.sends = none
    | .send _ => Checked cfg b p ∧ table.find Send.key p.key b.state.sends = none
    | .remember _ => table.find Send.key p.key b.state.sends = none
    | _ => True

structure Books.Inv (cfg : Config) (b : Books) : Prop where
  daily : ∀ x ∈ b.paid, paidOn b.paid x.day ≤ cfg.SEND_DAILY_CAP
  amounts : ∀ v ∈ b.state.seen, ∀ a ∈ v.send_wpcn, 0 < a
  booked : ∀ day, paidOn b.paid day ≤ sent_today b.state.sends day + b.owing day
  confirmed : ∀ r ∈ b.state.sends, r.confirmed = true → isReleased b.state.seen r.key = true
  proc : ∀ p ∈ b.state.proc, Fits cfg b p

theorem paidOn_append (paid : List Payment) (x : Payment) (day : String) :
    paidOn (paid ++ [x]) day = paidOn paid day + if x.day = day then x.amount else 0 := by
  unfold paidOn
  rw [List.filter_append, List.map_append, List.sum_append]
  congr 1
  by_cases h : x.day = day <;> simp [h]

theorem sent_today_append (sends : List Send) (r : Send) (day : String) :
    sent_today (sends ++ [r]) day = sent_today sends day + if r.day = day then r.wpcn else 0 := by
  unfold sent_today
  rw [List.filter_append, List.map_append, List.sum_append]
  congr 1
  by_cases h : r.day = day <;> simp [h]

/-- A confirmation changes nothing of what was sent. -/
theorem sent_today_confirm (key : String) (sends : List Send) (day : String) :
    sent_today (table.update Send.key key (fun r => { r with confirmed := true }) sends) day =
      sent_today sends day := by
  unfold sent_today table.update
  rw [List.filter_map, List.map_map]
  congr 1
  have hfilter : (fun r : Send => decide (r.day = day)) ∘
      (fun r => if r.key = key then { r with confirmed := true } else r) =
      fun r => decide (r.day = day) := by
    funext r
    dsimp only [Function.comp]
    split <;> rfl
  rw [hfilter]
  refine List.map_congr_left fun r _ => ?_
  dsimp only [Function.comp]
  split <;> rfl

theorem isReleased_iff {seen : List Seen} {key : String} :
    isReleased seen key = true ↔ ∃ v, table.find Seen.key key seen = some v ∧ v.released = true :=
  Option.any_eq_true _ _

/-- A mark that takes back no release takes back none. -/
theorem isReleased_mark_of {key key' : String} {f : Seen → Seen} (hkey : ∀ v, (f v).key = v.key)
    (hf : ∀ v, v.released = true → (f v).released = true) (h : isReleased s.seen key' = true) :
    isReleased (s.mark key f).seen key' = true := by
  obtain ⟨v, hv, hreleased⟩ := isReleased_iff.mp h
  have hevolves : table.Evolves Seen.key (fun v v' => v.released = true → v'.released = true)
      s.seen (s.mark key f).seen :=
    .upsert (fun _ h => h) (fun v hv => (hkey v).trans hv) fun v _ => hf v
  obtain ⟨v', hv', hkept⟩ := hevolves key' v hv
  exact isReleased_iff.mpr ⟨v', hv', hkept hreleased⟩

theorem isReleased_mark {key : String} {f : Seen → Seen} (hkey : ∀ v, (f v).key = v.key)
    (hf : ∀ v, (f v).released = true) : isReleased (s.mark key f).seen key = true := by
  unfold State.mark table.upsert
  dsimp only
  split
  · rename_i hmem
    obtain ⟨v, hv⟩ := Option.isSome_iff_exists.mp (table.isSome_find.mpr hmem)
    refine isReleased_iff.mpr ⟨f v, ?_, hf v⟩
    rw [table.find_update fun v hv => (hkey v).trans hv, hv, Option.map_some]
  · rename_i hmem
    refine isReleased_iff.mpr ⟨f { key := key }, ?_, hf _⟩
    have hnone : table.find Seen.key key s.seen = none := by
      rw [← Option.not_isSome_iff_eq_none, table.isSome_find]
      exact hmem
    rw [table.find] at hnone ⊢
    rw [List.find?_append, hnone, Option.none_or, List.find?_singleton,
      if_pos (decide_eq_true (hkey _))]

namespace Books.Inv

/-- The node does something. -/
theorem chain (h : b.Inv cfg) (c : Chain) :
    Books.Inv cfg { b with state := { b.state with chain := c } } :=
  ⟨h.daily, h.amounts, h.booked, h.confirmed, h.proc⟩

/-- The run ends, and leaves nothing out of the ledger. -/
theorem ends (h : b.Inv cfg) (hpoint : ∀ p ∈ b.state.proc, p.owing = 0) :
    Books.Inv cfg { b with state := { b.state with proc := none } } := by
  refine ⟨h.daily, h.amounts, fun day => ?_, h.confirmed, fun p hp => nomatch hp⟩
  have howing : b.owing day = 0 := by
    unfold Books.owing
    split
    · cases hproc : b.state.proc with
      | none => rfl
      | some p => exact hpoint p hproc
    · rfl
  have hbooked := h.booked day
  rw [howing] at hbooked
  simpa [Books.owing] using hbooked

/-- The run goes on, and has paid nothing yet. -/
theorem goes (h : b.Inv cfg) (p : Proc) (point : Point) (hproc : b.state.proc = some p)
    (hbefore : p.owing = 0) (hafter : ({ p with point := point } : Proc).owing = 0)
    (hfits : Fits cfg b { p with point := point }) :
    Books.Inv cfg { b with state := b.state.goes p point } := by
  refine ⟨h.daily, h.amounts, fun day => ?_, h.confirmed, fun q hq => ?_⟩
  · have hbooked := h.booked day
    simp only [Books.owing, hproc, Option.map_some, Option.getD_some, hbefore, ite_self] at hbooked
    simpa [Books.owing, State.goes, hafter] using hbooked
  · obtain rfl := Option.mem_some.mp hq
    exact hfits

/-- The ledger of deposits is marked while no run goes on. -/
theorem marks (h : b.Inv cfg) (hproc : b.state.proc = none) {key : String} {f : Seen → Seen}
    (hkey : ∀ v, (f v).key = v.key) (hf : ∀ v, v.released = true → (f v).released = true)
    (hamount : ∀ v : Seen, (∀ a ∈ v.send_wpcn, 0 < a) → ∀ a ∈ (f v).send_wpcn, 0 < a) :
    Books.Inv cfg { b with state := b.state.mark key f } := by
  refine ⟨h.daily, fun v hv => ?_, h.booked, fun r hr hconfirmed => ?_, fun p hp => ?_⟩
  · obtain ⟨hv, -⟩ | ⟨x, -, hx, rfl⟩ := mem_mark hv
    · exact h.amounts v hv
    · obtain hx | rfl := hx
      · exact hamount x (h.amounts x hx)
      · exact hamount _ fun a ha => nomatch ha
  · exact isReleased_mark_of hkey hf (h.confirmed r hr hconfirmed)
  · have hnone : (b.state.mark key f).proc = none := hproc
    rw [hnone] at hp
    cases hp

/-- `--send` lets a run through. -/
theorem starts (h : b.Inv cfg) (hproc : b.state.proc = none) {arg day : String}
    (hsend : send cfg b.state (bare arg) day = .ok p) (hplain : Plain cfg b p day)
    (hfee : cfg.FEE_PCT ≤ 5) (hlimit : 0 < cfg.PER_PERSON) :
    Books.Inv cfg { b with state := b.state.goes p .connect, day := day } := by
  obtain ⟨-, hpositive, hallowance, hdaily, hunreleased, hunconfirmed⟩ := send_spec hsend
  refine ⟨h.daily, h.amounts, fun d => ?_, h.confirmed, fun q hq => ?_⟩
  · have hbooked := h.booked d
    simp only [Books.owing, hproc, Option.map_none, Option.getD_none, ite_self] at hbooked
    simpa [Books.owing, State.goes, Proc.owing] using hbooked
  · obtain rfl := Option.mem_some.mp hq
    have hnone : table.find Send.key p.key b.state.sends = none := by
      by_contra hsome
      obtain ⟨r, hr⟩ := Option.ne_none_iff_exists'.mp hsome
      rw [hr, Option.any_some, Bool.not_eq_false'] at hunconfirmed
      obtain ⟨hmem, hkey⟩ := table.find_spec hr
      rw [← hkey, h.confirmed r hmem hunconfirmed] at hunreleased
      cases hunreleased
    exact ⟨hpositive, hplain.moved,
      ⟨hplain.fits h.amounts hpositive hallowance hfee hlimit, hplain.cap hdaily⟩, hnone⟩

/-- A transfer is broadcast on the day that was checked. -/
theorem broadcasts (h : b.Inv cfg) {nonce : Nat} {tx : Tx} {t : State} (hproc : b.state.proc = some p)
    (hpoint : p.point = .send nonce) (hseen : t.seen = b.state.seen) (hsends : t.sends = b.state.sends)
    (hnext : t.proc = some { p with point := .remember tx }) :
    Books.Inv cfg { b with state := t, paid := b.paid ++ [b.state.payment p tx b.day] } := by
  obtain ⟨hpositive, hmoved, hchecked⟩ := h.proc p hproc
  rw [hpoint] at hchecked
  obtain ⟨⟨-, hdaily⟩, hnone⟩ := hchecked
  have hbooked : ∀ day, paidOn b.paid day ≤ sent_today b.state.sends day := fun day => by
    have hbefore := h.booked day
    simpa [Books.owing, hproc, Proc.owing, hpoint] using hbefore
  refine ⟨fun x hx => ?_, by rw [hseen]; exact h.amounts, fun day => ?_,
    by rw [hseen, hsends]; exact h.confirmed, fun q hq => ?_⟩
  · rw [paidOn_append]
    split
    next hday =>
      have hle := hbooked x.day
      rw [show x.day = b.day from hday.symm] at hle ⊢
      exact (add_le_add hle hmoved).trans hdaily
    next hday =>
      rw [add_zero]
      obtain hx | hx := List.mem_append.mp hx
      · exact h.daily x hx
      · exact absurd (List.mem_singleton.mp hx ▸ rfl) hday
  · rw [paidOn_append, hsends]
    refine add_le_add (hbooked day) ?_
    simp only [Books.owing, hnext, Option.map_some, Option.getD_some, Proc.owing]
    exact le_refl _
  · rw [hnext] at hq
    obtain rfl := Option.mem_some.mp hq
    exact ⟨hpositive, hmoved, by rw [hsends]; exact hnone⟩

/-- The broadcast is recorded, on its day. -/
theorem remembers (h : b.Inv cfg) {tx : Tx} (hproc : b.state.proc = some p)
    (hpoint : p.point = .remember tx) :
    Books.Inv cfg { b with
      state := ({ b.state with
        sends := table.upsert Send.key p.key
          (fun _ => { key := p.key, day := b.day, wpcn := p.amount, dest := p.dest, broadcast := tx })
          { key := p.key, day := b.day, wpcn := p.amount, dest := p.dest, broadcast := tx }
          b.state.sends }).goes p (.wait tx) } := by
  obtain ⟨hpositive, hmoved, hnone⟩ := h.proc p hproc
  rw [hpoint] at hnone
  have happend : table.upsert Send.key p.key
      (fun _ => { key := p.key, day := b.day, wpcn := p.amount, dest := p.dest, broadcast := tx })
      { key := p.key, day := b.day, wpcn := p.amount, dest := p.dest, broadcast := tx }
      b.state.sends = b.state.sends ++
        [{ key := p.key, day := b.day, wpcn := p.amount, dest := p.dest, broadcast := tx }] := by
    rw [table.upsert, if_neg]
    rw [← table.isSome_find, hnone]
    exact Bool.false_ne_true
  rw [happend]
  refine ⟨h.daily, h.amounts, fun day => ?_, fun r hr hconfirmed => ?_, fun q hq => ?_⟩
  · have hbooked := h.booked day
    simp only [Books.owing, hproc, Option.map_some, Option.getD_some, Proc.owing, hpoint] at hbooked
    simp only [Books.owing, State.goes, Option.map_some, Option.getD_some, Proc.owing, ite_self,
      add_zero, sent_today_append]
    refine hbooked.trans (add_le_add_right ?_ _)
    split
    · exact hmoved
    · exact le_refl 0
  · obtain hr | hr := List.mem_append.mp hr
    · exact h.confirmed r hr hconfirmed
    · rw [List.mem_singleton.mp hr] at hconfirmed
      cases hconfirmed
  · obtain rfl := Option.mem_some.mp hq
    exact ⟨hpositive, hmoved, trivial⟩

/-- A transfer that is verified is recorded released. -/
theorem verifies (h : b.Inv cfg) {tx : Tx} (hproc : b.state.proc = some p)
    (hpoint : p.point = .verify tx) (hash : Hash) (e : Evidence) :
    Books.Inv cfg { b with
      state := { b.state.mark p.key fun v =>
          { v with released := true, bsc_txhash := some hash, verified := some e,
                   send_wpcn := some p.amount } with
        proc := none
        sends := table.update Send.key p.key (fun r => { r with confirmed := true }) b.state.sends } } := by
  have hpositive := (h.proc p hproc).1
  refine ⟨h.daily, fun v hv => ?_, fun day => ?_, fun r hr hconfirmed => ?_, fun q hq => by cases hq⟩
  · obtain ⟨hv, -⟩ | ⟨x, -, -, rfl⟩ := mem_mark (s := b.state) (f := fun v =>
        { v with released := true, bsc_txhash := some hash, verified := some e,
                 send_wpcn := some p.amount }) hv
    · exact h.amounts v hv
    · intro a ha
      obtain rfl := Option.mem_some.mp ha
      exact hpositive
  · have hbooked := h.booked day
    simp only [Books.owing, hproc, Option.map_some, Option.getD_some, Proc.owing, hpoint, ite_self,
      add_zero] at hbooked
    simp only [Books.owing, Option.map_none, Option.getD_none, ite_self, add_zero, sent_today_confirm]
    exact hbooked
  · obtain ⟨x, hx, rfl⟩ := List.mem_map.mp hr
    dsimp only at hconfirmed ⊢
    split
    next hkey =>
      have hreleased : isReleased (b.state.mark p.key fun v =>
          { v with released := true, bsc_txhash := some hash, verified := some e,
                   send_wpcn := some p.amount }).seen p.key = true :=
        isReleased_mark (fun _ => rfl) fun _ => rfl
      exact hkey ▸ hreleased
    next hkey =>
      rw [if_neg hkey] at hconfirmed
      exact isReleased_mark_of (fun _ => rfl) (fun _ _ => rfl) (h.confirmed x hx hconfirmed)

end Books.Inv

/-- A step that meets the condition keeps what holds. -/
theorem Books.Inv.step {o : Op} {c : Books} (h : b.Inv cfg) (hfee : cfg.FEE_PCT ≤ 5)
    (hlimit : 0 < cfg.PER_PERSON) (hok : Orderly cfg b o) (hstep : b.step cfg o = some c) :
    c.Inv cfg := by
  cases o with
  | forced arg hash =>
    obtain ⟨_, hproc, hstep⟩ := Option.bind_eq_some_iff.mp hstep
    obtain ⟨t, ht, hstep⟩ := Option.bind_eq_some_iff.mp hstep
    obtain ⟨key, -, ht⟩ := Option.bind_eq_some_iff.mp ht
    obtain ⟨_, -, ht⟩ := Option.bind_eq_some_iff.mp ht
    obtain ⟨_, -, ht⟩ := Option.bind_eq_some_iff.mp ht
    cases hstep
    cases ht
    refine h.marks ((Option.guard_eq_some' _).mp hproc) (fun _ => rfl) (fun _ _ => rfl)
      fun v hv a ha => ?_
    dsimp only at ha
    split at ha
    · rename_i hsent
      obtain rfl := Option.mem_some.mp ha
      exact hsent
    · exact hv a ha
  | tool e day =>
    obtain ⟨_, hon, hstep⟩ := Option.bind_eq_some_iff.mp hstep
    obtain ⟨t, ht, hstep⟩ := Option.bind_eq_some_iff.mp hstep
    cases hstep
    have hday := (Option.guard_eq_some' _).mp hon
    cases e with
    | timer watch =>
      obtain ⟨_, hproc, ht⟩ := Option.bind_eq_some_iff.mp ht
      cases ht
      have hnone := (Option.guard_eq_some' _).mp hproc
      refine ⟨h.daily, h.amounts, h.booked, h.confirmed, fun p hp => ?_⟩
      exact absurd hp (by simp [Books.after, hnone])
    | send arg d =>
      obtain ⟨_, hproc, ht⟩ := Option.bind_eq_some_iff.mp ht
      obtain ⟨p, hp, ht⟩ := Option.bind_eq_some_iff.mp ht
      cases ht
      obtain rfl : d = day := of_decide_eq_true hday
      have hsend : send cfg b.state (bare arg) d = .ok p := by
        cases hs : send cfg b.state (bare arg) d with
        | error e => rw [hs] at hp; cases hp
        | ok q => rw [hs] at hp; rw [Option.some.inj hp]
      exact h.starts ((Option.guard_eq_some' _).mp hproc) hsend (hok p hp) hfee hlimit
    | connects ok =>
      obtain ⟨p, hp, ht⟩ := Option.bind_eq_some_iff.mp ht
      obtain ⟨_, hpoint, ht⟩ := Option.bind_eq_some_iff.mp ht
      have hconnect := (Option.guard_eq_some' _).mp hpoint
      have howing : p.owing = 0 := by rw [Proc.owing, hconnect]
      have hfits := h.proc p hp
      rw [Fits, hconnect] at hfits
      cases ok with
      | true =>
        cases ht
        exact h.goes p .nonce hp howing rfl hfits
      | false =>
        cases ht
        exact h.ends fun q hq => Option.some.inj (hp.symm.trans hq) ▸ howing
    | takesNonce have_ bnb =>
      obtain ⟨p, hp, ht⟩ := Option.bind_eq_some_iff.mp ht
      obtain ⟨_, hpoint, ht⟩ := Option.bind_eq_some_iff.mp ht
      have hnonce := (Option.guard_eq_some' _).mp hpoint
      have howing : p.owing = 0 := by rw [Proc.owing, hnonce]
      have hfits := h.proc p hp
      rw [Fits, hnonce] at hfits
      split at ht
      · cases ht
        exact h.ends fun q hq => Option.some.inj (hp.symm.trans hq) ▸ howing
      · cases ht
        exact h.goes p (.send b.state.chain.latest) hp howing rfl hfits
    | sends gas gasPrice ok =>
      obtain ⟨p, hp, ht⟩ := Option.bind_eq_some_iff.mp ht
      split at ht
      · rename_i nonce hpoint
        obtain ⟨_, -, ht⟩ := Option.bind_eq_some_iff.mp ht
        have howing : p.owing = 0 := by rw [Proc.owing, hpoint]
        cases ok with
        | true =>
          cases ht
          obtain rfl : day = b.day := hok
          simp only [Books.after, hp, List.getLast?_append, List.getLast?_singleton, Option.some_or,
            if_true]
          exact h.broadcasts hp hpoint rfl rfl rfl
        | false =>
          cases ht
          simp only [Books.after, hp, List.getLast?_append, List.getLast?_singleton, Option.some_or,
            Bool.false_eq_true, if_false]
          have hends := h.ends fun q hq => Option.some.inj (hp.symm.trans hq) ▸ howing
          refine ⟨hends.daily, hends.amounts, hends.booked, hends.confirmed, fun q hq => ?_⟩
          cases hq
      · cases ht
    | remembers d =>
      obtain ⟨p, hp, ht⟩ := Option.bind_eq_some_iff.mp ht
      split at ht
      · rename_i tx hpoint
        cases ht
        obtain rfl : d = b.day := hok
        exact h.remembers hp hpoint
      · cases ht
    | waits late =>
      obtain ⟨p, hp, ht⟩ := Option.bind_eq_some_iff.mp ht
      split at ht
      · rename_i tx hpoint
        have howing : p.owing = 0 := by rw [Proc.owing, hpoint]
        have hends := h.ends fun q hq => Option.some.inj (hp.symm.trans hq) ▸ howing
        split at ht
        · cases late <;> cases ht
          · exact h
          · exact hends
        · split at ht
          · cases ht
            exact hends
          · cases ht
            exact h.goes p (.verify tx) hp howing rfl
              ⟨(h.proc p hp).1, (h.proc p hp).2.1, trivial⟩
      · cases ht
    | verifies answered =>
      obtain ⟨p, hp, ht⟩ := Option.bind_eq_some_iff.mp ht
      split at ht
      · rename_i tx hpoint
        dsimp only at ht
        split at ht
        · rename_i e hverdict
          cases ht
          exact h.verifies hp hpoint (.ours tx) e
        · cases ht
          have howing : p.owing = 0 := by rw [Proc.owing, hpoint]
          exact h.ends fun q hq => Option.some.inj (hp.symm.trans hq) ▸ howing
      · cases ht
    | released arg hash answered =>
      obtain ⟨_, hproc, ht⟩ := Option.bind_eq_some_iff.mp ht
      obtain ⟨key, -, ht⟩ := Option.bind_eq_some_iff.mp ht
      obtain ⟨_, -, ht⟩ := Option.bind_eq_some_iff.mp ht
      obtain ⟨_, -, ht⟩ := Option.bind_eq_some_iff.mp ht
      obtain ⟨x, -, ht⟩ := Option.bind_eq_some_iff.mp ht
      obtain ⟨out, -, ht⟩ := Option.bind_eq_some_iff.mp ht
      obtain ⟨dest, -, ht⟩ := Option.bind_eq_some_iff.mp ht
      obtain ⟨_, hpositive, ht⟩ := Option.bind_eq_some_iff.mp ht
      split at ht
      · cases ht
        refine h.marks ((Option.guard_eq_some' _).mp hproc) (fun _ => rfl) (fun _ _ => rfl)
          fun v hv a ha => ?_
        obtain rfl := Option.mem_some.mp ha
        exact ((Option.guard_eq_some' _).mp hpositive).1
      · cases ht
    | refunded arg pcn =>
      obtain ⟨_, hproc, ht⟩ := Option.bind_eq_some_iff.mp ht
      obtain ⟨_, -, ht⟩ := Option.bind_eq_some_iff.mp ht
      cases ht
      exact h.marks ((Option.guard_eq_some' _).mp hproc) (fun _ => rfl) (fun _ hv => hv)
        fun _ hv => hv
    | dies =>
      cases ht
      refine h.ends fun p hp => ?_
      cases hpoint : p.point with
      | remember tx => exact absurd hpoint (hok p hp tx)
      | _ => rw [Proc.owing, hpoint]
    | accepts tx =>
      obtain ⟨_, -, ht⟩ := Option.bind_eq_some_iff.mp ht
      cases ht
      have hnone : b.lost.filter (·.tx = tx) = [] :=
        List.filter_eq_nil_iff.mpr fun x hx heq => hok x hx (of_decide_eq_true heq)
      simp only [Books.after, hnone, List.map_nil, List.append_nil]
      exact ⟨h.daily, h.amounts, h.booked, h.confirmed, h.proc⟩
    | drops tx =>
      cases ht
      exact h.chain _
    | mines tx status logs =>
      unfold watch.step at ht
      dsimp only at ht
      split at ht
      · cases ht
        exact h.chain _
      · cases ht
    | others nonce id =>
      obtain ⟨_, -, ht⟩ := Option.bind_eq_some_iff.mp ht
      cases ht
      exact h.chain _
    | minesForeign tx =>
      obtain ⟨_, -, ht⟩ := Option.bind_eq_some_iff.mp ht
      cases ht
      exact ⟨h.daily, h.amounts, h.booked, h.confirmed, h.proc⟩

theorem Books.Inv.init : Books.Inv cfg {} where
  daily _ hx := nomatch hx
  amounts _ hv := nomatch hv
  booked day := by
    have howing : Books.owing {} day = 0 := by
      unfold Books.owing
      split <;> rfl
    simp [howing, paidOn, sent_today]
  confirmed _ hr := nomatch hr
  proc _ hp := nomatch hp

theorem Books.Inv.within (h : b.Inv cfg) : b.Within cfg where
  allowance p hp nonce hpoint := by
    have hfits := (h.proc p hp).2.2
    rw [hpoint] at hfits
    exact hfits.1.1
  daily := h.daily

end pcoin.wrapdesk.watch
