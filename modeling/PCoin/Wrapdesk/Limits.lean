import PCoin.Run.Basic
import PCoin.Wrapdesk.Request
import Mathlib.Algebra.Order.BigOperators.Group.List
import Mathlib.Tactic.Linarith

/-! The limits of what may be asked for, over calls that do not overlap. -/

namespace pcoin.wrapdesk.desk

/-- What the watcher publishes. -/
structure Figures where
  per_address : List (String × ℚ) := []
  refundedAddrs : List String := []
  deposited : ℚ := 0

/-- A call, at a reading of the clock. -/
structure OneCall where
  ask : Ask
  now : Int
  blocked : Bool := false
  tooMany : Bool := false
  holds : Bool := false
  deposits : String → Option Nat := fun _ => some 0

variable (cfg : Config) (fig : Figures)

def OneCall.world (c : OneCall) : World :=
  { now := c.now, blocked := c.blocked, per_address := fig.per_address, refundedAddrs := fig.refundedAddrs,
    deposited := fig.deposited, tooMany := c.tooMany }

def OneCall.post (c : OneCall) : Post :=
  { ask := c.ask, before := c.world fig, after := c.world fig, holds := c.holds, deposits := c.deposits }

/-- The file after a call that is accepted, and the record that it is answered with. -/
def accepts (p : Post) (st : File) : Option (File × Req) :=
  if gates cfg p.before p.ask st then
    match p.outcome cfg st with
    | .refused => none
    | .shows r => some (st, r)
    | .saves st' r => some (st', r)
  else none

/-- A call that was accepted. -/
structure Accepted where
  st : File
  r : Req
  now : Int
deriving DecidableEq

/-- The file, and the calls that were accepted. -/
structure Log where
  file : File := {}
  accepted : List Accepted := []
deriving DecidableEq

def oneCall (s : Log) (c : OneCall) : Option Log :=
  match accepts cfg (c.post fig) s.file with
  | none => some s
  | some (st, r) => some { file := st, accepted := s.accepted ++ [⟨st, r, c.now⟩] }

/-- What was asked for in the 24 hours up to a time. -/
def askedIn (st : File) (keep : Req → Bool) (t : Int) : ℚ :=
  ((st.requests.filter fun r => keep r && t - 86400000 ≤ r.created && r.created ≤ t).map fun r =>
    min r.amount cfg.PER_PERSON).sum

/-- What the requests that are not refunded take of the allocation. -/
def allocated (st : File) : ℚ :=
  ((st.requests.filter fun r => !r.refunded && !(r.address ∈ fig.refundedAddrs)).map fun r =>
    wpcnFor cfg r.amount).sum

/-- What an account may use in 30 days. -/
def Config.capW : ℚ := cfg.ACCOUNT_MONTHLY_PCN * (1 - cfg.FEE_PCT / 100)

/-- What is promised of an accepted call. -/
structure Accepted.Within (x : Accepted) : Prop where
  account : ∀ r ∈ x.st.requests, ∀ email ∈ r.account,
    askedIn cfg x.st (·.account = some email) x.now ≤ cfg.ACCOUNT_DAILY_PCN
  ip : ∀ r ∈ x.st.requests, ∀ ip ∈ r.ip, askedIn cfg x.st (·.ip = some ip) x.now ≤ cfg.IP_DAILY_PCN
  /-- Of the account that the record is of. -/
  month : ∀ email ∈ x.r.account,
    accountUsedWpcn cfg { now := x.now, per_address := fig.per_address } x.st email ≤ cfg.capW
  total : allocated cfg fig x.st ≤ cfg.TOTAL_ALLOC

/-- What a record counts for in the use of its account. -/
def charge (w : World) (r : Req) : ℚ :=
  let dep := (w.per_address.lookup r.address).getD 0
  if 0 < dep then dep else wpcnFor cfg r.amount

/-- Each 24 hours with a record in them have room for it with another amount. -/
def Room (st : File) (keep : Req → Bool) (limit : ℚ) (r : Req) (amount : ℚ) : Prop :=
  ∀ t, r.created ≤ t → t - 86400000 ≤ r.created →
    askedIn cfg st keep t - min r.amount cfg.PER_PERSON + min amount cfg.PER_PERSON ≤ limit

/-- The file with another amount for a key. -/
def File.restate (st : File) (key : String) (amount : ℚ) : File :=
  { st with requests := table.update Req.key key (fun r => { r with amount := amount }) st.requests }

/-- A new request has room under each limit, with what is published of its address. -/
structure Fits (w : World) (a : Ask) (st : File) : Prop where
  account : ∀ email ∈ a.account, askedSince cfg st (·.account = some email) (w.now - 86400000) +
    min a.amount cfg.PER_PERSON ≤ cfg.ACCOUNT_DAILY_PCN
  ip : ∀ ip ∈ a.ip, askedSince cfg st (·.ip = some ip) (w.now - 86400000) +
    min a.amount cfg.PER_PERSON ≤ cfg.IP_DAILY_PCN
  published : ∀ email ∈ a.account, ∀ slot ∈ cfg.pool.slots, slot.1 = st.nextIndex →
    0 < (w.per_address.lookup slot.2).getD 0 →
      accountUsedWpcn cfg w st email + (w.per_address.lookup slot.2).getD 0 ≤ cfg.capW

/-- Another amount of a request has room in each day with it, and in the month of an account that
the caller is not signed in to. -/
structure Restates (w : World) (a : Ask) (st : File) (r : Req) : Prop where
  account : r.amount < a.amount → ∀ email ∈ r.account,
    Room cfg st (·.account = some email) cfg.ACCOUNT_DAILY_PCN r a.amount
  ip : r.amount < a.amount → ∀ ip ∈ r.ip, Room cfg st (·.ip = some ip) cfg.IP_DAILY_PCN r a.amount
  month : ∀ email ∈ r.account, a.account ≠ some email →
    accountUsedWpcn cfg w st email + (if w.now - 30 * 86400000 ≤ r.created then
      charge cfg w { r with amount := a.amount } - charge cfg w r else 0) ≤ cfg.capW

/-- Every account with a record is within its month at a time. -/
def MonthOk (st : File) (t : Int) : Prop :=
  ∀ r ∈ st.requests, ∀ email ∈ r.account,
    accountUsedWpcn cfg { now := t, per_address := fig.per_address } st email ≤ cfg.capW

/-- A call that is accepted is within the limits to the last digit, and a restated amount is within
them too. -/
def Log.Heeded (s : Log) (c : OneCall) : Prop :=
  (accepts cfg (c.post fig) s.file).isSome = true →
    let w := c.world fig
    let key := keyOf c.deposits c.ask s.file
    (∀ email ∈ c.ask.account, c.ask.amount ≤ leftPcn cfg w s.file email) ∧
    requested cfg w s.file key + wpcnFor cfg c.ask.amount ≤ cfg.TOTAL_ALLOC ∧
    (s.file.request key = none → Fits cfg w c.ask s.file) ∧
    ∀ r ∈ s.file.request key, Restates cfg w c.ask s.file r

/-- The limit of any day, of the accounts or of the connections. -/
def DayOk (f : Req → Option String) (limit : ℚ) (st : File) : Prop :=
  ∀ r ∈ st.requests, ∀ name ∈ f r, ∀ t, askedIn cfg st (f · = some name) t ≤ limit

/-- What holds of the file. -/
structure Asked (st : File) : Prop where
  ok : FileOk cfg st
  amount : ∀ r ∈ st.requests, 0 < r.amount ∧ r.amount ≤ cfg.PER_PERSON
  account : DayOk cfg Req.account cfg.ACCOUNT_DAILY_PCN st
  ip : DayOk cfg Req.ip cfg.IP_DAILY_PCN st

variable {cfg fig} {c : OneCall} {s t : Log} {st st' : File} {r r₀ : Req} {w : World} {holds : Bool}
  {a : Ask} {key : String} {p : Post} {f : Req → Option String} {limit : ℚ}

/-- A new record, or one with another amount. -/
theorem answer_saves_spec (h : answer cfg w holds a st key = .saves st' r) :
    (st.request key = none ∧ ∃ slot ∈ cfg.pool.slots, slot.1 = st.nextIndex ∧
      r = { key := key, bsc := a.bsc, index := slot.1, address := slot.2, amount := a.amount,
            created := w.now, account := a.account, ip := a.ip } ∧
      st' = { requests := st.requests ++ [r], nextIndex := slot.1 + 1 }) ∨
    ∃ r₀, st.request key = some r₀ ∧ r = { r₀ with amount := a.amount } ∧ st' = st.restate key a.amount := by
  unfold answer at h
  simp only at h
  split at h
  · cases h
  split at h
  · rename_i hnone
    split at h
    · cases h
    split at h
    · cases h
    split at h
    · cases h
    · rename_i slot hslot
      have hindex : slot.1 = st.nextIndex := by simpa using List.find?_some hslot
      cases h
      exact .inl ⟨hnone, slot, List.mem_of_find?_eq_some hslot, hindex, rfl, rfl⟩
  · rename_i r₀ hr₀
    split at h
    · cases h
    split at h
    · cases h
      exact .inr ⟨r₀, hr₀, rfl, rfl⟩
    · cases h

theorem answer_shows_amount (h : answer cfg w holds a st key = .shows r) : r.amount = a.amount := by
  unfold answer at h
  simp only at h
  split at h
  · cases h
  split at h
  · split at h
    · cases h
    split at h
    · cases h
    split at h
    · cases h
    · cases h
  · split at h
    · cases h
    split at h
    · cases h
    · rename_i hsame
      cases h
      exact not_not.mp hsame

/-- The amount that a record has already. -/
theorem restate_self (hkeys : (st.requests.map Req.key).Nodup) (hr : r ∈ st.requests) :
    st.restate r.key r.amount = st := by
  have hrows : table.update Req.key r.key (fun x => { x with amount := r.amount }) st.requests =
      st.requests := by
    conv_rhs => rw [← List.map_id st.requests]
    refine List.map_congr_left fun x hx => ?_
    split
    · rename_i hkey
      rw [List.inj_on_of_nodup_map hkeys hx hr hkey]
      rfl
    · rfl
  rw [File.restate, hrows]

/-- What a call that is accepted has made of the file. -/
theorem accepts_spec (hkeys : (st.requests.map Req.key).Nodup) (h : accepts cfg p st = some (st', r)) :
    gates cfg p.before p.ask st = true ∧
    ((st.request (keyOf p.deposits p.ask st) = none ∧ ∃ slot ∈ cfg.pool.slots, slot.1 = st.nextIndex ∧
      r = { key := keyOf p.deposits p.ask st, bsc := p.ask.bsc, index := slot.1, address := slot.2,
            amount := p.ask.amount, created := p.after.now, account := p.ask.account, ip := p.ask.ip } ∧
      st' = { requests := st.requests ++ [r], nextIndex := slot.1 + 1 }) ∨
    ∃ r₀ ∈ st.requests, st.request (keyOf p.deposits p.ask st) = some r₀ ∧
      r = { r₀ with amount := p.ask.amount } ∧ st' = st.restate r₀.key p.ask.amount) := by
  unfold accepts at h
  split at h
  · rename_i hgates
    refine ⟨hgates, ?_⟩
    split at h
    · cases h
    · rename_i r' hanswer
      cases h
      obtain ⟨hr, -⟩ := answer_shows hanswer
      have hmem := (table.find_spec hr).1
      have hamount := answer_shows_amount hanswer
      exact .inr ⟨r, hmem, hr, by rw [← hamount], by rw [← hamount, restate_self hkeys hmem]⟩
    · rename_i st'' r' hanswer
      cases h
      obtain hnew | ⟨r₀, hr₀, hr, hst⟩ := answer_saves_spec hanswer
      · exact .inl hnew
      · obtain ⟨hmem, hkey⟩ := table.find_spec hr₀
        exact .inr ⟨r₀, hmem, hr₀, hr, hkey ▸ hst⟩
  · cases h

/-- A sum over the file with another amount. -/
theorem sum_restate (hkeys : (st.requests.map Req.key).Nodup) (hr : r ∈ st.requests) (amount : ℚ)
    {q : Req → Bool} (hq : q { r with amount := amount } = q r) (f : Req → ℚ) :
    (((st.restate r.key amount).requests.filter q).map f).sum + (if q r then f r else 0) =
      ((st.requests.filter q).map f).sum + if q r then f { r with amount := amount } else 0 := by
  have hsum := table.sum_update hkeys hr (fun x => { x with amount := amount })
    fun x => if q x then f x else 0
  simp only [hq] at hsum
  rw [table.sum_filter, table.sum_filter]
  exact hsum

theorem sum_create (q : Req → Bool) (f : Req → ℚ) :
    (((st.requests ++ [r]).filter q).map f).sum =
      ((st.requests.filter q).map f).sum + if q r then f r else 0 := by
  rw [table.sum_filter, table.sum_filter, List.map_append, List.sum_append, List.map_singleton,
    List.sum_singleton]

theorem wpcnFor_nonneg (h : 0 < r.amount ∧ r.amount ≤ cfg.PER_PERSON) : 0 ≤ wpcnFor cfg r.amount := by
  have hfee := cfg.fee
  refine mul_nonneg (le_min h.1.le (h.1.le.trans h.2)) ?_
  linarith

theorem charge_nonneg (w : World) (h : 0 < r.amount ∧ r.amount ≤ cfg.PER_PERSON) :
    0 ≤ charge cfg w r := by
  unfold charge
  simp only
  split
  · rename_i hdep
    exact hdep.le
  · exact wpcnFor_nonneg h

/-- What counts, counts where more does. -/
theorem count_le {p q : Prop} [Decidable p] [Decidable q] {x : ℚ} (hx : 0 ≤ x) (h : p → q) :
    (if p then x else 0) ≤ if q then x else 0 := by
  by_cases hp : p
  · rw [if_pos hp, if_pos (h hp)]
  · rw [if_neg hp]
    split
    · exact hx
    · exact le_refl _

/-- What is asked for up to a time was asked for since a day before an earlier one. -/
theorem askedIn_le (hamount : ∀ r ∈ st.requests, 0 < r.amount ∧ r.amount ≤ cfg.PER_PERSON)
    (keep : Req → Bool) {t now : Int} (ht : now ≤ t) :
    askedIn cfg st keep t ≤ askedSince cfg st keep (now - 86400000) := by
  unfold askedIn askedSince
  rw [table.sum_filter, table.sum_filter]
  refine List.sum_le_sum fun r hr => count_le ?_ fun hin => ?_
  · exact le_min (hamount r hr).1.le ((hamount r hr).1.le.trans (hamount r hr).2)
  · simp only [Bool.and_eq_true, decide_eq_true_eq] at hin ⊢
    exact ⟨hin.1.1, by omega⟩

theorem askedSince_nonneg (hamount : ∀ r ∈ st.requests, 0 < r.amount ∧ r.amount ≤ cfg.PER_PERSON)
    (keep : Req → Bool) (since : Int) : 0 ≤ askedSince cfg st keep since := by
  refine List.sum_nonneg fun q hq => ?_
  obtain ⟨r, hr, rfl⟩ := List.mem_map.mp hq
  have hpos := hamount r (List.mem_of_mem_filter hr)
  exact le_min hpos.1.le (hpos.1.le.trans hpos.2)

theorem DayOk.create (h : DayOk cfg f limit st)
    (hamount : ∀ r ∈ st.requests, 0 < r.amount ∧ r.amount ≤ cfg.PER_PERSON)
    (hr : 0 < r.amount ∧ r.amount ≤ cfg.PER_PERSON)
    (hfits : ∀ name ∈ f r, askedSince cfg st (f · = some name) (r.created - 86400000) +
      min r.amount cfg.PER_PERSON ≤ limit) (n : Nat) :
    DayOk cfg f limit { requests := st.requests ++ [r], nextIndex := n } := by
  have hpos : 0 ≤ min r.amount cfg.PER_PERSON := le_min hr.1.le (hr.1.le.trans hr.2)
  intro x hx name hname t
  have hsum := @sum_create st r
    (fun r => decide (f r = some name) && decide (t - 86400000 ≤ r.created) && decide (r.created ≤ t))
    fun r => min r.amount cfg.PER_PERSON
  show (((st.requests ++ [r]).filter _).map _).sum ≤ limit
  rw [hsum]
  split
  · rename_i hin
    simp only [Bool.and_eq_true, decide_eq_true_eq] at hin
    have hle := askedIn_le hamount (f · = some name) hin.2
    have hroom := hfits name hin.1.1
    exact le_trans (add_le_add_left hle _) hroom
  · rw [add_zero]
    obtain hx | hx := List.mem_append.mp hx
    · exact h x hx name hname t
    rw [List.mem_singleton.mp hx] at hname
    by_cases hold : ∃ y ∈ st.requests, name ∈ f y
    · obtain ⟨y, hy, hnamey⟩ := hold
      exact h y hy name hnamey t
    · have hnil : st.requests.filter (fun r => decide (f r = some name) &&
          decide (t - 86400000 ≤ r.created) && decide (r.created ≤ t)) = [] := by
        refine List.filter_eq_nil_iff.mpr fun y hy hin => hold ⟨y, hy, ?_⟩
        simp only [Bool.and_eq_true, decide_eq_true_eq] at hin
        exact hin.1.1
      rw [hnil, List.map_nil, List.sum_nil]
      exact le_trans (add_nonneg (askedSince_nonneg hamount _ _) hpos) (hfits name hname)

/-- Another amount, which is not larger or has room in each day. -/
theorem DayOk.restate (h : DayOk cfg f limit st) (hkeys : (st.requests.map Req.key).Nodup)
    (hf : ∀ (r : Req) amount, f { r with amount := amount } = f r) (hr : r ∈ st.requests) {amount : ℚ}
    (hroom : r.amount < amount → ∀ name ∈ f r, Room cfg st (f · = some name) limit r amount) :
    DayOk cfg f limit (st.restate r.key amount) := by
  intro x hx name hname t
  obtain ⟨y, hy, hnamey⟩ : ∃ y ∈ st.requests, name ∈ f y := by
    obtain ⟨y, hy, rfl⟩ := List.mem_map.mp hx
    refine ⟨y, hy, ?_⟩
    split at hname
    · exact hf y amount ▸ hname
    · exact hname
  have hsum := sum_restate hkeys hr amount
    (q := fun r => decide (f r = some name) && decide (t - 86400000 ≤ r.created) && decide (r.created ≤ t))
    (by simp only [hf]) fun r => min r.amount cfg.PER_PERSON
  have hold : askedIn cfg st (f · = some name) t ≤ limit := h y hy name hnamey t
  show (((st.restate r.key amount).requests.filter _).map _).sum ≤ limit
  by_cases hin : (decide (f r = some name) && decide (t - 86400000 ≤ r.created) &&
      decide (r.created ≤ t)) = true
  · rw [if_pos hin, if_pos hin] at hsum
    simp only [Bool.and_eq_true, decide_eq_true_eq] at hin
    by_cases hraise : r.amount < amount
    · have hle := hroom hraise name hin.1.1 t hin.2 hin.1.2
      rw [askedIn] at hle
      linarith
    · have hmin : min amount cfg.PER_PERSON ≤ min r.amount cfg.PER_PERSON :=
        min_le_min_right _ (not_lt.mp hraise)
      rw [askedIn] at hold
      linarith
  · rw [if_neg hin, if_neg hin, add_zero, add_zero] at hsum
    rw [hsum]
    exact hold

/-- What an account that the monthly limit lets through has left. -/
theorem left_spec {email : String} {amount : ℚ} (hpos : 0 < amount)
    (h : amount ≤ leftPcn cfg w st email) :
    accountUsedWpcn cfg w st email + wpcnFor cfg amount ≤ cfg.capW := by
  have hfee : 0 < 1 - cfg.FEE_PCT / 100 := by
    have := cfg.fee
    linarith
  have hleft : amount ≤ (cfg.capW - accountUsedWpcn cfg w st email) / (1 - cfg.FEE_PCT / 100) := by
    obtain hneg | hle := le_max_iff.mp h
    · exact absurd hpos (not_lt.mpr hneg)
    · exact hle
  rw [le_div_iff₀ hfee] at hleft
  have hmin : wpcnFor cfg amount ≤ amount * (1 - cfg.FEE_PCT / 100) :=
    mul_le_mul_of_nonneg_right (min_le_left _ _) hfee.le
  linarith

/-- The use of an account, with a new record. -/
theorem used_create {n : Nat} {email : String} (hslot : (r.index, r.address) ∈ cfg.pool.slots)
    (hindex : r.index = st.nextIndex) (hfits : Fits cfg w a st) (haccount : r.account = a.account)
    (hemail : email ∈ r.account) (hr : 0 < r.amount ∧ r.amount ≤ cfg.PER_PERSON) (hleft : r.amount ≤ leftPcn cfg w st email) :
    accountUsedWpcn cfg w { requests := st.requests ++ [r], nextIndex := n } email ≤ cfg.capW := by
  have hsum := @sum_create st r
    (fun r => decide (r.account = some email) && decide (w.now - 30 * 86400000 ≤ r.created)) (charge cfg w)
  have hused := left_spec hr.1 hleft
  show (((st.requests ++ [r]).filter _).map (charge cfg w)).sum ≤ cfg.capW
  rw [hsum]
  have hold : ((st.requests.filter fun r => decide (r.account = some email) &&
      decide (w.now - 30 * 86400000 ≤ r.created)).map (charge cfg w)).sum = accountUsedWpcn cfg w st email :=
    rfl
  rw [hold]
  split
  · unfold charge
    simp only
    split
    · rename_i hdep
      exact hfits.published email (haccount ▸ hemail) _ hslot hindex hdep
    · exact hused
  · have hnonneg := wpcnFor_nonneg hr
    linarith

/-- A record of another account counts for nothing. -/
theorem used_create_other {n : Nat} {email : String} (h : r.account ≠ some email) :
    accountUsedWpcn cfg w { requests := st.requests ++ [r], nextIndex := n } email =
      accountUsedWpcn cfg w st email := by
  have hsum := @sum_create st r
    (fun r => decide (r.account = some email) && decide (w.now - 30 * 86400000 ≤ r.created)) (charge cfg w)
  simp only [h, decide_false, Bool.false_and, Bool.false_eq_true, if_false, add_zero] at hsum
  exact hsum

/-- What another amount makes of the use of the account. -/
theorem used_restate_eq {email : String} {amount : ℚ} (hkeys : (st.requests.map Req.key).Nodup)
    (hmem : r ∈ st.requests) (hemail : r.account = some email) :
    accountUsedWpcn cfg w (st.restate r.key amount) email = accountUsedWpcn cfg w st email +
      if w.now - 30 * 86400000 ≤ r.created then
        charge cfg w { r with amount := amount } - charge cfg w r else 0 := by
  have hsum := sum_restate hkeys hmem amount
    (q := fun r => decide (r.account = some email) && decide (w.now - 30 * 86400000 ≤ r.created)) rfl
    (charge cfg w)
  have hsame (st : File) : ((st.requests.filter fun r => decide (r.account = some email) &&
      decide (w.now - 30 * 86400000 ≤ r.created)).map (charge cfg w)).sum =
      accountUsedWpcn cfg w st email := rfl
  rw [hsame, hsame] at hsum
  simp only [decide_eq_true hemail, Bool.true_and, decide_eq_true_eq] at hsum
  split at hsum
  · rename_i hin
    rw [if_pos hin]
    linarith
  · rename_i hout
    rw [if_neg hout]
    linarith

theorem used_restate_other {email : String} {amount : ℚ} (hkeys : (st.requests.map Req.key).Nodup)
    (hmem : r ∈ st.requests) (h : r.account ≠ some email) :
    accountUsedWpcn cfg w (st.restate r.key amount) email = accountUsedWpcn cfg w st email := by
  have hsum := sum_restate hkeys hmem amount
    (q := fun r => decide (r.account = some email) && decide (w.now - 30 * 86400000 ≤ r.created)) rfl
    (charge cfg w)
  simp only [h, decide_false, Bool.false_and, Bool.false_eq_true, if_false, add_zero] at hsum
  exact hsum

/-- The use of an account, with another amount. -/
theorem used_restate {email : String} {amount : ℚ} (hkeys : (st.requests.map Req.key).Nodup)
    (hmem : r ∈ st.requests) (hemail : r.account = some email)
    (hr : 0 < r.amount ∧ r.amount ≤ cfg.PER_PERSON) (hamount : 0 < amount ∧ amount ≤ cfg.PER_PERSON)
    (hleft : amount ≤ leftPcn cfg w st email) :
    accountUsedWpcn cfg w (st.restate r.key amount) email ≤ cfg.capW := by
  have hused := left_spec hamount.1 hleft
  have hnew : 0 ≤ wpcnFor cfg amount := wpcnFor_nonneg (r := { r with amount := amount }) hamount
  have hold := wpcnFor_nonneg hr
  rw [used_restate_eq hkeys hmem hemail]
  split
  · unfold charge
    simp only
    split <;> linarith
  · linarith

/-- Later, no more counts. -/
theorem used_later {email : String} {per_address : List (String × ℚ)} {now t : Int}
    (hamount : ∀ r ∈ st.requests, 0 < r.amount ∧ r.amount ≤ cfg.PER_PERSON) (ht : now ≤ t) :
    accountUsedWpcn cfg { now := t, per_address := per_address } st email ≤
      accountUsedWpcn cfg { now := now, per_address := per_address } st email := by
  unfold accountUsedWpcn
  rw [table.sum_filter, table.sum_filter]
  refine List.sum_le_sum fun r hr => count_le ?_ fun hin => ?_
  · exact charge_nonneg { now := t, per_address := per_address } (hamount r hr)
  · simp only [Bool.and_eq_true, decide_eq_true_eq] at hin ⊢
    exact ⟨hin.1, by omega⟩

/-- What is allocated, to a record and to the others. -/
theorem allocated_le (fig : Figures) (hkeys : (st.requests.map Req.key).Nodup) (hr : r ∈ st.requests)
    (hpos : 0 ≤ wpcnFor cfg r.amount) (c : OneCall) :
    allocated cfg fig st ≤ requested cfg (c.world fig) st r.key + wpcnFor cfg r.amount := by
  unfold allocated requested
  rw [table.sum_filter, table.sum_eq_add hkeys hr, table.sum_filter, table.sum_filter, add_comm]
  refine add_le_add (le_of_eq ?_) ?_
  · congr 1
    refine List.map_congr_left fun x _ => ?_
    by_cases hkey : x.key = r.key
    · simp [hkey]
    · by_cases hmem : x.address ∈ fig.refundedAddrs
      · simp [hkey, hmem, OneCall.world]
      · simp [hkey, hmem, OneCall.world]
  · split
    · exact le_refl _
    · exact hpos

theorem requested_create {n : Nat} :
    requested cfg w { requests := st.requests ++ [r], nextIndex := n } r.key = requested cfg w st r.key := by
  have hsum := @sum_create st r
    (fun x => decide (x.key ≠ r.key) && !x.refunded && !decide (x.address ∈ w.refundedAddrs))
    fun r => wpcnFor cfg r.amount
  refine hsum.trans ?_
  simp only [ne_eq, not_true_eq_false, decide_false, Bool.false_and, Bool.false_eq_true, if_false, add_zero]
  rfl

theorem requested_restate (hkeys : (st.requests.map Req.key).Nodup) (hr : r ∈ st.requests) (amount : ℚ) :
    requested cfg w (st.restate r.key amount) r.key = requested cfg w st r.key := by
  have hsum := sum_restate hkeys hr amount
    (q := fun x => decide (x.key ≠ r.key) && !x.refunded && !decide (x.address ∈ w.refundedAddrs)) rfl
    fun r => wpcnFor cfg r.amount
  simp only [ne_eq, not_true_eq_false, decide_false, Bool.false_and, Bool.false_eq_true, if_false,
    add_zero] at hsum
  exact hsum

/-- The checks that a call has passed. -/
theorem gates_spec (h : gates cfg w a st = true) : 0 < a.amount ∧ a.amount ≤ cfg.PER_PERSON := by
  simp only [gates, Bool.and_eq_true, decide_eq_true_eq] at h
  exact ⟨h.1.1.1.1.2, h.2⟩

/-- A new record. -/
theorem Asked.create (h : Asked cfg st) (hnone : st.request r.key = none) {n : Nat}
    (hindex : r.index = st.nextIndex) (hslot : (r.index, r.address) ∈ cfg.pool.slots)
    (hn : n = st.nextIndex + 1) (hr : 0 < r.amount ∧ r.amount ≤ cfg.PER_PERSON)
    (haccount : r.account = a.account) (hip : r.ip = a.ip) (hamount : r.amount = a.amount)
    (hcreated : r.created = w.now) (hfits : Fits cfg w a st) :
    Asked cfg { requests := st.requests ++ [r], nextIndex := n } where
  ok := hn ▸ h.ok.create hnone hindex hslot
  amount x hx := by
    obtain hx | hx := List.mem_append.mp hx
    · exact h.amount x hx
    · rw [List.mem_singleton.mp hx]
      exact hr
  account := by
    refine h.account.create h.amount hr (fun email hemail => ?_) n
    rw [hcreated, hamount]
    exact hfits.account email (haccount ▸ hemail)
  ip := by
    refine h.ip.create h.amount hr (fun ip hmem => ?_) n
    rw [hcreated, hamount]
    exact hfits.ip ip (hip ▸ hmem)

/-- Another amount. -/
theorem Asked.restate (h : Asked cfg st) (hr : r ∈ st.requests) {amount : ℚ}
    (hamount : 0 < amount ∧ amount ≤ cfg.PER_PERSON)
    (haccount : r.amount < amount → ∀ email ∈ r.account,
      Room cfg st (·.account = some email) cfg.ACCOUNT_DAILY_PCN r amount)
    (hip : r.amount < amount → ∀ ip ∈ r.ip, Room cfg st (·.ip = some ip) cfg.IP_DAILY_PCN r amount) :
    Asked cfg (st.restate r.key amount) where
  ok := h.ok.of_kept rfl (table.map_update fun _ _ _ => rfl)
  amount x hx := by
    obtain ⟨y, hy, rfl⟩ := List.mem_map.mp hx
    split
    · exact hamount
    · exact h.amount y hy
  account := h.account.restate h.ok.keys (fun _ _ => rfl) hr haccount
  ip := h.ip.restate h.ok.keys (fun _ _ => rfl) hr hip

/-- A call that is accepted keeps within the limits, if it meets the condition. -/
theorem Asked.accepts (h : Asked cfg s.file) (hok : s.Heeded cfg fig c)
    (hacc : desk.accepts cfg (c.post fig) s.file = some (st, r)) :
    Asked cfg st ∧ Accepted.Within cfg fig ⟨st, r, c.now⟩ := by
  obtain ⟨hleft, htotal, hnew, hold⟩ := hok (by rw [hacc]; rfl)
  obtain ⟨hgates, hmade⟩ := accepts_spec h.ok.keys hacc
  have hamount : 0 < c.ask.amount ∧ c.ask.amount ≤ cfg.PER_PERSON := gates_spec hgates
  obtain ⟨hnone, slot, hslot, hindex, hr, rfl⟩ | ⟨r₀, hr₀, hfind, rfl, rfl⟩ := hmade
  · have hfits := hnew hnone
    have hasked : Asked cfg { requests := s.file.requests ++ [r], nextIndex := slot.1 + 1 } := by
      refine h.create (w := c.world fig) (a := c.ask) ?_ ?_ ?_ (by rw [hindex]) ?_ ?_ ?_ ?_ ?_ hfits
      all_goals rw [hr]
      · exact hnone
      · exact hindex
      · exact hslot
      · exact hamount
      all_goals rfl
    refine ⟨hasked, fun x hx email hemail => hasked.account x hx email hemail c.now,
      fun x hx ip hip => hasked.ip x hx ip hip c.now, fun email hemail => ?_, ?_⟩
    · refine used_create (w := c.world fig) (a := c.ask) ?_ ?_ hfits ?_ hemail ?_ ?_
      all_goals rw [hr]
      · exact hslot
      · exact hindex
      · rfl
      · exact hamount
      · rw [hr] at hemail
        exact hleft email hemail
    · have hmem : r ∈ s.file.requests ++ [r] := List.mem_append_right _ (List.mem_singleton.mpr rfl)
      have hle := allocated_le fig hasked.ok.keys hmem
        (wpcnFor_nonneg (hasked.amount r hmem)) c
      have hkey : r.key = keyOf c.deposits c.ask s.file := by rw [hr]; rfl
      have hsame : r.amount = c.ask.amount := by rw [hr]; rfl
      rw [requested_create, hkey, hsame] at hle
      exact hle.trans htotal
  · have hrestates := hold r₀ hfind
    have hasked := h.restate hr₀ hamount hrestates.account hrestates.ip
    refine ⟨hasked, fun x hx email hemail => hasked.account x hx email hemail c.now,
      fun x hx ip hip => hasked.ip x hx ip hip c.now, fun email hemail => ?_, ?_⟩
    · by_cases hsigned : c.ask.account = some email
      · exact used_restate (w := c.world fig) h.ok.keys hr₀ hemail (h.amount r₀ hr₀) hamount
          (hleft email hsigned)
      · exact (used_restate_eq (w := c.world fig) h.ok.keys hr₀ hemail).trans_le
          (hrestates.month email hemail hsigned)
    · have hmem : { r₀ with amount := c.ask.amount } ∈ (s.file.restate r₀.key c.ask.amount).requests :=
        table.mem_update_self hr₀
      have hle := allocated_le fig hasked.ok.keys hmem
        (wpcnFor_nonneg (hasked.amount _ hmem)) c
      have hrequested : requested cfg (c.world fig) (s.file.restate r₀.key c.ask.amount) r₀.key =
          requested cfg (c.world fig) s.file r₀.key := requested_restate h.ok.keys hr₀ c.ask.amount
      have hkey : r₀.key = keyOf c.deposits c.ask s.file := (table.find_spec hfind).2
      rw [← hkey, ← hrequested] at htotal
      exact hle.trans htotal

/-- A call that is accepted leaves every account within its month, from then on. -/
theorem Asked.month (h : Asked cfg s.file) (hok : s.Heeded cfg fig c)
    (hacc : desk.accepts cfg (c.post fig) s.file = some (st, r)) {t : Int} (ht : c.now ≤ t)
    (hmonth : MonthOk cfg fig s.file t) : MonthOk cfg fig st t := by
  obtain ⟨hasked, hwithin⟩ := h.accepts hok hacc
  intro x hx email hemail
  by_cases hanswered : r.account = some email
  · exact (used_later hasked.amount ht).trans (hwithin.month email hanswered)
  · obtain ⟨-, ⟨-, slot, -, -, -, rfl⟩ | ⟨r₀, hr₀, -, rfl, rfl⟩⟩ := accepts_spec h.ok.keys hacc
    · rw [used_create_other hanswered]
      obtain hx | hx := List.mem_append.mp hx
      · exact hmonth x hx email hemail
      · rw [List.mem_singleton.mp hx] at hemail
        exact absurd hemail hanswered
    · rw [used_restate_other h.ok.keys hr₀ hanswered]
      obtain ⟨y, hy, rfl⟩ := List.mem_map.mp hx
      refine hmonth y hy email ?_
      split at hemail <;> exact hemail

theorem finish_exec (p : Post) (st : File) :
    ((p.finish cfg st).exec {} [] { file := some st }) = match p.outcome cfg st with
      | .refused => { file := some st }
      | .shows r => { file := some st, seen := [r.address] }
      | .saves st' r => { file := some st', saved := [st'], seen := [r.address] } := by
  unfold Post.finish
  cases p.outcome cfg st <;> rfl

/-- What the handler makes of the file, where its loads work. -/
theorem request_exec (p : Post) (st : File) :
    let t := (request cfg p).exec {} [] { file := some st }
    match accepts cfg p st with
    | none => t = { file := some st }
    | some (st', r) => t.file = some st' ∧ t.seen = [r.address] := by
  have hcapped : ((p.capped cfg).exec {} [] { file := some st }) =
      if cfg.PER_PERSON < p.ask.amount then { file := some st }
      else (p.finish cfg st).exec {} [] { file := some st } := by
    unfold Post.capped
    split <;> rfl
  have hrequest : ((request cfg p).exec {} [] { file := some st }) =
      if gates cfg p.before p.ask st then (p.finish cfg st).exec {} [] { file := some st }
      else { file := some st } := by
    rw [gates_eq]
    unfold request
    by_cases hasks : asks cfg p.before p.ask = true
    · simp only [hasks, Bool.true_and, Bool.not_true, Bool.false_eq_true, if_false]
      have hmonthly : monthly cfg p.before p.ask st = true ∨ p.ask.account.isNone = false := by
        cases haccount : p.ask.account with
        | none => exact .inl (by rw [monthly, haccount]; rfl)
        | some email => exact .inr rfl
      split
      · rename_i hnone
        rw [hmonthly.resolve_right (by rw [hnone]; exact Bool.noConfusion), hcapped]
        by_cases hcap : cfg.PER_PERSON < p.ask.amount
        · simp [hcap]
        · simp [hcap, not_lt.mp hcap]
      · show run.Prog.exec {} (if monthly cfg p.before p.ask st then p.capped cfg else .done) [] _ = _
        by_cases hm : monthly cfg p.before p.ask st = true
        · rw [if_pos hm, hm, hcapped]
          by_cases hcap : cfg.PER_PERSON < p.ask.amount
          · simp [hcap]
          · simp [hcap, not_lt.mp hcap]
        · rw [if_neg hm, Bool.eq_false_iff.mpr hm]
          rfl
    · rw [Bool.eq_false_iff.mpr hasks]
      rfl
  simp only
  rw [hrequest, finish_exec]
  by_cases hgates : gates cfg p.before p.ask st = true
  · rw [accepts, if_pos hgates, if_pos hgates]
    cases p.outcome cfg st with
    | refused => rfl
    | shows r => exact ⟨rfl, rfl⟩
    | saves st' r => exact ⟨rfl, rfl⟩
  · rw [accepts, if_neg hgates, if_neg hgates]

/-- The limits hold after each call that is accepted, if what is restated is within them too, and for
every account that has a record, from the latest reading of the clock on. -/
theorem limits_kept (cfg : Config) (fig : Figures) (s : Log)
    (hrun : run.Steps (oneCall cfg fig) (Log.Heeded cfg fig) {} s) :
    (∀ x ∈ s.accepted, x.Within cfg fig) ∧
      ∀ t, (∀ x ∈ s.accepted, x.now ≤ t) → MonthOk cfg fig s.file t := by
  have hinv : Asked cfg s.file ∧ (∀ x ∈ s.accepted, x.Within cfg fig) ∧
      ∀ t, (∀ x ∈ s.accepted, x.now ≤ t) → MonthOk cfg fig s.file t := by
    induction hrun with
    | refl =>
      exact ⟨⟨⟨List.nodup_nil, List.nodup_nil, fun r hr => (by cases hr)⟩, fun r hr => (by cases hr),
        fun r hr => (by cases hr), fun r hr => (by cases hr)⟩, fun x hx => (by cases hx),
        fun t _ r hr => (by cases hr)⟩
    | tail _ hok hstep ih =>
      unfold oneCall at hstep
      split at hstep
      · cases hstep
        exact ih
      · rename_i st r hacc
        cases hstep
        obtain ⟨hasked, hwithin⟩ := ih.1.accepts hok hacc
        refine ⟨hasked, fun x hx => ?_, fun t ht => ?_⟩
        · obtain hx | hx := List.mem_append.mp hx
          · exact ih.2.1 x hx
          · rw [List.mem_singleton.mp hx]
            exact hwithin
        · refine ih.1.month hok hacc (ht _ (List.mem_append_right _ (List.mem_singleton.mpr rfl))) ?_
          exact ih.2.2 t fun x hx => ht x (List.mem_append_left _ hx)
  exact hinv.2

namespace sample

def limitsAsk (bsc : String) (amount : ℚ) : OneCall :=
  { ask := ⟨some "a@pc.am", none, bsc, amount⟩, now := 0 }

def bscOne : String := "0x1111111111111111111111111111111111111111"

def bscTwo : String := "0x2222222222222222222222222222222222222222"

def bscThree : String := "0x3333333333333333333333333333333333333333"

/-- The record of a request for 100 PCN. -/
def hundred : Req :=
  { key := bscOne, bsc := bscOne, index := 1, address := "pc1one", amount := 100, created := 0,
    account := some "a@pc.am", ip := none }

def asked : Log :=
  { file := { requests := [hundred], nextIndex := 2 }
    accepted := [⟨{ requests := [hundred], nextIndex := 2 }, hundred, 0⟩] }

end sample

open sample in
theorem limits_kept_lowered :
    ∃ s, oneCall config {} asked (limitsAsk bscOne 50) = some s ∧
      s.file.requests.map Req.amount = [50] ∧ ∀ x ∈ s.accepted, x.Within config {} := by
  have hfirst : oneCall config {} {} (limitsAsk bscOne 100) = some asked := by decide +kernel
  have hheeded : Log.Heeded config {} {} (limitsAsk bscOne 100) := by
    rintro -
    refine ⟨by decide +kernel, by decide +kernel, fun _ => ⟨by decide +kernel, by decide +kernel, ?_⟩,
      fun r hr => (by cases hr)⟩
    decide +kernel
  have hlowered : Log.Heeded config {} asked (limitsAsk bscOne 50) := by
    rintro -
    have hrequest : asked.file.request (keyOf (fun _ => some 0) (limitsAsk bscOne 50).ask asked.file) =
        some hundred := by decide +kernel
    refine ⟨by decide +kernel, by decide +kernel, fun hnone => ?_, fun r hr => ?_⟩
    · cases hrequest.symm.trans hnone
    · obtain rfl : hundred = r := Option.some.inj (hrequest.symm.trans hr)
      refine ⟨fun hraise => ?_, fun hraise => ?_, by decide +kernel⟩
      · exact absurd hraise (by decide +kernel)
      · exact absurd hraise (by decide +kernel)
  have hsecond : ((oneCall config {} asked (limitsAsk bscOne 50)).map fun s =>
      s.file.requests.map Req.amount) = some [50] := by decide +kernel
  obtain ⟨s, hs, hamounts⟩ := Option.map_eq_some_iff.mp hsecond
  exact ⟨s, hs, hamounts,
    (limits_kept config {} s (.tail (.tail (.refl _) hheeded hfirst) hlowered hs)).1⟩

open sample in
/-- Three requests for 160 PCN are within the 500 PCN of a day. Then the first is restated. -/
theorem restated_past_the_day :
    ¬∀ cfg fig s, run.Steps (oneCall cfg fig) (fun _ _ => True) {} s → ∀ x ∈ s.accepted, x.Within cfg fig := by
  have hrun : ((run.exec (oneCall config {}) {} [limitsAsk bscOne 160, limitsAsk bscTwo 160,
      limitsAsk bscThree 160, limitsAsk bscOne 250]).map fun s => s.accepted.map fun x =>
        decide (∀ r ∈ x.st.requests, ∀ email ∈ r.account,
          askedIn config x.st (·.account = some email) x.now ≤ config.ACCOUNT_DAILY_PCN)) =
      some [true, true, true, false] := by
    decide +kernel
  obtain ⟨s, hexec, heq⟩ := Option.map_eq_some_iff.mp hrun
  intro hall
  have hwithin := hall config {} s (run.steps_of_exec _ hexec (run.meets_true _ _))
  have hmem : false ∈ s.accepted.map fun x => decide (∀ r ∈ x.st.requests, ∀ email ∈ r.account,
      askedIn config x.st (·.account = some email) x.now ≤ config.ACCOUNT_DAILY_PCN) := by
    rw [heq]
    decide
  obtain ⟨x, hx, hfalse⟩ := List.mem_map.mp hmem
  exact of_decide_eq_false hfalse (hwithin x hx).account

end pcoin.wrapdesk.desk
