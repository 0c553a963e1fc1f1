import PCoin.Bot.Exact
import Mathlib.Algebra.BigOperators.Ring.Finset
import Mathlib.Algebra.Order.BigOperators.Group.List
import Mathlib.Algebra.Order.Field.Rat
import Mathlib.Tactic.FieldSimp
import Mathlib.Tactic.Linarith
import Mathlib.Tactic.Positivity
import Mathlib.Tactic.Ring

/-! What the rebates of a chat are worth in a month. -/

namespace pcoin.bot

/-- A month does not start after one of its seconds. -/
theorem monthStart_le (now : Int) : monthStart now ≤ now := by
  unfold monthStart
  dsimp only
  omega

/-- The rate that a deposit is stamped with. -/
def Deposit.rate (d : Deposit) : ℚ := (d.credited_rate_e12.getD 0 : Int)

/-- The rebate that a deposit of a chat got in a month. -/
def rebateIn (db : Db) (chatId month : Int) (d : Deposit) : Option LedgerRow :=
  if d.chat_id = some chatId then
    (table.find LedgerRow.idem_key d.rebateKey db.ledger).filter fun l => monthStart l.created_at = month
  else none

/-- What a deposit adds to a sum over the month's rebated deposits of a chat. -/
def part (db : Db) (chatId month : Int) (f : Deposit → LedgerRow → ℚ) (d : Deposit) : ℚ :=
  ((rebateIn db chatId month d).map (f d)).getD 0

def rebated (db : Db) (chatId month : Int) (f : Deposit → LedgerRow → ℚ) : ℚ :=
  (db.deposits.map (part db chatId month f)).sum

/-- A micro-dollar in satoshis, at the rate of a deposit. -/
def Deposit.microSat (d : Deposit) : ℚ := 10 ^ 14 / d.rate

/-- What the rebates of a chat are worth in a month, in satoshis: each at the rate of its deposit. -/
def rebatedWorth (db : Db) (chatId month : Int) : ℚ :=
  rebated db chatId month fun d l => l.delta_micro_usd * d.microSat

/-- A micro-dollar for each rebate. -/
def rounding (db : Db) (chatId month : Int) : ℚ := rebated db chatId month fun d _ => d.microSat

/-- The value that a call releases with a deposit is worth little: its rebate with two satoshis is at
most a micro-dollar. -/
def Light (rebate : Rebate) (db : Db) (c : Call) : Prop :=
  c.rebate = rebate ∧
    ∀ dep ∈ table.find Deposit.id c.depositId db.deposits, ∀ rateE12 ∈ c.rate,
      c.minDepositSat ≤ dep.amount_sat →
        carried db dep.address * rebate.ppm * 10 ^ 5 + 2 * rateE12 ≤ 10 ^ 14

/-- A call of `creditDeposit`, as a step. -/
def Call.step (db : Db) (c : Call) : Option Db := some (immediate db (c.run db))

/-- What a rebate is worth, before the cap. -/
theorem wanted_le {carry amount rateE12 ppm : Int} (hrate : 0 < rateE12) (hppm : 0 < ppm) :
    (((carry + satsToNanoUsd amount rateE12) / 1000 * ppm / 1000000 : Int) : ℚ) * (10 ^ 14 / rateE12) ≤
      amount * ppm / 10 ^ 6 + carry * ppm * 10 ^ 5 / rateE12 := by
  have hrateQ : (0 : ℚ) < rateE12 := Int.cast_pos.mpr hrate
  have hnano : satsToNanoUsd amount rateE12 * 10 ^ 11 ≤ amount * rateE12 :=
    Int.ediv_mul_le _ (by decide)
  generalize satsToNanoUsd amount rateE12 = nano at hnano ⊢
  have hmicro : (carry + nano) / 1000 * 1000 ≤ carry + nano := Int.ediv_mul_le _ (by decide)
  generalize (carry + nano) / 1000 = micro at hmicro ⊢
  have hwanted : micro * ppm / 1000000 * 1000000 ≤ micro * ppm := Int.ediv_mul_le _ (by decide)
  generalize micro * ppm / 1000000 = wanted at hwanted ⊢
  have hinteger : wanted * 10 ^ 20 ≤ (carry * 10 ^ 11 + amount * rateE12) * ppm := by
    have hscaled : micro * 10 ^ 14 ≤ carry * 10 ^ 11 + amount * rateE12 := by linarith
    have hppmed := mul_le_mul_of_nonneg_right hscaled hppm.le
    linarith
  have hcast : (wanted : ℚ) * 10 ^ 20 ≤ (carry * 10 ^ 11 + amount * rateE12) * ppm := by
    exact_mod_cast hinteger
  rw [mul_div_assoc', div_le_iff₀ hrateQ, add_mul, div_mul_cancel₀ _ hrateQ.ne']
  linarith

/-- The share of a deposit in satoshis, as `thisSat` without its floor. -/
def Rebate.share (r : Rebate) (sat : ℚ) : ℚ := sat * r.ppm / 10 ^ 6

theorem Rebate.share_lt (r : Rebate) (sat : Int) : r.share sat < (sat * r.ppm / 1000000 : Int) + 1 := by
  have hlt : sat * r.ppm < (sat * r.ppm / 1000000 + 1) * 1000000 := Int.lt_ediv_add_one_mul_self _ (by decide)
  have hcast : (sat : ℚ) * r.ppm < ((sat * r.ppm / 1000000 : Int) + 1) * 1000000 := by exact_mod_cast hlt
  rw [Rebate.share, div_lt_iff₀ (by norm_num)]
  linarith

/-- What `rebateFor` has looked at when it grants. -/
theorem rebateGrant_spec {db : Db} {dep : Deposit} {micro now chatId grant : Int} {rebate : Rebate}
    (h : rebateGrant db dep micro now rebate = some (chatId, grant)) :
    0 < rebate.ppm ∧ dep.chat_id = some chatId ∧ 0 < micro ∧
      let used := rebatedSat db chatId (monthStart now) * rebate.ppm / 1000000
      let this := dep.amount_sat * rebate.ppm / 1000000
      let wanted := micro * rebate.ppm / 1000000
      0 < wanted ∧ used < rebate.capSat ∧ (used + this ≤ rebate.capSat ∧ grant = wanted ∨
        rebate.capSat < used + this ∧ 0 < this ∧ grant = wanted * (rebate.capSat - used) / this) := by
  obtain ⟨_, hppm, h⟩ := Option.bind_eq_some_iff.mp h
  obtain ⟨_, -, h⟩ := Option.bind_eq_some_iff.mp h
  obtain ⟨_, hmicro, h⟩ := Option.bind_eq_some_iff.mp h
  obtain ⟨chat, hchat, h⟩ := Option.bind_eq_some_iff.mp h
  obtain ⟨_, hwanted, h⟩ := Option.bind_eq_some_iff.mp h
  obtain ⟨_, hused, h⟩ := Option.bind_eq_some_iff.mp h
  obtain ⟨_, hgrant, h⟩ := Option.bind_eq_some_iff.mp h
  obtain ⟨rfl, rfl⟩ := Prod.mk.inj (Option.some.inj h)
  have hgrant := (Option.guard_eq_some' _).mp hgrant
  refine ⟨(Option.guard_eq_some' _).mp hppm, hchat, (Option.guard_eq_some' _).mp hmicro,
    (Option.guard_eq_some' _).mp hwanted, (Option.guard_eq_some' _).mp hused, ?_⟩
  split at hgrant
  · rename_i hover
    rw [if_pos hover]
    split at hgrant
    · rename_i hthis
      rw [if_pos hthis]
      exact .inr ⟨hover, hthis, rfl⟩
    · cases hgrant
  · rename_i hover
    rw [if_neg hover]
    exact .inl ⟨not_lt.mp hover, rfl⟩

/-- A grant is worth the share of its deposit and of what was carried, and with the shares before it
the cap and two satoshis more. -/
theorem grant_worth {db : Db} {dep : Deposit} {micro now chatId grant : Int} {rebate : Rebate}
    (h : rebateGrant db dep micro now rebate = some (chatId, grant)) (hamount : 0 ≤ dep.amount_sat)
    (microSat extra before : ℚ) (hmicroSat : 0 ≤ microSat) (hextra : 0 ≤ extra)
    (hwanted : ((micro * rebate.ppm / 1000000 : Int) : ℚ) * microSat ≤ rebate.share dep.amount_sat + extra)
    (hbefore : before ≤ rebatedSat db chatId (monthStart now)) :
    (grant : ℚ) * microSat ≤ rebate.share dep.amount_sat + extra ∧
      rebate.share before + grant * microSat ≤ rebate.capSat + 2 + extra := by
  obtain ⟨hppm, -, -, hpositive, hroom, hgrant⟩ := rebateGrant_spec h
  have hppmQ : (0 : ℚ) < rebate.ppm := Int.cast_pos.mpr hppm
  have hused := rebate.share_lt (rebatedSat db chatId (monthStart now))
  have hthis := rebate.share_lt dep.amount_sat
  have hshare : 0 ≤ rebate.share dep.amount_sat := by
    have hamountQ : (0 : ℚ) ≤ dep.amount_sat := by exact_mod_cast hamount
    unfold Rebate.share
    positivity
  have hbefore : rebate.share before ≤ rebate.share (rebatedSat db chatId (monthStart now)) := by
    unfold Rebate.share
    gcongr
  generalize rebatedSat db chatId (monthStart now) * rebate.ppm / 1000000 = used at hused hroom hgrant
  generalize dep.amount_sat * rebate.ppm / 1000000 = this at hthis hgrant
  generalize micro * rebate.ppm / 1000000 = wanted at hwanted hpositive hgrant
  generalize rebate.share dep.amount_sat = share at hwanted hthis hshare ⊢
  obtain ⟨hfits, rfl⟩ | ⟨hover, hpos, hgrant⟩ := hgrant
  · have hfits : (used : ℚ) + this ≤ rebate.capSat := by exact_mod_cast hfits
    exact ⟨hwanted, by linarith⟩
  · -- the grant is cut to the part of the share that is left of the cap
    have hthisQ : (0 : ℚ) < this := Int.cast_pos.mpr hpos
    have hleft : (0 : ℚ) < rebate.capSat - used := by exact_mod_cast sub_pos.mpr hroom
    have hpart : ((rebate.capSat : ℚ) - used) / this ≤ 1 := by
      rw [div_le_one hthisQ]
      have hover : (rebate.capSat : ℚ) < used + this := by exact_mod_cast hover
      linarith
    have hpart0 : 0 ≤ ((rebate.capSat : ℚ) - used) / this := (div_pos hleft hthisQ).le
    have hfloor : (grant : ℚ) ≤ wanted * (((rebate.capSat : ℚ) - used) / this) := by
      rw [mul_div_assoc', le_div_iff₀ hthisQ, hgrant]
      exact_mod_cast Int.ediv_mul_le (wanted * (rebate.capSat - used)) hpos.ne'
    have hcut : (grant : ℚ) * microSat ≤ (share + extra) * (((rebate.capSat : ℚ) - used) / this) := by
      calc (grant : ℚ) * microSat ≤ wanted * (((rebate.capSat : ℚ) - used) / this) * microSat := by gcongr
        _ = wanted * microSat * (((rebate.capSat : ℚ) - used) / this) := by ring
        _ ≤ _ := by gcongr
    refine ⟨hcut.trans (mul_le_of_le_one_right (by linarith) hpart), ?_⟩
    have hextra' : extra * (((rebate.capSat : ℚ) - used) / this) ≤ extra :=
      mul_le_of_le_one_right hextra hpart
    have hshare' : share * (((rebate.capSat : ℚ) - used) / this) ≤ (rebate.capSat - used) + 1 := by
      calc share * (((rebate.capSat : ℚ) - used) / this)
          ≤ (this + 1) * (((rebate.capSat : ℚ) - used) / this) := by gcongr
        _ = (rebate.capSat - used) + ((rebate.capSat : ℚ) - used) / this := by
            field_simp
        _ ≤ _ := by linarith
    rw [add_mul] at hcut
    linarith

/-! ### One call -/

section

variable {db : Db} {c : Call} {dep : Deposit} {addr : Address} {rateE12 chatId : Int} {split : Split}

theorem find_eq_head? {k : String} (ledger : List LedgerRow) :
    table.find LedgerRow.idem_key k ledger = (ledger.filter (·.idem_key = k)).head? :=
  List.head?_filter.symm

/-- The transaction and the address of a deposit tell the key of its rebate. -/
theorem Tables.rebateKey_inj (h : Tables db) {d d' : Deposit} (hd : d ∈ db.deposits)
    (hd' : d' ∈ db.deposits) (hkey : d.rebateKey = d'.rebateKey) : d = d' := by
  have htext := congrArg String.toList hkey
  simp only [Deposit.rebateKey, String.toList_append, List.append_assoc] at htext
  refine h.ledgerKey_inj hd hd' (String.toList_injective ?_)
  simp only [Deposit.ledgerKey, String.toList_append, List.append_assoc, List.append_cancel_left htext]

/-- The row that the rebate of a credit adds. -/
def Db.rebateOf (db : Db) (dep : Deposit) (chatId : Int) (split : Split) (rateE12 : Int) (c : Call) :
    Option LedgerRow :=
  (rebateGrant (db.credited dep chatId split rateE12 c.now) dep split.micro c.now c.rebate).map fun g =>
    rebateRow dep g.1 g.2 c.now

/-- A call moves a sum over the rebates by the share of its own. -/
theorem rebated_credited (htables : Tables db) (hcredits : Crediting db c dep addr rateE12 chatId split)
    (hfree : dep.rebateKey ∉ db.ledger.map LedgerRow.idem_key) (chat month : Int)
    (f : Deposit → LedgerRow → ℚ) :
    rebated (rebateFor (db.credited dep chatId split rateE12 c.now) dep split.micro c.now c.rebate).1 chat
        month f = rebated db chat month f +
      ((if dep.chat_id = some chat then
        (db.rebateOf dep chatId split rateE12 c).filter fun l => monthStart l.created_at = month
      else none).map (f (dep.stamp split.micro rateE12 c.now))).getD 0 := by
  obtain ⟨hdep, -⟩ := table.find_spec hcredits.found
  have hfree' : dep.rebateKey ∉ (db.credited dep chatId split rateE12 c.now).ledger.map
      LedgerRow.idem_key := by
    rw [ledger_credited, List.map_append, List.mem_append, not_or]
    refine ⟨hfree, fun hmem => rebateKey_ne_ledgerKey dep dep (List.mem_singleton.mp hmem)⟩
  have hother (d : Deposit) (hd : d ∈ db.deposits) (hne : d.id ≠ dep.id) :
      rebateIn (rebateFor (db.credited dep chatId split rateE12 c.now) dep split.micro c.now c.rebate).1 chat
        month d = rebateIn db chat month d := by
    have hkey : dep.rebateKey ≠ d.rebateKey := fun heq =>
      hne (congrArg Deposit.id (htables.rebateKey_inj hdep hd heq)).symm
    have hcredit : dep.ledgerKey ≠ d.rebateKey := (rebateKey_ne_ledgerKey d dep).symm
    rw [rebateIn, rebateIn, find_eq_head?, find_eq_head?, filter_rebateFor hkey, ledger_credited,
      List.filter_append]
    simp [hcredit]
  have hself : rebateIn (rebateFor (db.credited dep chatId split rateE12 c.now) dep split.micro c.now
      c.rebate).1 chat month (dep.stamp split.micro rateE12 c.now) =
      if dep.chat_id = some chat then
        (db.rebateOf dep chatId split rateE12 c).filter fun l => monthStart l.created_at = month
      else none := by
    have hfind : table.find LedgerRow.idem_key dep.rebateKey (rebateFor (db.credited dep chatId split rateE12
        c.now) dep split.micro c.now c.rebate).1.ledger = db.rebateOf dep chatId split rateE12 c := by
      rw [ledger_rebateFor, if_neg hfree', find_eq_head?, List.filter_append, table.filter_eq_nil hfree',
        List.nil_append, Db.rebateOf]
      cases rebateGrant (db.credited dep chatId split rateE12 c.now) dep split.micro c.now c.rebate with
      | none => rfl
      | some g => simp [rebateRow]
    change (if dep.chat_id = some chat then (table.find LedgerRow.idem_key dep.rebateKey _).filter _
      else none) = _
    rw [hfind]
  have hnone : rebateIn db chat month dep = none := by
    have hfind : table.find LedgerRow.idem_key dep.rebateKey db.ledger = none := by
      rw [find_eq_head?, table.filter_eq_nil hfree]
      rfl
    rw [rebateIn, hfind]
    split <;> rfl
  have hparts (d : Deposit) (hd : d ∈ db.deposits) (hne : d.id ≠ dep.id) :
      part (rebateFor (db.credited dep chatId split rateE12 c.now) dep split.micro c.now c.rebate).1 chat month
        f d = part db chat month f d := by
    rw [part, hother d hd hne, part]
  have hsum := table.sum_update_of htables.ids hdep (Deposit.stamp split.micro rateE12 c.now) hparts
  have hbefore : part db chat month f dep = 0 := by
    rw [part, hnone]
    rfl
  rw [hbefore, add_zero] at hsum
  rw [rebated, deposits_rebateFor, deposits_credited, hsum, rebated, part, hself]

theorem rebated_nonneg {f : Deposit → LedgerRow → ℚ} (hf : ∀ d l, 0 ≤ f d l) (db : Db) (chat month : Int) :
    0 ≤ rebated db chat month f := by
  refine List.sum_nonneg fun x hx => ?_
  obtain ⟨d, -, rfl⟩ := List.mem_map.mp hx
  rw [part]
  cases rebateIn db chat month d with
  | none => exact le_refl 0
  | some l => exact hf d l

/-- The rebates of every chat and month are within their shares and within the cap. -/
structure Capped (rebate : Rebate) (db : Db) : Prop where
  tables : Tables db
  carry : ∀ a ∈ db.addresses, 0 ≤ a.remainder_nano_usd
  credited : ∀ d ∈ db.deposits, d.rebateKey ∈ db.ledger.map LedgerRow.idem_key →
    d.credited = true ∧ 0 ≤ d.amount_sat
  share : ∀ chat month, rebatedWorth db chat month + rebated db chat month (fun _ _ => 2) ≤
    rebate.share (rebated db chat month fun d _ => d.amount_sat) + rounding db chat month
  cap : ∀ chat month, rebatedWorth db chat month ≤ rebate.capSat + rounding db chat month

/-- The month's rebated satoshis are among those that `rebateFor` counts. -/
theorem Capped.counted {rebate : Rebate} (h : Capped rebate db) (chat now : Int) :
    rebated db chat (monthStart now) (fun d _ => d.amount_sat) ≤
      rebatedSat (db.credited dep chatId split rateE12 now) chat (monthStart now) := by
  have hsat : rebatedSat (db.credited dep chatId split rateE12 now) chat (monthStart now) =
      (db.deposits.map fun d => if d.chat_id = some chat ∧ ((db.credited dep chatId split rateE12
        now).ledger.any fun l => l.idem_key = d.rebateKey && monthStart now ≤ l.created_at) then
          d.amount_sat else 0).sum := by
    rw [rebatedSat, deposits_credited]
    refine congrArg List.sum (table.map_update ?_)
    exact fun _ _ _ => rfl
  rw [hsat, Int.cast_list_sum, List.map_map, rebated]
  refine List.sum_le_sum fun d hd => ?_
  rw [part, Function.comp_apply]
  cases hrebate : rebateIn db chat (monthStart now) d with
  | none =>
    rw [Option.map_none, Option.getD_none]
    split
    · rename_i hcounted
      obtain ⟨l, hl, hkey⟩ := List.any_eq_true.mp hcounted.2
      obtain ⟨hkey, -⟩ := Bool.and_eq_true_iff.mp hkey
      rw [ledger_credited] at hl
      obtain hl | hl := List.mem_append.mp hl
      · exact_mod_cast (h.credited d hd (List.mem_map.mpr ⟨l, hl, of_decide_eq_true hkey⟩)).2
      · rw [List.mem_singleton.mp hl] at hkey
        exact absurd (of_decide_eq_true hkey) (rebateKey_ne_ledgerKey d dep).symm
    · exact le_refl _
  | some l =>
    unfold rebateIn at hrebate
    split at hrebate
    · rename_i hchat
      obtain ⟨hfind, hmonth⟩ := Option.filter_eq_some_iff.mp hrebate
      obtain ⟨hl, hkey⟩ := table.find_spec hfind
      have hcounted : ((db.credited dep chatId split rateE12 now).ledger.any fun l =>
          l.idem_key = d.rebateKey && monthStart now ≤ l.created_at) = true := by
        refine List.any_eq_true.mpr ⟨l, ?_, ?_⟩
        · rw [ledger_credited]
          exact List.mem_append_left _ hl
        · rw [← of_decide_eq_true hmonth]
          exact Bool.and_eq_true_iff.mpr ⟨decide_eq_true hkey, decide_eq_true (monthStart_le _)⟩
      rw [if_pos ⟨hchat, hcounted⟩]
      exact le_refl _
    · cases hrebate

/-- What the light value of a deposit adds to its rebate. -/
theorem extra_le {carry ppm : Int} (hrate : 0 < rateE12)
    (hlight : carry * ppm * 10 ^ 5 + 2 * rateE12 ≤ 10 ^ 14) :
    (carry * ppm * 10 ^ 5 / rateE12 : ℚ) ≤ 10 ^ 14 / rateE12 - 2 := by
  have hrateQ : (0 : ℚ) < rateE12 := Int.cast_pos.mpr hrate
  have hlightQ : (carry : ℚ) * ppm * 10 ^ 5 + 2 * rateE12 ≤ 10 ^ 14 := by exact_mod_cast hlight
  rw [le_sub_iff_add_le, ← sub_nonneg]
  have hfrac : (10 : ℚ) ^ 14 / rateE12 - (carry * ppm * 10 ^ 5 / rateE12 + 2) =
      (10 ^ 14 - (carry * ppm * 10 ^ 5 + 2 * rateE12)) / rateE12 := by
    field_simp
  rw [hfrac]
  exact div_nonneg (by linarith) hrateQ.le

/-- The rebate of a credit that releases a light value. -/
theorem rebateOf_worth {rebate : Rebate} (h : Capped rebate db) (hlight : Light rebate db c)
    (hcredits : Crediting db c dep addr rateE12 chatId split) {chat : Int} {l : LedgerRow}
    (hchat : dep.chat_id = some chat) (hl : db.rebateOf dep chatId split rateE12 c = some l) :
    let microSat : ℚ := 10 ^ 14 / rateE12
    let sat := rebated db chat (monthStart l.created_at) fun d _ => d.amount_sat
    l.delta_micro_usd * microSat + 2 ≤ rebate.share dep.amount_sat + microSat ∧
      rebate.share sat + l.delta_micro_usd * microSat ≤ rebate.capSat + microSat := by
  obtain ⟨hrebate, hlight⟩ := hlight
  obtain ⟨⟨granted, grant⟩, hgrant, rfl⟩ := Option.map_eq_some_iff.mp hl
  obtain ⟨hppm, hgranted, hmicro, -⟩ := rebateGrant_spec hgrant
  obtain rfl : granted = chat := Option.some.inj (hgranted.symm.trans hchat)
  have hrateQ : (0 : ℚ) < rateE12 := Int.cast_pos.mpr hcredits.positive
  have hcarry := h.carry addr (table.find_spec hcredits.known).1
  obtain ⟨hmin, hsplit⟩ : c.minDepositSat ≤ dep.amount_sat ∧
      split.micro = (addr.remainder_nano_usd + satsToNanoUsd dep.amount_sat rateE12) / 1000 := by
    have hparts := hcredits.parts
    unfold splitDeposit at hparts
    split at hparts
    · cases hparts
    simp only at hparts
    split at hparts
    · obtain rfl := Except.ok.inj hparts
      exact absurd hmicro (lt_irrefl 0)
    rename_i hmin
    split at hparts
    · cases hparts
    obtain rfl := Except.ok.inj hparts
    exact ⟨not_lt.mp hmin, rfl⟩
  have hcarried : carried db dep.address = addr.remainder_nano_usd := by
    rw [carried, hcredits.known]
    rfl
  have hextra := hlight dep hcredits.found rateE12 hcredits.rate hmin
  rw [hcarried, ← hrebate] at hextra
  have hextra := extra_le hcredits.positive hextra
  have hppmQ : (0 : ℚ) < c.rebate.ppm := Int.cast_pos.mpr hppm
  have hcarryQ : (0 : ℚ) ≤ addr.remainder_nano_usd := by exact_mod_cast hcarry
  obtain ⟨hshare, hcap⟩ := grant_worth hgrant (splitDeposit_amount hcredits.parts) (10 ^ 14 / rateE12)
    (addr.remainder_nano_usd * c.rebate.ppm * 10 ^ 5 / rateE12) _ (by positivity) (by positivity)
    (by rw [hsplit]; exact wanted_le hcredits.positive hppm) (h.counted granted c.now)
  rw [← hrebate]
  simp only [rebateRow]
  exact ⟨by linarith, by linarith⟩

theorem Capped.credit {rebate : Rebate} (h : Capped rebate db) (hlight : Light rebate db c)
    (hcredits : Crediting db c dep addr rateE12 chatId split) :
    Capped rebate (rebateFor (db.credited dep chatId split rateE12 c.now) dep split.micro c.now
      c.rebate).1 := by
  obtain ⟨hdep, -⟩ := table.find_spec hcredits.found
  have hfree : dep.rebateKey ∉ db.ledger.map LedgerRow.idem_key := fun hmem => by
    have hcredited := (h.credited dep hdep hmem).1
    rw [hcredits.opened] at hcredited
    cases hcredited
  have hsums (chat month : Int) :
      (∀ f, rebated (rebateFor (db.credited dep chatId split rateE12 c.now) dep split.micro c.now
          c.rebate).1 chat month f = rebated db chat month f) ∨
        ∃ l, dep.chat_id = some chat ∧ db.rebateOf dep chatId split rateE12 c = some l ∧
          monthStart l.created_at = month ∧
          ∀ f, rebated (rebateFor (db.credited dep chatId split rateE12 c.now) dep split.micro c.now
            c.rebate).1 chat month f =
              rebated db chat month f + f (dep.stamp split.micro rateE12 c.now) l := by
    have hsum := rebated_credited h.tables hcredits hfree chat month
    split at hsum
    · rename_i hchat
      cases hrow : (db.rebateOf dep chatId split rateE12 c).filter
          fun l => monthStart l.created_at = month with
      | none => exact .inl fun f => by rw [hsum f, hrow, Option.map_none, Option.getD_none, add_zero]
      | some l =>
        obtain ⟨hl, hmonth⟩ := Option.filter_eq_some_iff.mp hrow
        exact .inr ⟨l, hchat, hl, of_decide_eq_true hmonth, fun f => by
          rw [hsum f, hrow, Option.map_some, Option.getD_some]⟩
    · exact .inl fun f => by rw [hsum f, Option.map_none, Option.getD_none, add_zero]
  refine ⟨h.tables.kept ((kept_credited _ _ _ _ _ _).trans (kept_rebateFor _ _ _ _ _)), fun a ha => ?_,
    fun d hd hmem => ?_, fun chat month => ?_, fun chat month => ?_⟩
  · rw [addresses_rebateFor, addresses_credited] at ha
    obtain ⟨x, hx, rfl⟩ := List.mem_map.mp ha
    split
    · exact watch.splitDeposit_remainder (h.carry addr (table.find_spec hcredits.known).1)
        hcredits.positive hcredits.parts
    · exact h.carry x hx
  · rw [deposits_rebateFor, deposits_credited] at hd
    obtain rfl | ⟨hd, hne⟩ := table.mem_update h.tables.ids hdep hd
    · exact ⟨rfl, splitDeposit_amount hcredits.parts⟩
    · have hkey : dep.rebateKey ≠ d.rebateKey := fun heq =>
        hne (congrArg Deposit.id (h.tables.rebateKey_inj hdep hd heq)).symm
      have hsome := table.isSome_find.mpr hmem
      rw [find_eq_head?, filter_rebateFor hkey, ledger_credited, ← find_eq_head?, table.isSome_find,
        List.map_append, List.mem_append] at hsome
      refine h.credited d hd (hsome.resolve_right fun hcredit => ?_)
      exact rebateKey_ne_ledgerKey d dep (List.mem_singleton.mp hcredit)
  · obtain hsame | ⟨l, hchat, hl, rfl, hadd⟩ := hsums chat month
    · rw [rebatedWorth, rounding, hsame, hsame, hsame, hsame]
      exact h.share chat month
    · have hbefore := h.share chat (monthStart l.created_at)
      obtain ⟨hworth, -⟩ := rebateOf_worth h hlight hcredits hchat hl
      rw [rebatedWorth, rounding, hadd, hadd, hadd, hadd, Rebate.share, add_mul, add_div]
      rw [rebatedWorth, rounding, Rebate.share] at hbefore
      simp only [Deposit.microSat, Deposit.rate, Deposit.stamp, Option.getD_some, Rebate.share] at hworth hbefore ⊢
      linarith
  · obtain hsame | ⟨l, hchat, hl, rfl, hadd⟩ := hsums chat month
    · rw [rebatedWorth, rounding, hsame, hsame]
      exact h.cap chat month
    · have hbefore := h.share chat (monthStart l.created_at)
      have htwo := rebated_nonneg (f := fun _ _ => 2) (fun _ _ => by norm_num) db chat
        (monthStart l.created_at)
      obtain ⟨-, hworth⟩ := rebateOf_worth h hlight hcredits hchat hl
      rw [rebatedWorth, rounding, hadd, hadd]
      rw [rebatedWorth, rounding] at hbefore
      simp only [Deposit.microSat, Deposit.rate, Deposit.stamp, Option.getD_some] at hworth hbefore ⊢
      linarith

theorem Capped.call {rebate : Rebate} (h : Capped rebate db) (hlight : Light rebate db c) :
    Capped rebate (immediate db (c.run db)) := by
  cases hrun : c.run db with
  | error => exact h
  | ok r =>
    obtain ⟨db', out⟩ := r
    obtain ⟨-, -, -, rfl, -⟩ | ⟨dep, addr, rateE12, chatId, split, hcredits, rfl, -⟩ :=
      creditDeposit_cases hrun
    · exact h
    · exact h.credit hlight hcredits

/-- No deposit has been rebated yet. -/
structure Unrebated (db : Db) : Prop extends Tables db where
  carry : ∀ a ∈ db.addresses, 0 ≤ a.remainder_nano_usd
  free : ∀ d ∈ db.deposits, d.rebateKey ∉ db.ledger.map LedgerRow.idem_key

theorem Unrebated.capped {rebate : Rebate} (h : Unrebated db) (hcap : 0 ≤ rebate.capSat) :
    Capped rebate db := by
  have hnone (chat month : Int) (f : Deposit → LedgerRow → ℚ) : rebated db chat month f = 0 := by
    refine List.sum_eq_zero fun x hx => ?_
    obtain ⟨d, hd, rfl⟩ := List.mem_map.mp hx
    have hfind : table.find LedgerRow.idem_key d.rebateKey db.ledger = none := by
      rw [find_eq_head?, table.filter_eq_nil (h.free d hd)]
      rfl
    rw [part, rebateIn, hfind]
    split <;> rfl
  refine ⟨h.toTables, h.carry, fun d hd hmem => absurd hmem (h.free d hd), fun chat month => ?_,
    fun chat month => ?_⟩
  · rw [rebatedWorth, rounding, hnone, hnone, hnone, hnone]
    simp [Rebate.share]
  · rw [rebatedWorth, rounding, hnone, hnone, add_zero]
    exact_mod_cast hcap

end

/-- The rebates of a month are worth at most the cap, and a micro-dollar each, as long as each deposit
releases a light value. -/
theorem rebates_capped (rebate : Rebate) (hcap : 0 ≤ rebate.capSat) (db db' : Db) (h : Unrebated db)
    (hrun : run.Steps Call.step (Light rebate) db db') (chat month : Int) :
    rebatedWorth db' chat month ≤ rebate.capSat + rounding db' chat month := by
  refine (hrun.invariant (fun _ _ _ h hlight hstep => ?_) (h.capped hcap)).cap chat month
  obtain rfl := Option.some.inj hstep
  exact h.call hlight

instance (rebate : Rebate) (db : Db) (c : Call) : Decidable (Light rebate db c) :=
  inferInstanceAs (Decidable (_ ∧ ∀ dep ∈ table.find Deposit.id c.depositId db.deposits, ∀ rateE12 ∈ c.rate,
    c.minDepositSat ≤ dep.amount_sat → _ + 2 * rateE12 ≤ _))

namespace sample

/-- A tenth back, of a tenth of a coin in a month. -/
def tenth : Rebate := { ppm := 100000, capSat := 10000000, start := 1 }

/-- A coin less a satoshi, and a coin, at the address of one chat. -/
def coins : Db :=
  { users := [{ chat_id := 7 }]
    addresses := [{ address := "pc1a" }]
    deposits := [⟨1, txidOf 'a', "pc1a", some 7, 99999999, false, 0, none, none⟩,
      ⟨2, txidOf 'b', "pc1a", some 7, 100000000, false, 0, none, none⟩] }

def credit (depositId : Nat) : Call := ⟨depositId, some 40000000000, 100000000, 1790251200, tenth⟩

theorem coins_unrebated : Unrebated coins :=
  ⟨⟨by decide +kernel, by decide +kernel, by decide +kernel, by decide +kernel⟩, by decide +kernel,
    by decide +kernel⟩

end sample

open sample in
/-- One coin is credited, and a tenth of it is rebated. -/
theorem rebates_capped_coin : ∃ db', run.exec Call.step coins [credit 2] = some db' ∧
    rebatedWorth db' 7 1788220800 = 10000000 ∧
    rebatedWorth db' 7 1788220800 ≤ tenth.capSat + rounding db' 7 1788220800 := by
  have hrun : ((run.exec Call.step coins [credit 2]).map fun db' => rebatedWorth db' 7 1788220800) =
      some 10000000 := by
    decide +kernel
  obtain ⟨db', hexec, hworth⟩ := Option.map_eq_some_iff.mp hrun
  refine ⟨db', hexec, hworth, rebates_capped tenth (by decide) coins db' coins_unrebated
    (run.steps_of_exec _ hexec ?_) 7 1788220800⟩
  decide +kernel

open sample in
/-- What is carried of the smaller deposit is released with the coin, and rebated past the cap. -/
theorem carry_rebated : ¬∀ (rebate : Rebate) (db db' : Db), 0 ≤ rebate.capSat → Unrebated db →
    run.Steps Call.step (fun _ c => c.rebate = rebate) db db' → ∀ chat month,
      rebatedWorth db' chat month ≤ rebate.capSat + rounding db' chat month := by
  intro hall
  have hrun : ((run.exec Call.step coins [credit 1, credit 2]).map fun db' =>
      (rebatedWorth db' 7 1788220800, rounding db' 7 1788220800)) = some (19997500, 2500) := by
    decide +kernel
  obtain ⟨db', hexec, hworth⟩ := Option.map_eq_some_iff.mp hrun
  obtain ⟨hworth, hrounding⟩ := Prod.mk.inj hworth
  have hle := hall tenth coins db' (by decide) coins_unrebated (run.steps_of_exec _ hexec (by decide +kernel))
    7 1788220800
  rw [hworth, hrounding] at hle
  revert hle
  decide +kernel

end pcoin.bot
