import PCoin.Bot.Reconcile
import PCoin.Bot.Recover

/-! What the deposits of an address were credited, beside what came in. -/

namespace pcoin.bot

open watch (isTxid)

/-- The ledger key of a deposit. -/
def Deposit.ledgerKey (d : Deposit) : String := "pcn:" ++ d.txid ++ ":" ++ d.address

/-- The columns of a deposit that no credit writes. -/
def Deposit.fixed (d : Deposit) : Deposit :=
  { d with credited := false, credited_micro_usd := 0, credited_rate_e12 := none, credited_at := none }

def Deposit.stamp (micro rateE12 now : Int) (d : Deposit) : Deposit :=
  { d with credited := true, credited_micro_usd := micro, credited_rate_e12 := some rateE12
           credited_at := some now }

def Address.keep (remainder : Int) (a : Address) : Address := { a with remainder_nano_usd := remainder }

/-- A call of `creditDeposit`, with what it reads of its caller. -/
structure Call where
  depositId : Nat
  rate : Option Int
  minDepositSat : Int
  now : Int
  rebate : Rebate

def Call.run (c : Call) (db : Db) : Except Fault (Db × Credited) :=
  creditDeposit db c.depositId c.rate c.minDepositSat c.now c.rebate

/-- The database after a sequence of calls. -/
def credits (db : Db) (calls : List Call) : Db :=
  calls.foldl (fun db c => immediate db (c.run db)) db

/-- The database when the rebate of a deposit is looked at. -/
def Db.credited (db : Db) (dep : Deposit) (chatId : Int) (split : Split) (rateE12 now : Int) : Db :=
  let row : LedgerRow :=
    { chat_id := chatId, delta_micro_usd := split.micro, kind := .deposit_pcn, idem_key := dep.ledgerKey,
      created_at := now }
  let db : Db := { db with ledger := db.ledger ++ [row] }
  let db := if 0 < split.micro then db.move chatId split.micro 0 else db
  { db with
    addresses := table.update Address.address dep.address (Address.keep split.remainder) db.addresses
    deposits := table.update Deposit.id dep.id (Deposit.stamp split.micro rateE12 now) db.deposits }

/-- A call that credits: the deposit is open, its address and chat are known, and its key is free. -/
structure Crediting (db : Db) (c : Call) (dep : Deposit) (addr : Address) (rateE12 chatId : Int)
    (split : Split) : Prop where
  rate : c.rate = some rateE12
  positive : 0 < rateE12
  found : table.find Deposit.id c.depositId db.deposits = some dep
  opened : dep.credited = false
  known : table.find Address.address dep.address db.addresses = some addr
  chat : dep.chat_id = some chatId
  parts : splitDeposit dep addr rateE12 c.minDepositSat = .ok split
  free : dep.ledgerKey ∉ db.ledger.map LedgerRow.idem_key

section

variable {db db' : Db} {c : Call} {out : Credited} {dep : Deposit} {addr : Address}
  {rateE12 chatId m : Int} {split : Split} {address : String}

theorem insertLedger_free {row : LedgerRow} (h : db.insertLedger row = .ok db') :
    row.idem_key ∉ db.ledger.map LedgerRow.idem_key := by
  intro hmem
  rw [Db.insertLedger, if_pos hmem] at h
  cases h

/-- A call that does not throw: the deposit is credited already, or it is credited now. -/
theorem creditDeposit_cases (h : c.run db = .ok (db', out)) :
    (∃ dep, table.find Deposit.id c.depositId db.deposits = some dep ∧ dep.credited = true ∧ db' = db ∧
      out = .already dep.credited_micro_usd dep.credited_rate_e12 dep.credited_at) ∨
    ∃ dep addr rateE12 chatId split, Crediting db c dep addr rateE12 chatId split ∧
      db' = (rebateFor (db.credited dep chatId split rateE12 c.now) dep split.micro c.now c.rebate).1 ∧
      out = .credited split.micro rateE12 split.dust split.remainder
        (rebateFor (db.credited dep chatId split rateE12 c.now) dep split.micro c.now c.rebate).2 := by
  unfold Call.run creditDeposit at h
  split at h
  · cases h
  rename_i rateE12 hrate
  split at h
  · cases h
  rename_i hpositive
  split at h
  · cases h
  rename_i dep hdep
  split at h
  · rename_i hcredited
    obtain ⟨rfl, rfl⟩ := Prod.mk.inj (Except.ok.inj h)
    exact .inl ⟨dep, hdep, hcredited, rfl, rfl⟩
  rename_i hopened
  split at h
  · cases h
  rename_i addr haddr
  simp only [bind, Except.bind] at h
  split at h
  · cases h
  rename_i split hsplit
  split at h
  · cases h
  rename_i chatId hchat
  simp only [applyCredit, bind, Except.bind] at h
  split at h
  · cases h
  rename_i db₁ hinsert
  split at h
  · cases h
  have hfree : dep.ledgerKey ∉ db.ledger.map LedgerRow.idem_key := insertLedger_free hinsert
  have hdb₁ := insertLedger_ok hinsert
  subst hdb₁
  obtain ⟨rfl, rfl⟩ := Prod.mk.inj (Except.ok.inj h)
  exact .inr ⟨dep, addr, rateE12, chatId, split, ⟨hrate, not_le.mp hpositive, hdep,
    Bool.eq_false_iff.mpr hopened, haddr, hchat, hsplit, hfree⟩, rfl, rfl⟩

theorem deposits_rebateFor (db : Db) (dep : Deposit) (micro now : Int) (rebate : Rebate) :
    (rebateFor db dep micro now rebate).1.deposits = db.deposits := by
  unfold rebateFor
  split
  · rfl
  simp only
  split
  · rfl
  rename_i db₁ hinsert
  rw [insertLedger_ok hinsert]
  split <;> rfl

theorem deposits_credited (db : Db) (dep : Deposit) (chatId : Int) (split : Split) (rateE12 now : Int) :
    (db.credited dep chatId split rateE12 now).deposits =
      table.update Deposit.id dep.id (Deposit.stamp split.micro rateE12 now) db.deposits := by
  unfold Db.credited
  dsimp only
  split <;> rfl

theorem addresses_credited (db : Db) (dep : Deposit) (chatId : Int) (split : Split) (rateE12 now : Int) :
    (db.credited dep chatId split rateE12 now).addresses =
      table.update Address.address dep.address (Address.keep split.remainder) db.addresses := by
  unfold Db.credited
  dsimp only
  split <;> rfl

theorem ledger_credited (db : Db) (dep : Deposit) (chatId : Int) (split : Split) (rateE12 now : Int) :
    (db.credited dep chatId split rateE12 now).ledger = db.ledger ++
      [{ chat_id := chatId, delta_micro_usd := split.micro, kind := .deposit_pcn,
         idem_key := dep.ledgerKey, created_at := now }] := by
  unfold Db.credited
  dsimp only
  split <;> rfl

theorem addresses_rebateFor (db : Db) (dep : Deposit) (micro now : Int) (rebate : Rebate) :
    (rebateFor db dep micro now rebate).1.addresses = db.addresses :=
  (watch.rebateFor_spec db dep micro now rebate).2.1

/-- The row of a rebate. -/
def rebateRow (dep : Deposit) (chatId grant now : Int) : LedgerRow :=
  { chat_id := chatId, delta_micro_usd := grant, kind := .adjust, idem_key := dep.rebateKey,
    created_at := now }

/-- The ledger grows by the row of the rebate, if its key is free. -/
theorem ledger_rebateFor (db : Db) (dep : Deposit) (micro now : Int) (rebate : Rebate) :
    (rebateFor db dep micro now rebate).1.ledger = db.ledger ++
      if dep.rebateKey ∈ db.ledger.map LedgerRow.idem_key then []
      else ((rebateGrant db dep micro now rebate).map fun g => rebateRow dep g.1 g.2 now).toList := by
  unfold rebateFor
  split
  · rename_i hgrant
    rw [hgrant]
    split <;> exact (List.append_nil _).symm
  · rename_i chatId grant hgrant
    by_cases hmem : dep.rebateKey ∈ db.ledger.map LedgerRow.idem_key
    · simp only [Db.insertLedger, if_pos hmem, List.append_nil]
    · simp only [Db.insertLedger, if_neg hmem, hgrant]
      split <;> rfl

theorem filter_rebateFor {k : String} (hk : dep.rebateKey ≠ k) (db : Db) (micro now : Int)
    (rebate : Rebate) : (rebateFor db dep micro now rebate).1.ledger.filter (·.idem_key = k) =
      db.ledger.filter (·.idem_key = k) := by
  rw [ledger_rebateFor, List.filter_append, List.append_right_eq_self, List.filter_eq_nil_iff]
  intro l hl
  split at hl
  · cases hl
  · obtain ⟨g, -, rfl⟩ := Option.map_eq_some_iff.mp (Option.mem_toList.mp hl)
    exact fun heq => hk (of_decide_eq_true heq)

theorem rebateKey_ne_ledgerKey (d d' : Deposit) : d.rebateKey ≠ d'.ledgerKey := by
  intro h
  have htext := congrArg String.toList h
  simp [Deposit.rebateKey, Deposit.ledgerKey, String.toList_append] at htext

/-! ### The sums of an address -/

/-- `SUM(credited_micro_usd)` of the deposits of an address. -/
def creditedMicro (db : Db) (address : String) : Int :=
  (db.deposits.map fun d => if d.address = address ∧ d.credited then d.credited_micro_usd else 0).sum

/-- What a deposit is worth at the rate that it is stamped with, in nano-USD. -/
def Deposit.nano (d : Deposit) : Int :=
  (d.credited_rate_e12.map (satsToNanoUsd d.amount_sat)).getD 0

def creditedNano (db : Db) (address : String) : Int :=
  (db.deposits.map fun d => if d.address = address ∧ d.credited then d.nano else 0).sum

def carried (db : Db) (address : String) : Int :=
  ((table.find Address.address address db.addresses).map Address.remainder_nano_usd).getD 0

/-- Everything that came in is credited or carried, and each credited deposit has one ledger row. -/
structure Exact (db : Db) (address : String) : Prop where
  total : 1000 * creditedMicro db address + carried db address = creditedNano db address
  once : ∀ d ∈ db.deposits, d.address = address →
    (db.ledger.filter (·.idem_key = d.ledgerKey)).map (fun l => (l.kind, l.delta_micro_usd)) =
      if d.credited then [(.deposit_pcn, d.credited_micro_usd)] else []
  stamped : ∀ d ∈ db.deposits, d.address = address → d.credited = true →
    ∃ rateE12, d.credited_rate_e12 = some rateE12 ∧ 0 < rateE12

/-- What the tables promise of their rows. -/
structure Tables (db : Db) : Prop where
  ids : (db.deposits.map Deposit.id).Nodup
  keys : (db.deposits.map fun d => (d.txid, d.address)).Nodup
  txids : ∀ d ∈ db.deposits, isTxid d.txid = true
  addresses : (db.addresses.map Address.address).Nodup

/-- Nothing at the address has been credited. -/
structure Unpaid (db : Db) (address : String) : Prop extends Tables db where
  opened : ∀ d ∈ db.deposits, d.address = address →
    d.credited = false ∧ d.ledgerKey ∉ db.ledger.map LedgerRow.idem_key
  carry : carried db address = 0

theorem splitDeposit_total (h : splitDeposit dep addr rateE12 m = .ok split) :
    1000 * split.micro + split.remainder =
      addr.remainder_nano_usd + satsToNanoUsd dep.amount_sat rateE12 := by
  unfold splitDeposit at h
  split at h
  · cases h
  simp only at h
  split at h
  · obtain rfl := Except.ok.inj h
    simp
  split at h
  · cases h
  obtain rfl := Except.ok.inj h
  exact Int.mul_ediv_add_emod _ 1000

theorem splitDeposit_amount (h : splitDeposit dep addr rateE12 m = .ok split) : 0 ≤ dep.amount_sat := by
  unfold splitDeposit at h
  split at h
  · cases h
  · omega

/-- The transaction and the address of a deposit tell its ledger key. -/
theorem Tables.ledgerKey_inj (h : Tables db) {d d' : Deposit} (hd : d ∈ db.deposits)
    (hd' : d' ∈ db.deposits) (hkey : d.ledgerKey = d'.ledgerKey) : d = d' := by
  have hlength (t : String) (ht : isTxid t = true) : t.toList.length = 64 := by
    simp only [isTxid, Bool.and_eq_true, decide_eq_true_eq] at ht
    exact ht.1
  have htext := congrArg String.toList hkey
  simp only [Deposit.ledgerKey, String.toList_append, List.append_assoc] at htext
  obtain ⟨htxid, haddress⟩ := List.append_inj (List.append_cancel_left htext)
    ((hlength _ (h.txids d hd)).trans (hlength _ (h.txids d' hd')).symm)
  refine List.inj_on_of_nodup_map h.keys hd hd' ?_
  rw [String.toList_injective htxid, String.toList_injective (List.append_cancel_left haddress)]

/-- Calls leave the columns that no credit writes. -/
structure Kept (db db' : Db) : Prop where
  deposits : db'.deposits.map Deposit.fixed = db.deposits.map Deposit.fixed
  addresses : db'.addresses.map Address.address = db.addresses.map Address.address
  users : db'.users.map User.chat_id = db.users.map User.chat_id

theorem Kept.refl (db : Db) : Kept db db := ⟨rfl, rfl, rfl⟩

theorem Kept.trans {db'' : Db} (h : Kept db db') (h' : Kept db' db'') : Kept db db'' :=
  ⟨h'.deposits.trans h.deposits, h'.addresses.trans h.addresses, h'.users.trans h.users⟩

/-- A column that no credit writes. -/
theorem Kept.column {β : Type} (h : Kept db db') {f : Deposit → β} (hf : ∀ d, f d.fixed = f d) :
    db'.deposits.map f = db.deposits.map f := by
  have hmap (ds : List Deposit) : ds.map f = (ds.map Deposit.fixed).map f := by
    rw [List.map_map]
    exact List.map_congr_left fun d _ => (hf d).symm
  exact (hmap _).trans ((congrArg _ h.deposits).trans (hmap _).symm)

theorem Tables.kept (h : Tables db) (hkept : Kept db db') : Tables db' where
  ids := by
    rw [hkept.column (f := Deposit.id) fun _ => rfl]
    exact h.ids
  keys := by
    rw [hkept.column (f := fun d => (d.txid, d.address)) fun _ => rfl]
    exact h.keys
  txids d hd := by
    have hmem : d.txid ∈ db.deposits.map Deposit.txid :=
      hkept.column (f := Deposit.txid) (fun _ => rfl) ▸ List.mem_map_of_mem hd
    obtain ⟨x, hx, heq⟩ := List.mem_map.mp hmem
    exact heq ▸ h.txids x hx
  addresses := by
    rw [hkept.addresses]
    exact h.addresses

theorem kept_rebateFor (db : Db) (dep : Deposit) (micro now : Int) (rebate : Rebate) :
    Kept db (rebateFor db dep micro now rebate).1 where
  deposits := congrArg _ (deposits_rebateFor db dep micro now rebate)
  addresses := congrArg _ (addresses_rebateFor db dep micro now rebate)
  users := (watch.rebateFor_spec db dep micro now rebate).1

theorem kept_credited (db : Db) (dep : Deposit) (chatId : Int) (split : Split) (rateE12 now : Int) :
    Kept db (db.credited dep chatId split rateE12 now) where
  deposits := by
    rw [deposits_credited]
    exact table.map_update fun _ _ _ => rfl
  addresses := by
    rw [addresses_credited]
    exact table.map_update fun _ _ _ => rfl
  users := by
    unfold Db.credited
    dsimp only
    split
    · exact watch.users_move _ _ _ _
    · rfl

theorem kept_call (db : Db) (c : Call) : Kept db (immediate db (c.run db)) := by
  cases hrun : c.run db with
  | error => exact .refl db
  | ok r =>
    obtain ⟨db', out⟩ := r
    obtain ⟨-, -, -, rfl, -⟩ | ⟨dep, addr, rateE12, chatId, split, -, rfl, -⟩ := creditDeposit_cases hrun
    · exact .refl _
    · exact (kept_credited db dep chatId split rateE12 c.now).trans (kept_rebateFor _ _ _ _ _)

theorem kept_credits (db : Db) (calls : List Call) : Kept db (credits db calls) := by
  induction calls generalizing db with
  | nil => exact .refl db
  | cons c calls ih => exact (kept_call db c).trans (ih _)

/-! ### One call -/

theorem carried_credited (hcredits : Crediting db c dep addr rateE12 chatId split) :
    carried (rebateFor (db.credited dep chatId split rateE12 c.now) dep split.micro c.now c.rebate).1
      address = if dep.address = address then split.remainder else carried db address := by
  have hkeep (a : Address) (ha : a.address = dep.address) :
      (a.keep split.remainder).address = dep.address := ha
  rw [carried, addresses_rebateFor, addresses_credited]
  split
  · rename_i heq
    rw [← heq, table.find_update hkeep, hcredits.known]
    rfl
  · rename_i hne
    rw [table.find_update_of_ne (Ne.symm hne) hkeep]
    rfl

theorem Exact.credited (h : Exact db address) (htables : Tables db)
    (hcredits : Crediting db c dep addr rateE12 chatId split) :
    Exact (rebateFor (db.credited dep chatId split rateE12 c.now) dep split.micro c.now c.rebate).1
      address := by
  obtain ⟨hdep, hid⟩ := table.find_spec hcredits.found
  have hdeposits := (deposits_rebateFor (db.credited dep chatId split rateE12 c.now) dep split.micro c.now
    c.rebate).trans (deposits_credited db dep chatId split rateE12 c.now)
  have hsum (f : Deposit → Int) (hf : f dep = 0) :
      ((table.update Deposit.id dep.id (Deposit.stamp split.micro rateE12 c.now) db.deposits).map f).sum =
        (db.deposits.map f).sum + f (dep.stamp split.micro rateE12 c.now) := by
    have hupdate := table.sum_update htables.ids hdep (Deposit.stamp split.micro rateE12 c.now) f
    rwa [hf, add_zero] at hupdate
  refine ⟨?_, fun d hd haddress => ?_, fun d hd haddress hcredited => ?_⟩
  · have htotal := h.total
    have hparts := splitDeposit_total hcredits.parts
    rw [carried_credited hcredits, creditedMicro, creditedNano, hdeposits, hsum _ (by simp [hcredits.opened]),
      hsum _ (by simp [hcredits.opened])]
    rw [creditedMicro, creditedNano] at htotal
    by_cases heq : dep.address = address
    · rw [carried, ← heq, hcredits.known] at htotal
      simp [Deposit.stamp, Deposit.nano, heq] at htotal ⊢
      omega
    · simp [Deposit.stamp, heq]
      omega
  · rw [filter_rebateFor (rebateKey_ne_ledgerKey dep d), ledger_credited,
      List.filter_append]
    rw [hdeposits] at hd
    obtain rfl | ⟨hd, hne⟩ := table.mem_update htables.ids hdep hd
    · have hfree : db.ledger.filter (·.idem_key = dep.ledgerKey) = [] := table.filter_eq_nil hcredits.free
      change ((db.ledger.filter (·.idem_key = dep.ledgerKey)) ++ _).map _ = _
      rw [hfree]
      simp [Deposit.stamp, Deposit.ledgerKey]
    · have hkey : dep.ledgerKey ≠ d.ledgerKey := fun heq =>
        hne (congrArg Deposit.id (htables.ledgerKey_inj hdep hd heq)).symm
      rw [← h.once d hd haddress]
      simp [hkey]
  · rw [hdeposits] at hd
    obtain rfl | ⟨hd, -⟩ := table.mem_update htables.ids hdep hd
    · exact ⟨rateE12, rfl, hcredits.positive⟩
    · exact h.stamped d hd haddress hcredited

theorem Exact.call (h : Exact db address) (htables : Tables db) (c : Call) :
    Exact (immediate db (c.run db)) address := by
  cases hrun : c.run db with
  | error => exact h
  | ok r =>
    obtain ⟨db', out⟩ := r
    obtain ⟨-, -, -, rfl, -⟩ | ⟨dep, addr, rateE12, chatId, split, hcredits, rfl, -⟩ :=
      creditDeposit_cases hrun
    · exact h
    · exact h.credited htables hcredits

theorem Exact.credits (h : Exact db address) (htables : Tables db) (calls : List Call) :
    Exact (credits db calls) address := by
  induction calls generalizing db with
  | nil => exact h
  | cons c calls ih => exact ih (h.call htables c) (htables.kept (kept_call db c))

theorem Unpaid.exact (h : Unpaid db address) : Exact db address := by
  have hnothing (f : Deposit → Int) :
      (db.deposits.map fun d => if d.address = address ∧ d.credited then f d else 0).sum = 0 := by
    refine List.sum_eq_zero fun x hx => ?_
    obtain ⟨d, hd, rfl⟩ := List.mem_map.mp hx
    refine if_neg fun ⟨haddress, hcredited⟩ => ?_
    rw [(h.opened d hd haddress).1] at hcredited
    cases hcredited
  refine ⟨?_, fun d hd haddress => ?_, fun d hd haddress hcredited => ?_⟩
  · rw [creditedMicro, creditedNano, hnothing, hnothing, h.carry]
    rfl
  · obtain ⟨hopened, hfree⟩ := h.opened d hd haddress
    rw [hopened, table.filter_eq_nil hfree]
    rfl
  · rw [(h.opened d hd haddress).1] at hcredited
    cases hcredited

/-- A row that is credited is never written again. -/
theorem stays_call (htables : Tables db) (c : Call) {d : Deposit} (hd : d ∈ db.deposits)
    (hcredited : d.credited = true) : d ∈ (immediate db (c.run db)).deposits := by
  cases hrun : c.run db with
  | error => exact hd
  | ok r =>
    obtain ⟨db', out⟩ := r
    obtain ⟨-, -, -, rfl, -⟩ | ⟨dep, addr, rateE12, chatId, split, hcredits, rfl, -⟩ :=
      creditDeposit_cases hrun
    · exact hd
    · have hne : d.id ≠ dep.id := fun heq => by
        have hopened := hcredits.opened
        rw [← List.inj_on_of_nodup_map htables.ids hd (table.find_spec hcredits.found).1 heq,
          hcredited] at hopened
        cases hopened
      rw [immediate, deposits_rebateFor, deposits_credited]
      exact table.mem_update_of_ne hd hne

theorem stays_credits (htables : Tables db) (calls : List Call) {d : Deposit} (hd : d ∈ db.deposits)
    (hcredited : d.credited = true) : d ∈ (credits db calls).deposits := by
  induction calls generalizing db with
  | nil => exact hd
  | cons c calls ih => exact ih (htables.kept (kept_call db c)) (stays_call htables c hd hcredited)

/-- A replay answers with what is stamped, and changes nothing. -/
theorem replay (htables : Tables db) {d : Deposit} (hd : d ∈ db.deposits) (hcredited : d.credited = true)
    (hid : c.depositId = d.id) (hrate : c.rate = some rateE12) (hpositive : 0 < rateE12) :
    c.run db = .ok (db, .already d.credited_micro_usd d.credited_rate_e12 d.credited_at) := by
  rw [Call.run, hrate, hid]
  simp only [creditDeposit, if_neg (not_le.mpr hpositive), table.find_eq_some htables.ids hd, hcredited,
    if_true]

/-! ### Any order -/

/-- A call credits a deposit, whatever the other calls are. -/
def Payable (db : Db) (d : Deposit) (c : Call) : Prop :=
  c.depositId = d.id ∧ (∃ rateE12, c.rate = some rateE12 ∧ 0 < rateE12) ∧
    d.address ∈ db.addresses.map Address.address ∧ 0 ≤ d.amount_sat ∧ d.chat_id.isSome = true

/-- Each deposit of the address that is credited is stamped with a rate of its own. -/
def StampedAt (rates : Nat → Option Int) (db : Db) (address : String) : Prop :=
  ∀ d ∈ db.deposits, d.address = address → d.credited = true → d.credited_rate_e12 = rates d.id

theorem StampedAt.call {rates : Nat → Option Int} (h : StampedAt rates db address) (htables : Tables db)
    (hrate : c.rate = rates c.depositId) : StampedAt rates (immediate db (c.run db)) address := by
  cases hrun : c.run db with
  | error => exact h
  | ok r =>
    obtain ⟨db', out⟩ := r
    obtain ⟨-, -, -, rfl, -⟩ | ⟨dep, addr, rateE12, chatId, split, hcredits, rfl, -⟩ :=
      creditDeposit_cases hrun
    · exact h
    · intro d hd haddress hcredited
      obtain ⟨hdep, hid⟩ := table.find_spec hcredits.found
      rw [immediate, deposits_rebateFor, deposits_credited] at hd
      obtain rfl | ⟨hd, -⟩ := table.mem_update htables.ids hdep hd
      · exact hcredits.rate.symm.trans (hrate.trans (congrArg rates hid.symm))
      · exact h d hd haddress hcredited

theorem StampedAt.calls {rates : Nat → Option Int} (h : StampedAt rates db address) (htables : Tables db)
    {calls : List Call} (hrates : ∀ c ∈ calls, c.rate = rates c.depositId) :
    StampedAt rates (credits db calls) address := by
  induction calls generalizing db with
  | nil => exact h
  | cons c calls ih =>
    exact ih (h.call htables (hrates c List.mem_cons_self)) (htables.kept (kept_call db c))
      fun x hx => hrates x (List.mem_cons_of_mem _ hx)

theorem Unpaid.stamped (h : Unpaid db address) (rates : Nat → Option Int) : StampedAt rates db address := by
  intro d hd haddress hcredited
  rw [(h.opened d hd haddress).1] at hcredited
  cases hcredited

open Classical in
/-- What came in is told by which deposits were credited. -/
theorem StampedAt.nano {rates : Nat → Option Int} (h : StampedAt rates db' address) (hkept : Kept db db')
    {paid : Deposit → Prop} (hpaid : ∀ d ∈ db'.deposits, d.address = address →
      (d.credited = true ↔ paid d.fixed)) :
    creditedNano db' address = ((db.deposits.map Deposit.fixed).map fun d =>
      if d.address = address ∧ paid d then ((rates d.id).map (satsToNanoUsd d.amount_sat)).getD 0
      else 0).sum := by
  rw [← hkept.deposits, List.map_map, creditedNano]
  refine congrArg List.sum (List.map_congr_left fun d hd => ?_)
  by_cases haddress : d.address = address
  · by_cases hcredited : d.credited = true
    · rw [if_pos ⟨haddress, hcredited⟩, Function.comp_apply,
        if_pos ⟨haddress, (hpaid d hd haddress).mp hcredited⟩, Deposit.nano, h d hd haddress hcredited]
      rfl
    · have hunpaid := mt (hpaid d hd haddress).mpr hcredited
      rw [if_neg fun hand => hcredited hand.2, Function.comp_apply, if_neg fun hand => hunpaid hand.2]
  · rw [if_neg fun hand => haddress hand.1, Function.comp_apply, if_neg fun hand => haddress hand.1]

/-- A database that calls have led to. -/
structure Reached (db db' : Db) (address : String) (calls : List Call) : Prop where
  kept : Kept db db'
  exact_ : Exact db' address
  carry : 0 ≤ carried db' address
  paid : ∀ d ∈ db'.deposits, d.address = address →
    (d.credited = true ↔ ∃ c ∈ calls, Payable db d c)

/-- A call that can credit an open deposit of the address does. -/
theorem Reached.credits_open {calls : List Call} {d : Deposit}
    (h : Reached db db' address calls) (htables : Tables db)
    (hhas : ∀ d ∈ db.deposits, d.address = address → ∀ chat ∈ d.chat_id, db.Has chat)
    (hd : d ∈ db'.deposits) (haddress : d.address = address) (hopened : d.credited = false)
    (hpayable : Payable db d c) : ∃ db'' micro rateE12 dust remainder granted,
      c.run db' = .ok (db'', .credited micro rateE12 dust remainder granted) := by
  obtain ⟨hid, ⟨rateE12, hrate, hpositive⟩, hknown, hamount, hchat⟩ := hpayable
  obtain ⟨chat, hchat⟩ := Option.isSome_iff_exists.mp hchat
  have htables' := htables.kept h.kept
  obtain ⟨addr, haddr⟩ := Option.isSome_iff_exists.mp (table.isSome_find.mpr (h.kept.addresses.symm ▸ hknown))
  have hcarry : 0 ≤ addr.remainder_nano_usd := by
    have hcarry := h.carry
    rwa [carried, ← haddress, haddr] at hcarry
  have hfree : d.ledgerKey ∉ db'.ledger.map LedgerRow.idem_key := by
    have honce := h.exact_.once d hd haddress
    rw [hopened, if_neg (by decide), List.map_eq_nil_iff, List.filter_eq_nil_iff] at honce
    intro hmem
    obtain ⟨l, hl, hkey⟩ := List.mem_map.mp hmem
    exact honce l hl (decide_eq_true hkey)
  have hmem : d.fixed ∈ db.deposits.map Deposit.fixed := h.kept.deposits ▸ List.mem_map_of_mem hd
  obtain ⟨x, hx, hfixed⟩ := List.mem_map.mp hmem
  have hchatx : x.chat_id = some chat := (congrArg Deposit.chat_id hfixed).trans hchat
  have huser : db'.Has chat := by
    have hhasx := hhas x hx ((congrArg Deposit.address hfixed).trans haddress) chat hchatx
    rwa [Db.Has, h.kept.users]
  obtain ⟨db'', micro, dust, remainder, granted, hok⟩ :=
    @watch.creditDeposit_ok db' d addr c.now rateE12 c.minDepositSat chat c.rebate c.depositId hpositive
      (hid ▸ table.find_eq_some htables'.ids hd) hopened haddr hamount hcarry hchat huser hfree
  exact ⟨db'', micro, rateE12, dust, remainder, granted, by rw [Call.run, hrate]; exact hok⟩

theorem Reached.call {calls : List Call} (h : Reached db db' address calls) (htables : Tables db)
    (hhas : ∀ d ∈ db.deposits, d.address = address → ∀ chat ∈ d.chat_id, db.Has chat) (c : Call) :
    Reached db (immediate db' (c.run db')) address (calls ++ [c]) := by
  have htables' := htables.kept h.kept
  have hexact := h.exact_.call htables' c
  have hkept := h.kept.trans (kept_call db' c)
  -- a row that the call leaves is one that it could not credit, or that is credited already
  have hleft (hnot : ∀ db'' micro rateE12 dust remainder granted,
      c.run db' ≠ .ok (db'', .credited micro rateE12 dust remainder granted)) :
      ∀ d ∈ db'.deposits, d.address = address →
        (d.credited = true ↔ ∃ c' ∈ calls ++ [c], Payable db d c') := by
    intro d hd haddress
    refine ⟨fun hcredited => ?_, fun hpayable => ?_⟩
    · obtain ⟨x, hx, hpayable⟩ := (h.paid d hd haddress).mp hcredited
      exact ⟨x, List.mem_append_left _ hx, hpayable⟩
    · obtain ⟨x, hx, hpayable⟩ := hpayable
      obtain hx | hx := List.mem_append.mp hx
      · exact (h.paid d hd haddress).mpr ⟨x, hx, hpayable⟩
      · obtain rfl := List.mem_singleton.mp hx
        by_contra hopened
        obtain ⟨db'', micro, rateE12, dust, remainder, granted, hok⟩ := h.credits_open htables hhas hd
          haddress (Bool.eq_false_iff.mpr hopened) hpayable
        exact hnot _ _ _ _ _ _ hok
  cases hrun : c.run db' with
  | error => exact ⟨h.kept, h.exact_, h.carry, hleft fun _ _ _ _ _ _ hok => by rw [hrun] at hok; cases hok⟩
  | ok r =>
    obtain ⟨db'', out⟩ := r
    rw [hrun] at hexact hkept
    obtain ⟨dep, -, -, hdb, hout⟩ | ⟨dep, addr, rateE12, chatId, split, hcredits, rfl, -⟩ :=
      creditDeposit_cases hrun
    · subst hdb
      refine ⟨h.kept, h.exact_, h.carry, hleft fun _ _ _ _ _ _ hok => ?_⟩
      rw [hrun, hout] at hok
      cases hok
    · obtain ⟨hdep, hid⟩ := table.find_spec hcredits.found
      refine ⟨hkept, hexact, ?_, fun d hd haddress => ?_⟩
      · rw [immediate, carried_credited hcredits]
        split
        · rename_i heq
          refine watch.splitDeposit_remainder ?_ hcredits.positive hcredits.parts
          have hcarry := h.carry
          rwa [carried, ← heq, hcredits.known] at hcarry
        · exact h.carry
      · rw [immediate, deposits_rebateFor, deposits_credited] at hd
        obtain rfl | ⟨hd, hne⟩ := table.mem_update htables'.ids hdep hd
        · have hknown : dep.address ∈ db.addresses.map Address.address :=
            h.kept.addresses ▸ table.isSome_find.mp (Option.isSome_iff_exists.mpr ⟨addr, hcredits.known⟩)
          have hpayable : Payable db (dep.stamp split.micro rateE12 c.now) c :=
            ⟨hid.symm, ⟨rateE12, hcredits.rate, hcredits.positive⟩, hknown,
              splitDeposit_amount hcredits.parts, Option.isSome_iff_exists.mpr ⟨chatId, hcredits.chat⟩⟩
          exact ⟨fun _ => ⟨c, List.mem_append_right _ List.mem_cons_self, hpayable⟩, fun _ => rfl⟩
        · refine (h.paid d hd haddress).trans ⟨?_, ?_⟩
          · rintro ⟨x, hx, hpayable⟩
            exact ⟨x, List.mem_append_left _ hx, hpayable⟩
          · rintro ⟨x, hx, hpayable⟩
            obtain hx | hx := List.mem_append.mp hx
            · exact ⟨x, hx, hpayable⟩
            · obtain rfl := List.mem_singleton.mp hx
              exact absurd (hpayable.1.symm.trans hid.symm) hne

theorem Reached.calls (htables : Tables db)
    (hhas : ∀ d ∈ db.deposits, d.address = address → ∀ chat ∈ d.chat_id, db.Has chat)
    {before : List Call} (h : Reached db db' address before) (calls : List Call) :
    Reached db (pcoin.bot.credits db' calls) address (before ++ calls) := by
  induction calls generalizing db' before with
  | nil =>
    rw [List.append_nil]
    exact h
  | cons c calls ih =>
    have hrest := ih (h.call htables hhas c)
    rwa [List.append_assoc, List.singleton_append] at hrest

theorem Unpaid.reached (h : Unpaid db address) : Reached db db address [] := by
  refine ⟨.refl db, h.exact, h.carry.ge, fun d hd haddress => ?_⟩
  rw [(h.opened d hd haddress).1]
  simp

/-- Calls at fixed rates that credit the same deposits credit and carry the same. -/
theorem Unpaid.total_eq (h : Unpaid db address) {rates : Nat → Option Int} {calls calls' : List Call}
    (hrates : ∀ c ∈ calls ++ calls', c.rate = rates c.depositId) (paid : Deposit → Prop)
    (hpaid : ∀ d ∈ (pcoin.bot.credits db calls).deposits, d.address = address →
      (d.credited = true ↔ paid d.fixed))
    (hpaid' : ∀ d ∈ (pcoin.bot.credits db calls').deposits, d.address = address →
      (d.credited = true ↔ paid d.fixed)) :
    creditedNano (pcoin.bot.credits db calls) address =
      creditedNano (pcoin.bot.credits db calls') address := by
  have hstamped := (h.stamped rates).calls h.toTables fun c hc => hrates c (List.mem_append_left _ hc)
  have hstamped' := (h.stamped rates).calls h.toTables fun c hc => hrates c (List.mem_append_right _ hc)
  rw [hstamped.nano (kept_credits db calls) hpaid, hstamped'.nano (kept_credits db calls') hpaid']

end

/-- The deposit with an id is credited. -/
def paidIn (db : Db) (id : Nat) : Prop := ∃ d ∈ db.deposits, d.id = id ∧ d.credited = true

/-- What an address was credited with what it carries is what came in, at the stamped rates; each
credited deposit has one ledger row; a replay answers with what was applied and changes nothing; and
at fixed rates the order of the deposits does not matter. -/
theorem credits_exact (db : Db) (address : String) (h : Unpaid db address) :
    (∀ calls, Exact (credits db calls) address) ∧
    (∀ (before after : List Call) (c : Call) (db' : Db) (micro rateE12 : Int) (dust : Bool)
        (remainder rebate : Int),
      c.run (credits db before) = .ok (db', .credited micro rateE12 dust remainder rebate) →
      ∀ c' : Call, c'.depositId = c.depositId → (∃ r, c'.rate = some r ∧ 0 < r) →
        c'.run (credits db' after) =
          .ok (credits db' after, .already micro (some rateE12) (some c.now))) ∧
    ∀ (rates : Nat → Option Int) (calls calls' : List Call),
      (∀ c ∈ calls ++ calls', c.rate = rates c.depositId) →
      ((∀ d ∈ db.deposits, d.address = address →
          (paidIn (credits db calls) d.id ↔ paidIn (credits db calls') d.id)) ∨
        calls.Perm calls' ∧
          ∀ d ∈ db.deposits, d.address = address → ∀ chat ∈ d.chat_id, db.Has chat) →
      1000 * creditedMicro (credits db calls) address + carried (credits db calls) address =
        1000 * creditedMicro (credits db calls') address + carried (credits db calls') address := by
  refine ⟨fun calls => h.exact.credits h.toTables calls, ?_, ?_⟩
  · intro before after c db' micro rateE12 dust remainder rebate hrun c' hid ⟨r, hrate, hpositive⟩
    have htables := h.toTables.kept (kept_credits db before)
    have hkept := kept_call (credits db before) c
    rw [hrun] at hkept
    obtain ⟨_, _, _, _, hout⟩ | ⟨dep, addr, rate, chatId, split, hcredits, hdb, hout⟩ :=
      creditDeposit_cases hrun
    · cases hout
    obtain ⟨rfl, rfl, -, -, -⟩ := hout
    obtain ⟨hdep, hdepid⟩ := table.find_spec hcredits.found
    have hmem : dep.stamp split.micro rateE12 c.now ∈ db'.deposits := by
      rw [hdb, deposits_rebateFor, deposits_credited]
      exact table.mem_update_self hdep
    exact replay ((htables.kept hkept).kept (kept_credits db' after))
      (stays_credits (htables.kept hkept) after hmem rfl) rfl (hid.trans hdepid.symm) hrate hpositive
  · intro rates calls calls' hrates hsame
    have htotal := (h.exact.credits h.toTables calls).total
    have htotal' := (h.exact.credits h.toTables calls').total
    rw [htotal, htotal']
    obtain hsame | ⟨hperm, hhas⟩ := hsame
    · have hids (calls : List Call) := (h.toTables.kept (kept_credits db calls)).ids
      have hpaid {calls : List Call} {d : Deposit} (hd : d ∈ (credits db calls).deposits) :
          d.credited = true ↔ paidIn (credits db calls) d.id :=
        ⟨fun hcredited => ⟨d, hd, rfl, hcredited⟩, fun ⟨x, hx, hid, hcredited⟩ =>
          List.inj_on_of_nodup_map (hids calls) hx hd hid ▸ hcredited⟩
      refine h.total_eq hrates (fun d => paidIn (credits db calls) d.id) (fun d hd _ => hpaid hd)
        fun d hd haddress => (hpaid hd).trans ?_
      have hmem : d.fixed ∈ db.deposits.map Deposit.fixed :=
        (kept_credits db calls').deposits ▸ List.mem_map_of_mem hd
      obtain ⟨x, hx, hfixed⟩ := List.mem_map.mp hmem
      have hid : x.fixed.id = d.fixed.id := congrArg Deposit.id hfixed
      have haddressx : x.fixed.address = d.fixed.address := congrArg Deposit.address hfixed
      have hiff := hsame x hx (haddressx.trans haddress)
      change x.id = d.id at hid
      rw [hid] at hiff
      exact hiff.symm
    · have hreached := h.reached.calls h.toTables hhas calls
      have hreached' := h.reached.calls h.toTables hhas calls'
      refine h.total_eq hrates (fun d => ∃ c ∈ calls, Payable db d c)
        (fun d hd haddress => hreached.paid d hd haddress) fun d hd haddress =>
          (hreached'.paid d hd haddress).trans ?_
      exact exists_congr fun c => and_congr_left fun _ => hperm.mem_iff.symm

namespace sample

def txidOf (c : Char) : String := String.ofList (List.replicate 64 c)

/-- One coin less a satoshi, and two deposits of a coin and more, at the address of one chat. -/
def deposits : Db :=
  { users := [{ chat_id := 7 }]
    addresses := [{ address := "pc1a" }]
    deposits := [⟨1, txidOf 'a', "pc1a", some 7, 99999999, false, 0, none, none⟩,
      ⟨2, txidOf 'b', "pc1a", some 7, 100000001, false, 0, none, none⟩,
      ⟨3, txidOf 'c', "pc1a", some 7, 234567891, false, 0, none, none⟩] }

/-- A rate for each deposit. -/
def rate (id : Nat) : Option Int :=
  ([(1, 35902421473), (2, 40000000001), (3, 39999999999)].find? (·.1 = id)).map Prod.snd

def inOrder (ids : List Nat) : List Call := ids.map fun id => ⟨id, rate id, 100000000, 1790251200, {}⟩

end sample

open sample in
theorem unpaid_deposits : Unpaid deposits "pc1a" :=
  ⟨⟨by decide +kernel, by decide +kernel, by decide +kernel, by decide +kernel⟩, by decide +kernel,
    by decide +kernel⟩

open sample in
theorem credits_exact_deposits :
    Exact (credits deposits (inOrder [1, 2, 1, 3])) "pc1a" ∧
    creditedMicro (credits deposits (inOrder [1, 2, 1, 3])) "pc1a" = 169729 ∧
    1000 * creditedMicro (credits deposits (inOrder [1, 2, 3])) "pc1a" +
        carried (credits deposits (inOrder [1, 2, 3])) "pc1a" =
      1000 * creditedMicro (credits deposits (inOrder [3, 2, 1])) "pc1a" +
        carried (credits deposits (inOrder [3, 2, 1])) "pc1a" := by
  have hall := credits_exact deposits "pc1a" unpaid_deposits
  refine ⟨hall.1 _, by decide +kernel, hall.2.2 rate _ _ ?_ (.inr ⟨List.reverse_perm (inOrder [3, 2, 1]), ?_⟩)⟩
  · intro c hc
    rw [inOrder, inOrder, ← List.map_append] at hc
    obtain ⟨id, -, rfl⟩ := List.mem_map.mp hc
    rfl
  · unfold Db.Has
    decide +kernel

end pcoin.bot
