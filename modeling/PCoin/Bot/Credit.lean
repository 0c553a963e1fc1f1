import PCoin.Bot.Books
import PCoin.Bot.Watch
import Mathlib.Algebra.Order.Ring.Int

namespace pcoin.bot.watch

/-- The ledger key of a deposit. -/
def Row.ledgerKey (r : Row) : String := "pcn:" ++ r.txid ++ ":" ++ r.address

/-- What crediting a deposit does to the tables that later deposits depend on. -/
structure Credits (dep : Deposit) (db db' : Db) : Prop where
  users : db'.users.map User.chat_id = db.users.map User.chat_id
  addresses : db'.addresses.map Address.address = db.addresses.map Address.address
  carry : (∀ a ∈ db.addresses, 0 ≤ a.remainder_nano_usd) → ∀ a ∈ db'.addresses, 0 ≤ a.remainder_nano_usd
  ledger : ∀ l ∈ db'.ledger, l ∈ db.ledger ∨
    l.idem_key = "pcn:" ++ dep.txid ++ ":" ++ dep.address ∨ l.idem_key = dep.rebateKey

section

variable {db db' : Db} {dep : Deposit} {addr : Address} {micro now rateE12 minDepositSat chatId : Int}
  {rebate : Rebate}

theorem users_move (db : Db) (k balance reserved : Int) :
    (db.move k balance reserved).users.map User.chat_id = db.users.map User.chat_id := by
  refine table.map_update ?_
  exact fun _ _ _ => rfl

/-- The rows of the ledger after an insert. -/
theorem mem_ledger {row l : LedgerRow} (hl : l ∈ db.ledger ++ [row]) :
    l ∈ db.ledger ∨ l.idem_key = row.idem_key := by
  obtain hl | hl := List.mem_append.mp hl
  · exact .inl hl
  · rw [List.mem_singleton.mp hl]
    exact .inr rfl

/-- The rebate moves a balance and adds its own ledger row. -/
theorem rebateFor_spec (db : Db) (dep : Deposit) (micro now : Int) (rebate : Rebate) :
    let db' := (rebateFor db dep micro now rebate).1
    db'.users.map User.chat_id = db.users.map User.chat_id ∧ db'.addresses = db.addresses ∧
      ∀ l ∈ db'.ledger, l ∈ db.ledger ∨ l.idem_key = dep.rebateKey := by
  unfold rebateFor
  split
  · exact ⟨rfl, rfl, fun l hl => .inl hl⟩
  simp only
  split
  · exact ⟨rfl, rfl, fun l hl => .inl hl⟩
  rename_i db₁ hinsert
  rw [insertLedger_ok hinsert]
  split
  · exact ⟨rfl, rfl, fun l hl => mem_ledger hl⟩
  · exact ⟨users_move _ _ _ _, rfl, fun l hl => mem_ledger hl⟩

theorem splitDeposit_remainder {split : Split} (hcarry : 0 ≤ addr.remainder_nano_usd)
    (hrate : 0 < rateE12) (h : splitDeposit dep addr rateE12 minDepositSat = .ok split) :
    0 ≤ split.remainder := by
  unfold splitDeposit at h
  split at h
  · cases h
  rename_i hamount
  have hnano : 0 ≤ satsToNanoUsd dep.amount_sat rateE12 :=
    Int.ediv_nonneg (mul_nonneg (by omega) hrate.le) (by decide)
  simp only at h
  split at h
  · obtain rfl := Except.ok.inj h
    simp only
    omega
  split at h
  · cases h
  obtain rfl := Except.ok.inj h
  exact Int.emod_nonneg _ (by decide)

/-- A deposit whose address and chat are known, and whose key is free, is credited. -/
theorem creditDeposit_ok {depositId : Nat} (hrate : 0 < rateE12)
    (hdep : table.find Deposit.id depositId db.deposits = some dep) (hopen : dep.credited = false)
    (haddr : table.find Address.address dep.address db.addresses = some addr)
    (hamount : 0 ≤ dep.amount_sat) (hcarry : 0 ≤ addr.remainder_nano_usd)
    (hchat : dep.chat_id = some chatId) (huser : db.Has chatId)
    (hkey : "pcn:" ++ dep.txid ++ ":" ++ dep.address ∉ db.ledger.map LedgerRow.idem_key) :
    ∃ db' micro dust remainder granted,
      creditDeposit db depositId (some rateE12) minDepositSat now rebate =
        .ok (db', .credited micro rateE12 dust remainder granted) := by
  have hnano : 0 ≤ satsToNanoUsd dep.amount_sat rateE12 :=
    Int.ediv_nonneg (mul_nonneg hamount hrate.le) (by decide)
  obtain ⟨split, hsplit⟩ : ∃ split, splitDeposit dep addr rateE12 minDepositSat = .ok split := by
    unfold splitDeposit
    rw [if_neg (by omega)]
    simp only
    split
    · exact ⟨_, rfl⟩
    · rw [if_neg (by omega)]
      exact ⟨_, rfl⟩
  obtain ⟨row, hrow⟩ : ∃ row : LedgerRow, row = ⟨chatId, split.micro, .deposit_pcn,
      "pcn:" ++ dep.txid ++ ":" ++ dep.address, now, none⟩ := ⟨_, rfl⟩
  have hinsert : db.insertLedger row = .ok { db with ledger := db.ledger ++ [row] } := by
    rw [Db.insertLedger, if_neg]
    rw [hrow]
    exact hkey
  have hnone : ({ db with ledger := db.ledger ++ [row] } : Db).user chatId ≠ none :=
    fun hnone => not_has_of_user hnone huser
  simp only [creditDeposit, if_neg (not_le.mpr hrate), hdep, hopen, haddr, hsplit, hchat, applyCredit,
    ← hrow, hinsert, bind, Except.bind, hnone, and_false, if_false, Bool.false_eq_true]
  exact ⟨_, _, _, _, _, rfl⟩

theorem creditDeposit_credits {depositId : Nat} {dust : Bool} {stamped remainder granted : Int}
    (hdep : table.find Deposit.id depositId db.deposits = some dep)
    (hop : creditDeposit db depositId (some rateE12) minDepositSat now rebate =
      .ok (db', .credited micro stamped dust remainder granted)) :
    Credits dep db db' := by
  simp only [creditDeposit] at hop
  split at hop
  · cases hop
  rename_i hrate
  rw [hdep] at hop
  simp only at hop
  split at hop
  · obtain ⟨-, hout⟩ := Prod.mk.inj (Except.ok.inj hop)
    cases hout
  split at hop
  · cases hop
  rename_i addr haddr
  simp only [bind, Except.bind] at hop
  split at hop
  · cases hop
  rename_i split hsplit
  split at hop
  · cases hop
  rename_i chatId hchat
  simp only [applyCredit, bind, Except.bind] at hop
  split at hop
  · cases hop
  rename_i db₁ hinsert
  split at hop
  · cases hop
  obtain ⟨rfl, -⟩ := Prod.mk.inj (Except.ok.inj hop)
  have hdb₁ := insertLedger_ok hinsert
  subst hdb₁
  obtain ⟨husers, haddresses, hledger⟩ := rebateFor_spec _ dep split.micro now rebate
  refine ⟨husers.trans ?_, (congrArg _ haddresses).trans ?_, fun hcarry a ha => ?_, fun l hl => ?_⟩
  · dsimp only
    split
    · exact users_move _ _ _ _
    · rfl
  · refine (table.map_update ?_).trans ?_
    · exact fun _ _ _ => rfl
    · split <;> rfl
  · rw [haddresses] at ha
    obtain ⟨b, hb, rfl⟩ := List.mem_map.mp ha
    have hb : b ∈ db.addresses := by split at hb <;> exact hb
    split
    · exact splitDeposit_remainder (hcarry addr (table.find_spec haddr).1) (not_le.mp hrate) hsplit
    · exact hcarry b hb
  · obtain hl | hl := hledger l hl
    · dsimp only at hl
      split at hl <;> exact (mem_ledger hl).imp_right .inl
    · exact .inr (.inr hl)

end

end pcoin.bot.watch
