import PCoin.Bot.Exact
import PCoin.Bot.Payments
import Mathlib.Data.List.Infix

/-! What the operations of the bot make of an invite and of what the invited person paid in. -/

namespace pcoin.bot

/-- A row that `toppedUpMicro` counts. -/
def LedgerRow.counts (l : LedgerRow) : Prop :=
  l.kind ∈ [.deposit_pcn, .deposit_wpcn, .deposit_stars] ∨ like refundPattern l.idem_key.toList

instance (l : LedgerRow) : Decidable l.counts := inferInstanceAs (Decidable (_ ∨ _))

def rewardKey (referredId : Int) : String := "referral:" ++ toString referredId

def clawbackKey (referredId : Int) : String := "referral-clawback:" ++ toString referredId

/-- The texts that the other ledger keys begin with. -/
def otherKeys : List String := ["turn:", "welcome:", "pcn:", "wpcn:", "rebate:", "stars:", "admin:"]

/-- A row that belongs to no invite and no refund; a deposit takes nothing. -/
structure Plain (l : LedgerRow) : Prop where
  key : ∃ p ∈ otherKeys, p.toList <+: l.idem_key.toList
  kind : l.kind ≠ .referral
  deposit : l.kind ∈ [Kind.deposit_pcn, .deposit_wpcn, .deposit_stars] → 0 ≤ l.delta_micro_usd

theorem like_nil {p : Char} {pattern : List Char} (hpercent : p ≠ '%') (hunderscore : p ≠ '_') :
    like (p :: pattern) [] = false := by
  simp [like]

theorem like_cons {p : Char} {pattern text : List Char} {c : Char} (hpercent : p ≠ '%')
    (hunderscore : p ≠ '_') :
    like (p :: pattern) (c :: text) = (p.toLower = c.toLower && like pattern text) := by
  simp [like]

/-- The letters of a pattern before the first wildcard are the first of the text, in either case. -/
theorem prefix_of_like {p rest text : List Char} (hp : ∀ c ∈ p, c ≠ '%' ∧ c ≠ '_')
    (h : like (p ++ rest) text = true) : p.map Char.toLower <+: text.map Char.toLower := by
  induction p generalizing text with
  | nil => exact List.nil_prefix
  | cons c p ih =>
    obtain ⟨hpercent, hunderscore⟩ := hp c List.mem_cons_self
    cases text with
    | nil => cases (like_nil hpercent hunderscore).symm.trans h
    | cons d text =>
      rw [List.cons_append, like_cons hpercent hunderscore] at h
      simp only [Bool.and_eq_true, decide_eq_true_eq] at h
      rw [List.map_cons, List.map_cons, List.cons_prefix_cons]
      exact ⟨h.1, ih (fun c hc => hp c (List.mem_cons_of_mem _ hc)) h.2⟩

theorem like_any (text : List Char) : like ['%'] text = true := by
  rw [like]
  simp only [List.any_eq_true]
  exact ⟨[], (List.mem_tails _ _).mpr List.nil_suffix, rfl⟩

theorem prefix_of_refund {l : LedgerRow} (h : like refundPattern l.idem_key.toList = true) :
    "stars-refund:".toList <+: l.idem_key.toList.map Char.toLower :=
  @prefix_of_like "stars-refund:".toList ['%'] _ (by simp) h

theorem Plain.not_refund {l : LedgerRow} (h : Plain l) : ¬ like refundPattern l.idem_key.toList := by
  intro hlike
  obtain ⟨p, hp, hother⟩ := h.key
  have hnone : ∀ p ∈ otherKeys, ¬ ("stars-refund:".toList <+: p.toList.map Char.toLower ∨
      p.toList.map Char.toLower <+: "stars-refund:".toList) := by decide +kernel
  exact hnone p hp (List.prefix_or_prefix_of_prefix (prefix_of_refund hlike) (hother.map Char.toLower))

theorem Plain.key_ne {l : LedgerRow} (h : Plain l) (c : Int) :
    l.idem_key ≠ rewardKey c ∧ l.idem_key ≠ clawbackKey c := by
  obtain ⟨p, hp, hother⟩ := h.key
  have hnone : ∀ p ∈ otherKeys, ∀ q ∈ ["referral:", "referral-clawback:"],
      ¬ (p.toList <+: q.toList ∨ q.toList <+: p.toList) := by simp [otherKeys]
  have hne : ∀ q ∈ ["referral:", "referral-clawback:"], l.idem_key ≠ q ++ toString c := by
    intro q hq heq
    rw [heq, String.toList_append] at hother
    exact hnone p hp q hq (List.prefix_or_prefix_of_prefix hother (List.prefix_append _ _))
  exact ⟨hne _ (by simp), hne _ (by simp)⟩

/-- What an operation adds to the ledger has nothing to do with invites, and the tables of the invites
and of the payments stay. -/
structure Aside (db db' : Db) : Prop where
  referrals : db'.referrals = db.referrals
  payments : db'.payments = db.payments
  invoices : db'.invoices = db.invoices
  ledger : ∃ rows, db'.ledger = db.ledger ++ rows ∧ ∀ l ∈ rows, Plain l

section

variable {db db' db'' : Db} {chatId actual now : Int} {id : Nat}

theorem Aside.refl (db : Db) : Aside db db := ⟨rfl, rfl, rfl, [], by simp, by simp⟩

theorem Aside.trans (h : Aside db db') (h' : Aside db' db'') : Aside db db'' := by
  obtain ⟨rows, hledger, hrows⟩ := h.ledger
  obtain ⟨rows', hledger', hrows'⟩ := h'.ledger
  refine ⟨h'.referrals.trans h.referrals, h'.payments.trans h.payments, h'.invoices.trans h.invoices,
    rows ++ rows', by rw [hledger', hledger, List.append_assoc], fun l hl => ?_⟩
  exact (List.mem_append.mp hl).elim (hrows l) (hrows' l)

theorem Aside.move (db : Db) (k balance reserved : Int) : Aside db (db.move k balance reserved) :=
  ⟨rfl, rfl, rfl, [], (List.append_nil _).symm, by simp⟩

theorem Aside.setReservation (db : Db) (id : Nat) (f : Reservation → Reservation) :
    Aside db (db.setReservation id f) :=
  ⟨rfl, rfl, rfl, [], (List.append_nil _).symm, by simp⟩

theorem Aside.insert {row : LedgerRow} (h : db.insertLedger row = .ok db') (hrow : Plain row) :
    Aside db db' := by
  rw [insertLedger_ok h]
  exact ⟨rfl, rfl, rfl, [row], rfl, by simpa using hrow⟩

theorem prefix_of_append (p : String) (rest : String) : p.toList <+: (p ++ rest).toList := by
  rw [String.toList_append]
  exact List.prefix_append _ _

theorem prefix_idem (r : Reservation) : "turn:".toList <+: r.idem.toList := by
  unfold Reservation.idem
  split
  · exact prefix_of_append _ _
  · refine List.IsPrefix.trans ?_ (prefix_of_append "turn:api:" _)
    decide +kernel

theorem aside_bill {r : Reservation} (hop : bill db r actual now = .ok db') : Aside db db' := by
  unfold bill at hop
  split at hop
  · exact (Aside.move db _ _ _).trans
      (.insert hop ⟨⟨_, by simp [otherKeys], prefix_idem r⟩, by simp, by simp⟩)
  · obtain rfl := Except.ok.inj hop
    exact .refl db

theorem aside_reserve {updateId : Option Int} {reqKey : Option String} {microUsd : Int}
    {allowOverdraft : Bool} {out : Reserved}
    (hop : reserve db chatId updateId reqKey microUsd allowOverdraft now = .ok (db', out)) :
    Aside db db' := by
  unfold reserve at hop
  split at hop
  · cases hop
  simp only at hop
  split at hop
  · cases hop
    exact .refl db
  split at hop
  · cases hop
  rename_i u _
  by_cases hfunds : 0 < microUsd ∧ u.balance_micro_usd < (if allowOverdraft then 1 else microUsd)
  · rw [if_pos hfunds] at hop
    cases hop
  · rw [if_neg hfunds] at hop
    cases hop
    split <;> exact ⟨rfl, rfl, rfl, [], (List.append_nil _).symm, by simp⟩

theorem aside_settle {out : Settled} (hop : settle db id actual now = .ok (db', out)) :
    Aside db db' := by
  unfold settle at hop
  split at hop
  · cases hop
  split at hop
  · obtain ⟨db₁, hbill, hop⟩ := run.bind_eq_ok.mp hop
    cases hop
    exact (aside_bill hbill).trans (.setReservation _ _ _)
  · obtain ⟨db₁, hbill, hop⟩ := run.bind_eq_ok.mp hop
    cases hop
    exact ((Aside.move db _ _ _).trans (aside_bill hbill)).trans (.setReservation _ _ _)
  · cases hop
    exact .refl db

theorem aside_giveBack (db : Db) (r : Reservation) (state : ResvState) :
    Aside db (giveBack db r state) :=
  (Aside.move db _ _ _).trans (.setReservation _ _ _)

theorem aside_release {out : Released} (hop : release db id = .ok (db', out)) : Aside db db' := by
  unfold release at hop
  split at hop
  · cases hop
  split at hop
  · cases hop
    exact .refl db
  · cases hop
    exact aside_giveBack db _ _

theorem aside_hold (db : Db) (id : Nat) : Aside db (hold db id).1 := by
  unfold hold
  split
  · exact .refl db
  split
  · exact .refl db
  · exact .setReservation db _ _

theorem aside_ageOut (db : Db) (id : Nat) : Aside db (ageOut db id) := by
  unfold ageOut
  split
  · exact .refl db
  split
  · exact .refl db
  · exact aside_giveBack db _ _

theorem aside_ageOutReservations (db : Db) (olderThanMinutes now : Int) :
    Aside db (ageOutReservations db olderThanMinutes now) := by
  unfold ageOutReservations
  generalize stale db (now - olderThanMinutes * 60) = ids
  induction ids generalizing db with
  | nil => exact .refl db
  | cons id ids ih => exact (aside_ageOut db id).trans (ih _)

theorem aside_rebateFor (db : Db) (dep : Deposit) (micro now : Int) (rebate : Rebate) :
    Aside db (rebateFor db dep micro now rebate).1 := by
  unfold rebateFor
  split
  · exact .refl db
  simp only
  split
  · exact .refl db
  rename_i db₁ hinsert
  have hprefixed : "rebate:".toList <+: dep.rebateKey.toList := by
    rw [Deposit.rebateKey, String.append_assoc, String.append_assoc]
    exact prefix_of_append _ _
  have hinsert : Aside db db₁ :=
    .insert hinsert ⟨⟨_, by simp [otherKeys], hprefixed⟩, by simp, by simp⟩
  split
  · exact hinsert
  · exact hinsert.trans (.move _ _ _ _)

theorem aside_creditDeposit {c : Call} {out : Credited} (hop : c.run db = .ok (db', out)) :
    Aside db db' := by
  obtain ⟨-, -, -, rfl, -⟩ | ⟨dep, addr, rateE12, chatId, split, hcrediting, rfl, -⟩ :=
    creditDeposit_cases hop
  · exact .refl _
  · refine Aside.trans ?_ (aside_rebateFor _ dep split.micro c.now c.rebate)
    have hprefixed : "pcn:".toList <+: dep.ledgerKey.toList := by
      rw [Deposit.ledgerKey, String.append_assoc, String.append_assoc]
      exact prefix_of_append _ _
    refine ⟨?_, ?_, ?_, _, ledger_credited db dep chatId split rateE12 c.now, ?_⟩
    · unfold Db.credited
      dsimp only
      split <;> rfl
    · unfold Db.credited
      dsimp only
      split <;> rfl
    · unfold Db.credited
      dsimp only
      split <;> rfl
    · intro l hl
      obtain rfl := List.mem_singleton.mp hl
      exact ⟨⟨_, by simp [otherKeys], hprefixed⟩, by simp, fun _ => splitDeposit_nonneg hcrediting.parts⟩

theorem aside_giveGift (db : Db) (chatId gift now : Int) : Aside db (giveGift db chatId gift now).1 := by
  unfold giveGift
  split
  · split
    · rename_i db₁ hinsert
      exact (Aside.insert hinsert
        ⟨⟨_, by simp [otherKeys], prefix_of_append _ _⟩, by simp, by simp⟩).trans (.move _ _ _ _)
    · exact .refl db
  · exact .refl db

end

end pcoin.bot
