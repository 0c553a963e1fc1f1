import PCoin.Bot.Invites
import Mathlib.Algebra.Order.BigOperators.Group.List
import Mathlib.Data.Rat.Floor

/-! An invite reward stands on money that the invited person paid in. -/

namespace pcoin.bot

/-- A package of the settings. -/
structure Package where
  usd : ℚ
  stars : Int

/-- `usdMicro`. -/
def usdMicro (usd : ℚ) : Int := ⌊usd * 100 + 1 / 2⌋ * 10000

/-- What `settingsProblems` asks of a package. -/
def Package.Offered (p : Package) : Prop :=
  1 / 2 ≤ p.usd ∧ p.usd ≤ 1000 ∧ (⌊p.usd * 100 + 1 / 2⌋ : ℚ) = p.usd * 100 ∧ 1 ≤ p.stars ∧
    p.stars ≤ 100000

/-- The ledger row of a log of a payment in wPCN; the whole amount is on the first. -/
def wpcnRow (chatId : Int) (txhash : String) (micro : Nat) (now : Int) (log : Nat × Nat) : LedgerRow :=
  { chat_id := chatId, delta_micro_usd := if log.2 = 0 then micro else 0, kind := .deposit_wpcn,
    idem_key := "wpcn:" ++ txhash ++ ":" ++ toString log.1, created_at := now }

/-- An insert that is passed over where its key is taken. -/
def Db.insertNew (db : Db) (row : LedgerRow) : Db :=
  match db.insertLedger row with
  | .ok db' => db'
  | .error _ => db

/-- The writes of `#credit`, with the logs of the payment that no claim had. -/
def creditWpcn (db : Db) (chatId : Int) (txhash : String) (taken : List Nat) (micro : Nat)
    (now : Int) : Db :=
  if taken = [] ∨ db.user chatId = none then db
  else
    let db := (taken.zipIdx.map (wpcnRow chatId txhash micro now)).foldl Db.insertNew db
    if 0 < micro then db.move chatId micro 0 else db

def MAX_CREDIT_MICRO : Int := 1000 * 1000000

/-- `/^[A-Za-z0-9_-]{8,64}$/`. -/
def isRequestId (s : String) : Bool :=
  8 ≤ s.length && s.length ≤ 64 && s.toList.all fun c => c.isAlphanum || c = '_' || c = '-'

/-- `adminCredit`; one that is refused changes nothing. -/
def adminCredit (db : Db) (chatId amount : Int) (requestId : String) (now : Int) : Db :=
  if amount ≤ 0 ∨ MAX_CREDIT_MICRO < amount ∨ isRequestId requestId = false ∨
      db.user chatId = none then db
  else
    match db.insertLedger
        { chat_id := chatId, delta_micro_usd := amount, kind := .adjust,
          idem_key := "admin:" ++ requestId, created_at := now } with
    | .ok db' => db'.move chatId amount 0
    -- the credit has been made
    | .error _ => db

/-- What is done to the database. -/
inductive Act
  | op (op : Op)
  | creditWpcn (chatId : Int) (txhash : String) (taken : List Nat) (micro : Nat) (now : Int)
  | adminCredit (chatId amount : Int) (requestId : String) (now : Int)

def act (db : Db) : Act → Option Db
  | .op op => step db op
  | .creditWpcn chatId txhash taken micro now => some (creditWpcn db chatId txhash taken micro now)
  | .adminCredit chatId amount requestId now => some (adminCredit db chatId amount requestId now)

/-- Invoices are for packages that are offered. -/
def Priced (_ : Db) : Act → Prop
  | .op (.others _ _ invoices _ _) =>
    ∀ i ∈ invoices, ∃ p : Package, p.Offered ∧ i.stars = p.stars ∧ i.micro_usd = usdMicro p.usd
  | _ => True

/-- What is taken back with an invite reward, if the refunds of a chat that are pending go
through. -/
def Payment.stake (chatId : Int) (p : Payment) : Int :=
  if p.chat_id = chatId ∧ p.refund_state = some .pending ∧ p.refund_clawback then p.micro_usd else 0

def atStake (chatId : Int) (payments : List Payment) : Int :=
  (payments.map (Payment.stake chatId)).sum

/-- The ledger rows with a key: whose they are, and how much. -/
def Db.rows (db : Db) (key : String) : List (Int × Int) :=
  (db.ledger.filter fun l => l.idem_key = key).map fun l => (l.chat_id, l.delta_micro_usd)

def Referral.rewardRows (r : Referral) : List (Int × Int) :=
  r.reward_micro_usd.toList.map fun reward => (r.referrer_chat_id, reward)

def Referral.clawbackRows (r : Referral) : List (Int × Int) :=
  if r.status = .void then r.reward_micro_usd.toList.map fun reward => (r.referrer_chat_id, -reward)
  else []

/-- A reward is stamped when it is paid, and stays when it is taken back. -/
def Referral.Stamped (r : Referral) : Prop :=
  (r.status = .pending → r.reward_micro_usd = none) ∧
    (r.status = .rewarded → ∃ reward ∈ r.reward_micro_usd, 0 < reward)

structure Invites (db : Db) : Prop where
  ids : (db.referrals.map Referral.id).Nodup
  referred : (db.referrals.map Referral.referred_chat_id).Nodup
  payments : (db.payments.map Payment.id).Nodup
  micro : ∀ p ∈ db.payments, 0 ≤ p.micro_usd
  invoices : ∀ i ∈ db.invoices, 0 ≤ i.micro_usd
  stamped : ∀ r ∈ db.referrals, r.Stamped
  covered : ∀ r ∈ db.referrals, r.status = .rewarded → ∀ min ∈ r.min_topup_micro_usd,
    min ≤ toppedUpMicro db r.referred_chat_id + atStake r.referred_chat_id db.payments
  rows : ∀ r ∈ db.referrals, db.rows (rewardKey r.referred_chat_id) = r.rewardRows ∧
    db.rows (clawbackKey r.referred_chat_id) = r.clawbackRows
  free : ∀ c, c ∉ db.referrals.map Referral.referred_chat_id →
    db.rows (rewardKey c) = [] ∧ db.rows (clawbackKey c) = []
  kinds : ∀ l ∈ db.ledger, l.kind = .referral →
    ∃ c, l.idem_key = rewardKey c ∨ l.idem_key = clawbackKey c

section

variable {db db' : Db}

theorem toppedUp_append {rows : List LedgerRow} (hledger : db'.ledger = db.ledger ++ rows) (c : Int) :
    toppedUpMicro db' c = toppedUpMicro db c +
      (rows.map fun l => if l.chat_id = c ∧ l.counts then l.delta_micro_usd else 0).sum := by
  rw [toppedUpMicro, hledger, List.map_append, List.sum_append]
  rfl

theorem rows_append {rows : List LedgerRow} (hledger : db'.ledger = db.ledger ++ rows) (key : String) :
    db'.rows key = db.rows key ++
      (rows.filter fun l => l.idem_key = key).map fun l => (l.chat_id, l.delta_micro_usd) := by
  rw [Db.rows, hledger, List.filter_append, List.map_append]
  rfl

theorem rows_insert (db : Db) (row : LedgerRow) (hledger : db'.ledger = db.ledger ++ [row]) (key : String) :
    db'.rows key = db.rows key ++
      if row.idem_key = key then [(row.chat_id, row.delta_micro_usd)] else [] := by
  rw [rows_append hledger]
  by_cases heq : row.idem_key = key <;> simp [heq]

theorem toppedUp_aside (h : Aside db db') (c : Int) : toppedUpMicro db c ≤ toppedUpMicro db' c := by
  obtain ⟨rows, hledger, hrows⟩ := h.ledger
  rw [toppedUp_append hledger, le_add_iff_nonneg_right]
  refine List.sum_nonneg fun n hn => ?_
  obtain ⟨l, hl, rfl⟩ := List.mem_map.mp hn
  split
  · rename_i hcounts
    exact (hrows l hl).deposit (hcounts.2.resolve_right (hrows l hl).not_refund)
  · exact le_rfl

theorem rows_of_ne {rows : List LedgerRow} (hledger : db'.ledger = db.ledger ++ rows) {key : String}
    (hkey : ∀ l ∈ rows, l.idem_key ≠ key) : db'.rows key = db.rows key := by
  rw [rows_append hledger, List.filter_eq_nil_iff.mpr (by simpa using hkey), List.map_nil,
    List.append_nil]

theorem rows_aside (h : Aside db db') (c : Int) :
    db'.rows (rewardKey c) = db.rows (rewardKey c) ∧
      db'.rows (clawbackKey c) = db.rows (clawbackKey c) := by
  obtain ⟨rows, hledger, hrows⟩ := h.ledger
  exact ⟨rows_of_ne hledger fun l hl => ((hrows l hl).key_ne c).1,
    rows_of_ne hledger fun l hl => ((hrows l hl).key_ne c).2⟩

theorem Invites.aside (h : Invites db) (ha : Aside db db') : Invites db' := by
  refine ⟨ha.referrals ▸ h.ids, ha.referrals ▸ h.referred, ha.payments ▸ h.payments,
    ha.payments ▸ h.micro, ha.invoices ▸ h.invoices, ha.referrals ▸ h.stamped, ?_, ?_, ?_, ?_⟩
  · rw [ha.referrals, ha.payments]
    intro r hr hstatus min hmin
    have hcovered := h.covered r hr hstatus min hmin
    have hle := toppedUp_aside ha r.referred_chat_id
    omega
  · rw [ha.referrals]
    intro r hr
    obtain ⟨hreward, hclawback⟩ := rows_aside ha r.referred_chat_id
    rw [hreward, hclawback]
    exact h.rows r hr
  · rw [ha.referrals]
    intro c hc
    obtain ⟨hreward, hclawback⟩ := rows_aside ha c
    rw [hreward, hclawback]
    exact h.free c hc
  · obtain ⟨rows, hledger, hrows⟩ := ha.ledger
    rw [hledger]
    intro l hl hkind
    exact (List.mem_append.mp hl).elim (h.kinds l · hkind) fun hl => absurd hkind (hrows l hl).kind

theorem toString_injective {m n : Int} (h : toString m = toString n) : m = n := by
  have htext := congrArg String.toList h
  have hdigits : ∀ {a b : Nat}, Nat.toDigits 10 a = Nat.toDigits 10 b → a = b := fun {a b} hab => by
    rw [← Nat.ofDigitChars_ten_toDigits (n := a), hab, Nat.ofDigitChars_ten_toDigits]
  -- a sign is no digit
  have hsign : ∀ (a : Nat) (text : List Char), '-' :: text ≠ Nat.toDigits 10 a := fun a text ha => by
    have hdigit := Nat.isDigit_of_mem_toDigits (b := 10) (n := a) (c := '-') (by decide) (by decide)
      (ha ▸ List.mem_cons_self)
    cases hdigit
  cases m with
  | ofNat a =>
    cases n with
    | ofNat b =>
      exact congrArg Int.ofNat (hdigits (by simpa [toString, Int.repr, Nat.repr] using htext))
    | negSucc b => exact absurd (by simpa [toString, Int.repr, Nat.repr] using htext.symm) (hsign a _)
  | negSucc a =>
    cases n with
    | ofNat b => exact absurd (by simpa [toString, Int.repr, Nat.repr] using htext) (hsign b _)
    | negSucc b =>
      have hab := hdigits (a := a + 1) (b := b + 1)
        (by simpa [toString, Int.repr, Nat.repr] using htext)
      rw [Nat.succ_injective hab]

theorem append_injective {p : String} {c c' : Int} (h : p ++ toString c = p ++ toString c') :
    c = c' := by
  have htext := congrArg String.toList h
  rw [String.toList_append, String.toList_append] at htext
  exact toString_injective (String.toList_injective (List.append_cancel_left htext))

theorem rewardKey_ne_clawbackKey (c c' : Int) : rewardKey c ≠ clawbackKey c' := by
  intro h
  have hreward := prefix_of_append "referral:" (toString c)
  have hclawback := prefix_of_append "referral-clawback:" (toString c')
  rw [show "referral:" ++ toString c = "referral-clawback:" ++ toString c' from h] at hreward
  have hnone : ¬ ("referral:".toList <+: "referral-clawback:".toList ∨
      "referral-clawback:".toList <+: "referral:".toList) := by decide +kernel
  exact hnone (List.prefix_or_prefix_of_prefix hreward hclawback)

/-- A row of an invite is not counted as paid in. -/
theorem not_counts_of_invite {l : LedgerRow} {c : Int} (hkind : l.kind = .referral)
    (hkey : l.idem_key = rewardKey c ∨ l.idem_key = clawbackKey c) : ¬ l.counts := by
  rintro (hdeposit | hlike)
  · simp [hkind] at hdeposit
  · have hrefund := prefix_of_refund hlike
    have hnone : ∀ q ∈ ["referral:", "referral-clawback:"],
        ¬ ("stars-refund:".toList <+: q.toList.map Char.toLower ∨
          q.toList.map Char.toLower <+: "stars-refund:".toList) := by decide +kernel
    have hne : ∀ q ∈ ["referral:", "referral-clawback:"], l.idem_key ≠ q ++ toString c := by
      intro q hq heq
      have hprefixed := (prefix_of_append q (toString c)).map Char.toLower
      rw [heq] at hrefund
      exact hnone q hq (List.prefix_or_prefix_of_prefix hrefund hprefixed)
    exact hkey.elim (hne _ (by simp)) (hne _ (by simp))

theorem stake_nonneg (h : ∀ p ∈ db.payments, 0 ≤ p.micro_usd) (c : Int) : 0 ≤ atStake c db.payments := by
  refine List.sum_nonneg fun n hn => ?_
  obtain ⟨p, hp, rfl⟩ := List.mem_map.mp hn
  rw [Payment.stake]
  split
  · exact h p hp
  · exact le_rfl

/-- One referral changes, with the ledger rows of its own. -/
theorem Invites.change (h : Invites db) {ref : Referral} (href : ref ∈ db.referrals)
    (f : Referral → Referral) (hf : ∀ r, (f r).id = r.id ∧ (f r).referred_chat_id = r.referred_chat_id)
    (rows : List LedgerRow)
    (hrows : ∀ l ∈ rows, l.kind = .referral ∧ (l.idem_key = rewardKey ref.referred_chat_id ∨
      l.idem_key = clawbackKey ref.referred_chat_id))
    (hreferrals : db'.referrals = table.update Referral.id ref.id f db.referrals)
    (hledger : db'.ledger = db.ledger ++ rows) (hpayments : db'.payments = db.payments)
    (hinvoices : db'.invoices = db.invoices) (hstamped : (f ref).Stamped)
    (hcovered : (f ref).status = .rewarded → ∀ min ∈ (f ref).min_topup_micro_usd,
      min ≤ toppedUpMicro db ref.referred_chat_id)
    (hreward : db'.rows (rewardKey ref.referred_chat_id) = (f ref).rewardRows)
    (hclawback : db'.rows (clawbackKey ref.referred_chat_id) = (f ref).clawbackRows) :
    Invites db' := by
  have hmap : ∀ {α : Type} (g : Referral → α), (∀ r, g (f r) = g r) →
      db'.referrals.map g = db.referrals.map g := fun g hg => by
    rw [hreferrals]
    exact table.map_update fun r _ _ => hg r
  have hmem : ∀ r ∈ db'.referrals, r = f ref ∨ r ∈ db.referrals ∧
      r.referred_chat_id ≠ ref.referred_chat_id := by
    intro r hr
    rw [hreferrals] at hr
    obtain rfl | ⟨hr, hne⟩ := table.mem_update h.ids href hr
    · exact .inl rfl
    · exact .inr ⟨hr, fun heq => hne (by rw [List.inj_on_of_nodup_map h.referred hr href heq])⟩
  have htopped : ∀ c, toppedUpMicro db' c = toppedUpMicro db c := by
    intro c
    rw [toppedUp_append hledger, add_eq_left]
    refine List.sum_eq_zero fun n hn => ?_
    obtain ⟨l, hl, rfl⟩ := List.mem_map.mp hn
    exact if_neg fun hcounts => not_counts_of_invite (hrows l hl).1 (hrows l hl).2 hcounts.2
  have hothers : ∀ c, c ≠ ref.referred_chat_id → db'.rows (rewardKey c) = db.rows (rewardKey c) ∧
      db'.rows (clawbackKey c) = db.rows (clawbackKey c) := by
    intro c hc
    refine ⟨rows_of_ne hledger fun l hl heq => ?_, rows_of_ne hledger fun l hl heq => ?_⟩
    · obtain hkey | hkey := (hrows l hl).2
      · exact hc (append_injective (heq.symm.trans hkey))
      · exact rewardKey_ne_clawbackKey _ _ (heq.symm.trans hkey)
    · obtain hkey | hkey := (hrows l hl).2
      · exact rewardKey_ne_clawbackKey _ _ (hkey.symm.trans heq)
      · exact hc (append_injective (heq.symm.trans hkey))
  refine ⟨hmap Referral.id (fun r => (hf r).1) ▸ h.ids,
    hmap Referral.referred_chat_id (fun r => (hf r).2) ▸ h.referred, hpayments ▸ h.payments,
    hpayments ▸ h.micro, hinvoices ▸ h.invoices, fun r hr => ?_, fun r hr hstatus min hmin => ?_,
    fun r hr => ?_, fun c hc => ?_, fun l hl hkind => ?_⟩
  · obtain rfl | ⟨hr, -⟩ := hmem r hr
    · exact hstamped
    · exact h.stamped r hr
  · rw [htopped, hpayments]
    obtain rfl | ⟨hr, -⟩ := hmem r hr
    · have hle := hcovered hstatus min hmin
      have hstake := stake_nonneg h.micro (f ref).referred_chat_id
      rw [(hf ref).2] at hstake ⊢
      omega
    · exact h.covered r hr hstatus min hmin
  · obtain rfl | ⟨hr, hne⟩ := hmem r hr
    · rw [(hf ref).2]
      exact ⟨hreward, hclawback⟩
    · rw [(hothers _ hne).1, (hothers _ hne).2]
      exact h.rows r hr
  · have hc' := hc
    rw [hmap Referral.referred_chat_id fun r => (hf r).2] at hc'
    have hne : c ≠ ref.referred_chat_id := fun heq => hc' (heq ▸ List.mem_map_of_mem href)
    rw [(hothers c hne).1, (hothers c hne).2]
    exact h.free c hc'
  · rw [hledger] at hl
    exact (List.mem_append.mp hl).elim (h.kinds l · hkind) fun hl => ⟨_, (hrows l hl).2⟩

/-- A text that begins with the letters of a pattern before its `%`. -/
theorem like_of_prefix {p : List Char} (hp : ∀ c ∈ p, c ≠ '%' ∧ c ≠ '_') (text : List Char) :
    like (p ++ ['%']) (p ++ text) = true := by
  induction p with
  | nil => exact like_any text
  | cons c p ih =>
    obtain ⟨hpercent, hunderscore⟩ := hp c List.mem_cons_self
    simp only [List.cons_append, like, Bool.and_eq_true, decide_eq_true_eq, true_and]
    exact ih fun c hc => hp c (List.mem_cons_of_mem _ hc)

theorem counts_of_prefixed {l : LedgerRow} (h : "stars-refund:".toList <+: l.idem_key.toList) :
    l.counts ∧ ∀ c, l.idem_key ≠ rewardKey c ∧ l.idem_key ≠ clawbackKey c := by
  have hnone : ∀ q ∈ ["referral:", "referral-clawback:"],
      ¬ ("stars-refund:".toList <+: q.toList ∨ q.toList <+: "stars-refund:".toList) := by
    decide +kernel
  have hne : ∀ c : Int, ∀ q ∈ ["referral:", "referral-clawback:"], l.idem_key ≠ q ++ toString c := by
    intro c q hq heq
    rw [heq] at h
    exact hnone q hq (List.prefix_or_prefix_of_prefix h (prefix_of_append q _))
  refine ⟨.inr ?_, fun c => ⟨hne c _ (by simp), hne c _ (by simp)⟩⟩
  obtain ⟨rest, hrest⟩ := h
  rw [← hrest]
  exact like_of_prefix (p := "stars-refund:".toList) (by simp) rest

theorem atStake_update {id : Nat} {p : Payment} (hids : (db.payments.map Payment.id).Nodup)
    (hp : db.payment id = some p) (f : Payment → Payment) (c : Int) :
    atStake c (table.update Payment.id id f db.payments) + p.stake c =
      atStake c db.payments + (f p).stake c := by
  obtain ⟨hmem, rfl⟩ := table.find_spec hp
  exact table.sum_update hids hmem f (Payment.stake c)

/-- A step of a refund: its payment changes, with ledger rows of its own. -/
theorem Invites.refund (h : Invites db) {id : Nat} {p : Payment} (hp : db.payment id = some p)
    (f : Payment → Payment) (hf : ∀ p, (f p).id = p.id ∧ (f p).chat_id = p.chat_id ∧
      (f p).micro_usd = p.micro_usd)
    (rows : List LedgerRow)
    (hrows : ∀ l ∈ rows, l.chat_id = p.chat_id ∧ "stars-refund:".toList <+: l.idem_key.toList)
    (hkinds : ∀ l ∈ rows, l.kind ≠ .referral)
    (hreferrals : db'.referrals = db.referrals) (hinvoices : db'.invoices = db.invoices)
    (hpayments : db'.payments = table.update Payment.id id f db.payments)
    (hledger : db'.ledger = db.ledger ++ rows)
    (hcovered : ∀ r ∈ db.referrals, r.status = .rewarded → r.referred_chat_id = p.chat_id →
      ∀ min ∈ r.min_topup_micro_usd, min + p.stake p.chat_id ≤ toppedUpMicro db p.chat_id +
        (rows.map LedgerRow.delta_micro_usd).sum + atStake p.chat_id db.payments +
          (f p).stake p.chat_id) : Invites db' := by
  have hids : db'.payments.map Payment.id = db.payments.map Payment.id := by
    rw [hpayments]
    exact table.map_update fun p _ _ => (hf p).1
  have hsame : ∀ c, db'.rows (rewardKey c) = db.rows (rewardKey c) ∧
      db'.rows (clawbackKey c) = db.rows (clawbackKey c) := fun c =>
    ⟨rows_of_ne hledger fun l hl => ((counts_of_prefixed (hrows l hl).2).2 c).1,
      rows_of_ne hledger fun l hl => ((counts_of_prefixed (hrows l hl).2).2 c).2⟩
  refine ⟨hreferrals ▸ h.ids, hreferrals ▸ h.referred, hids ▸ h.payments, ?_, hinvoices ▸ h.invoices,
    hreferrals ▸ h.stamped, ?_, ?_, ?_, ?_⟩
  · rw [hpayments]
    intro q hq
    obtain ⟨q', hq', rfl⟩ := List.mem_map.mp hq
    split
    · rw [(hf q').2.2]
      exact h.micro q' hq'
    · exact h.micro q' hq'
  · rw [hreferrals, hpayments]
    intro r hr hstatus min hmin
    have hstake := atStake_update h.payments hp f r.referred_chat_id
    rw [toppedUp_append hledger]
    by_cases hchat : r.referred_chat_id = p.chat_id
    · have hle := hcovered r hr hstatus hchat min hmin
      have hsum : rows.map (fun l => if l.chat_id = p.chat_id ∧ l.counts then l.delta_micro_usd else 0) =
          rows.map LedgerRow.delta_micro_usd := List.map_congr_left fun l hl =>
        if_pos ⟨(hrows l hl).1, (counts_of_prefixed (hrows l hl).2).1⟩
      rw [hchat] at hstake ⊢
      rw [hsum]
      omega
    · have hle := h.covered r hr hstatus min hmin
      have hsum : (rows.map fun l =>
          if l.chat_id = r.referred_chat_id ∧ l.counts then l.delta_micro_usd else 0).sum = 0 := by
        refine List.sum_eq_zero fun n hn => ?_
        obtain ⟨l, hl, rfl⟩ := List.mem_map.mp hn
        exact if_neg fun hcounts => hchat (hcounts.1.symm.trans (hrows l hl).1)
      have hold : p.stake r.referred_chat_id = 0 := if_neg fun hstake => hchat hstake.1.symm
      have hnew : (f p).stake r.referred_chat_id = 0 := if_neg fun hstake =>
        hchat (hstake.1.symm.trans (hf p).2.1)
      omega
  · rw [hreferrals]
    intro r hr
    rw [(hsame _).1, (hsame _).2]
    exact h.rows r hr
  · rw [hreferrals]
    intro c hc
    rw [(hsame c).1, (hsame c).2]
    exact h.free c hc
  · rw [hledger]
    intro l hl hkind
    exact (List.mem_append.mp hl).elim (h.kinds l · hkind) fun hl => absurd hkind (hkinds l hl)

/-- An invite is recorded. -/
theorem Invites.record (h : Invites db) (chatId : Int) (invitedBy : Option Int) :
    Invites (recordInvite db chatId invitedBy).1 := by
  unfold recordInvite
  split
  · exact h
  split
  · exact h
  split
  · exact h
  split
  · exact h
  rename_i hnew
  obtain ⟨hreward, hclawback⟩ := h.free chatId hnew
  refine ⟨table.nodup_append h.ids (nextId_not_mem _), table.nodup_append h.referred hnew, h.payments,
    h.micro, h.invoices, fun r hr => ?_, fun r hr hstatus => ?_, fun r hr => ?_, fun c hc => ?_,
    h.kinds⟩
  · obtain hr | hr := List.mem_append.mp hr
    · exact h.stamped r hr
    · rw [List.mem_singleton.mp hr]
      exact ⟨fun _ => rfl, fun hstatus => by cases hstatus⟩
  · obtain hr | hr := List.mem_append.mp hr
    · exact h.covered r hr hstatus
    · rw [List.mem_singleton.mp hr] at hstatus
      cases hstatus
  · obtain hr | hr := List.mem_append.mp hr
    · exact h.rows r hr
    · rw [List.mem_singleton.mp hr]
      exact ⟨hreward, hclawback⟩
  · refine h.free c fun hmem => hc ?_
    rw [List.map_append]
    exact List.mem_append_left _ hmem

theorem invites_openAccount (h : Invites db) (chatId giftMicro giftCapMicro : Int)
    (invitedBy : Option Int) (now : Int) :
    Invites (openAccount db chatId giftMicro giftCapMicro invitedBy now).1 := by
  unfold openAccount
  split
  · exact h
  · have huser : Aside db { db with users := db.users ++ [{ chat_id := chatId }] } :=
      ⟨rfl, rfl, rfl, [], (List.append_nil _).symm, by simp⟩
    exact (h.aside (huser.trans (aside_giveGift _ _ _ _))).record chatId invitedBy

/-- An invite that has not been paid is made void. -/
theorem Invites.void (h : Invites db) {ref : Referral} (href : ref ∈ db.referrals)
    (hstatus : ref.status = .pending) :
    Invites (db.setReferral ref.id fun r => { r with status := .void }) := by
  have hnone := (h.stamped ref href).1 hstatus
  obtain ⟨hreward, hclawback⟩ := h.rows ref href
  refine h.change href (fun r => { r with status := .void }) (fun r => ⟨rfl, rfl⟩) [] (by simp) rfl
    (List.append_nil _).symm rfl rfl ⟨fun hs => (by cases hs), fun hs => (by cases hs)⟩
    (fun hs => by cases hs) hreward (hclawback.trans ?_)
  simp [Referral.clawbackRows, hstatus, hnone]

theorem invites_payInviteReward {referredId : Int} {itemId : Option Nat}
    {rewardMicro minTopupMicro now : Int} {enabled : Bool} {out : Paid} (h : Invites db)
    (hop : payInviteReward db referredId itemId rewardMicro minTopupMicro enabled now =
      .ok (db', out)) : Invites db' := by
  unfold payInviteReward at hop
  split at hop
  · cases hop
    exact h
  rename_i hon
  have hpositive : 0 < rewardMicro := by
    by_contra hle
    exact hon (by simp [not_lt.mp hle])
  split at hop
  · cases hop
    exact h
  rename_i ref hfind
  have href := List.mem_of_find?_eq_some hfind
  obtain ⟨rfl, hstatus⟩ : ref.referred_chat_id = referredId ∧ ref.status = .pending := by
    simpa using List.find?_some hfind
  split at hop
  · cases hop
    exact h.void href hstatus
  split at hop
  · cases hop
    exact h.void href hstatus
  split at hop
  · cases hop
    exact h
  rename_i htopped
  split at hop
  · cases hop
    exact h
  obtain ⟨db₁, hinsert, hop⟩ := run.bind_eq_ok.mp hop
  cases hop
  have hnone := (h.stamped ref href).1 hstatus
  obtain ⟨hreward, hclawback⟩ := h.rows ref href
  rw [insertLedger_ok hinsert]
  let pay (r : Referral) : Referral :=
    { r with status := .rewarded, reward_micro_usd := some rewardMicro
             min_topup_micro_usd := some minTopupMicro }
  let row : LedgerRow :=
    { chat_id := ref.referrer_chat_id, delta_micro_usd := rewardMicro, kind := .referral
      idem_key := rewardKey ref.referred_chat_id, created_at := now }
  refine h.change href pay (fun r => ⟨rfl, rfl⟩) [row] (fun l hl => ?_) rfl rfl rfl rfl
    ⟨fun hs => (by cases hs), fun _ => ⟨rewardMicro, rfl, hpositive⟩⟩ (fun _ min hmin => ?_) ?_ ?_
  · rw [List.mem_singleton.mp hl]
    exact ⟨rfl, .inl rfl⟩
  · obtain rfl := Option.some.inj hmin
    exact not_lt.mp htopped
  · rw [rows_insert db row rfl, hreward, if_pos rfl, Referral.rewardRows, hnone]
    rfl
  · rw [rows_insert db row rfl, hclawback, if_neg (rewardKey_ne_clawbackKey _ _),
      Referral.clawbackRows, hstatus]
    rfl

theorem invites_creditStarsPayment {chatId now : Int} {sp : SuccessfulPayment} {out : StarsCredit}
    (h : Invites db) (hop : creditStarsPayment db chatId sp now = .ok (db', out)) : Invites db' := by
  unfold creditStarsPayment at hop
  split at hop
  · cases hop
    exact h
  split at hop
  · cases hop
    exact h
  split at hop
  · cases hop
    exact h
  rename_i inv hinv
  have hmicro := h.invoices inv (List.mem_of_find?_eq_some hinv)
  split at hop
  · cases hop
    exact h
  split at hop
  · cases hop
    exact h
  split at hop
  · cases hop
    exact h
  obtain ⟨db₁, hinsert, hop⟩ := run.bind_eq_ok.mp hop
  cases hop
  -- the payment first, then its credit
  have hpayment : ∀ (payment : Payment), payment.id = nextId (db.payments.map Payment.id) →
      payment.micro_usd = inv.micro_usd → payment.refund_state = none →
      Invites { db with
        invoices := table.update Invoice.id inv.id (fun i => { i with state := .paid }) db.invoices
        payments := db.payments ++ [payment] } := by
    intro payment hid hpaid hstate
    refine ⟨h.ids, h.referred, table.nodup_append h.payments (hid ▸ nextId_not_mem _), fun p hp => ?_,
      fun i hi => ?_, h.stamped, fun r hr hstatus min hmin => ?_, h.rows, h.free, h.kinds⟩
    · obtain hp | hp := List.mem_append.mp hp
      · exact h.micro p hp
      · rw [List.mem_singleton.mp hp, hpaid]
        exact hmicro
    · obtain ⟨j, hj, rfl⟩ := List.mem_map.mp hi
      split <;> exact h.invoices j hj
    · have hcovered := h.covered r hr hstatus min hmin
      have hstake : payment.stake r.referred_chat_id = 0 := if_neg (by simp [hstate])
      simp only [atStake, List.map_append, List.map_singleton, List.sum_append, List.sum_singleton,
        hstake, add_zero]
      exact hcovered
  have hprefixed := prefix_of_append "stars:" sp.charge_id
  exact ((hpayment _ rfl rfl rfl).aside
    (.insert hinsert ⟨⟨_, by simp [otherKeys], hprefixed⟩, by simp, fun _ => hmicro⟩)).aside (.move _ _ _ _)

/-- A refund that would leave a reward without its top-up takes the reward back with it. -/
theorem dependency_covers (h : Invites db) {c refund : Int} (hno : inviteDependency db c refund = false)
    {r : Referral} (hr : r ∈ db.referrals) (hstatus : r.status = .rewarded)
    (hreferred : r.referred_chat_id = c) {min : Int} (hmin : min ∈ r.min_topup_micro_usd) :
    min ≤ toppedUpMicro db c - refund := by
  unfold inviteDependency at hno
  split at hno
  · rename_i hnone
    have hfalse := List.find?_eq_none.mp hnone r hr
    simp [hstatus, hreferred] at hfalse
  · rename_i x hfind
    obtain ⟨hx, -⟩ : x.referred_chat_id = c ∧ x.status = .rewarded := by
      simpa using List.find?_some hfind
    obtain rfl := List.inj_on_of_nodup_map h.referred (List.mem_of_find?_eq_some hfind) hr
      (hx.trans hreferred.symm)
    simpa only [show x.min_topup_micro_usd = some min from hmin, decide_eq_false_iff_not, not_lt]
      using hno

theorem refundKey_prefixed (charge : String) (n : Nat) :
    "stars-refund:".toList <+: (refundKey charge n).toList := by
  rw [refundKey, String.append_assoc, String.append_assoc]
  exact prefix_of_append _ _

theorem invites_beginRefund {paymentId : Nat} {clawback resumed : Bool} {now : Int} (h : Invites db)
    (hop : beginRefund db paymentId clawback now = .ok (db', resumed)) : Invites db' := by
  unfold beginRefund at hop
  split at hop
  · cases hop
  rename_i p hp
  obtain ⟨hmem, rfl⟩ := table.find_spec hp
  split at hop
  · cases hop
  split at hop
  · cases hop
    exact h
  rename_i hpending
  simp only at hop
  split at hop
  · cases hop
  rename_i hdep
  split at hop
  · cases hop
  split at hop
  · cases hop
  obtain ⟨db₁, hinsert, hop⟩ := run.bind_eq_ok.mp hop
  cases hop
  let begin (q : Payment) : Payment :=
    { q with refund_state := some .pending
             refund_clawback := inviteDependency db p.chat_id p.micro_usd && clawback }
  let row : LedgerRow :=
    { chat_id := p.chat_id, delta_micro_usd := -p.micro_usd, kind := .adjust
      idem_key := refundKey p.charge_id (refundAttempts db p.charge_id + 1), created_at := now }
  rw [insertLedger_ok hinsert]
  refine h.refund hp begin (fun p => ⟨rfl, rfl, rfl⟩) [row] (fun l hl => ?_) (by simp [row]) rfl rfl rfl rfl
    fun r hr hstatus hreferred min hmin => ?_
  · rw [List.mem_singleton.mp hl]
    exact ⟨rfl, refundKey_prefixed _ _⟩
  · have hold : p.stake p.chat_id = 0 := if_neg fun hstake => hpending hstake.2.1
    have hrow : ([row].map LedgerRow.delta_micro_usd).sum = -p.micro_usd := by simp [row]
    have hstakes := stake_nonneg h.micro p.chat_id
    rw [hold, hrow]
    cases hno : inviteDependency db p.chat_id p.micro_usd with
    | false =>
      have hcovers := dependency_covers h hno hr hstatus hreferred hmin
      have hnew : 0 ≤ (begin p).stake p.chat_id := by
        rw [Payment.stake]
        split
        · exact h.micro p hmem
        · exact le_rfl
      omega
    | true =>
      have hclawback : clawback = true := by simpa [hno] using hdep
      have hcovered := h.covered r hr hstatus min hmin
      have hnew : (begin p).stake p.chat_id = p.micro_usd :=
        if_pos ⟨rfl, rfl, by simp [begin, hno, hclawback]⟩
      rw [hreferred] at hcovered
      omega

theorem invites_undoRefund {paymentId : Nat} {now : Int} {out : Option Int} (h : Invites db)
    (hop : undoRefund db paymentId now = .ok (db', out)) : Invites db' := by
  unfold undoRefund at hop
  split at hop
  · cases hop
    exact h
  rename_i p hp
  obtain ⟨hmem, rfl⟩ := table.find_spec hp
  split at hop
  · cases hop
    exact h
  obtain ⟨db₁, hinsert, hop⟩ := run.bind_eq_ok.mp hop
  cases hop
  let row : LedgerRow :=
    { chat_id := p.chat_id, delta_micro_usd := p.micro_usd, kind := .adjust
      idem_key := refundKey p.charge_id (refundAttempts db p.charge_id) ++ ":undo", created_at := now }
  rw [insertLedger_ok hinsert]
  refine h.refund hp (fun q => { q with refund_state := none, refund_clawback := false })
    (fun p => ⟨rfl, rfl, rfl⟩) [row] (fun l hl => ?_) (by simp [row]) rfl rfl rfl rfl
    fun r hr hstatus hreferred min hmin => ?_
  · rw [List.mem_singleton.mp hl]
    refine ⟨rfl, (refundKey_prefixed p.charge_id (refundAttempts db p.charge_id)).trans ?_⟩
    exact prefix_of_append _ _
  · have hcovered := h.covered r hr hstatus min hmin
    have hrow : ([row].map LedgerRow.delta_micro_usd).sum = p.micro_usd := by simp [row]
    have hle : p.stake p.chat_id ≤ p.micro_usd := by
      rw [Payment.stake]
      split
      · exact le_rfl
      · exact h.micro p hmem
    have hnew : ({ p with refund_state := none, refund_clawback := false } : Payment).stake p.chat_id =
        0 := if_neg fun hstake => by cases hstake.2.1
    rw [hreferred] at hcovered
    omega

/-- A refund is done whose reward, if one was to be taken back, has been. -/
theorem Invites.finish (h : Invites db) {p : Payment} (hp : db.payment p.id = some p)
    (hno : p.refund_clawback = false ∨
      ∀ r ∈ db.referrals, r.status = .rewarded → r.referred_chat_id ≠ p.chat_id) :
    Invites (db.setPayment p.id fun p => { p with refund_state := some .done, refunded := true }) := by
  refine h.refund hp (fun p => { p with refund_state := some .done, refunded := true })
    (fun p => ⟨rfl, rfl, rfl⟩) [] (by simp) (by simp) rfl rfl rfl (List.append_nil _).symm
    fun r hr hstatus hreferred min hmin => ?_
  have hclawback := hno.resolve_right fun hnone => hnone r hr hstatus hreferred
  have hcovered := h.covered r hr hstatus min hmin
  have hold : p.stake p.chat_id = 0 := if_neg fun hstake => by simp [hclawback] at hstake
  have hnew : ({ p with refund_state := some .done, refunded := true } : Payment).stake p.chat_id =
      0 := if_neg fun hstake => by cases hstake.2.1
  rw [hreferred] at hcovered
  rw [hold, hnew, List.map_nil, List.sum_nil]
  omega

theorem invites_finishRefund {paymentId : Nat} {now : Int} {out : Option Int} (h : Invites db)
    (hop : finishRefund db paymentId now = .ok (db', out)) : Invites db' := by
  unfold finishRefund at hop
  split at hop
  · cases hop
    exact h
  rename_i p hp
  obtain ⟨hmem, rfl⟩ := table.find_spec hp
  split at hop
  · cases hop
    exact h
  simp only at hop
  split at hop
  · rename_i hclawback
    cases hop
    exact h.finish hp (.inl hclawback)
  split at hop
  · rename_i hnone
    cases hop
    refine h.finish hp (.inr fun r hr hstatus hreferred => ?_)
    have hfalse := List.find?_eq_none.mp hnone r hr
    simp [hstatus, hreferred] at hfalse
  rename_i ref hfind
  have href : ref ∈ db.referrals := List.mem_of_find?_eq_some hfind
  obtain ⟨hreferred, hstatus⟩ : ref.referred_chat_id = p.chat_id ∧ ref.status = .rewarded := by
    simpa using List.find?_some hfind
  obtain ⟨reward, hreward, hpositive⟩ := (h.stamped ref href).2 hstatus
  have hreward : ref.reward_micro_usd = some reward := hreward
  split at hop
  · rename_i hnone
    simp [hreward, Option.filter, hpositive] at hnone
  rename_i reward' hfilter
  obtain rfl : reward = reward' := by simpa [hreward, Option.filter, hpositive] using hfilter
  obtain ⟨db₁, hinsert, hop⟩ := run.bind_eq_ok.mp hop
  cases hop
  let row : LedgerRow :=
    { chat_id := ref.referrer_chat_id, delta_micro_usd := -reward, kind := .referral
      idem_key := "referral-clawback:" ++ toString p.chat_id, created_at := now }
  have hkey : row.idem_key = clawbackKey ref.referred_chat_id := by
    rw [hreferred]
    rfl
  obtain ⟨hrewards, hclawbacks⟩ := h.rows ref href
  -- the invite is made void first, and then no reward depends on the payment
  have hvoid : Invites ({ db.move ref.referrer_chat_id (-reward) 0 with
      ledger := db.ledger ++ [row] }.setReferral ref.id fun r => { r with status := .void }) := by
    refine h.change href (fun r => { r with status := .void }) (fun r => ⟨rfl, rfl⟩) [row]
      (fun l hl => ?_) rfl rfl rfl rfl ⟨fun hs => (by cases hs), fun hs => (by cases hs)⟩
      (fun hs => by cases hs) ?_ ?_
    · rw [List.mem_singleton.mp hl]
      exact ⟨rfl, .inr hkey⟩
    · rw [rows_insert db row rfl, hrewards, hkey, if_neg (rewardKey_ne_clawbackKey _ _).symm,
        List.append_nil]
      rfl
    · rw [rows_insert db row rfl, hclawbacks, if_pos hkey, Referral.clawbackRows, hstatus,
        Referral.clawbackRows, hreward]
      rfl
  rw [insertLedger_ok hinsert]
  refine hvoid.finish hp (.inr fun r hr hstatus' hreferred' => ?_)
  obtain rfl | ⟨hr, hne⟩ := table.mem_update h.ids href hr
  · cases hstatus'
  · exact hne (by rw [List.inj_on_of_nodup_map h.referred hr href (hreferred'.trans hreferred.symm)])

theorem Aside.insertNew (db : Db) {row : LedgerRow} (hrow : Plain row) : Aside db (db.insertNew row) := by
  unfold Db.insertNew
  split
  · rename_i hinsert
    exact .insert hinsert hrow
  · exact .refl db

theorem plain_wpcnRow (chatId : Int) (txhash : String) (micro : Nat) (now : Int) (log : Nat × Nat) :
    Plain (wpcnRow chatId txhash micro now log) := by
  refine ⟨⟨"wpcn:", by simp [otherKeys], ?_⟩, by simp [wpcnRow], fun _ => ?_⟩
  · rw [wpcnRow, String.append_assoc, String.append_assoc]
    exact prefix_of_append _ _
  · rw [wpcnRow]
    split
    · exact Int.natCast_nonneg micro
    · exact le_rfl

theorem aside_creditWpcn (db : Db) (chatId : Int) (txhash : String) (taken : List Nat) (micro : Nat)
    (now : Int) : Aside db (creditWpcn db chatId txhash taken micro now) := by
  have hfold : ∀ (rows : List LedgerRow), (∀ l ∈ rows, Plain l) → ∀ db : Db,
      Aside db (rows.foldl Db.insertNew db) := by
    intro rows hrows
    induction rows with
    | nil => exact Aside.refl
    | cons row rows ih =>
      intro db
      exact (Aside.insertNew db (hrows row List.mem_cons_self)).trans
        (ih (fun l hl => hrows l (List.mem_cons_of_mem _ hl)) _)
  unfold creditWpcn
  split
  · exact .refl db
  · have hrows := hfold (taken.zipIdx.map (wpcnRow chatId txhash micro now)) (fun l hl => by
      obtain ⟨log, -, rfl⟩ := List.mem_map.mp hl
      exact plain_wpcnRow _ _ _ _ _) db
    dsimp only
    split
    · exact hrows.trans (.move _ _ _ _)
    · exact hrows

theorem aside_adminCredit (db : Db) (chatId amount : Int) (requestId : String) (now : Int) :
    Aside db (adminCredit db chatId amount requestId now) := by
  unfold adminCredit
  split
  · exact .refl db
  · split
    · rename_i hinsert
      exact (Aside.insert hinsert
        ⟨⟨_, by simp [otherKeys], prefix_of_append _ _⟩, by simp, by simp⟩).trans (.move _ _ _ _)
    · exact .refl db

theorem usdMicro_nonneg {p : Package} (h : p.Offered) : 0 ≤ usdMicro p.usd := by
  have hfloor : 0 ≤ ⌊p.usd * 100 + 1 / 2⌋ := by
    have hle := h.1
    exact Int.floor_nonneg.mpr (by linarith)
  exact mul_nonneg hfloor (by decide)

theorem invites_immediate {α : Type} {r : Except Fault (Db × α)} (h : Invites db)
    (hop : ∀ db' out, r = .ok (db', out) → Invites db') : Invites (immediate db r) := by
  cases r with
  | error => exact h
  | ok p => exact hop p.1 p.2 rfl

theorem invites_act {a : Act} (h : Invites db) (hpriced : Priced db a) (hstep : act db a = some db') :
    Invites db' := by
  cases a with
  | creditWpcn =>
    obtain rfl := Option.some.inj hstep
    exact h.aside (aside_creditWpcn _ _ _ _ _ _)
  | adminCredit =>
    obtain rfl := Option.some.inj hstep
    exact h.aside (aside_adminCredit _ _ _ _ _)
  | op op =>
    cases op with
    | reserve =>
      obtain rfl := Option.some.inj hstep
      exact invites_immediate h fun _ _ hop => h.aside (aside_reserve hop)
    | settle =>
      obtain rfl := Option.some.inj hstep
      exact invites_immediate h fun _ _ hop => h.aside (aside_settle hop)
    | release =>
      obtain rfl := Option.some.inj hstep
      exact invites_immediate h fun _ _ hop => h.aside (aside_release hop)
    | hold =>
      obtain rfl := Option.some.inj hstep
      exact h.aside (aside_hold _ _)
    | ageOut =>
      obtain rfl := Option.some.inj hstep
      exact h.aside (aside_ageOut _ _)
    | ageOutReservations =>
      obtain rfl := Option.some.inj hstep
      exact h.aside (aside_ageOutReservations _ _ _)
    | creditDeposit id rate minDepositSat now rebate =>
      obtain rfl := Option.some.inj hstep
      exact invites_immediate h fun _ _ hop =>
        h.aside (aside_creditDeposit (c := ⟨id, rate, minDepositSat, now, rebate⟩) hop)
    | openAccount =>
      obtain rfl := Option.some.inj hstep
      exact invites_openAccount h _ _ _ _ _
    | payInviteReward =>
      obtain rfl := Option.some.inj hstep
      exact invites_immediate h fun _ _ hop => invites_payInviteReward h hop
    | creditStarsPayment =>
      obtain rfl := Option.some.inj hstep
      exact invites_immediate h fun _ _ hop => invites_creditStarsPayment h hop
    | beginRefund =>
      obtain rfl := Option.some.inj hstep
      exact invites_immediate h fun _ _ hop => invites_beginRefund h hop
    | finishRefund =>
      obtain rfl := Option.some.inj hstep
      exact invites_immediate h fun _ _ hop => invites_finishRefund h hop
    | undoRefund =>
      obtain rfl := Option.some.inj hstep
      exact invites_immediate h fun _ _ hop => invites_undoRefund h hop
    | others deposits addresses invoices jobs items =>
      obtain rfl := Option.some.inj hstep
      refine ⟨h.ids, h.referred, h.payments, h.micro, fun i hi => ?_, h.stamped, h.covered, h.rows,
        h.free, h.kinds⟩
      obtain ⟨p, hp, -, hmicro⟩ := hpriced i hi
      rw [hmicro]
      exact usdMicro_nonneg hp

theorem invites_empty : Invites {} := by
  refine ⟨List.nodup_nil, List.nodup_nil, List.nodup_nil, ?_, ?_, ?_, ?_, ?_, fun c _ => ⟨rfl, rfl⟩, ?_⟩
  all_goals simp

end

/-- A reward that has been paid stands on a top-up, and there is one ledger row for each reward that
has been paid, with one beside it when it has been taken back. -/
structure Backed (db : Db) : Prop where
  topup : ∀ r ∈ db.referrals, r.status = .rewarded →
    (∀ p ∈ db.payments, p.chat_id = r.referred_chat_id → p.refund_state ≠ some .pending) →
    ∀ min ∈ r.min_topup_micro_usd, min ≤ toppedUpMicro db r.referred_chat_id
  rewarded : ∀ r ∈ db.referrals, r.status = .rewarded → ∃ reward, 0 < reward ∧
    r.reward_micro_usd = some reward ∧
    db.rows (rewardKey r.referred_chat_id) = [(r.referrer_chat_id, reward)] ∧
    db.rows (clawbackKey r.referred_chat_id) = []
  taken : ∀ r ∈ db.referrals, r.status = .void → ∀ reward ∈ r.reward_micro_usd,
    db.rows (rewardKey r.referred_chat_id) = [(r.referrer_chat_id, reward)] ∧
    db.rows (clawbackKey r.referred_chat_id) = [(r.referrer_chat_id, -reward)]
  unpaid : ∀ c, (∀ r ∈ db.referrals, r.referred_chat_id = c → r.reward_micro_usd = none) →
    db.rows (rewardKey c) = [] ∧ db.rows (clawbackKey c) = []
  kinds : ∀ l ∈ db.ledger, l.kind = .referral →
    ∃ c, l.idem_key = rewardKey c ∨ l.idem_key = clawbackKey c

theorem Invites.backed {db : Db} (h : Invites db) : Backed db := by
  refine ⟨fun r hr hstatus hpending min hmin => ?_, fun r hr hstatus => ?_,
    fun r hr hstatus reward hreward => ?_, fun c hc => ?_, h.kinds⟩
  · have hcovered := h.covered r hr hstatus min hmin
    have hzero : atStake r.referred_chat_id db.payments = 0 := by
      refine List.sum_eq_zero fun n hn => ?_
      obtain ⟨p, hp, rfl⟩ := List.mem_map.mp hn
      exact if_neg fun hstake => hpending p hp hstake.1 hstake.2.1
    omega
  · obtain ⟨reward, hreward, hpositive⟩ := (h.stamped r hr).2 hstatus
    have hreward : r.reward_micro_usd = some reward := hreward
    obtain ⟨hrewards, hclawbacks⟩ := h.rows r hr
    refine ⟨reward, hpositive, hreward, ?_, ?_⟩
    · rw [hrewards, Referral.rewardRows, hreward]
      rfl
    · rw [hclawbacks, Referral.clawbackRows, hstatus]
      rfl
  · have hreward : r.reward_micro_usd = some reward := hreward
    obtain ⟨hrewards, hclawbacks⟩ := h.rows r hr
    constructor
    · rw [hrewards, Referral.rewardRows, hreward]
      rfl
    · rw [hclawbacks, Referral.clawbackRows, if_pos hstatus, hreward]
      rfl
  · by_cases hmem : c ∈ db.referrals.map Referral.referred_chat_id
    · obtain ⟨r, hr, rfl⟩ := List.mem_map.mp hmem
      have hnone := hc r hr rfl
      obtain ⟨hrewards, hclawbacks⟩ := h.rows r hr
      rw [hrewards, hclawbacks, Referral.rewardRows, Referral.clawbackRows, hnone]
      simp
    · exact h.free c hmem

/-- An invite reward always stands on real money. -/
theorem rewards_backed {db : Db} (hrun : run.Steps act Priced {} db) : Backed db :=
  (hrun.invariant (fun _ _ _ h hpriced hstep => invites_act h hpriced hstep) invites_empty).backed

/-- An invited person tops up $5 in Stars and makes a video for $1; the inviter is paid $2 under a
minimum of $5. A refund of the Stars is refused. -/
def invited : List Act :=
  [.op (.openAccount 1 0 0 none 100), .op (.openAccount 7 0 0 (some 1) 101),
   .op (.others [] [] [⟨1, 7, "inv-1", 250, 5000000, .pending⟩] [] []),
   .op (.creditStarsPayment 7 ⟨"ch", "inv-1", "XTR", 250⟩ 102),
   .op (.reserve 7 (some 5) none 1000000 false 103), .op (.settle 1 1000000 104),
   .op (.others [] [] [] [⟨1, 1, false⟩] [⟨1, some 1⟩]),
   .op (.payInviteReward 7 (some 1) 2000000 5000000 true 105),
   .adminCredit 7 1000000 "request-1" 106, .op (.beginRefund 1 false 107)]

theorem priced_invited : ∀ a ∈ invited, ∀ db, Priced db a := by
  have hpackage : (⟨5, 250⟩ : Package).Offered ∧ usdMicro 5 = 5000000 := by
    norm_num [Package.Offered, usdMicro]
  intro a ha db
  simp only [invited, List.mem_cons, List.not_mem_nil, or_false] at ha
  obtain rfl | rfl | rfl | rfl | rfl | rfl | rfl | rfl | rfl | rfl := ha
  · trivial
  · trivial
  · intro i hi
    rw [List.mem_singleton.mp hi]
    exact ⟨⟨5, 250⟩, hpackage.1, rfl, hpackage.2.symm⟩
  · trivial
  · trivial
  · trivial
  · intro i hi
    cases hi
  · trivial
  · trivial
  · trivial

theorem rewards_backed_invited :
    ∃ db, run.exec act {} invited = some db ∧ db.referrals.map Referral.status = [.rewarded] ∧
      db.payments.map Payment.refund_state = [none] ∧ toppedUpMicro db 7 = 5000000 ∧ Backed db := by
  have hrun : (run.exec act {} invited).map (fun db => (db.referrals.map Referral.status,
      db.payments.map Payment.refund_state, toppedUpMicro db 7)) =
      some ([.rewarded], [none], 5000000) := by
    decide +kernel
  obtain ⟨db, hexec, hdb⟩ := Option.map_eq_some_iff.mp hrun
  obtain ⟨hstatus, hrefund, htopped⟩ : db.referrals.map Referral.status = [.rewarded] ∧
      db.payments.map Payment.refund_state = [none] ∧ toppedUpMicro db 7 = 5000000 := by
    simpa using hdb
  refine ⟨db, hexec, hstatus, hrefund, htopped, rewards_backed ?_⟩
  exact run.steps_of_exec invited hexec (run.meets_of_forall {} invited priced_invited)

end pcoin.bot
