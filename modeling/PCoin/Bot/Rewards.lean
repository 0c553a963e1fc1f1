import PCoin.Bot.Billing
import Mathlib.Algebra.BigOperators.Group.List.Basic

namespace pcoin.bot

/-- `giftsToday`. -/
def giftsToday (db : Db) (now : Int) : Int :=
  (db.ledger.map fun l =>
    if l.kind = .gift ∧ now - now % 86400 ≤ l.created_at then l.delta_micro_usd else 0).sum

inductive Invite
  | recorded
  | self
  | noReferrer
  | taken
deriving DecidableEq

structure Opened where
  created : Bool
  giftMicro : Int := 0
  capped : Bool := false
  invite : Option Invite := none
deriving DecidableEq

/-- The invite that an update which creates an account records. -/
def recordInvite (db : Db) (chatId : Int) : Option Int → Db × Option Invite
  | none => (db, none)
  | some invitedBy =>
    if invitedBy = chatId then (db, some .self)
    else if db.user invitedBy = none then (db, some .noReferrer)
    else if chatId ∈ db.referrals.map Referral.referred_chat_id then (db, some .taken)
    else
      let row := { id := nextId (db.referrals.map Referral.id), referrer_chat_id := invitedBy,
                   referred_chat_id := chatId, status := .pending }
      ({ db with referrals := db.referrals ++ [row] }, some .recorded)

/-- The welcome gift, unless its key is taken: `ON CONFLICT (idem_key) DO NOTHING`. -/
def giveGift (db : Db) (chatId gift now : Int) : Db × Int :=
  if 0 < gift then
    match db.insertLedger
        { chat_id := chatId, delta_micro_usd := gift, kind := .gift,
          idem_key := "welcome:" ++ toString chatId, created_at := now } with
    | .ok db => (db.move chatId gift 0, gift)
    | .error _ => (db, 0)
  else (db, 0)

/-- `openAccount`. -/
def openAccount (db : Db) (chatId giftMicro giftCapMicro : Int) (invitedBy : Option Int)
    (now : Int) : Db × Opened :=
  if (db.user chatId).isSome then (db, { created := false }) else
  let db := { db with users := db.users ++ [{ chat_id := chatId }] }
  let capped : Bool :=
    0 < giftMicro && 0 < giftCapMicro && giftCapMicro < giftsToday db now + giftMicro
  let gift := if capped then 0 else giftMicro
  let (db, gave) := giveGift db chatId gift now
  let (db, invite) := recordInvite db chatId invitedBy
  (db, { created := true, giftMicro := gave, capped := capped, invite := invite })

def refundPattern : List Char := "stars-refund:%".toList

/-- `toppedUpMicro`: deposits minus refunds. -/
def toppedUpMicro (db : Db) (chatId : Int) : Int :=
  (db.ledger.map fun l =>
    if l.chat_id = chatId ∧ (l.kind ∈ [.deposit_pcn, .deposit_wpcn, .deposit_stars] ∨
        like refundPattern l.idem_key.toList) then l.delta_micro_usd else 0).sum

/-- `itemChargedMicro`, through the item's job and the reservation of the job. -/
def itemChargedMicro (db : Db) (itemId : Option Nat) : Int :=
  let charged : Option Int := do
    let id ← itemId
    let i ← table.find Item.id id db.items
    let jobId ← i.job_id
    let j ← table.find Job.id jobId db.jobs
    let r ← db.reservation j.reservation_id
    let l ← db.ledger.find? fun l : LedgerRow => l.kind = .ai_turn && l.idem_key = r.idem
    return -l.delta_micro_usd
  charged.getD 0

inductive Paid
  | off
  | none
  | self
  | referrerGone
  | notToppedUp
  | unpaidVideo
  | paid (referrerId micro : Int)
deriving DecidableEq

def Db.setReferral (db : Db) (id : Nat) (f : Referral → Referral) : Db :=
  { db with referrals := table.update Referral.id id f db.referrals }

/-- `payInviteReward`. -/
def payInviteReward (db : Db) (referredId : Int) (itemId : Option Nat)
    (rewardMicro minTopupMicro : Int) (enabled : Bool) (now : Int) : Except Fault (Db × Paid) :=
  if !enabled || rewardMicro ≤ 0 then .ok (db, .off) else
  match db.referrals.find? fun r => r.referred_chat_id = referredId && r.status = .pending with
  | .none => .ok (db, .none)
  | some ref =>
    if ref.referrer_chat_id = referredId then
      .ok (db.setReferral ref.id fun r => { r with status := .void }, .self)
    else if db.user ref.referrer_chat_id = .none then
      .ok (db.setReferral ref.id fun r => { r with status := .void }, .referrerGone)
    else if toppedUpMicro db referredId < minTopupMicro then .ok (db, .notToppedUp)
    else if itemChargedMicro db itemId ≤ 0 then .ok (db, .unpaidVideo)
    else do
      let db := db.setReferral ref.id fun r =>
        { r with status := .rewarded, reward_micro_usd := some rewardMicro,
                 min_topup_micro_usd := some minTopupMicro }
      let db ← db.insertLedger
        { chat_id := ref.referrer_chat_id, delta_micro_usd := rewardMicro, kind := .referral,
          idem_key := "referral:" ++ toString referredId, created_at := now }
      return (db.move ref.referrer_chat_id rewardMicro 0, .paid ref.referrer_chat_id rewardMicro)

/-- `successful_payment` as Telegram reports it. -/
structure SuccessfulPayment where
  charge_id : String
  invoice_payload : String
  currency : String
  total_amount : Int
deriving DecidableEq

inductive StarsCredit
  | credited (micro stars : Int)
  | duplicate
  | refused
deriving DecidableEq

/-- `creditStarsPayment`. -/
def creditStarsPayment (db : Db) (chatId : Int) (sp : SuccessfulPayment) (now : Int) :
    Except Fault (Db × StarsCredit) :=
  if sp.charge_id = "" then .ok (db, .refused)
  else if (db.payments.find? fun p => p.charge_id = sp.charge_id).isSome then .ok (db, .duplicate)
  else match db.invoices.find? fun i => i.payload = sp.invoice_payload with
    | none => .ok (db, .refused)
    | some inv =>
      if inv.chat_id ≠ chatId then .ok (db, .refused)
      else if sp.currency ≠ "XTR" ∨ sp.total_amount ≠ inv.stars then .ok (db, .refused)
      else if db.user chatId = none then .ok (db, .refused)
      else do
        let payment : Payment :=
          { id := nextId (db.payments.map Payment.id), chat_id := chatId, invoice_id := inv.id,
            charge_id := sp.charge_id, stars := inv.stars, micro_usd := inv.micro_usd }
        let db := { db with
          invoices := table.update Invoice.id inv.id (fun i => { i with state := .paid }) db.invoices
          payments := db.payments ++ [payment] }
        let db ← db.insertLedger
          { chat_id := chatId, delta_micro_usd := inv.micro_usd, kind := .deposit_stars,
            idem_key := "stars:" ++ sp.charge_id, created_at := now }
        return (db.move chatId inv.micro_usd 0, .credited inv.micro_usd inv.stars)

def Db.payment (db : Db) (id : Nat) : Option Payment := table.find Payment.id id db.payments

def Db.setPayment (db : Db) (id : Nat) (f : Payment → Payment) : Db :=
  { db with payments := table.update Payment.id id f db.payments }

/-- `inviteDependency`: an invite reward that the refund would leave without its top-up. -/
def inviteDependency (db : Db) (chatId refundMicro : Int) : Bool :=
  match db.referrals.find? fun r => r.referred_chat_id = chatId && r.status = .rewarded with
  | none => false
  | some ref =>
    match ref.min_topup_micro_usd with
    | none => true
    | some min => toppedUpMicro db chatId - refundMicro < min

/-- The refund attempts of a charge in the ledger. -/
def refundAttempts (db : Db) (chargeId : String) : Nat :=
  db.ledger.countP fun l =>
    like ("stars-refund:" ++ chargeId ++ ":%").toList l.idem_key.toList &&
      !like "%:undo".toList l.idem_key.toList

/-- The ledger key of an attempt. -/
def refundKey (chargeId : String) (attempt : Nat) : String :=
  "stars-refund:" ++ chargeId ++ ":" ++ toString attempt

/-- `beginRefund`: take the money off, and say whether this resumes an attempt. -/
def beginRefund (db : Db) (paymentId : Nat) (clawback : Bool) (now : Int) :
    Except Fault (Db × Bool) :=
  match db.payment paymentId with
  | none => .error .noPayment
  | some p =>
    if p.refund_state = some .done ∨ p.refunded = true then .error .alreadyRefunded
    else if p.refund_state = some .pending then .ok (db, true)
    else
      let dep := inviteDependency db p.chat_id p.micro_usd
      if dep && !clawback then .error .inviteReward else
      match db.user p.chat_id with
      | none => .error .spent
      | some u =>
        if u.balance_micro_usd < p.micro_usd then .error .spent else do
        let attempt := refundAttempts db p.charge_id + 1
        let db := db.move p.chat_id (-p.micro_usd) 0
        let db ← db.insertLedger
          { chat_id := p.chat_id, delta_micro_usd := -p.micro_usd, kind := .adjust,
            idem_key := refundKey p.charge_id attempt, created_at := now }
        return (db.setPayment p.id fun p =>
          { p with refund_state := some .pending, refund_clawback := dep && clawback }, false)

/-- `finishRefund`; what is taken back from the inviter. -/
def finishRefund (db : Db) (paymentId : Nat) (now : Int) : Except Fault (Db × Option Int) :=
  match db.payment paymentId with
  | none => .ok (db, none)
  | some p =>
    if p.refund_state ≠ some .pending then .ok (db, none) else
    let db := db.setPayment p.id fun p => { p with refund_state := some .done, refunded := true }
    if p.refund_clawback = false then .ok (db, none) else
    match db.referrals.find? fun r => r.referred_chat_id = p.chat_id && r.status = .rewarded with
    | none => .ok (db, none)
    | some ref =>
      -- NULL is not above zero
      match ref.reward_micro_usd.filter (0 < ·) with
      | none => .ok (db, none)
      | some reward => do
        let db ← db.insertLedger
          { chat_id := ref.referrer_chat_id, delta_micro_usd := -reward, kind := .referral,
            idem_key := "referral-clawback:" ++ toString p.chat_id, created_at := now }
        let db := db.move ref.referrer_chat_id (-reward) 0
        return (db.setReferral ref.id fun r => { r with status := .void }, some reward)

/-- `undoRefund`; what is put back. -/
def undoRefund (db : Db) (paymentId : Nat) (now : Int) : Except Fault (Db × Option Int) :=
  match db.payment paymentId with
  | none => .ok (db, none)
  | some p =>
    if p.refund_state ≠ some .pending then .ok (db, none) else do
    let db ← db.insertLedger
      { chat_id := p.chat_id, delta_micro_usd := p.micro_usd, kind := .adjust,
        idem_key := refundKey p.charge_id (refundAttempts db p.charge_id) ++ ":undo",
        created_at := now }
    let db := db.move p.chat_id p.micro_usd 0
    return (db.setPayment p.id fun p => { p with refund_state := none, refund_clawback := false },
      some p.micro_usd)

end pcoin.bot
