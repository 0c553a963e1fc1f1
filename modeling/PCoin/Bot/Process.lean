import PCoin.Bot.Studio
import PCoin.Run.Basic

/-! The bot at work on its cards: its jobs, its polls and its crashes, and what the users see. -/

namespace pcoin.bot.studio

/-- What comes of a call to the provider; `unknown` is an error of the bucket `UNKNOWN`. -/
inductive Made
  | made (actual : Option Int)
  | fails (unknown : Bool)
deriving DecidableEq

/-- What comes of the call that starts a clip. -/
inductive Clip
  | named (remoteId : String)
  | unnamed
  | fails (unknown : Bool)
deriving DecidableEq

/-- What `getVideo` says of a clip. -/
inductive VideoReply
  | completed (actual : Option Int)
  | failed
  | unfinished
  | unreadable
deriving DecidableEq

def VIDEO_GIVE_UP_SEC : Int := 3 * 3600

/-- The bot: its database, the jobs and the poll that are under way, the cards being shown,
and, newest first, the prices that the users have seen on their cards. -/
structure Bot where
  disk : Studio := {}
  up : Bool := true
  working : List Begun := []
  polled : List MediaJob := []
  reading : Option (MediaJob × Proposal) := none
  edits : List (Nat × Int) := []
  seen : List (Nat × Int) := []
deriving DecidableEq

/-- The price that the user last saw on a card. -/
def lastSeen (seen : List (Nat × Int)) (proposalId : Nat) : Option Int :=
  (seen.find? (·.1 = proposalId)).map Prod.snd

namespace Bot

variable (b : Bot)

/-- The job that an answer of the provider is for. -/
def task (jobId : Nat) (kind : MediaKind) : Option Begun :=
  b.working.find? fun w => w.jobId = jobId && w.proposal.kind = kind

def finish (jobId : Nat) : Bot := { b with working := b.working.filter (·.jobId ≠ jobId) }

/-- The clip that the poll is reading, as `pollVideos` begins it. -/
def clip : Option Begun :=
  b.reading.map fun (j, p) => ⟨p, j.reservation_id, j.id⟩

end Bot

/-- What the bot does without a pause. -/
inductive Action
  | newCard (chatId : Int) (spec : Spec) (quote : Quote) (now ttlSec : Int)
  | cancel (chatId : Int) (proposalId : Nat)
  | expire (now : Int)
  | upload (chatId : Int)
  /-- A card is sent or edited, with the price that its row has now. -/
  | display (proposalId : Nat)
  | press (chatId : Int) (proposalId : Nat) (offer : Option (Option Quote)) (now : Int)
  | picture (jobId : Nat) (result : Made) (now : Int)
  | video (jobId : Nat) (result : Clip)
  | poll
  /-- The poll turns to its next clip. -/
  | read
  | answer (reply : VideoReply) (now : Int)
  | ageOut (olderThanMinutes now : Int)

/-- The databases that an action commits one after the other, and the bot after it. -/
def perform (b : Bot) : Action → Option (List Studio × Bot)
  | .newCard chatId spec quote now ttlSec =>
    some ([createProposal b.disk chatId spec quote now ttlSec], b)
  | .cancel chatId proposalId => some ([cancelProposal b.disk chatId proposalId], b)
  | .expire now => some ([expireCards b.disk now], b)
  | .upload chatId =>
    let item : StudioItem :=
      { id := nextId (b.disk.items.map StudioItem.id), chat_id := chatId, made := none }
    some ([{ b.disk with items := b.disk.items ++ [item] }], b)
  | .display proposalId => do
    let p ← b.disk.proposal proposalId
    return ([], { b with edits := b.edits ++ [(p.id, p.price_micro)] })
  | .press chatId proposalId offer now =>
    let (commits, pressed) := beginJob b.disk chatId proposalId offer now
    some (commits, match pressed with
      | .ok begun => { b with working := b.working ++ [begun] }
      | _ => b)
  | .picture jobId result now => do
    let w ← b.task jobId .image
    return (match result with
      | .made actual => deliver b.disk w .image actual now
      | .fails unknown => unwind b.disk w unknown, b.finish jobId)
  | .video jobId result => do
    let w ← b.task jobId .video
    return (match result with
      | .named remoteId => [b.disk.setJob jobId fun j => { j with remote_id := some remoteId }]
      | .unnamed => unwind b.disk w true
      | .fails unknown => unwind b.disk w unknown, b.finish jobId)
  | .poll => do
    -- one poll at a time
    guard (b.polled = [] ∧ b.reading = none)
    return ([], { b with polled := b.disk.media_jobs.filter fun j =>
      j.kind = .video && j.state = .running && j.remote_id.isSome })
  | .read => do
    guard (b.reading = none)
    let j ← b.polled.head?
    let p ← b.disk.proposal j.proposal_id
    return ([], { b with polled := b.polled.tail, reading := some (j, p) })
  | .answer reply now => do
    let (j, p) ← b.reading
    let w : Begun := ⟨p, j.reservation_id, j.id⟩
    let late : Bool := VIDEO_GIVE_UP_SEC < now - j.created_at
    return (match reply with
      | .completed actual => deliver b.disk w .video actual now
      | .failed => unwind b.disk w false
      | .unfinished | .unreadable => if late then unwind b.disk w true else [],
      { b with reading := none })
  | .ageOut olderThanMinutes now => some (ageOutAll b.disk olderThanMinutes now, b)

/-- The last of the databases that were committed. -/
def committed (s : Studio) (commits : List Studio) : Studio := commits.getLast?.getD s

/-- A ledger row that is not a bill, if there is one. -/
def enter (db : Db) : Option LedgerRow → Option Db
  | none => some db
  | some row => if row.kind = .ai_turn then none else (db.insertLedger row).toOption

inductive Event
  | act (a : Action)
  /-- The process dies in an action, after some of its transactions. -/
  | dies (a : Action) (done : Nat)
  | restarts (now : Int)
  /-- The process dies while it recovers. -/
  | diesAgain (now : Int) (done : Nat)
  /-- Telegram shows a card that was sent or edited; the cards may come in any order. -/
  | lands (n : Nat)
  /-- Anything else that is written to the books, by the bot or by its watcher. -/
  | others (users : List User) (row : Option LedgerRow)

def step (b : Bot) : Event → Option Bot
  | .act a => do
    guard b.up
    let (commits, b') ← perform b a
    return { b' with disk := committed b.disk commits }
  | .dies a done => do
    guard b.up
    let (commits, _) ← perform b a
    return { disk := committed b.disk (commits.take done), up := false, edits := b.edits,
             seen := b.seen }
  | .restarts now => do
    guard (b.up = false)
    return { b with disk := committed b.disk (restart b.disk now), up := true }
  | .diesAgain now done => do
    guard (b.up = false)
    return { b with disk := committed b.disk ((restart b.disk now).take done) }
  | .lands n => do
    let card ← b.edits[n]?
    return { b with seen := card :: b.seen, edits := b.edits.eraseIdx n }
  | .others users row => do
    let db ← enter { b.disk.db with users := users } row
    return { b with disk := { b.disk with db := db } }

/-- The key of the ledger row that bills a card. -/
def billKey (proposalId : Nat) : String := "turn:api:" ++ cardKey proposalId

/-- The reservations of a card. -/
def Studio.held (s : Studio) (p : Proposal) : List Reservation :=
  s.db.reservations.filter (·.req_key = some (cardKey p.id))

/-- The ledger rows that bill a card. -/
def Studio.bills (s : Studio) (p : Proposal) : List LedgerRow :=
  s.db.ledger.filter fun l => l.kind = .ai_turn && l.idem_key = billKey p.id

/-- A card is charged at most once, never above its button, and never for nothing. -/
structure Fair (b : Bot) : Prop where
  once : ∀ p ∈ b.disk.proposals, (b.disk.held p).length ≤ 1 ∧ (b.disk.bills p).length ≤ 1
  price : ∀ p ∈ b.disk.proposals, ∀ l ∈ b.disk.bills p,
    ∃ v ∈ lastSeen b.seen p.id, -l.delta_micro_usd ≤ v
  delivered : b.up = true → ∀ p ∈ b.disk.proposals, b.disk.bills p ≠ [] →
    ∃ i ∈ b.disk.items, i.proposal_id = some p.id

/-- A card for which a job has been started. -/
def CardState.begun : CardState → Bool
  | .started | .done | .failed => true
  | _ => false

/-- The user has seen the price at which a press starts a job. -/
def Agreed (b : Bot) (proposalId : Nat) (offer : Option (Option Quote)) : Prop :=
  ∀ p ∈ b.disk.proposal proposalId, p.state = .opened →
    offer = some (some ⟨p.price_micro, p.api_model⟩) →
      ∃ v ∈ lastSeen b.seen p.id, p.price_micro ≤ v

/-- Nobody is charged a price that he has not seen: a press starts a job only at a price that the
card shows, and no card that has been started comes to show a lower one. And the process does not
die between the bill of a result and its item. -/
def Heeded (b : Bot) : Event → Prop
  | .act (.press _ proposalId offer _) => Agreed b proposalId offer
  | .dies (.press _ proposalId offer _) _ => Agreed b proposalId offer
  | .dies (.picture jobId (.made actual) _) 1 =>
    ∀ w ∈ b.task jobId .image, charge actual w.proposal.price_micro ≤ 0
  | .dies (.answer (.completed actual) _) 1 =>
    ∀ w ∈ b.clip, charge actual w.proposal.price_micro ≤ 0
  | .lands n => ∀ card ∈ b.edits[n]?, ∀ p ∈ b.disk.proposal card.1, p.state.begun →
    p.price_micro ≤ card.2
  | _ => True

instance (b : Bot) (proposalId : Nat) (offer : Option (Option Quote)) :
    Decidable (Agreed b proposalId offer) :=
  inferInstanceAs (Decidable (∀ p ∈ b.disk.proposal proposalId, p.state = .opened →
    offer = some (some ⟨p.price_micro, p.api_model⟩) → ∃ v ∈ lastSeen b.seen p.id, p.price_micro ≤ v))

instance (b : Bot) (e : Event) : Decidable (Heeded b e) := by
  unfold Heeded
  split <;> infer_instance

end pcoin.bot.studio
