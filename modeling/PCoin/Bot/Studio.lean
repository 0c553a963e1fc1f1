import PCoin.Bot.Billing

/-! The cards of the studio and its jobs, transaction by transaction. -/

namespace pcoin.bot.studio

inductive MediaKind
  | image
  | video
deriving DecidableEq

inductive CardState
  | opened
  | started
  | done
  | failed
  | cancelled
  | replaced
  | expired
deriving DecidableEq

/-- A row of `proposals`; `sources` is the list in its JSON column. -/
structure Proposal where
  id : Nat
  chat_id : Int
  kind : MediaKind
  model : String
  api_model : String
  sources : List Nat := []
  price_micro : Int
  state : CardState
  expires_at : Int
deriving DecidableEq

inductive JobState
  | running
  | done
  | failed
  | unknown
deriving DecidableEq

/-- A row of `media_jobs` that a card has started. -/
structure MediaJob where
  id : Nat
  chat_id : Int
  kind : MediaKind
  model : String
  api_model : String
  reservation_id : Nat
  remote_id : Option String := none
  state : JobState
  proposal_id : Nat
  item_id : Option Nat := none
  created_at : Int
deriving DecidableEq

/-- A row of `items`; `made` is none for an upload. -/
structure StudioItem where
  id : Nat
  chat_id : Int
  made : Option MediaKind
  job_id : Option Nat := none
  proposal_id : Option Nat := none
deriving DecidableEq

structure Studio where
  db : Db := {}
  proposals : List Proposal := []
  media_jobs : List MediaJob := []
  items : List StudioItem := []
deriving DecidableEq

namespace Studio

variable (s : Studio)

def proposal (id : Nat) : Option Proposal := table.find Proposal.id id s.proposals

def setProposal (id : Nat) (f : Proposal → Proposal) : Studio :=
  { s with proposals := table.update Proposal.id id f s.proposals }

def setJob (id : Nat) (f : MediaJob → MediaJob) : Studio :=
  { s with media_jobs := table.update MediaJob.id id f s.media_jobs }

def item (id : Nat) : Option StudioItem := table.find StudioItem.id id s.items

/-- The database as the billing functions read it. -/
def books : Db :=
  { s.db with jobs := s.media_jobs.map fun j => ⟨j.id, j.reservation_id, j.state = .running⟩ }

end Studio

/-- What is asked for. -/
structure Spec where
  kind : MediaKind
  model : String
  sources : List Nat := []
deriving DecidableEq

/-- What `quoteSpec` returns. -/
structure Quote where
  priceMicro : Int
  apiModel : String
deriving DecidableEq

/-- `createProposal`. -/
def createProposal (s : Studio) (chatId : Int) (spec : Spec) (quote : Quote) (now ttlSec : Int) :
    Studio :=
  let replace (p : Proposal) : Proposal :=
    if p.chat_id = chatId ∧ p.state = .opened then { p with state := .replaced } else p
  let card : Proposal :=
    { id := nextId (s.proposals.map Proposal.id), chat_id := chatId, kind := spec.kind,
      model := spec.model, api_model := quote.apiModel, sources := spec.sources,
      price_micro := quote.priceMicro, state := .opened, expires_at := now + ttlSec }
  { s with proposals := s.proposals.map replace ++ [card] }

/-- `cancelProposal`. -/
def cancelProposal (s : Studio) (chatId : Int) (proposalId : Nat) : Studio :=
  s.setProposal proposalId fun p =>
    if p.chat_id = chatId ∧ p.state = .opened then { p with state := .cancelled } else p

/-- `expireCards`. -/
def expireCards (s : Studio) (now : Int) : Studio :=
  let expire (p : Proposal) : Proposal :=
    if p.state = .opened ∧ p.expires_at < now then { p with state := .expired } else p
  { s with proposals := s.proposals.map expire }

/-- The `req_key` of a card's reservation. -/
def cardKey (proposalId : Nat) : String := "proposal:" ++ toString proposalId

/-- A job that has been begun. -/
structure Begun where
  proposal : Proposal
  reservationId : Nat
  jobId : Nat
deriving DecidableEq

inductive Refusal
  | gone
  | closed (state : CardState)
  | unavailable
  | sources
  | busy (kind : MediaKind)
  | raced
deriving DecidableEq

/-- What `beginJob` returns, or the fault that it throws. -/
inductive Pressed
  | ok (begun : Begun)
  | repriced (priceMicro : Int)
  | short (needMicro haveMicro : Int)
  | refused (why : Refusal)
  | thrown (fault : Fault)
deriving DecidableEq

/-- The end of `beginJob`: the card is started, its price reserved, the job entered. -/
def startJob (s : Studio) (p : Proposal) (now : Int) : List Studio × Pressed :=
  let started := s.setProposal p.id fun p => { p with state := .started }
  match reserve started.books p.chat_id none (some (cardKey p.id)) p.price_micro false now with
  | .error fault =>
    let newer := started.proposals.any fun q =>
      q.chat_id = p.chat_id && q.state = .opened && p.id < q.id
    let back := started.setProposal p.id fun p =>
      { p with state := if newer then .replaced else .opened }
    ([started, back], match fault with
      | .insufficientFunds _ available => .short p.price_micro available
      | fault => .thrown fault)
  | .ok (db, resv) =>
    let reserved := { started with db := db }
    if resv.duplicate then ([started, reserved], .refused .raced) else
    let job : MediaJob :=
      { id := nextId (s.media_jobs.map MediaJob.id), chat_id := p.chat_id, kind := p.kind,
        model := p.model, api_model := p.api_model, reservation_id := resv.reservationId,
        state := .running, proposal_id := p.id, created_at := now }
    ([started, reserved, { reserved with media_jobs := reserved.media_jobs ++ [job] }],
      .ok { proposal := { p with state := .started }, reservationId := resv.reservationId,
            jobId := job.id })

/-- `beginJob`, with the databases it commits one after the other. `offer` is what the card's
model is offered at: nothing, or what `quoteSpec` makes of it, if it does not throw. -/
def beginJob (s : Studio) (chatId : Int) (proposalId : Nat) (offer : Option (Option Quote))
    (now : Int) : List Studio × Pressed :=
  match s.proposal proposalId with
  | none => ([], .refused .gone)
  | some p =>
    if p.chat_id ≠ chatId then ([], .refused .gone)
    else if p.state ≠ .opened then ([], .refused (.closed p.state))
    else if p.expires_at < now then
      ([s.setProposal p.id fun p => { p with state := .expired }], .refused (.closed .expired))
    else match offer with
    | none => ([], .refused .unavailable)
    | some quoted =>
      if !p.sources.all fun id => (s.item id).any (·.chat_id = chatId) then ([], .refused .sources)
      else match quoted with
      | none => ([], .refused .unavailable)
      | some quote =>
        if quote.priceMicro ≠ p.price_micro ∨ quote.apiModel ≠ p.api_model then
          ([s.setProposal p.id fun p =>
              { p with price_micro := quote.priceMicro, api_model := quote.apiModel }],
            .repriced quote.priceMicro)
        else if s.media_jobs.any fun j =>
            j.chat_id = chatId && j.kind = p.kind && j.state = .running then
          ([], .refused (.busy p.kind))
        else startJob s p now

/-- The databases that transactions commit one after the other. -/
def applied (s : Studio) : List (Studio → Studio) → List Studio
  | [] => []
  | t :: ts => t s :: applied (t s) ts

/-- `unwind`; `unknown` is an error of the bucket `UNKNOWN`. -/
def unwind (s : Studio) (begun : Begun) (unknown : Bool) : List Studio :=
  let freed : Except Fault Db :=
    if unknown then .ok (hold s.db begun.reservationId).1
    else (release s.db begun.reservationId).map Prod.fst
  match freed with
  | .error _ => []
  | .ok db =>
    let state : JobState := if unknown then .unknown else .failed
    applied s
      [fun s => { s with db := db },
       fun s => s.setJob begun.jobId fun j =>
         if j.state = .running then { j with state := state } else j,
       fun s => s.setProposal begun.proposal.id fun p => { p with state := .failed }]

/-- The amount of `settleCapped`; `actual` is what the credits come to, if any are reported. -/
def charge (actual : Option Int) (capMicro : Int) : Int :=
  match actual with
  | some actual => if actual < capMicro then actual else capMicro
  | none => capMicro

/-- `settleCapped`. -/
def settleCapped (s : Studio) (reservationId : Nat) (actual : Option Int) (capMicro now : Int) :
    Except Fault Studio :=
  (settle s.db reservationId (charge actual capMicro) now).map fun out => { s with db := out.1 }

/-- `finishJob`. -/
def finishJob (s : Studio) (begun : Begun) (kind : MediaKind) : Studio :=
  let item : StudioItem :=
    { id := nextId (s.items.map StudioItem.id), chat_id := begun.proposal.chat_id, made := some kind,
      job_id := some begun.jobId, proposal_id := some begun.proposal.id }
  ({ s with items := s.items ++ [item] }.setJob begun.jobId fun j =>
    { j with state := .done, item_id := some item.id }).setProposal begun.proposal.id fun p =>
      { p with state := .done }

/-- What is done with a result: it is settled, then the job is finished. -/
def deliver (s : Studio) (begun : Begun) (kind : MediaKind) (actual : Option Int) (now : Int) :
    List Studio :=
  match settleCapped s begun.reservationId actual begun.proposal.price_micro now with
  | .error _ => []
  | .ok settled => [settled, finishJob settled begun kind]

/-- `recoverAfterRestart`. -/
def recoverAfterRestart (s : Studio) (now : Int) : List Studio :=
  let lost := s.media_jobs.filter fun j =>
    j.state = .running && (j.kind = .image || j.remote_id.isNone)
  let give (j : MediaJob) : List (Studio → Studio) :=
    [fun s => { s with db := (hold s.db j.reservation_id).1 },
     fun s => s.setJob j.id fun j => { j with state := .unknown },
     fun s => s.setProposal j.proposal_id fun p => { p with state := .failed }]
  let orphaned (s : Studio) : Studio :=
    let fail (p : Proposal) : Proposal :=
      if p.state = .started ∧ p.id ∉ s.media_jobs.map MediaJob.proposal_id then
        { p with state := .failed } else p
    { s with proposals := s.proposals.map fail }
  applied s (lost.flatMap give ++ [orphaned, fun s => expireCards s now])

/-- `runningReservationIds`. -/
def runningReservationIds (s : Studio) : List Nat :=
  (s.media_jobs.filter (·.state = .running)).map MediaJob.reservation_id

/-- The start of the bot: the recovery, then the release of what is reserved for nothing. -/
def restart (s : Studio) (now : Int) : List Studio :=
  let recovered := recoverAfterRestart s now
  let s := recovered.getLast?.getD s
  let orphans := s.db.reservations.filter fun r =>
    r.state = .opened && r.id ∉ runningReservationIds s
  let free (r : Reservation) (s : Studio) : Studio :=
    match release s.db r.id with
    | .error _ => s
    | .ok (db, _) => { s with db := db }
  recovered ++ applied s (orphans.map free)

/-- `ageOutReservations`. -/
def ageOutAll (s : Studio) (olderThanMinutes now : Int) : List Studio :=
  applied s ((stale s.books (now - olderThanMinutes * 60)).map fun id s =>
    { s with db := ageOut s.books id })

end pcoin.bot.studio
