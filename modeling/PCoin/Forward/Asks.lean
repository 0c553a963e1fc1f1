import PCoin.Forward.Engine

namespace pcoin.forward

open run Routine

/-- The calls that build nothing and send nothing. -/
def Call.asks : Call → Bool
  | sendall _ _ => false
  | send _ _ _ => false
  | sendrawtransaction _ => false
  | _ => true

/-- What is displayed, and never consulted to decide whether to send. -/
def Field.display : Field → Bool
  | lastError _ => true
  | blockedReason _ => true
  | consecutiveFailures _ => true
  | _ => false

@[simp] theorem Field.display_lastError (e : String) : (lastError e).display = true := rfl

@[simp] theorem Field.display_blockedReason (e : String) : (blockedReason e).display = true := rfl

@[simp] theorem Field.display_consecutiveFailures (n : Int) :
    (consecutiveFailures n).display = true := rfl

/-- A setter that leaves the record as it is. -/
def Field.other : Field → Bool
  | record _ => false
  | _ => true

theorem Field.display.other {f : Field} (h : f.display = true) : f.other = true := by
  cases f <;> first | rfl | cases h

theorem Store.batch_record {fs : List Field} (h : ∀ f ∈ fs, f.other = true) (s : Store) :
    (s.batch fs).record = s.record := by
  induction fs generalizing s with
  | nil => rfl
  | cons f fs ih =>
    rw [Store.batch, List.foldl_cons]
    refine (ih (fun g hg => h g (List.mem_cons_of_mem _ hg)) _).trans ?_
    have hf := h f List.mem_cons_self
    cases f <;> first | rfl | cases hf

/-- The actions that neither send nor write. -/
def Act.Asks : Act → Prop
  | call c => c.asks = true
  | now _ => True
  | read => True
  | _ => False

/-- The actions that send nothing and write only what is displayed. -/
def Act.Shows : Act → Prop
  | call c => c.asks = true
  | now _ => True
  | read => True
  | write fs => ∀ f ∈ fs, f.display = true
  | publish _ => True
  | log (.resolved _ _ _ _) => False
  | log _ => True
  | _ => False

theorem Act.Asks.shows {a : Act} (h : a.Asks) : a.Shows := by
  cases a <;> first | exact h | trivial

theorem shows_of_asks {α : Type} {p : Engine α} (h : p.Only Act.Asks) : p.Only Act.Shows :=
  h.mono fun _ => Act.Asks.shows

section Asks

variable (port : Port)

theorem call_asks {c : Call} (hc : c.asks = true) : (call c).Only Act.Asks :=
  ⟨hc, fun r => by cases r <;> trivial⟩

theorem ask_bind_asks {c : Call} (hc : c.asks = true) {α : Type}
    {f : Except Failure c.Reply → Engine α} (hf : ∀ r, (f r).Only Act.Asks) :
    (ask c >>= f).Only Act.Asks :=
  ⟨hc, hf⟩

theorem observeMempool_asks (txid : String) (obs : TxObservation) :
    (observeMempool txid obs).Only Act.Asks := by
  unfold observeMempool
  split
  · trivial
  · refine ask_bind_asks rfl fun r => ?_
    split <;> trivial

theorem observe_asks (txid : String) : (observe port txid).Only Act.Asks := by
  refine ask_bind_asks rfl fun r => ?_
  split
  · exact observeMempool_asks txid _
  · trivial
  · split
    · exact observeMempool_asks txid _
    · trivial

theorem walletAnswers_asks : walletAnswers.Only Act.Asks :=
  ask_bind_asks rfl fun r => by split <;> trivial

theorem relayPeers_asks : relayPeers.Only Act.Asks :=
  ask_bind_asks rfl fun r => by split <;> trivial

theorem isMine_asks (address : String) : (isMine port address).Only Act.Asks :=
  ask_bind_asks rfl fun r => by
    split
    · trivial
    · split <;> trivial

theorem addressFacts_asks (address : String) : (addressFacts port address).Only Act.Asks :=
  ask_bind_asks rfl fun r => by
    split
    · exact (isMine_asks port address).bind fun _ => trivial
    · trivial

theorem batchFlags_asks (chunk : List String) : (batchFlags port chunk).Only Act.Asks :=
  ask_bind_asks rfl fun r => by
    split
    · trivial
    · split <;> trivial

theorem generatedFlags_asks (chunks : List (List String)) :
    (generatedFlags port chunks).Only Act.Asks := by
  induction chunks with
  | nil => trivial
  | cons chunk chunks ih => exact (batchFlags_asks port chunk).bind fun _ => ih.bind fun _ => trivial

theorem vettedCandidates_asks : (vettedCandidates port).Only Act.Asks := by
  refine (call_asks rfl).bind fun r => ?_
  split
  · trivial
  · exact (generatedFlags_asks port _).bind fun _ => trivial

theorem decode_asks (hex : String) : (decode port hex).Only Act.Asks := by
  refine (call_asks rfl).bind fun r => ?_
  split <;> trivial

theorem annotate_asks (destination : String) (out : DecodedOut) :
    (annotate port destination out).Only Act.Asks := by
  unfold annotate
  split
  · trivial
  · refine ask_bind_asks rfl fun r => ?_
    split <;> trivial

theorem annotateChange_asks (destination : String) (outs : List DecodedOut) :
    (annotateChange port destination outs).Only Act.Asks := by
  induction outs with
  | nil => trivial
  | cons out outs ih =>
    exact (annotate_asks port destination out).bind fun _ => ih.bind fun _ => trivial

theorem decodeBuilt_asks (kind : SweepKind) (destination hex : String) :
    (decodeBuilt port kind destination hex).Only Act.Asks := by
  refine (decode_asks port hex).bind fun decoded => ?_
  cases kind with
  | sweep => trivial
  | probe => exact (annotateChange_asks port destination decoded.outputs).bind fun _ => trivial

theorem testAccept_asks (hex : String) : (testAccept port hex).Only Act.Asks :=
  ask_bind_asks rfl fun r => by
    split
    · split
      · trivial
      · split <;> trivial
    · trivial
    · split <;> trivial

theorem lockunspent_asks (unlock : Bool) (outs : List (Option String × Option Int)) :
    (lockunspent unlock outs).Only Act.Asks :=
  ask_bind_asks rfl fun _ => trivial

theorem unlockInputs_asks (inputs : List Outpoint) : (unlockInputs port inputs).Only Act.Asks := by
  unfold unlockInputs
  split
  · trivial
  · exact lockunspent_asks _ _

theorem releaseStaleLocks_asks : (releaseStaleLocks port).Only Act.Asks := by
  refine ask_bind_asks rfl fun r => ?_
  split
  · trivial
  · split
    · trivial
    · exact lockunspent_asks _ _
  · split <;> trivial

theorem paidTo_asks (txid : String) (outs : List DecodedOut) (paid : Int × String) :
    (paidTo port txid outs paid).Only Act.Asks := by
  induction outs generalizing paid with
  | nil => trivial
  | cons out outs ih =>
    unfold paidTo
    split
    · exact ih paid
    · refine (isMine_asks port out.address).bind fun mine => ?_
      split
      · trivial
      · exact ih paid
      · exact ih _

theorem nowAgain_asks (now : Int) : (nowAgain port now).Only Act.Asks := by
  cases port with
  | android => exact ⟨trivial, fun _ => trivial⟩
  | windows => trivial

theorem adoptedRecord_asks (txid hex : String) : (adoptedRecord port txid hex).Only Act.Asks :=
  (decode_asks port hex).bind fun _ => (paidTo_asks port _ _ _).bind fun _ =>
    ⟨trivial, fun _ => (nowAgain_asks port _).bind fun _ => ⟨trivial, fun _ => trivial⟩⟩

theorem adoptFrom_asks (txs : List TxEntry) : (adoptFrom port txs).Only Act.Asks := by
  induction txs with
  | nil => trivial
  | cons tx txs ih =>
    unfold adoptFrom
    split
    · refine (call_asks rfl).bind fun r => ?_
      split
      · exact ih
      · split
        · exact ih
        · exact (adoptedRecord_asks port _ _).bind fun _ => trivial
    · exact ih

theorem adoptInFlightSend_asks : (adoptInFlightSend port).Only Act.Asks := by
  refine (call_asks rfl).bind fun r => ?_
  split
  · trivial
  · exact adoptFrom_asks port _

theorem gatherLoaded_asks (loaded : Bool) : (gatherLoaded loaded).Only Act.Asks := by
  unfold gatherLoaded
  split
  · exact walletAnswers_asks
  · trivial

theorem gatherFacts_asks (walletLoaded : Bool) (destination : String) :
    (gatherFacts port walletLoaded destination).Only Act.Asks := by
  unfold gatherFacts
  split
  · exact addressFacts_asks port destination
  · trivial

theorem gatherCandidates_asks (facts : Option AddressFacts) :
    (gatherCandidates port facts).Only Act.Asks := by
  unfold gatherCandidates
  split
  · exact vettedCandidates_asks port
  · trivial

end Asks

section Shows

variable (port : Port)

theorem write_shows {fs : List Field} (h : ∀ f ∈ fs, f.display = true) :
    (write fs).Only Act.Shows :=
  ⟨h, fun _ => trivial⟩

theorem publish_shows (s : Shown) : (publish port s).Only Act.Shows :=
  (write_shows (by simp)).bind fun _ => ⟨trivial, fun _ => trivial⟩

theorem publishPending_shows (r : SweepRecord) (confirmations : Int) :
    (publishPending port r confirmations).Only Act.Shows :=
  publish_shows port _

theorem abort_shows (why : String) : (abort port why).Only Act.Shows :=
  (write_shows (by simp)).bind fun _ => publish_shows port _

theorem refuse_shows (kind : SweepKind) (complaint why : String) :
    (refuse port kind complaint why).Only Act.Shows :=
  ⟨trivial, fun _ => abort_shows port why⟩

theorem recordIn_shows (v : View) : (recordIn v).Only Act.Shows := by
  have hparked : parked.Only Act.Shows :=
    (write_shows (by simp)).bind fun _ => trivial
  unfold recordIn
  split
  · trivial
  · exact hparked
  · split
    · exact hparked
    · trivial

theorem readRecord_shows : readRecord.Only Act.Shows :=
  ⟨trivial, recordIn_shows⟩

theorem failed_shows (e : Failure) : (failed port e).Only Act.Shows := by
  cases port with
  | android =>
    exact (write_shows (by simp)).bind fun _ =>
      ⟨trivial, fun _ => write_shows (by simp)⟩
  | windows => exact ⟨trivial, fun _ => write_shows (by simp)⟩

end Shows

end pcoin.forward
