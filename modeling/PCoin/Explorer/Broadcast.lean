import PCoin.Run.Basic

namespace pcoin.broadcast

def RPC_METHOD_NOT_FOUND : Int := -32601
def RPC_VERIFY_ERROR : Int := -25
def RPC_VERIFY_REJECTED : Int := -26
def RPC_VERIFY_ALREADY_IN_UTXO_SET : Int := -27
def RPC_IN_WARMUP : Int := -28

/-! ### The node and the network -/

/-- What there is of one transaction: its entry in the mempool of the node, with `unbroadcast`; the
block it is in, with whether one of its outputs is unspent; whether another node has received it; and
whether the witness node has it in its mempool. -/
structure World where
  mempool : Option Bool := none
  chain : Option Bool := none
  received : Bool := false
  witness : Bool := false
  connections : Nat
  inputs : Bool
  policy : Bool
deriving DecidableEq

/-- What happens to it outside the API. `announced` is a block with it that leaves the node. -/
inductive Move
  | connections (n : Nat)
  | relayed
  | offered
  | witnessed
  | mined
  | announced
  | spent
  | evicted
  | forgotten
  | inputs (available : Bool)
  | policy (accepts : Bool)
deriving DecidableEq

def World.move (w : World) : Move → Option World
  | .connections n => some { w with connections := n }
  | .relayed =>
    if w.mempool.isSome ∧ 0 < w.connections then some { w with mempool := some false, received := true }
    else none
  | .offered =>
    if w.received ∧ w.mempool = none ∧ w.chain = none ∧ w.inputs ∧ w.policy then
      some { w with mempool := some false }
    else none
  | .witnessed => if w.received ∧ w.chain = none then some { w with witness := true } else none
  | .mined =>
    if (w.received ∨ w.mempool.isSome) ∧ w.chain = none then
      some { w with chain := some true, mempool := none, witness := false, inputs := false }
    else none
  | .announced => if w.chain.isSome ∧ 0 < w.connections then some { w with received := true } else none
  | .spent => if w.chain.isSome then some { w with chain := some false } else none
  | .evicted => some { w with mempool := none }
  | .forgotten => some { w with witness := false }
  | .inputs available =>
    if w.chain = none then
      some { w with inputs := available, mempool := if available then w.mempool else none }
    else none
  | .policy accepts => some { w with policy := accepts }

/-- The answer of an RPC call. -/
inductive Reply
  | txid
  | error (code : Int)
deriving DecidableEq

/-- `sendrawtransaction` of the node. -/
def World.sendrawtransaction (w : World) : Reply × World :=
  if w.chain = some true then (.error RPC_VERIFY_ALREADY_IN_UTXO_SET, w)
  else if w.mempool.isSome then (.txid, w)
  else if w.inputs = false then (.error RPC_VERIFY_ERROR, w)
  else if w.policy = false then (.error RPC_VERIFY_REJECTED, w)
  else (.txid, { w with mempool := some true })

/-! ### The API -/

inductive Status
  | unknown
  | rejected
  | already_in_a_block
  | no_peers
  | observed_by_witness_node
  | acknowledged_by_peer
  | confirmed_in_block
  | awaiting_peer_acknowledgement
  | left_mempool_unexplained
deriving DecidableEq

/-- What `broadcast` answers of the network, and what is true then. -/
structure Answer where
  http : Nat
  has_it : Option Bool
  state : Status
  peers : Option Nat
  received : Bool
  mined : Bool
deriving DecidableEq

/-- The next call of `broadcast`, or its wait. -/
inductive Pc
  | gate
  | snapshot
  | send (peers : Option Nat)
  | lost (peers : Option Nat)
  | witness (peers : Option Nat)
  | mempool (peers : Option Nat)
  | mined (peers : Option Nat)
  | wait (peers : Option Nat) (state : Status)
deriving DecidableEq

/-- The world, the view of the node that is cached, the call under way and the answers given. -/
structure State where
  world : World
  view : Option Nat
  proc : Option Pc := none
  answers : List Answer := []
deriving DecidableEq

structure Config where
  witness_rpc : Bool
  txindex : Bool

/-- What becomes of `sendrawtransaction`: it is answered, or the answer is lost, or the call is. -/
inductive Outcome
  | answered
  | answerLost
  | callLost
deriving DecidableEq

/-- `refresh` is one of the cached view, by the gate or by another request. -/
inductive Event
  | move (m : Move)
  | refresh
  | call
  | gate (enabled : Bool)
  | snapshot (answered : Bool)
  | send (o : Outcome)
  | read (answered : Bool)
  | deadline (passed : Bool)
deriving DecidableEq

def State.goto (s : State) (pc : Pc) : State := { s with proc := some pc }

/-- The call returns. -/
def State.answer (s : State) (http : Nat) (has_it : Option Bool) (state : Status) (peers : Option Nat) : State :=
  { s with
    proc := none
    answers := s.answers ++ [⟨http, has_it, state, peers, s.world.received, s.world.chain.isSome⟩] }

/-- `_rejection`. -/
def rejection (s : State) (code : Int) (peers : Option Nat) : State :=
  s.answer (if code = RPC_IN_WARMUP ∨ code = RPC_METHOD_NOT_FOUND then 503 else 400) (some false) .rejected peers

/-- The loop of `_observe_propagation`. -/
def loop (cfg : Config) (peers : Option Nat) : Pc := if cfg.witness_rpc then .witness peers else .mempool peers

/-- `_observe_propagation`, up to its first call. -/
def observePropagation (cfg : Config) (s : State) (peers : Option Nat) (already_in_chain : Bool) : State :=
  if already_in_chain then s.answer 200 (some true) .already_in_a_block peers
  else if peers = some 0 then s.answer 202 (some false) .no_peers peers
  else s.goto (loop cfg peers)

/-- What `broadcast` does with the answer of `sendrawtransaction`. -/
def received (cfg : Config) (s : State) (peers : Option Nat) : Reply → State
  | .txid => observePropagation cfg s peers false
  | .error code =>
    if code = RPC_VERIFY_ALREADY_IN_UTXO_SET then observePropagation cfg s peers true
    else rejection s code peers

/-- The other calls; a call that is not answered tells nothing. -/
def read (cfg : Config) (s : State) (answered : Bool) : Pc → Option State
  | .lost peers =>
    if answered ∧ s.world.mempool.isSome then some (observePropagation cfg s peers false)
    else some (s.answer 502 none .unknown peers)
  | .witness peers =>
    if answered ∧ s.world.witness then some (s.answer 200 (some true) .observed_by_witness_node peers)
    else some (s.goto (.mempool peers))
  | .mempool peers =>
    if answered then
      match s.world.mempool with
      | some false => some (s.answer 200 (some true) .acknowledged_by_peer peers)
      | some true => some (s.goto (.wait peers .awaiting_peer_acknowledgement))
      | none => some (s.goto (.mined peers))
    else some (s.goto (.wait peers .unknown))
  | .mined peers =>
    if answered ∧ s.world.chain.isSome ∧ cfg.txindex then
      some (s.answer 200 (some true) .confirmed_in_block peers)
    else some (s.goto (.wait peers .left_mempool_unexplained))
  | _ => none

def step (cfg : Config) (s : State) : Event → Option State
  | .move m => do
    let w ← s.world.move m
    return { s with world := w }
  | .refresh => some { s with view := some s.world.connections }
  | .call => if s.proc = none then some (s.goto .gate) else none
  | .gate enabled =>
    match s.proc with
    | some .gate => some { s with proc := if enabled then some .snapshot else none }
    | _ => none
  | .snapshot answered =>
    match s.proc with
    | some .snapshot =>
      let view := if answered then some s.world.connections else s.view
      some { s with view := view, proc := some (.send view) }
    | _ => none
  | .send o =>
    match s.proc with
    | some (.send peers) =>
      let (reply, w) := s.world.sendrawtransaction
      match o with
      | .answered => some (received cfg { s with world := w } peers reply)
      | .answerLost => some { s with world := w, proc := some (.lost peers) }
      | .callLost => some (s.goto (.lost peers))
    | _ => none
  | .read answered => do read cfg s answered (← s.proc)
  | .deadline passed =>
    match s.proc with
    | some (.wait peers state) =>
      if passed then some (s.answer 202 none state peers) else some (s.goto (loop cfg peers))
    | _ => none

/-! ### Verdicts -/

/-- The network has it only if another node does or a block, and not only if no other node does. -/
def Answer.Sound (a : Answer) : Prop :=
  (a.has_it = some true → a.received ∨ a.mined) ∧ (a.has_it = some false → a.received = false)

instance (a : Answer) : Decidable a.Sound := inferInstanceAs (Decidable (_ ∧ _))

/-- The node refuses the transaction. -/
def World.refuses (w : World) : Prop :=
  w.chain ≠ some true ∧ w.mempool = none ∧ ¬(w.inputs ∧ w.policy)

instance (w : World) : Decidable w.refuses := inferInstanceAs (Decidable (_ ∧ _ ∧ _))

/-- Once another node has received the transaction, no call is refused, and none that counted no
peers finds it in the mempool or puts it there. -/
def Timely (s : State) : Event → Prop
  | .send .answered => ∀ peers, s.proc = some (.send peers) → s.world.received →
      ¬s.world.refuses ∧ (peers = some 0 → s.world.chain = some true)
  | .read true => ∀ peers, s.proc = some (.lost peers) → s.world.received →
      peers = some 0 → s.world.mempool = none
  | _ => True

section

variable {cfg : Config} {s t : State} {e : Event}

/-- The mempool of the node knows of a peer that asked, and the witness is another node. -/
structure World.Inv (w : World) : Prop where
  acknowledged : w.mempool = some false → w.received
  witness : w.witness → w.received

theorem World.Inv.move {w w' : World} (h : w.Inv) {m : Move} (hmove : w.move m = some w') : w'.Inv := by
  obtain ⟨hack, hwit⟩ := h
  cases m with
  | connections n =>
    cases hmove
    exact ⟨hack, hwit⟩
  | relayed =>
    rw [World.move] at hmove
    split at hmove
    · cases hmove
      exact ⟨fun _ => rfl, fun _ => rfl⟩
    · cases hmove
  | offered =>
    rw [World.move] at hmove
    split at hmove
    case isTrue hoffered =>
      cases hmove
      exact ⟨fun _ => hoffered.1, hwit⟩
    case isFalse => cases hmove
  | witnessed =>
    rw [World.move] at hmove
    split at hmove
    case isTrue hreceived =>
      cases hmove
      exact ⟨hack, fun _ => hreceived.1⟩
    case isFalse => cases hmove
  | mined =>
    rw [World.move] at hmove
    split at hmove
    · cases hmove
      exact ⟨fun hnone => (by cases hnone), fun hfalse => (by cases hfalse)⟩
    · cases hmove
  | announced =>
    rw [World.move] at hmove
    split at hmove
    · cases hmove
      exact ⟨fun _ => rfl, fun _ => rfl⟩
    · cases hmove
  | spent =>
    rw [World.move] at hmove
    split at hmove
    · cases hmove
      exact ⟨hack, hwit⟩
    · cases hmove
  | evicted =>
    cases hmove
    exact ⟨fun hnone => (by cases hnone), hwit⟩
  | forgotten =>
    cases hmove
    exact ⟨hack, fun hfalse => (by cases hfalse)⟩
  | inputs available =>
    rw [World.move] at hmove
    split at hmove
    · cases hmove
      refine ⟨fun hsome => ?_, hwit⟩
      cases available with
      | true => exact hack hsome
      | false => cases hsome
    · cases hmove
  | policy accepts =>
    cases hmove
    exact ⟨hack, hwit⟩

/-- What `sendrawtransaction` answers, and what it leaves. -/
theorem World.sendrawtransaction_cases (w : World) :
    (w.sendrawtransaction = (.error RPC_VERIFY_ALREADY_IN_UTXO_SET, w) ∧ w.chain = some true) ∨
    (∃ code, code ≠ RPC_VERIFY_ALREADY_IN_UTXO_SET ∧ w.sendrawtransaction = (.error code, w) ∧ w.refuses) ∨
    (∃ entry, w.sendrawtransaction = (.txid, { w with mempool := some entry }) ∧ ¬w.refuses ∧
      w.chain ≠ some true ∧ (w.mempool = some entry ∨ entry = true)) := by
  rw [World.sendrawtransaction]
  by_cases hchain : w.chain = some true
  · exact .inl ⟨if_pos hchain, hchain⟩
  · rw [if_neg hchain]
    refine .inr ?_
    cases hmempool : w.mempool with
    | some entry =>
      refine .inr ⟨entry, ?_, fun h => ?_, hchain, .inl rfl⟩
      · rw [if_pos Option.isSome_some, ← hmempool]
      · simp [World.refuses, hmempool] at h
    | none =>
      rw [if_neg (by simp)]
      by_cases hinputs : w.inputs = false
      · exact .inl ⟨RPC_VERIFY_ERROR, by decide, if_pos hinputs, hchain, hmempool, by simp [hinputs]⟩
      · rw [if_neg hinputs]
        by_cases hpolicy : w.policy = false
        · exact .inl ⟨RPC_VERIFY_REJECTED, by decide, if_pos hpolicy, hchain, hmempool, by simp [hpolicy]⟩
        · rw [if_neg hpolicy]
          exact .inr ⟨true, rfl, fun h => h.2.2 (by simp_all), hchain, .inr rfl⟩

theorem sound_answer {http : Nat} {has_it : Option Bool} {state : Status} {peers : Option Nat} :
    (∀ a ∈ (s.answer http has_it state peers).answers, a.Sound) ↔
      (∀ a ∈ s.answers, a.Sound) ∧ (has_it = some true → s.world.received ∨ s.world.chain.isSome) ∧
        (has_it = some false → s.world.received = false) := by
  rw [State.answer, List.forall_mem_append, List.forall_mem_singleton]
  rfl

theorem sound_observe {peers : Option Nat} {already : Bool} :
    (∀ a ∈ (observePropagation cfg s peers already).answers, a.Sound) ↔
      (∀ a ∈ s.answers, a.Sound) ∧ (already = true → s.world.received ∨ s.world.chain.isSome) ∧
        (already = false → peers = some 0 → s.world.received = false) := by
  rw [observePropagation]
  cases already with
  | true =>
    rw [if_pos rfl, sound_answer]
    simp
  | false =>
    rw [if_neg Bool.false_ne_true]
    split
    case isTrue hpeers =>
      rw [sound_answer]
      simp [hpeers]
    case isFalse hpeers => simp [State.goto, hpeers]

/-- The answer of `sendrawtransaction` leads to a sound verdict when it comes in time, and else to
none. -/
theorem sound_received {peers : Option Nat} {w : World} {reply : Reply}
    (hsend : s.world.sendrawtransaction = (reply, w)) :
    (∀ a ∈ (received cfg { s with world := w } peers reply).answers, a.Sound) ↔
      (∀ a ∈ s.answers, a.Sound) ∧ (s.world.received →
        ¬s.world.refuses ∧ (peers = some 0 → s.world.chain = some true)) := by
  obtain ⟨hcase, hchain⟩ | ⟨code, hcode, hcase, hrefuses⟩ | ⟨entry, hcase, haccepts, hchain, -⟩ :=
    s.world.sendrawtransaction_cases
  · obtain ⟨rfl, rfl⟩ := Prod.mk.inj (hsend.symm.trans hcase)
    have hrefuses : ¬s.world.refuses := fun h => h.1 hchain
    rw [received, if_pos rfl, sound_observe]
    simp [hchain, hrefuses]
  · obtain ⟨rfl, rfl⟩ := Prod.mk.inj (hsend.symm.trans hcase)
    rw [received, if_neg hcode, rejection, sound_answer]
    simp [hrefuses]
  · obtain ⟨rfl, rfl⟩ := Prod.mk.inj (hsend.symm.trans hcase)
    rw [received, sound_observe]
    refine and_congr_right fun _ => ?_
    simp only [Bool.false_eq_true, false_imp_iff, true_and, forall_const, haccepts, not_false_eq_true, hchain]
    cases s.world.received <;> simp

theorem World.Inv.send {w w' : World} {reply : Reply} (h : w.Inv)
    (hsend : w.sendrawtransaction = (reply, w')) : w'.Inv := by
  obtain ⟨hcase, -⟩ | ⟨code, -, hcase, -⟩ | ⟨entry, hcase, -, -, hentry⟩ := w.sendrawtransaction_cases
  · obtain ⟨-, rfl⟩ := Prod.mk.inj (hsend.symm.trans hcase)
    exact h
  · obtain ⟨-, rfl⟩ := Prod.mk.inj (hsend.symm.trans hcase)
    exact h
  · obtain ⟨-, rfl⟩ := Prod.mk.inj (hsend.symm.trans hcase)
    refine ⟨fun hfalse => ?_, h.witness⟩
    obtain hold | rfl := hentry
    · exact h.acknowledged (hold.trans hfalse)
    · cases hfalse

theorem observe_world (peers : Option Nat) (already : Bool) :
    (observePropagation cfg s peers already).world = s.world := by
  rw [observePropagation]
  split_ifs <;> rfl

/-- The other calls never make a verdict that is not sound, but for the one after a lost answer. -/
theorem sound_read (h : s.world.Inv) {answered : Bool} {pc : Pc} (hread : read cfg s answered pc = some t) :
    t.world = s.world ∧ ((∀ a ∈ t.answers, a.Sound) ↔ (∀ a ∈ s.answers, a.Sound) ∧
      (answered = true → ∀ peers, pc = .lost peers → s.world.received → peers = some 0 →
        s.world.mempool = none)) := by
  cases pc with
  | gate | snapshot | send | wait => cases hread
  | lost peers =>
    rw [read] at hread
    split at hread
    case isTrue hmempool =>
      cases hread
      refine ⟨observe_world .., ?_⟩
      rw [sound_observe]
      refine and_congr_right fun _ => ?_
      have hsome : s.world.mempool ≠ none := Option.isSome_iff_ne_none.mp hmempool.2
      simp only [Bool.false_eq_true, false_imp_iff, true_and, forall_const, hmempool.1, Pc.lost.injEq,
        forall_eq', hsome]
      cases s.world.received <;> simp
    case isFalse hmempool =>
      cases hread
      refine ⟨rfl, ?_⟩
      rw [sound_answer]
      refine and_congr_right fun _ => ⟨fun _ hanswered _ _ _ _ => ?_, fun _ => ⟨by simp, by simp⟩⟩
      rw [not_and, Option.not_isSome_iff_eq_none] at hmempool
      exact hmempool hanswered
  | witness peers =>
    rw [read] at hread
    split at hread
    case isTrue hwitness =>
      cases hread
      refine ⟨rfl, ?_⟩
      rw [sound_answer]
      simp [h.witness hwitness.2]
    case isFalse =>
      cases hread
      exact ⟨rfl, by simp [State.goto]⟩
  | mempool peers =>
    rw [read] at hread
    split at hread
    case isTrue =>
      split at hread
      case h_1 hmempool =>
        cases hread
        refine ⟨rfl, ?_⟩
        rw [sound_answer]
        simp [h.acknowledged hmempool]
      case h_2 | h_3 =>
        cases hread
        exact ⟨rfl, by simp [State.goto]⟩
    case isFalse =>
      cases hread
      exact ⟨rfl, by simp [State.goto]⟩
  | mined peers =>
    rw [read] at hread
    split at hread
    case isTrue hmined =>
      cases hread
      refine ⟨rfl, ?_⟩
      rw [sound_answer]
      simp [hmined.2.1]
    case isFalse =>
      cases hread
      exact ⟨rfl, by simp [State.goto]⟩

/-- One step: a verdict that it makes is sound exactly when the step is timely. -/
theorem sound_step (h : s.world.Inv) (hstep : step cfg s e = some t) :
    t.world.Inv ∧ ((∀ a ∈ t.answers, a.Sound) ↔ (∀ a ∈ s.answers, a.Sound) ∧ Timely s e) := by
  cases e with
  | move m =>
    obtain ⟨w, hmove, hstep⟩ := Option.bind_eq_some_iff.mp hstep
    cases hstep
    exact ⟨h.move hmove, by simp [Timely]⟩
  | refresh =>
    cases hstep
    exact ⟨h, by simp [Timely]⟩
  | call =>
    rw [step] at hstep
    split at hstep
    · cases hstep
      exact ⟨h, by simp [Timely, State.goto]⟩
    · cases hstep
  | gate enabled =>
    rw [step] at hstep
    split at hstep
    · cases hstep
      exact ⟨h, by simp [Timely]⟩
    · cases hstep
  | snapshot answered =>
    rw [step] at hstep
    split at hstep
    · cases hstep
      exact ⟨h, by simp [Timely]⟩
    · cases hstep
  | send o =>
    rw [step] at hstep
    split at hstep
    case h_2 => cases hstep
    case h_1 peers hproc =>
      cases hsend : s.world.sendrawtransaction with
      | mk reply w =>
        rw [hsend] at hstep
        cases o with
        | answered =>
          cases hstep
          refine ⟨?_, (sound_received hsend).trans (and_congr_right fun _ => ?_)⟩
          · have hworld : (received cfg { s with world := w } peers reply).world = w := by
              cases reply with
              | txid => exact observe_world ..
              | error code =>
                rw [received]
                split
                · exact observe_world ..
                · rfl
            rw [hworld]
            exact h.send hsend
          · simp only [Timely, hproc, Option.some.injEq, Pc.send.injEq, forall_eq']
        | answerLost =>
          cases hstep
          exact ⟨h.send hsend, by simp [Timely]⟩
        | callLost =>
          cases hstep
          exact ⟨h, by simp [Timely, State.goto]⟩
  | read answered =>
    obtain ⟨pc, hproc, hread⟩ := Option.bind_eq_some_iff.mp hstep
    obtain ⟨hworld, hsound⟩ := sound_read h hread
    refine ⟨hworld ▸ h, hsound.trans (and_congr_right fun _ => ?_)⟩
    cases answered with
    | true => simp only [Timely, hproc, Option.some.injEq, forall_const]
    | false => simp [Timely]
  | deadline passed =>
    rw [step] at hstep
    split at hstep
    case h_2 => cases hstep
    case h_1 peers state _ =>
      split at hstep
      · cases hstep
        refine ⟨h, ?_⟩
        rw [sound_answer]
        simp [Timely]
      · cases hstep
        exact ⟨h, by simp [Timely, State.goto]⟩

end

/-- Over every history of calls, lost calls and answers, and moves of the transaction outside, all
verdicts are sound exactly when every step is timely. -/
theorem verdicts_sound_iff (cfg : Config) (connections : Nat) (inputs policy : Bool) (view : Option Nat)
    (es : List Event) {s : State}
    (hrun : run.exec (step cfg)
      { world := { connections := connections, inputs := inputs, policy := policy }, view := view } es = some s) :
    (∀ a ∈ s.answers, a.Sound) ↔
      run.Meets (step cfg) Timely
        { world := { connections := connections, inputs := inputs, policy := policy }, view := view } es := by
  have hall : ∀ (es : List Event) (s₀ : State), s₀.world.Inv → run.exec (step cfg) s₀ es = some s →
      ((∀ a ∈ s.answers, a.Sound) ↔
        (∀ a ∈ s₀.answers, a.Sound) ∧ run.Meets (step cfg) Timely s₀ es) := by
    intro es
    induction es with
    | nil =>
      intro s₀ _ hrun
      obtain rfl := Option.some.inj hrun
      simp [run.Meets]
    | cons e es ih =>
      intro s₀ hinv hrun
      obtain ⟨t, hstep, hrun⟩ := Option.bind_eq_some_iff.mp hrun
      obtain ⟨hinv', hsound⟩ := sound_step hinv hstep
      rw [ih t hinv' hrun, hsound, run.Meets, and_assoc, hstep]
      simp
  rw [hall es _ ⟨by simp, by simp⟩ hrun]
  simp

/-- A call that is answered, and a peer that asks for the transaction before the mempool is read. -/
def acknowledged : List Event :=
  [.call, .gate true, .snapshot true, .send .answered, .move .relayed, .read true]

theorem verdicts_sound_iff_acknowledged :
    run.Meets (step ⟨false, false⟩) Timely
      { world := { connections := 3, inputs := true, policy := true }, view := none } acknowledged :=
  (verdicts_sound_iff ⟨false, false⟩ 3 true true none acknowledged rfl).mp (by decide)

/-- The answer is lost, the transaction is relayed and mined and its outputs are spent, and the client
sends it again. -/
def sentAgain : List Event :=
  [.call, .gate true, .snapshot true, .send .answerLost, .read false, .move .relayed, .move .mined, .move .spent,
   .call, .gate true, .snapshot true, .send .answered]

theorem sent_again_never_relayed :
    ∃ s ∈ run.exec (step ⟨false, false⟩)
      { world := { connections := 3, inputs := true, policy := true }, view := none } sentAgain,
      ∃ a ∈ s.answers, a.has_it = some false ∧ a.state = .rejected ∧ a.received = true ∧ a.mined = true := by
  decide +kernel

end pcoin.broadcast
