import PCoin.PoolClient.Line

open pcoin.univalue

namespace pcoin.poolclient

/-- A line, and the client that handles it. -/
structure Handled where
  now : Nat
  client : PoolClient
  line : List Char

/-- The line is handled, to one of the outcomes. -/
def Handled.Accounted (cfg : Config) (h : Handled) : Prop :=
  ∃ after, h.client.HandleLine cfg h.now h.line = .ok after ∧ Outcome h.now h.client h.line after

def Handled.Sound (h : Handled) : Prop := poolclient.Sound h.client h.line

namespace PoolClient

/-- The lines `drain` hands to `HandleLine`, the one that throws included. -/
def drained (cfg : Config) (now : Nat) : Nat → PoolClient → List Handled
  | 0, _ => []
  | fuel + 1, p =>
    match nextLine p.rx with
    | none => []
    | some (line, rest) =>
      let p := p.erase rest
      if chomp line = [] then if p.sock then p.drained cfg now fuel else []
      else
        ⟨now, p, chomp line⟩ ::
          match p.HandleLine cfg now (chomp line) with
          | .ok p => if p.sock then p.drained cfg now fuel else []
          | .error _ => []

/-- The lines `receive` hands to `HandleLine`. -/
def receivedLines (cfg : Config) (r : Round) (p : PoolClient) : List Handled :=
  if p.sock ∧ r.waits ∧ !r.err ∧ r.recv then
    match r.received with
    | .bytes chunk =>
      let p := { p with rx := p.rx ++ chars chunk }
      if MAX_RX < p.rx.length then [] else p.drained cfg r.later (p.rx.count '\n')
    | _ => []
  else []

/-- The client `Pump` reads with; `none` where it returns before reading. -/
def attached (cfg : Config) (r : Round) (p : PoolClient) : Option PoolClient :=
  let p := r.solved.foldl QueueSubmit p
  if !p.sock then
    if r.now < p.retry_at then none
    else
      let (p, connected) := p.Connect cfg r
      if connected then some p else none
  else some p

/-- The lines `Pump` hands to `HandleLine`. -/
def lines (cfg : Config) (r : Round) (p : PoolClient) : List Handled :=
  match p.attached cfg r with
  | some p => p.receivedLines cfg r
  | none => []

/-- The login request of a connection made in this turn goes out whole. -/
def LoginSent (r : Round) (p : PoolClient) : Prop :=
  p.sock = false → p.retry_at ≤ r.now → r.resolves = true → r.connects = true →
    r.delivered p.next_id = true

theorem drain_iff (cfg : Config) (now : Nat) (fuel : Nat) (p : PoolClient) :
    ((∃ after, p.drain cfg now fuel = .ok after) ∧ ∀ h ∈ p.drained cfg now fuel, h.Accounted cfg) ↔
      ∀ h ∈ p.drained cfg now fuel, h.Sound := by
  induction fuel generalizing p with
  | zero => simp [drain, drained]
  | succ fuel ih =>
    simp only [drain, drained]
    cases nextLine p.rx with
    | none => simp
    | some parts =>
      obtain ⟨line, rest⟩ := parts
      simp only
      generalize p.erase rest = q
      by_cases hempty : chomp line = []
      · simp only [hempty, if_true, bind, Except.bind, pure, Except.pure]
        cases hsock : q.sock with
        | true => simpa using ih q
        | false => simp
      · simp only [hempty, if_false, bind, Except.bind, pure, Except.pure]
        have hline := handleLine_iff cfg now q (chomp line)
        cases hhandle : q.HandleLine cfg now (chomp line) with
        | error e =>
          have hnot : ¬ poolclient.Sound q (chomp line) := by
            rw [← hline, hhandle]
            simp
          simp [Handled.Sound, hnot]
        | ok after =>
          have hsound : poolclient.Sound q (chomp line) := sound_of_handleLine hhandle
          have haccounted : Handled.Accounted cfg ⟨now, q, chomp line⟩ := hline.mpr hsound
          simp only [List.forall_mem_cons, haccounted, true_and]
          rw [show Handled.Sound ⟨now, q, chomp line⟩ ↔ True from iff_true_intro hsound, true_and]
          cases hsock : after.sock with
          | true => simpa using ih after
          | false => simp

theorem receive_iff (cfg : Config) (r : Round) (p : PoolClient) :
    ((∃ after, p.receive cfg r = .ok after) ∧ ∀ h ∈ p.receivedLines cfg r, h.Accounted cfg) ↔
      p.sock = true ∧ ∀ h ∈ p.receivedLines cfg r, h.Sound := by
  simp only [receive, receivedLines, bind, Except.bind, pure, Except.pure, throw, throwThe,
    MonadExceptOf.throw]
  cases hsock : p.sock with
  | false => simp
  | true =>
    cases r.waits with
    | false => simp
    | true =>
      cases r.err with
      | true => simp
      | false =>
        cases r.recv with
        | false => simp
        | true =>
          cases r.received with
          | closed => simp
          | error transient => cases transient <;> simp
          | bytes chunk =>
            simp only [Bool.not_true, Bool.not_false, Bool.false_eq_true, if_false, if_true,
              and_self, true_and]
            split
            · simp
            · exact drain_iff cfg r.later _ _

theorem foldl_queueSubmit (batch : List Submission) (p : PoolClient) :
    (batch.foldl QueueSubmit p).sock = p.sock ∧ (batch.foldl QueueSubmit p).retry_at = p.retry_at ∧
      (batch.foldl QueueSubmit p).next_id = p.next_id := by
  induction batch generalizing p with
  | nil => exact ⟨rfl, rfl, rfl⟩
  | cons s batch ih => exact ih (p.QueueSubmit s)

/-- `Connect` leaves a socket exactly when the login request goes out. -/
theorem connect_sock (cfg : Config) (r : Round) (p : PoolClient) (h : (p.Connect cfg r).2 = true) :
    r.resolves = true ∧ r.connects = true ∧
      (p.Connect cfg r).1.sock = r.delivered p.next_id := by
  unfold Connect at h ⊢
  cases hresolves : r.resolves with
  | false => simp [hresolves] at h
  | true =>
    cases hconnects : r.connects with
    | false => simp [hresolves, hconnects] at h
    | true =>
      refine ⟨rfl, rfl, ?_⟩
      cases hdelivered : r.delivered p.next_id <;>
        simp [SendLine, request, Fail, Close, hdelivered]

theorem attached_sock {cfg : Config} {r : Round} {p q : PoolClient}
    (h : p.attached cfg r = some q) : q.sock = true ↔ LoginSent r p := by
  obtain ⟨hsock, hretry, hid⟩ := foldl_queueSubmit r.solved p
  simp only [attached, hsock, hretry] at h
  cases hopen : p.sock with
  | true =>
    simp only [hopen, Bool.not_true, Bool.false_eq_true, if_false, Option.some.injEq] at h
    subst h
    simp [LoginSent, hopen, hsock]
  | false =>
    simp only [hopen, Bool.not_false, if_true] at h
    split at h
    · cases h
    rename_i hwait
    split at h
    · rename_i hconnected
      obtain ⟨hresolves, hconnects, hdelivered⟩ := connect_sock cfg r _ hconnected
      cases h
      rw [hdelivered, hid]
      simp [LoginSent, hopen, hresolves, hconnects, not_lt.mp hwait]
    · cases h

/-- Where `Pump` returns before reading there is no login request. -/
theorem loginSent_of_not_attached {cfg : Config} {r : Round} {p : PoolClient}
    (h : p.attached cfg r = none) : LoginSent r p := by
  intro hopen hretry hresolves hconnects
  obtain ⟨hsock, hretry', -⟩ := foldl_queueSubmit r.solved p
  simp [attached, hsock, hretry', hopen, not_lt.mpr hretry, Connect, hresolves, hconnects] at h

theorem pump_eq (cfg : Config) (r : Round) (p : PoolClient) :
    (∃ after, p.Pump cfg r = .ok after) ↔
      ∀ q, p.attached cfg r = some q → ∃ after, q.receive cfg r = .ok after := by
  have hthen (q : PoolClient) : (∃ after, (do return (← q.receive cfg r).transmit cfg r :
      Except String PoolClient) = .ok after) ↔ ∃ after, q.receive cfg r = .ok after := by
    cases q.receive cfg r <;> simp [bind, Except.bind, pure, Except.pure]
  unfold Pump attached
  simp only
  split
  · split
    · simp [pure, Except.pure]
    · cases (List.foldl QueueSubmit p r.solved |>.Connect cfg r).2 with
      | true => simpa using hthen _
      | false => simp [pure, Except.pure]
  · simpa using hthen _

theorem pump_iff (cfg : Config) (r : Round) (p : PoolClient) :
    ((∃ after, p.Pump cfg r = .ok after) ∧ ∀ h ∈ p.lines cfg r, h.Accounted cfg) ↔
      LoginSent r p ∧ ∀ h ∈ p.lines cfg r, h.Sound := by
  rw [pump_eq]
  cases hattached : p.attached cfg r with
  | none => simp [lines, hattached, loginSent_of_not_attached hattached]
  | some q =>
    simp only [lines, hattached, Option.some.injEq, forall_eq']
    rw [receive_iff, attached_sock hattached]

end PoolClient

namespace PoolSupervisor

/-- The lines handled over the turns of a run. -/
def handled (cfg : Config) : List Round → PoolSupervisor → List Handled
  | [], _ => []
  | r :: rounds, s =>
    if r.stop then []
    else
      s.pool.lines cfg r ++
        if r.expired then []
        else
          match s.turn cfg r with
          | .ok next => next.handled cfg rounds
          | .error _ => []

/-- In every turn a login request goes out whole and every line is sound. -/
def Safe (cfg : Config) : List Round → PoolSupervisor → Prop
  | [], _ => True
  | r :: rounds, s =>
    r.stop = false →
      PoolClient.LoginSent r s.pool ∧ (∀ h ∈ s.pool.lines cfg r, h.Sound) ∧
        (r.expired = false → ∀ next, s.turn cfg r = .ok next → next.Safe cfg rounds)

theorem turn_iff (cfg : Config) (r : Round) (s : PoolSupervisor) :
    (∃ next, s.turn cfg r = .ok next) ↔ ∃ after, s.pool.Pump cfg r = .ok after := by
  unfold turn
  cases s.pool.Pump cfg r <;> simp [bind, Except.bind, pure, Except.pure]

/-- The supervisor outlives its pool, and every line is accounted for, exactly when no login
request is cut short and no line carries a number it reads as an integer that is not one. -/
theorem survives_iff (cfg : Config) (rounds : List Round) (s : PoolSupervisor) :
    ((∃ after, s.run cfg rounds = .ok after) ∧ ∀ h ∈ s.handled cfg rounds, h.Accounted cfg) ↔
      s.Safe cfg rounds := by
  induction rounds generalizing s with
  | nil => simp [run, handled, Safe]
  | cons r rounds ih =>
    have hpump := PoolClient.pump_iff cfg r s.pool
    simp only [run, handled, Safe, bind, Except.bind, pure, Except.pure]
    cases r.stop with
    | true => simp
    | false =>
      cases hturn : s.turn cfg r with
      | error e =>
        have hnot : ¬ ∃ after, s.pool.Pump cfg r = .ok after := by
          rw [← turn_iff, hturn]
          simp
        have hunsafe := hpump.not.mp fun h => hnot h.1
        simp only [Bool.false_eq_true, if_false, reduceCtorEq, exists_false, false_and, true_implies,
          false_iff, not_and]
        exact fun hlogin hsound => absurd ⟨hlogin, hsound⟩ hunsafe
      | ok next =>
        have hok : ∃ after, s.pool.Pump cfg r = .ok after := (turn_iff cfg r s).mp ⟨next, hturn⟩
        rw [and_iff_right hok] at hpump
        cases r.expired with
        | true => simpa using hpump
        | false =>
          have hrest := ih next
          simp only [Bool.false_eq_true, if_false, List.forall_mem_append, true_implies,
            Except.ok.injEq, forall_eq']
          rw [and_left_comm, hrest, hpump, and_assoc]

/-- A pool that answers the login with an `id` that is no integer. -/
def hostile : Round := { received := .bytes "\x7b\"id\":1.5\x7d\n".toUTF8.toList }

/-- The exception that ends a run. -/
def escaped (after : Except String PoolSupervisor) : Option String :=
  match after with
  | .ok _ => none
  | .error what => some what

theorem hostile_escapes :
    escaped (run ⟨"pool", 3333⟩ [hostile] {}) = some "JSON integer out of range" := by
  decide +kernel

end PoolSupervisor

end pcoin.poolclient
