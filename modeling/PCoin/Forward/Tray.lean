import PCoin.Forward.Asks
import PCoin.Run.Basic

namespace pcoin.forward

open run

/-- What the user does in the forwarding dialog. `shown` is what `StoreAddress` clears last. -/
inductive Edit
  | storeAddress (address : String)
  | shown
  | stopForwarding
  | clearStuckRecord
  | acknowledgeProbe
deriving DecidableEq

/-- The edit is made under `INTENT_LOCK`. -/
def Edit.locks : Edit → Bool
  | storeAddress _ => true
  | shown => false
  | stopForwarding => true
  | clearStuckRecord => true
  | acknowledgeProbe => false

def Edit.fields (s : Store) : Edit → List Field
  | storeAddress a =>
    if s.record ≠ .empty then [.pendingAddress a]
    else .address a :: .pendingAddress "" :: Port.windows.reprobe
  | shown => [.lastError "", .blockedReason ""]
  | stopForwarding =>
    [.address "", .pendingAddress "", .probeTxid "", .probeAcked false, .probeConfirmed false,
      .state .holding, .lastError "", .blockedReason ""]
  | clearStuckRecord => [.record .empty, .lastError ""]
  | acknowledgeProbe => [.probeAcked true]

/-- Two versions of one record. -/
def Blob.sameTx : Blob → Blob → Bool
  | record r, record q => decide (r.txid = q.txid)
  | garbled, garbled => true
  | _, _ => false

/-- A tray process: whether it runs, its `ForwardStore`, whether the engine holds `INTENT_LOCK`,
and the rest of the engine's work. -/
structure Tray where
  up : Bool := false
  mem : View := {}
  held : Bool := false
  running : Option (Engine Unit) := none

/-- `Reload`. A file that cannot be read or parsed leaves the memory as it was. -/
def View.reload (file : Option Store) (reads : Bool) (v : View) : View :=
  match file with
  | none => { v with unreadable := false }
  | some s => if reads then ⟨s, false⟩ else { v with unreadable := true }

/-- A setter or a batch, in memory. -/
def View.assign (v : View) (fs : List Field) : View := { v with store := v.store.batch fs }

/-- What an action meets: the node, the clock, and whether the file can be read. -/
structure Oracle where
  call : (c : Call) → Except Failure c.Reply
  clock : Int
  reads : Bool

def Oracle.reply (o : Oracle) (v : View) : (a : Act) → a.Reply
  | .call c => o.call c
  | .now _ => o.clock
  | .read => v
  | .write _ => ()
  | .reload => ()
  | .lock => ()
  | .unlock => ()
  | .reconciled => ()
  | .publish _ => ()
  | .log _ => ()

/-- The memory after an action. -/
def View.after (file : Option Store) (o : Oracle) (v : View) : Act → View
  | .write fs => v.assign fs
  | .reload => v.reload file o.reads
  | _ => v

/-- The file after an action: every write saves the whole memory. -/
def fileAfter (file : Option Store) (v : View) : Act → Option Store
  | .write fs => some (v.assign fs).store
  | _ => file

def heldAfter (held : Bool) : Act → Bool
  | .lock => true
  | .unlock => false
  | _ => held

/-- What is left to do of a program that may be at its end. -/
def remaining : Engine Unit → Option (Engine Unit)
  | .act a k => some (.act a k)
  | _ => none

inductive Event
  | launch (reads : Bool)
  | exit
  | evaluate (needed : Bool) (stats : NodeStats) (loaded alive : Bool)
  | nodeReady (loaded : Bool)
  | resume (o : Oracle)
  | edit (e : Edit)

/-- The engine takes the action it is at. -/
def Tray.resume (file : Option Store) (o : Oracle) (t : Tray) : Option (Tray × Option Store) :=
  match t.running with
  | some (.act a k) =>
    some ({ t with mem := t.mem.after file o a, held := heldAfter t.held a,
                   running := remaining (k (o.reply t.mem a)) }, fileAfter file t.mem a)
  | _ => none

def Tray.start (t : Tray) (p : Engine Unit) : Tray := { t with running := remaining p }

/-- An event of one process, over the file. -/
def Tray.step (file : Option Store) (t : Tray) : Event → Option (Tray × Option Store)
  | .launch reads =>
    if t.up then none else some ({ up := true, mem := View.reload file reads {} }, file)
  | .exit => if t.up then some ({}, file) else none
  | .evaluate needed stats loaded alive =>
    if t.up ∧ t.running.isNone then
      some (t.start (runEvaluation .windows needed stats loaded alive), file)
    else none
  | .nodeReady loaded =>
    if t.up ∧ t.running.isNone then some (t.start (onNodeReady .windows loaded), file) else none
  | .resume o => if t.up then t.resume file o else none
  | .edit e =>
    if t.up ∧ ¬(e.locks ∧ t.held) then
      some ({ t with mem := t.mem.assign (e.fields t.mem.store) },
        some (t.mem.assign (e.fields t.mem.store)).store)
    else none

/-- What each event makes of a process and of the file. -/
inductive Tray.Took (file : Option Store) (t : Tray) : Event → Tray → Option Store → Prop
  | launch (reads : Bool) : Took file t (.launch reads)
      { up := true, mem := View.reload file reads {} } file
  | exit : t.up = true → Took file t .exit {} file
  | evaluate (needed : Bool) (stats : NodeStats) (loaded alive : Bool) :
      t.up = true → t.running = none → Took file t (.evaluate needed stats loaded alive)
        (t.start (runEvaluation .windows needed stats loaded alive)) file
  | nodeReady (loaded : Bool) : t.up = true → t.running = none →
      Took file t (.nodeReady loaded) (t.start (onNodeReady .windows loaded)) file
  | resume (o : Oracle) {a : Act} {k : a.Reply → Engine Unit} :
      t.up = true → t.running = some (.act a k) → Took file t (.resume o)
        { t with mem := t.mem.after file o a, held := heldAfter t.held a,
                 running := remaining (k (o.reply t.mem a)) } (fileAfter file t.mem a)
  | edit (e : Edit) : t.up = true → Took file t (.edit e)
      { t with mem := t.mem.assign (e.fields t.mem.store) }
      (some (t.mem.assign (e.fields t.mem.store)).store)

theorem Tray.took_of_step {file file' : Option Store} {t u : Tray} {e : Event}
    (hstep : t.step file e = some (u, file')) : t.Took file e u file' := by
  cases e with
  | launch reads =>
    simp only [Tray.step] at hstep
    split at hstep
    · cases hstep
    · cases hstep
      exact .launch reads
  | exit =>
    simp only [Tray.step] at hstep
    split at hstep
    next hup =>
      cases hstep
      exact .exit hup
    · cases hstep
  | evaluate needed stats loaded alive =>
    simp only [Tray.step] at hstep
    split at hstep
    next h =>
      cases hstep
      exact .evaluate needed stats loaded alive h.1 (Option.isNone_iff_eq_none.mp h.2)
    · cases hstep
  | nodeReady loaded =>
    simp only [Tray.step] at hstep
    split at hstep
    next h =>
      cases hstep
      exact .nodeReady loaded h.1 (Option.isNone_iff_eq_none.mp h.2)
    · cases hstep
  | resume o =>
    simp only [Tray.step, Tray.resume] at hstep
    split at hstep
    next hup =>
      split at hstep
      next a k hrun =>
        cases hstep
        exact .resume o hup hrun
      · cases hstep
    · cases hstep
  | edit e =>
    simp only [Tray.step] at hstep
    split at hstep
    next h =>
      cases hstep
      exact .edit e h.1
    · cases hstep

theorem Tray.up_of_step {file file' : Option Store} {t u : Tray} {e : Event}
    (hstep : t.step file e = some (u, file')) : t.up = true ∨ ∃ reads, e = .launch reads := by
  cases Tray.took_of_step hstep with
  | launch reads => exact .inr ⟨reads, rfl⟩
  | exit hup | evaluate _ _ _ _ hup | nodeReady _ hup | resume _ hup | edit _ hup => exact .inl hup

/-- The fields a process is about to save, if the event saves. -/
def Tray.saves (t : Tray) : Event → Option (List Field)
  | .resume _ => match t.running with
    | some (.act (.write fs) _) => some fs
    | _ => none
  | .edit e => some (e.fields t.mem.store)
  | _ => none

def Call.builds : Call → Bool
  | .sendall _ _ => true
  | .send _ _ _ => true
  | _ => false

/-- The event has the node build a transaction. -/
def Tray.builds (t : Tray) : Event → Bool
  | .resume _ => match t.running with
    | some (.act (.call c) _) => c.builds
    | _ => false
  | _ => false

end pcoin.forward
