import PCoin.Forward.Told
import PCoin.Run.Resume

namespace pcoin.forward

open run Routine Pairing

/-- What the store says of the user's intent and of the transaction under way. What is shown only
is left out. -/
def Store.intent (s : Store) : Store :=
  { s with probeAcked := false, lastError := "", blockedReason := "" }

def Field.matters : Field → Bool
  | probeAcked _ => false
  | lastError _ => false
  | blockedReason _ => false
  | _ => true

theorem Store.intent_batch (s : Store) (fs : List Field) :
    (s.batch fs).intent = s.intent.batch (fs.filter Field.matters) := by
  induction fs generalizing s with
  | nil => rfl
  | cons f fs ih =>
    have hset : (s.set f).intent = if f.matters then s.intent.set f else s.intent := by
      cases f <;> rfl
    rw [Store.batch, List.foldl_cons, ← Store.batch, ih, hset]
    cases hf : f.matters <;> simp [hf, Store.batch]

/-- What the user does, on either machine. -/
inductive Order
  | store (address : String) (given : address ≠ "")
  | stop
  | clear

def Order.fields : Port → Store → Order → List Field
  | .android, s, store a given => Command.fields s (.store a given) ++ [.lastError ""]
  | .android, s, stop => Command.fields s .stopForwarding ++ [.lastError ""]
  | .android, _, clear => [.record .empty, .lastError ""]
  | .windows, s, store a _ => (Edit.storeAddress a).fields s ++ Edit.shown.fields s
  | .windows, s, stop => Edit.stopForwarding.fields s
  | .windows, s, clear => Edit.clearStuckRecord.fields s

/-- A stored address asks for a reconciliation as well. -/
def Order.reconciles : Order → Bool
  | store _ _ => true
  | _ => false

/-! ### The answers that both engines read alike -/

def plainInt (n : Int) : Bool := decide (Port.android.int n = Port.windows.int n)

def plainText (s : String) : Bool := decide (Port.android.blank s = Port.windows.blank s)

def plainCoins (x : ℚ) : Bool := decide (Port.android.toSat x = Port.windows.toSat x)

/-- A number of 32 bits is read alike. -/
theorem plainInt_of_bounds {n : Int} (h : -2 ^ 31 ≤ n ∧ n < 2 ^ 31) : plainInt n = true := by
  simp only [plainInt, Port.int, if_pos h, decide_true]

/-- A text is read alike unless it is blank and not empty. -/
theorem plainText_iff (s : String) : plainText s = true ↔ (isBlank s = true → s = "") := by
  have hempty : s.isEmpty = true ↔ s = "" := String.isEmpty_iff
  rw [plainText, decide_eq_true_iff]
  change isBlank s = s.isEmpty ↔ _
  refine ⟨fun h hblank => hempty.mp (h ▸ hblank), fun h => Bool.eq_iff_iff.mpr
    ⟨fun hblank => hempty.mpr (h hblank), fun hs => ?_⟩⟩
  rw [hempty.mp hs]
  rfl

/-- An amount is read alike unless it is below zero. -/
theorem plainCoins_of_nonneg {x : ℚ} (h : 0 ≤ x) : plainCoins x = true := by
  simp only [plainCoins, Port.toSat, if_pos h, decide_true]

/-- Both engines take the entry for a send under way, or both do not. -/
def TxEntry.plain (tx : TxEntry) : Bool := decide (tx.pending .android = tx.pending .windows)

def RawIn.plain (i : RawIn) : Bool := plainText (text i.txid) && i.vout.all plainInt

def RawOut.plain (o : RawOut) : Bool := plainText (text o.address) && plainCoins (o.value.getD 0)

def RawTx.plain (tx : RawTx) : Bool := tx.vin.all RawIn.plain && tx.vout.all RawOut.plain

def Unspent.plain (u : Unspent) : Bool :=
  plainText (text u.txid) && u.vout.all plainInt && plainCoins (u.amount.getD 0)

def BuiltTx.plain (b : BuiltTx) : Bool := plainText (text b.hex) && plainText (text b.txid)

/-- An answer that both engines read alike. `adopting` is whether it is asked about a send under
way, `resolving` whether about the record. The codes of errors are taken to fit 32 bits here, and
amounts and depths 64. -/
def plainReply (adopting resolving : Bool) : (c : Call) → Except Failure c.Reply → Bool
  | .listtransactions, .ok (some txs) => List.all txs TxEntry.plain
  | .gettransaction _ verbose, .ok (some tx) =>
    if verbose then plainText (text tx.hex) else tx.confirmations.all plainInt
  | .decoderawtransaction _, .ok (some tx) => tx.plain
  | .getaddressinfo _, .ok (some _) => true
  | .getaddressinfo _, _ => !adopting
  | .validateaddress _, .ok (some v) => v.witness_version.all plainInt
  | .listunspent, .ok (some us) => List.all us Unspent.plain
  | .generated _, .error _ => false
  | .sendall _ _, .ok (some b) => b.plain
  | .send _ _ _, .ok (some b) => b.plain
  | .testmempoolaccept _, .ok (some a) => a.allowed.getD false || plainText (text a.rejectReason)
  | .testmempoolaccept _, .error _ => false
  | .listlockunspent, .error _ => false
  | .lockunspent unlock outs, _ => !(unlock && outs.isEmpty)
  | .sendrawtransaction _, .error e => !resolving || !e.transport
  | _, _ => true

/-- The observation erases no sighting of a conflict. -/
def plainLog : Decided → Bool
  | .resolved obs r _ _ => !clearsConflict .android obs r
  | _ => true

def Decided.resolves : Decided → Bool
  | .resolved _ _ _ _ => true
  | _ => false

/-! ### The course of an engine -/

/-- What an engine meets: the answers to its calls by their number, the readings of its clock, and
what the user does before a call is answered. A clock that is read again at once shows the same. -/
structure Inputs where
  call : Nat → (c : Call) → Except Failure c.Reply
  clock : Nat → Int
  orders : Nat → List Order

/-- An engine over its store, with what it has taken of its inputs and what it has decided. -/
structure Course where
  store : Store
  calls : Nat := 0
  clocks : Nat := 0
  decided : List Decided := []
  reconciled : Bool := false
  /-- A reconciliation, and an evaluation, that was asked for. -/
  requested : Bool := false
  forced : Bool := false
  lastHeight : Int := -1
  lastMs : Int := 0
  /-- Whether the engine is in a pass, not at a bring-up. -/
  passing : Bool := false
  adopting : Bool := false
  resolving : Bool := false
  plain : Bool := true

def Call.adopts (adopting : Bool) : Call → Bool
  | .listtransactions => true
  | .validateaddress _ => false
  | .sendall _ _ => false
  | .send _ _ _ => false
  | _ => adopting

namespace Course

def ordered (port : Port) (s : Course) (o : Order) : Course :=
  { s with store := s.store.batch (o.fields port s.store)
           requested := s.requested || o.reconciles, forced := true }

def asked (port : Port) (i : Inputs) (s : Course) (c : Call) : Course :=
  let t := (i.orders s.calls).foldl (ordered port) s
  { t with calls := t.calls + 1, adopting := c.adopts t.adopting
           plain := t.plain && plainReply t.adopting t.resolving c (i.call t.calls c) }

def answer (port : Port) (i : Inputs) (s : Course) : (a : Act) → a.Reply × Course
  | .call c => (i.call s.calls c, s.asked port i c)
  | .now false => (i.clock s.clocks, { s with clocks := s.clocks + 1 })
  | .now true => (i.clock (s.clocks - 1), s)
  | .read => (⟨s.store, false⟩, s)
  | .write fs => ((), { s with store := s.store.batch fs })
  | .reconciled => ((), { s with reconciled := true, requested := s.requested && !s.passing })
  | .log d => ((), { s with
      decided := s.decided ++ [d]
      resolving := d.resolves
      plain := s.plain && plainLog d })
  | .reload => ((), s)
  | .lock => ((), s)
  | .unlock => ((), s)
  | .publish _ => ((), s)

/-- A course without what is shown only. -/
def intent (s : Course) : Course := { s with store := s.store.intent, plain := true }

variable {s t : Course} {i : Inputs}

/-- Courses that are alike differ in what is shown only. -/
theorem alike_iff : s.intent = t.intent ↔
    ∃ store plain, t = { s with store := store, plain := plain } ∧
      s.store.intent = store.intent := by
  constructor
  · intro h
    refine ⟨t.store, t.plain, ?_, congrArg Course.store h⟩
    cases s
    cases t
    simp only [intent, Course.mk.injEq] at h ⊢
    simp_all
  · rintro ⟨store, plain, rfl, h⟩
    simp [intent, h]

theorem ordered_plain (port : Port) (s : Course) (o : Order) : (s.ordered port o).plain = s.plain :=
  rfl

theorem ordered_all_plain (port : Port) (os : List Order) (s : Course) :
    (os.foldl (ordered port) s).plain = s.plain := by
  induction os generalizing s with
  | nil => rfl
  | cons o os ih => exact ih _

/-- An order leaves on both machines what matters the same. -/
theorem Order.fields_alike {v w : Store} (h : v.intent = w.intent) (o : Order) :
    (v.batch (o.fields .windows v)).intent = (w.batch (o.fields .android w)).intent := by
  have hrecord : v.record = w.record := (congrArg Store.record h :)
  rw [Store.intent_batch, Store.intent_batch, h]
  congr 1
  cases o with
  | store a given =>
    by_cases hempty : w.record = .empty <;>
    · simp only [Order.fields, Edit.fields, Command.fields, hrecord, hempty, ne_eq, not_true_eq_false,
        not_false_eq_true, if_true, if_false]
      rfl
  | stop => rfl
  | clear => rfl

theorem ordered_alike (h : s.intent = t.intent) (o : Order) :
    (s.ordered .windows o).intent = (t.ordered .android o).intent := by
  obtain ⟨store, plain, rfl, hstore⟩ := alike_iff.mp h
  exact alike_iff.mpr ⟨_, plain, rfl, Order.fields_alike hstore o⟩

theorem ordered_all_alike (h : s.intent = t.intent) (os : List Order) :
    (os.foldl (ordered .windows) s).intent = (os.foldl (ordered .android) t).intent := by
  induction os generalizing s t with
  | nil => exact h
  | cons o os ih => exact ih (ordered_alike h o)

/-- What the orders leave alone. -/
theorem ordered_all_flags (port : Port) (os : List Order) (s : Course) :
    (os.foldl (ordered port) s).calls = s.calls ∧
      (os.foldl (ordered port) s).adopting = s.adopting ∧
      (os.foldl (ordered port) s).resolving = s.resolving := by
  induction os generalizing s with
  | nil => exact ⟨rfl, rfl, rfl⟩
  | cons o os ih => exact ih _

end Course

/-- The two engines with the same inputs. -/
def ported (i : Inputs) : Pairing Act Act.Reply Course where
  left := Course.answer .windows i
  right := Course.answer .android i
  alike s t := s.intent = t.intent
  kept s := s.plain = true
  kept_of s a h := by
    cases a with
    | call c =>
      have hplain := (Bool.and_eq_true_iff.mp h).1
      exact (Course.ordered_all_plain .android _ s).symm.trans hplain
    | log d => exact (Bool.and_eq_true_iff.mp h).1
    | now again => cases again <;> exact h
    | _ => exact h

/-- What is known of where the engine is. -/
def On (F : Bool → Bool → Prop) (t : Course) : Prop := F t.adopting t.resolving

/-- The same result, at a known place. -/
def Same {α : Type} (F : Bool → Bool → Prop) (a b : α) (t : Course) : Prop := a = b ∧ On F t

section Rules

variable {i : Inputs} {α β : Type} {F G : Bool → Bool → Prop} {T : α → β → Course → Prop}

/-- Two calls, each with its own continuation, that the second engine reads alike. -/
theorem agree_calls {c d : Call} {k : Except Failure c.Reply → Engine α}
    {l : Except Failure d.Reply → Engine β}
    (hadopts : ∀ a, c.adopts a = d.adopts a) (hF : ∀ a r, F a r → G (d.adopts a) r)
    (h : ∀ n, (∃ a r, F a r ∧ plainReply a r d (i.call n d) = true) →
      (ported i).Agree (On G) T (k (i.call n c)) (l (i.call n d))) :
    (ported i).Agree (On F) T (.act (.call c) k) (.act (.call d) l) := by
  refine agree_act fun s t hst ht hkept => ?_
  have horders := Course.ordered_all_alike hst (i.orders s.calls)
  have hcalls : s.calls = t.calls := (congrArg Course.calls hst :)
  obtain ⟨hcallsAfter, hadopting, hresolving⟩ :=
    Course.ordered_all_flags .android (i.orders t.calls) t
  refine ⟨?_, On G, ?_, ?_⟩
  · obtain ⟨store, plain, heq, hstore⟩ := Course.alike_iff.mp horders
    change (s.asked .windows i c).intent = (t.asked .android i d).intent
    simp only [Course.asked, ← hcalls, heq, hadopts]
    exact Course.alike_iff.mpr ⟨store, _, rfl, hstore⟩
  · have hnow := hF _ _ ht
    rw [← hadopting, ← hresolving] at hnow
    exact hnow
  · change (ported i).Agree (On G) T (k (i.call s.calls c)) (l (i.call t.calls d))
    rw [hcalls]
    refine h t.calls ⟨t.adopting, t.resolving, ht, ?_⟩
    have hplain := (Bool.and_eq_true_iff.mp hkept).2
    rwa [hcallsAfter, hadopting, hresolving] at hplain

theorem agree_ask {c : Call} {f : Except Failure c.Reply → Engine α}
    {g : Except Failure c.Reply → Engine β} (hF : ∀ a r, F a r → G (c.adopts a) r)
    (h : ∀ reply, (∃ a r, F a r ∧ plainReply a r c reply = true) →
      (ported i).Agree (On G) T (f reply) (g reply)) :
    (ported i).Agree (On F) T (ask c >>= f) (ask c >>= g) :=
  agree_calls (fun _ => rfl) hF fun n hplain => h (i.call n c) hplain

/-- A call whose failure is thrown. -/
theorem agree_call {c : Call} {f : c.Reply → Engine α} {g : c.Reply → Engine β}
    (hF : ∀ a r, F a r → G (c.adopts a) r)
    (h : ∀ reply, (∃ a r, F a r ∧ plainReply a r c (.ok reply) = true) →
      (ported i).Agree (On G) T (f reply) (g reply)) :
    (ported i).Agree (On F) T (call c >>= f) (call c >>= g) := by
  refine agree_calls (fun _ => rfl) hF fun n hplain => ?_
  cases hreply : i.call n c with
  | error e => exact agree_fail e e
  | ok reply => exact h reply (hreply ▸ hplain)

/-- Actions of the two engines that leave them alike, and where they are. -/
theorem agree_acts {a b : Act} {k : a.Reply → Engine α} {l : b.Reply → Engine β}
    (halike : ∀ s t : Course, s.intent = t.intent →
      (s.answer .windows i a).2.intent = (t.answer .android i b).2.intent)
    (hflags : ∀ t : Course, (t.answer .android i b).2.adopting = t.adopting ∧
      (t.answer .android i b).2.resolving = t.resolving)
    (h : ∀ s t : Course, s.intent = t.intent → (ported i).Agree (On F) T
      (k (s.answer .windows i a).1) (l (t.answer .android i b).1)) :
    (ported i).Agree (On F) T (.act a k) (.act b l) := by
  refine agree_act fun s t hst ht _ => ⟨halike s t hst, On F, ?_, h s t hst⟩
  obtain ⟨hadopting, hresolving⟩ := hflags t
  simp only [On, ported, hadopting, hresolving]
  exact ht

/-- The same decision of both engines, if the second overlooks nothing in it. -/
theorem agree_log {d e : Decided} {f : Unit → Engine α} {g : Unit → Engine β}
    (hF : ∀ a r, F a r → G a e.resolves)
    (h : plainLog e = true → d = e ∧ (ported i).Agree (On G) T (f ()) (g ())) :
    (ported i).Agree (On F) T (log d >>= f) (log e >>= g) := by
  refine agree_act fun s t hst ht hkept => ?_
  obtain ⟨rfl, hagree⟩ := h (Bool.and_eq_true_iff.mp hkept).2
  obtain ⟨store, plain, rfl, hstore⟩ := Course.alike_iff.mp hst
  exact ⟨Course.alike_iff.mpr ⟨store, _, rfl, hstore⟩, On G, hF _ _ ht, hagree⟩

theorem agree_write {fs gs : List Field} (h : fs.filter Field.matters = gs.filter Field.matters) :
    (ported i).Agree (On F) (fun _ _ => On F) (write fs) (write gs) := by
  refine agree_acts (fun s t hst => ?_) (fun t => ⟨rfl, rfl⟩)
    fun _ _ _ => agree_done fun _ ht => ht
  obtain ⟨store, plain, rfl, hstore⟩ := Course.alike_iff.mp hst
  refine Course.alike_iff.mpr ⟨_, plain, rfl, ?_⟩
  change (s.store.batch fs).intent = (store.batch gs).intent
  rw [Store.intent_batch, Store.intent_batch, h, hstore]

theorem agree_read {f : View → Engine α} {g : View → Engine β}
    (h : ∀ v w : Store, v.intent = w.intent →
      (ported i).Agree (On F) T (f ⟨v, false⟩) (g ⟨w, false⟩)) :
    (ported i).Agree (On F) T (read >>= f) (read >>= g) :=
  agree_acts (fun _ _ hst => hst) (fun _ => ⟨rfl, rfl⟩)
    fun s t hst => h s.store t.store (congrArg Course.store hst)

end Rules

end pcoin.forward
