import PCoin.Forward.Ported

namespace pcoin.forward

open run Routine Pairing

section Answers

variable {i : Inputs} {F : Bool → Bool → Prop}

theorem blank_eq {s : String} (h : plainText s = true) :
    Port.windows.blank s = Port.android.blank s :=
  (of_decide_eq_true h).symm

theorem map_int_eq {n : Option Int} (h : n.all plainInt = true) :
    (n.map Port.windows.int).getD (-1) = (n.map Port.android.int).getD (-1) := by
  cases n with
  | none => rfl
  | some n => exact (of_decide_eq_true h).symm

theorem RawTx.decoded_eq {tx : RawTx} (h : tx.plain = true) :
    tx.decoded .windows = tx.decoded .android := by
  obtain ⟨hvin, hvout⟩ := Bool.and_eq_true_iff.mp h
  have hin : ∀ i ∈ tx.vin, plainText (text i.txid) = true ∧ i.vout.all plainInt = true :=
    fun i hi => Bool.and_eq_true_iff.mp (List.all_eq_true.mp hvin i hi)
  have hout : ∀ o ∈ tx.vout,
      plainText (text o.address) = true ∧ plainCoins (o.value.getD 0) = true :=
    fun o ho => Bool.and_eq_true_iff.mp (List.all_eq_true.mp hvout o ho)
  simp only [RawTx.decoded, DecodedTx.mk.injEq, true_and]
  constructor
  · rw [List.filter_congr fun i hi => by rw [blank_eq (hin i hi).1]]
    refine List.map_congr_left fun i hi => ?_
    rw [map_int_eq (hin i (List.mem_of_mem_filter hi)).2]
  · refine List.map_congr_left fun o ho => ?_
    rw [show Port.windows.toSat (o.value.getD 0) = Port.android.toSat (o.value.getD 0) from
      (of_decide_eq_true (hout o ho).2).symm]

theorem RawTx.decoded_plain {tx : RawTx} (h : tx.plain = true) (port : Port) :
    ∀ out ∈ (tx.decoded port).outputs, plainText out.address = true := by
  intro out hout
  obtain ⟨o, ho, rfl⟩ := List.mem_map.mp hout
  exact (Bool.and_eq_true_iff.mp
    (List.all_eq_true.mp (Bool.and_eq_true_iff.mp h).2 o ho)).1

/-- A transaction whose addresses both engines read alike. -/
def DecodedTx.plain (tx : DecodedTx) : Prop := ∀ out ∈ tx.outputs, plainText out.address = true

theorem agree_decode (hex : String) :
    (ported i).Agree (On F) (fun a b t => (a = b ∧ a.plain) ∧ On F t) (decode .windows hex)
      (decode .android hex) := by
  refine agree_call (fun _ _ h => h) fun reply ⟨a, r, _, hplain⟩ => ?_
  match reply with
  | none => exact agree_fail _ _
  | some tx =>
    exact agree_done fun _ ht =>
      ⟨⟨RawTx.decoded_eq hplain, RawTx.decoded_plain hplain .windows⟩, ht⟩

end Answers

section Adoption

variable {i : Inputs} {F : Bool → Bool → Prop}

/-- What is known where a send under way is looked for. -/
def adopts (adopting _resolving : Bool) : Prop := adopting = true

theorem twin_isMine (address : String) :
    Twin i adopts (isMine .windows address) (isMine .android address) := by
  refine agree_ask (fun _ _ h => h) fun reply ⟨a, r, ha, hplain⟩ => ?_
  cases ha
  match reply with
  | .ok (some info) => exact twin_pure _
  | .ok none => cases hplain
  | .error e => cases hplain

theorem twin_paidTo (txid : String) {outs : List DecodedOut}
    (houts : ∀ out ∈ outs, plainText out.address = true)
    {paid : Int × String} (hpaid : plainText paid.2 = true) :
    Twin i adopts (paidTo .windows txid outs paid) (paidTo .android txid outs paid) := by
  induction outs generalizing paid with
  | nil => exact twin_pure _
  | cons out outs ih =>
    have hout := houts out List.mem_cons_self
    have hrest := fun out h => houts out (List.mem_cons_of_mem _ h)
    unfold paidTo
    rw [blank_eq hout, blank_eq hpaid]
    split
    · exact ih hrest hpaid
    · refine (twin_isMine out.address).bind fun mine => ?_
      cases mine with
      | none => exact agree_fail _ _
      | some mine =>
        cases mine with
        | true => exact ih hrest hpaid
        | false =>
          refine ih hrest ?_
          dsimp only
          split
          · exact hout
          · exact hpaid

/-- The second reading of the clock shows what the first did. -/
theorem agree_nowAgain {α β : Type} {T : α → β → Course → Prop} {f : Int → Int → Engine α}
    {g : Int → Int → Engine β}
    (h : ∀ now, (ported i).Agree (On F) T (f now now) (g now now)) :
    (ported i).Agree (On F) T (nowMs >>= fun now => nowAgain .windows now >>= f now)
      (nowMs >>= fun now => nowAgain .android now >>= g now) := by
  intro s t hst ht hkept
  obtain ⟨store, plain, rfl, hstore⟩ := Course.alike_iff.mp hst
  exact h (i.clock s.clocks) _ _ (Course.alike_iff.mpr ⟨store, plain, rfl, hstore⟩) ht hkept

theorem twin_adoptedRecord (txid hex : String) :
    Twin i adopts (adoptedRecord .windows txid hex) (adoptedRecord .android txid hex) := by
  refine agree_bind (agree_decode hex) fun decoded hdecoded =>
    (twin_paidTo txid hdecoded rfl).bind fun paid => agree_nowAgain fun now =>
      agree_read fun v w hvw => ?_
  have htxid : v.probeTxid = w.probeTxid := (congrArg Store.probeTxid hvw :)
  rw [htxid]
  exact twin_pure _

theorem twin_adoptFrom {txs : List TxEntry} (htxs : ∀ tx ∈ txs, tx.plain = true) :
    Twin i adopts (adoptFrom .windows txs) (adoptFrom .android txs) := by
  induction txs with
  | nil => exact twin_pure _
  | cons tx txs ih =>
    have hrest := ih fun tx h => htxs tx (List.mem_cons_of_mem _ h)
    unfold adoptFrom
    rw [show tx.pending .windows = tx.pending .android from
      (of_decide_eq_true (htxs tx List.mem_cons_self)).symm]
    split
    · refine agree_call (fun _ _ h => h) fun reply hreply => ?_
      cases reply with
      | none => exact hrest
      | some full =>
        obtain ⟨a, r, -, hplain⟩ := hreply
        dsimp only
        rw [blank_eq hplain]
        split
        · exact hrest
        · exact (twin_adoptedRecord _ _).bind fun r => twin_pure _
    · exact hrest

theorem agree_adoptInFlightSend :
    (ported i).Agree (On F) (Same adopts) (adoptInFlightSend .windows)
      (adoptInFlightSend .android) := by
  refine agree_call (G := adopts) (fun _ _ _ => rfl) fun reply ⟨a, r, _, hplain⟩ => ?_
  match reply with
  | none => exact agree_fail _ _
  | some txs => exact twin_adoptFrom (List.all_eq_true.mp hplain)

end Adoption

section Reconciliation

variable {i : Inputs} {F : Bool → Bool → Prop}

def anywhere (_adopting _resolving : Bool) : Prop := True

theorem Twin.anywhere {α : Type} {p q : Engine α}
    (h : (ported i).Agree (On anywhere) (Same F) p q) : Twin i anywhere p q :=
  h.mono (fun _ h => h) fun _ _ _ ht => ⟨ht.1, trivial⟩

theorem twin_releaseStaleLocks :
    Twin i F (releaseStaleLocks .windows) (releaseStaleLocks .android) := by
  refine agree_ask (fun _ _ h => h) fun reply ⟨a, r, _, hplain⟩ => ?_
  match reply with
  | .ok none => exact twin_pure ()
  | .ok (some locked) =>
    dsimp only
    split
    · exact twin_pure ()
    · exact twin_lockunspent true _ _
  | .error e => cases hplain

/-- The tray shows what it has adopted at once. -/
theorem twin_shown (r : SweepRecord) (confirmations : Int) :
    Twin i F (publishPending .windows r confirmations) (pure ()) :=
  twin_of_exec (f := fun s => s.batch [.blockedReason (ForwardBlock.reason .windows .pendingSweep)])
    (fun _ => rfl) (fun _ => rfl) fun _ _ hvw => hvw

theorem twin_adopt : Twin i anywhere (adopt .windows) (adopt .android) := by
  refine agree_then agree_adoptInFlightSend fun r => ?_
  match r with
  | some r =>
    refine agree_log (G := anywhere) (fun _ _ _ => trivial) fun _ => ⟨rfl, ?_⟩
    exact (twin_writeRecord r).bind fun _ => twin_shown r (-1)
  | none =>
    exact twin_releaseStaleLocks.mono (fun _ h => h) fun _ _ _ ht => ⟨ht.1, trivial⟩

theorem twin_resolveRecord (r : SweepRecord) : Twin i anywhere
    (resolveRecord .windows maxResolveDepth r) (resolveRecord .android maxResolveDepth r) :=
  Twin.anywhere (agree_resolveRecord maxResolveDepth r)

theorem twin_reconcileRecord :
    Twin i anywhere (reconcileRecord .windows) (reconcileRecord .android) := by
  refine twin_readRecord.bind fun r => ?_
  match r with
  | none => exact twin_publish _
  | some none => exact twin_adopt
  | some (some r) =>
    dsimp only
    split
    · exact twin_clearRecord.bind fun _ => twin_adopt
    · exact twin_resolveRecord r

theorem twin_reconcile (loaded : Bool) :
    Twin i anywhere (reconcile .windows loaded) (reconcile .android loaded) := by
  refine agree_read fun v w hvw => ?_
  have huntouched : v.untouched = w.untouched := by
    have hstate : v.state = w.state := (congrArg Store.state hvw :)
    rw [Store.untouched, Store.untouched, hstate, intent_record hvw]
  dsimp only
  rw [huntouched]
  split
  · exact twin_publish _
  · split
    · exact (twin_publish _).bind fun _ => agree_fail _ _
    · exact twin_reconcileRecord

theorem twin_reconciled : Twin i F (Routine.act .reconciled .done) (Routine.act .reconciled .done) := by
  refine agree_act fun s t hst ht _ => ?_
  obtain ⟨store, plain, rfl, hstore⟩ := Course.alike_iff.mp hst
  exact ⟨Course.alike_iff.mpr ⟨store, plain, rfl, hstore⟩, On F, ht, twin_pure _⟩

theorem twin_reconcileIf (needed loaded : Bool) :
    Twin i anywhere (reconcileIf .windows needed loaded) (reconcileIf .android needed loaded) := by
  unfold reconcileIf
  split
  · exact (twin_reconcile loaded).bind fun _ => twin_reconciled
  · exact twin_pure ()

/-- The tray reads its file again at the start of a pass. -/
theorem twin_reload : Twin i F (reload .windows) (reload .android) :=
  twin_of_exec (f := fun s => s) (fun _ => rfl) (fun _ => rfl) fun _ _ hvw => hvw

theorem twin_onNodeReady (loaded : Bool) :
    Twin i anywhere (onNodeReady .windows loaded) (onNodeReady .android loaded) := by
  refine Agree.attempt ?_ fun _ _ => (twin_publish _ : Twin i anywhere _ _)
  exact twin_reload.bind fun _ => (twin_reconcile loaded).bind fun _ => twin_reconciled

end Reconciliation

end pcoin.forward
