import PCoin.Bot.Credit

namespace pcoin.bot.watch

/-- What no write of the watcher changes in a row. -/
structure Same (r r' : Row) : Prop where
  id : r'.id = r.id
  key : r'.key = r.key
  chat_id : r'.chat_id = r.chat_id
  amount_sat : r'.amount_sat = r.amount_sat

theorem Same.ledgerKey {r r' : Row} (h : Same r r') : r'.ledgerKey = r.ledgerKey := by
  obtain ⟨htxid, haddress⟩ := Prod.mk.inj h.key
  rw [Row.ledgerKey, htxid, haddress, Row.ledgerKey]

/-- What holds of the rows and of the tables that crediting depends on. -/
structure Inv (s : State) : Prop where
  ids : (s.rows.map Row.id).Nodup
  keys : (s.rows.map Row.key).Nodup
  rows : ∀ r ∈ s.rows, isTxid r.txid = true ∧ 0 < r.amount_sat ∧
    (⟨r.address, r.chat_id⟩ : Issued) ∈ s.issued
  issued : ∀ i ∈ s.issued, i.address ∈ s.db.addresses.map Address.address ∧
    ∃ c, i.chat_id = some c ∧ s.db.Has c
  carry : ∀ a ∈ s.db.addresses, 0 ≤ a.remainder_nano_usd
  ledger : ∀ l ∈ s.db.ledger, (∃ r ∈ s.rows, r.status = .credited ∧ l.idem_key = r.ledgerKey) ∨
    ∃ text, l.idem_key = "rebate:" ++ text

/-- A transaction and an address tell the key, as all transaction ids are of one length. -/
theorem key_of_ledgerKey {r r' : Row} (hr : isTxid r.txid = true) (hr' : isTxid r'.txid = true)
    (h : r.ledgerKey = r'.ledgerKey) : r.key = r'.key := by
  have hlength (t : String) (ht : isTxid t = true) : t.toList.length = 64 := by
    simp only [isTxid, Bool.and_eq_true, decide_eq_true_eq] at ht
    exact ht.1
  have htext := congrArg String.toList h
  simp only [Row.ledgerKey, String.toList_append, List.append_assoc] at htext
  have hrest := List.append_cancel_left htext
  obtain ⟨htxid, haddress⟩ := List.append_inj hrest
    ((hlength _ hr).trans (hlength _ hr').symm)
  have haddress := List.append_cancel_left haddress
  rw [Row.key, Row.key, String.toList_injective htxid, String.toList_injective haddress]

section

variable {cfg : Config} {t : Tick} {s s' : State} {dep : Row} {o : Outcome}

theorem rows_set (s : State) (id : Nat) (f : Row → Row) :
    (s.set id f).rows = table.update Row.id id f s.rows := rfl

theorem map_set {β : Type*} {f : Row → Row} {c : Row → β} (hf : ∀ r, c (f r) = c r) (s : State)
    (id : Nat) : (s.set id f).rows.map c = s.rows.map c :=
  table.map_update fun r _ _ => hf r

/-- The rows after a write to one that is not credited. -/
theorem Inv.write (h : Inv s) {f : Row → Row} (hf : ∀ r, Same r (f r)) (hdep : dep ∈ s.rows)
    (hopen : dep.status ≠ .credited) : Inv (s.set dep.id f) := by
  refine ⟨?_, ?_, fun r hr => ?_, h.issued, h.carry, fun l hl => ?_⟩
  · rw [map_set fun r => (hf r).id]
    exact h.ids
  · rw [map_set fun r => (hf r).key]
    exact h.keys
  · obtain ⟨x, hx, rfl⟩ := List.mem_map.mp hr
    obtain ⟨htxid, hamount, hissued⟩ := h.rows x hx
    split
    · obtain ⟨htx, haddress⟩ := Prod.mk.inj (hf x).key
      rw [htx, (hf x).amount_sat, haddress, (hf x).chat_id]
      exact ⟨htxid, hamount, hissued⟩
    · exact ⟨htxid, hamount, hissued⟩
  · obtain ⟨r, hr, hstatus, hkey⟩ | hrebate := h.ledger l hl
    · have hne : r.id ≠ dep.id := fun heq =>
        hopen (List.inj_on_of_nodup_map h.ids hr hdep heq ▸ hstatus)
      exact .inl ⟨r, table.mem_update_of_ne hr hne, hstatus, hkey⟩
    · exact .inr hrebate

theorem Inv.free (h : Inv s) (hdep : dep ∈ s.rows) (hopen : dep.status ≠ .credited) :
    dep.ledgerKey ∉ s.view.ledger.map LedgerRow.idem_key := by
  intro hmem
  obtain ⟨l, hl, hkey⟩ := List.mem_map.mp hmem
  obtain ⟨r, hr, hstatus, hr'⟩ | ⟨text, hrebate⟩ := h.ledger l hl
  · have hsame := key_of_ledgerKey (h.rows dep hdep).1 (h.rows r hr).1 (hkey.symm.trans hr')
    exact hopen (List.inj_on_of_nodup_map h.keys hdep hr hsame ▸ hstatus)
  · have htext := congrArg String.toList (hkey.symm.trans hrebate)
    simp [Row.ledgerKey, String.toList_append] at htext

theorem find_view (h : Inv s) (hdep : dep ∈ s.rows) :
    table.find Deposit.id dep.id s.view.deposits = some dep.deposit := by
  refine table.find_eq_some (r := dep.deposit) ?_ (List.mem_map_of_mem hdep)
  rw [State.view, List.map_map]
  exact h.ids

/-- Crediting an open row, and nothing but crediting it. -/
theorem Inv.credit (h : Inv s) (hdep : dep ∈ s.rows) (hopen : dep.status ≠ .credited) {db : Db}
    (hcredits : Credits dep.deposit s.view db) (micro rateE12 now : Int) :
    Inv ({ s with db := db }.set dep.id (Row.stamp micro rateE12 now)) := by
  have hwrite := h.write (f := Row.stamp micro rateE12 now) (fun r => ⟨rfl, rfl, rfl, rfl⟩) hdep hopen
  have hself : dep.stamp micro rateE12 now ∈
      table.update Row.id dep.id (Row.stamp micro rateE12 now) s.rows := table.mem_update_self hdep
  refine ⟨hwrite.ids, hwrite.keys, hwrite.rows, fun i hi => ?_, hcredits.carry h.carry, fun l hl => ?_⟩
  · obtain ⟨haddress, c, hc, hhas⟩ := h.issued i hi
    refine ⟨?_, c, hc, ?_⟩
    · exact hcredits.addresses.symm ▸ haddress
    · change c ∈ db.users.map User.chat_id
      rw [hcredits.users]
      exact hhas
  · obtain hl | hkey | hrebate := hcredits.ledger l hl
    · exact hwrite.ledger l hl
    · exact .inl ⟨_, hself, rfl, hkey⟩
    · exact .inr ⟨dep.txid ++ ":" ++ dep.address, by
        rw [hrebate]
        simp only [Deposit.rebateKey, Row.deposit, String.append_assoc]⟩

/-- `creditDepositSafe` credits an open row. -/
theorem creditDepositSafe_ok (h : Inv s) (hdep : dep ∈ s.rows) (hopen : dep.status ≠ .credited)
    {rateE12 : Int} (hrate : 0 < rateE12) (now : Int) :
    ∃ db micro, creditDepositSafe cfg s dep rateE12 now =
      .ok ({ s with db := db }.set dep.id (Row.stamp micro rateE12 now), .credited) := by
  obtain ⟨-, hamount, hissued⟩ := h.rows dep hdep
  obtain ⟨haddress, c, hchat, hhas⟩ := h.issued _ hissued
  obtain ⟨addr, haddr⟩ := Option.isSome_iff_exists.mp (table.isSome_find.mpr haddress)
  obtain ⟨db, micro, dust, remainder, granted, hcredit⟩ :=
    @creditDeposit_ok s.view dep.deposit addr now rateE12 cfg.minDepositSat c cfg.rebate dep.id hrate
      (find_view h hdep) (decide_eq_false hopen) haddr hamount.le
      (h.carry addr (table.find_spec haddr).1) hchat hhas (h.free hdep hopen)
  exact ⟨db, micro, by rw [creditDepositSafe, hcredit]⟩

theorem set_set (s : State) (id : Nat) {f g : Row → Row} (hf : ∀ r, (f r).id = r.id) :
    (s.set id f).set id g = s.set id fun r => g (f r) := by
  have hrows : ((s.rows.map fun r => if r.id = id then f r else r).map fun r =>
      if r.id = id then g r else r) = s.rows.map fun r => if r.id = id then g (f r) else r := by
    rw [List.map_map]
    refine List.map_congr_left fun r _ => ?_
    by_cases hr : r.id = id
    · simp [hr, hf r]
    · simp [hr]
  simp only [State.set, table.update, hrows]

/-- What a re-drive that does not throw can do to the rows. -/
theorem redriveDeposit_cases (hop : redriveDeposit cfg t s dep = .ok (s', o)) :
    s' = s ∨ (∃ f : Row → Row, (∀ r, Same r (f r)) ∧ s' = s.set dep.id f) ∨
      ∃ rateE12, creditDepositSafe cfg s dep rateE12 t.now = .ok (s', o) := by
  have hset (f : Row → Row) (hf : ∀ r, Same r (f r)) (o' : Outcome)
      (h : (Except.ok (s.set dep.id f, o') : Except Stop (State × Outcome)) = .ok (s', o)) :
      s' = s ∨ (∃ f : Row → Row, (∀ r, Same r (f r)) ∧ s' = s.set dep.id f) ∨
        ∃ rateE12, creditDepositSafe cfg s dep rateE12 t.now = .ok (s', o) :=
    .inr (.inl ⟨f, hf, (Prod.mk.inj (Except.ok.inj h)).1.symm⟩)
  have hsame (r : Row) (status : Status) (height : Option Int) (ticks : Nat) :
      Same r { r with status := status, block_height := height, unconfirmed_known_ticks := ticks } :=
    ⟨rfl, rfl, rfl, rfl⟩
  unfold redriveDeposit at hop
  split at hop
  · cases hop
  · exact .inl (Prod.mk.inj (Except.ok.inj hop)).1.symm
  · split at hop
    · unfold unconfirmed at hop
      dsimp only at hop
      split_ifs at hop
      · rw [set_set] at hop
        · exact hset _ (fun r => hsame r _ _ _) _ hop
        · exact fun _ => rfl
      · exact hset _ (fun r => hsame r _ _ _) _ hop
      · exact .inl (Prod.mk.inj (Except.ok.inj hop)).1.symm
    · split at hop
      · exact hset _ (fun r => hsame r _ _ _) _ hop
      split at hop
      · exact hset _ (fun r => hsame r _ _ _) _ hop
      split at hop
      · exact hset _ (fun r => hsame r _ _ _) _ hop
      · exact hset _ (fun r => hsame r _ _ _) _ hop
      split at hop
      · exact hset _ (fun r => hsame r _ _ _) _ hop
      split at hop
      · exact hset _ (fun r => hsame r _ _ _) _ hop
      split at hop
      · exact hset _ (fun r => hsame r _ _ _) _ hop
      split at hop
      · exact hset _ (fun r => hsame r _ _ _) _ hop
      split at hop
      · split at hop
        · exact hset _ (fun r => hsame r _ _ _) _ hop
        split at hop
        · cases hop
        · exact hset _ (fun r => hsame r _ _ _) _ hop
        · split at hop
          · exact hset _ (fun r => hsame r _ _ _) _ hop
          · exact .inr (.inr ⟨_, hop⟩)
      · exact .inr (.inr ⟨_, hop⟩)

/-- What a re-drive makes of the database: a write to the row it is for. -/
structure Redriven (s s' : State) (id : Nat) : Prop where
  inv : Inv s'
  issued : s'.issued = s.issued
  rows : ∃ f : Row → Row, (∀ r, Same r (f r)) ∧ s'.rows = table.update Row.id id f s.rows

theorem Redriven.refl (h : Inv s) (id : Nat) : Redriven s s id :=
  ⟨h, rfl, fun r => r, fun _ => ⟨rfl, rfl, rfl, rfl⟩, by simp [table.update]⟩

theorem Inv.redriven_set (h : Inv s) (hdep : dep ∈ s.rows) (hopen : dep.status ≠ .credited)
    {f : Row → Row} (hf : ∀ r, Same r (f r)) : Redriven s (s.set dep.id f) dep.id :=
  ⟨h.write hf hdep hopen, rfl, f, hf, rfl⟩

theorem Inv.redriveDeposit (h : Inv s) (hdep : dep ∈ s.rows) (hopen : dep.status ≠ .credited)
    (hop : redriveDeposit cfg t s dep = .ok (s', o)) : Redriven s s' dep.id := by
  obtain rfl | ⟨f, hf, rfl⟩ | ⟨rateE12, hcredit⟩ := redriveDeposit_cases hop
  · exact .refl h dep.id
  · exact h.redriven_set hdep hopen hf
  · unfold creditDepositSafe at hcredit
    split at hcredit
    · obtain ⟨rfl, -⟩ := Prod.mk.inj (Except.ok.inj hcredit)
      exact .refl h dep.id
    · cases hcredit
    · obtain ⟨rfl, -⟩ := Prod.mk.inj (Except.ok.inj hcredit)
      exact .refl h dep.id
    · rename_i db micro stamped dust remainder granted hok
      obtain ⟨rfl, -⟩ := Prod.mk.inj (Except.ok.inj hcredit)
      exact ⟨h.credit hdep hopen (creditDeposit_credits (find_view h hdep) hok) micro stamped t.now, rfl,
        Row.stamp micro stamped t.now, fun _ => ⟨rfl, rfl, rfl, rfl⟩, rfl⟩

/-- The rows a re-drive of another row leaves alone. -/
theorem Redriven.mem {id : Nat} (h : Redriven s s' id) {r : Row} (hr : r ∈ s.rows) (hne : r.id ≠ id) :
    r ∈ s'.rows := by
  obtain ⟨f, -, hrows⟩ := h.rows
  rw [hrows]
  exact table.mem_update_of_ne hr hne

/-- The loop of step 9 keeps the invariant. -/
theorem Inv.redriveLoop (h : Inv s) {deps : List Row} (hdeps : ∀ dep ∈ deps, dep ∈ s.rows)
    (hopen : ∀ dep ∈ deps, dep.status ≠ .credited) (hids : (deps.map Row.id).Nodup) :
    Inv (redriveLoop cfg t deps s) := by
  induction deps generalizing s with
  | nil => exact h
  | cons dep deps ih =>
    rw [List.map_cons, List.nodup_cons] at hids
    have hnext {s' : State} (hs' : Redriven s s' dep.id) : Inv (watch.redriveLoop cfg t deps s') := by
      refine ih hs'.inv (fun r hr => ?_) (fun r hr => hopen r (List.mem_cons_of_mem _ hr)) hids.2
      exact hs'.mem (hdeps r (List.mem_cons_of_mem _ hr))
        fun heq => hids.1 (heq ▸ List.mem_map_of_mem hr)
    have hdep := hdeps dep List.mem_cons_self
    have hstatus := hopen dep List.mem_cons_self
    unfold watch.redriveLoop
    split
    · rename_i s' o hop
      exact hnext (h.redriveDeposit hdep hstatus hop)
    · exact h
    · exact hnext (h.redriven_set hdep hstatus fun _ => ⟨rfl, rfl, rfl, rfl⟩)

end

theorem mem_openRows {s : State} {r : Row} :
    r ∈ s.openRows ↔ r ∈ s.rows ∧ r.status ≠ .credited ∧ r.status ≠ .rejected := by
  rw [State.openRows, List.mem_mergeSort, List.mem_filter, decide_eq_true_eq]

/-- The rows that step 9 selects. -/
theorem Inv.selected {s : State} (h : Inv s) :
    (∀ dep ∈ s.openRows.take window, dep ∈ s.rows ∧ dep.status ≠ .credited) ∧
      ((s.openRows.take window).map Row.id).Nodup := by
  refine ⟨fun dep hdep => ?_, ?_⟩
  · have hmem := mem_openRows.mp (List.mem_of_mem_take hdep)
    exact ⟨hmem.1, hmem.2.1⟩
  · have hperm := (List.mergeSort_perm (s.rows.filter fun r => r.status ≠ .credited ∧ r.status ≠ .rejected)
      fun a b => decide (a.first_seen_at ≤ b.first_seen_at)).map Row.id
    have hnodup : (s.openRows.map Row.id).Nodup :=
      hperm.nodup_iff.mpr (h.ids.sublist (List.filter_sublist.map _))
    exact hnodup.sublist ((List.take_sublist _ _).map _)

section

variable {s : State}

theorem Inv.redriveHeld (h : Inv s) (cfg : Config) (t : Tick) : Inv (redriveHeld cfg t s) :=
  h.redriveLoop (fun dep hdep => (h.selected.1 dep hdep).1) (fun dep hdep => (h.selected.1 dep hdep).2)
    h.selected.2

theorem Inv.insert (h : Inv s) {row : Row} (hrow : isTxid row.txid = true ∧ 0 < row.amount_sat ∧
    (⟨row.address, row.chat_id⟩ : Issued) ∈ s.issued) : Inv (insert s row) := by
  unfold watch.insert
  split
  · exact h
  rename_i hkey
  refine ⟨?_, ?_, fun r hr => ?_, h.issued, h.carry, fun l hl => ?_⟩
  · exact table.nodup_append h.ids (nextId_not_mem _)
  · exact table.nodup_append h.keys hkey
  · obtain hr | hr := List.mem_append.mp hr
    · exact h.rows r hr
    · rw [List.mem_singleton.mp hr]
      exact hrow
  · obtain ⟨r, hr, hr'⟩ | hrebate := h.ledger l hl
    · exact .inl ⟨r, List.mem_append_left _ hr, hr'⟩
    · exact .inr hrebate

theorem Inv.mempoolItem (h : Inv s) {row : Issued} (hrow : row ∈ s.issued) (item : Item) (now : Int) :
    Inv (mempoolItem s row item now) := by
  unfold watch.mempoolItem
  split
  · exact h
  rename_i recv hrecv
  split
  · rename_i htxid
    exact h.insert ⟨htxid, by simpa using (Option.filter_eq_some_iff.mp hrecv).2, hrow⟩
  · exact h

theorem Inv.handleConfirmedItem (h : Inv s) {cfg : Config} {t : Tick} {row : Issued}
    (hrow : row ∈ s.issued) {item : Item} {s' : State}
    (hop : handleConfirmedItem cfg t s row item = .ok s') : Inv s' := by
  unfold watch.handleConfirmedItem at hop
  split at hop
  · exact Except.ok.inj hop ▸ h
  rename_i recv hrecv
  split at hop
  · rename_i htxid
    split at hop
    · rw [← Except.ok.inj hop]
      exact h.insert ⟨htxid, by simpa using (Option.filter_eq_some_iff.mp hrecv).2, hrow⟩
    · rename_i existing hexisting
      split at hop
      · exact Except.ok.inj hop ▸ h
      · rename_i hopen
        obtain ⟨hcredited, -⟩ := not_or.mp hopen
        cases hredrive : watch.redriveDeposit cfg t s existing with
        | error stop =>
          rw [hredrive] at hop
          cases hop
        | ok out =>
          rw [hredrive] at hop
          rw [← Except.ok.inj hop]
          exact (h.redriveDeposit (table.find_spec hexisting).1 hcredited hredrive).inv
  · exact Except.ok.inj hop ▸ h

theorem Inv.user (h : Inv s) (chatId : Int) :
    Inv { s with db := { s.db with users := s.db.users ++ [{ chat_id := chatId }] } } := by
  refine ⟨h.ids, h.keys, h.rows, fun i hi => ?_, h.carry, h.ledger⟩
  obtain ⟨haddress, c, hc, hhas⟩ := h.issued i hi
  refine ⟨haddress, c, hc, ?_⟩
  rw [Db.Has, List.map_append]
  exact List.mem_append_left _ hhas

theorem Inv.assign (h : Inv s) {address : String} {chatId : Int} (hhas : s.db.Has chatId) :
    Inv (s.assign address chatId) := by
  refine ⟨h.ids, h.keys, fun r hr => ?_, fun i hi => ?_, fun a ha => ?_, h.ledger⟩
  · obtain ⟨htxid, hamount, hissued⟩ := h.rows r hr
    exact ⟨htxid, hamount, List.mem_append_left _ hissued⟩
  · obtain hi | hi := List.mem_append.mp hi
    · obtain ⟨haddress, c, hc, hhas⟩ := h.issued i hi
      refine ⟨?_, c, hc, hhas⟩
      dsimp only [State.assign]
      split
      · exact haddress
      · rw [List.map_append]
        exact List.mem_append_left _ haddress
    · rw [List.mem_singleton.mp hi]
      refine ⟨?_, chatId, rfl, hhas⟩
      dsimp only [State.assign]
      split
      · assumption
      · simp
  · dsimp only [State.assign] at ha
    split at ha
    · exact h.carry a ha
    · obtain ha | ha := List.mem_append.mp ha
      · exact h.carry a ha
      · rw [List.mem_singleton.mp ha]

theorem Inv.step (h : Inv s) (cfg : Config) (e : Step) : Inv (step cfg s e) := by
  cases e with
  | user chatId =>
    rw [watch.step]
    split
    · exact h
    · exact h.user chatId
  | assign address chatId =>
    rw [watch.step]
    split
    · rename_i hready
      obtain ⟨u, hu⟩ := Option.isSome_iff_exists.mp hready.1
      exact h.assign (has_of_user hu)
    · exact h
  | mempool address item now =>
    rw [watch.step]
    split
    · exact h
    · rename_i row hrow
      exact h.mempoolItem (table.find_spec hrow).1 item now
  | confirmed t address item =>
    rw [watch.step]
    split
    · exact h
    · rename_i row hrow
      split
      · rename_i hop
        exact h.handleConfirmedItem (table.find_spec hrow).1 hop
      · exact h
  | redrive t => exact h.redriveHeld cfg t

theorem inv_run (cfg : Config) (es : List Step) (h : Inv s) : Inv (es.foldl (step cfg) s) := by
  induction es generalizing s with
  | nil => exact h
  | cons e es ih => exact ih (h.step cfg e)

theorem inv_init : Inv {} :=
  ⟨List.nodup_nil, List.nodup_nil, fun _ hr => absurd hr List.not_mem_nil,
    fun _ hi => absurd hi List.not_mem_nil, fun _ ha => absurd ha List.not_mem_nil,
    fun _ hl => absurd hl List.not_mem_nil⟩

end

end pcoin.bot.watch
