import PCoin.Bot.Cards

/-! No card is charged twice, above its button or for nothing. -/

namespace pcoin.bot.studio

/-- What every transaction keeps. -/
structure Grows (s s' : Studio) : Prop where
  keys : ∀ k ∈ resvKeys s.db, k ∈ resvKeys s'.db
  proposals : ∀ id p, Reserved s id → s.proposal id = some p →
    ∃ p', s'.proposal id = some p' ∧ p.Keeps p'

theorem Keeps.grows {s s' : Studio} (h : Keeps s s') : Grows s s' :=
  ⟨fun _ hk => h.keys.symm ▸ hk, h.proposals⟩

namespace Grows

variable {s s' s'' : Studio}

theorem reserved (h : Grows s s') {id : Nat} (hresv : Reserved s id) : Reserved s' id := by
  obtain ⟨k, hk, hreq⟩ := List.mem_map.mp hresv
  exact List.mem_map.mpr ⟨k, h.keys k hk, hreq⟩

theorem trans (h : Grows s s') (h' : Grows s' s'') : Grows s s'' := by
  refine ⟨fun k hk => h'.keys k (h.keys k hk), fun id p hresv hp => ?_⟩
  obtain ⟨p', hp', hkeep⟩ := h.proposals id p hresv hp
  obtain ⟨p'', hp'', hkeep'⟩ := h'.proposals id p' (h.reserved hresv) hp'
  refine ⟨p'', hp'', fun hbegun => ?_⟩
  obtain ⟨hbegun', hprice⟩ := hkeep hbegun
  obtain ⟨hbegun'', hprice'⟩ := hkeep' hbegun'
  exact ⟨hbegun'', hprice'.trans hprice⟩

/-- Only the books change. -/
theorem books {db : Db} (hkeys : ∀ k ∈ resvKeys s.db, k ∈ resvKeys db) :
    Grows s { s with db := db } :=
  ⟨hkeys, fun _ p _ hp => ⟨p, hp, fun h => ⟨h, rfl⟩⟩⟩

end Grows

theorem Owns.reserved {s : Studio} {reservationId id : Nat} (h : Owns s reservationId id) :
    Reserved s id :=
  List.mem_map.mpr ⟨_, h, rfl⟩

/-- A job is under way for a card that holds its reservation, at the card's price. -/
structure Working (s : Studio) (w : Begun) : Prop where
  owns : Owns s w.reservationId w.proposal.id
  price : ∃ p, s.proposal w.proposal.id = some p ∧ p.price_micro = w.proposal.price_micro

theorem Working.grows {s s' : Studio} {seen : List (Nat × Int)} {w : Begun} (hw : Working s w)
    (h : Inv s seen) (hgrows : Grows s s') : Working s' w := by
  obtain ⟨p, hp, hprice⟩ := hw.price
  obtain ⟨q, hq, hbegun, -⟩ := h.agreedTo hw.owns.reserved
  obtain rfl := Option.some.inj (hp.symm.trans hq)
  obtain ⟨p', hp', hkeep⟩ := hgrows.proposals _ p hw.owns.reserved hp
  exact ⟨hgrows.keys _ hw.owns, p', hp', (hkeep hbegun).2.trans hprice⟩

namespace Inv

variable {s : Studio} {seen : List (Nat × Int)}

/-- A reservation for a card whose price the user agreed to. -/
theorem reserve (h : Inv s seen) {db : Db} {reservationId id : Nat}
    (hkeys : resvKeys db = resvKeys s.db ++ [(reservationId, none, some (cardKey id))])
    (hledger : db.ledger = s.db.ledger) (hid : reservationId ∉ (resvKeys s.db).map (·.1))
    (hkey : ¬Reserved s id) (hagreed : AgreedTo s seen id) : Inv { s with db := db } seen := by
  have hgrows : Grows s { s with db := db } := Grows.books fun k hk => by simp [hkeys, hk]
  refine ⟨h.proposals, ?_, ?_, hledger ▸ h.idem, fun k hk => ?_, fun l hl hkind => ?_,
    fun j hj => hgrows.keys _ (h.jobs j hj)⟩
  · simp only [hkeys]
    exact table.nodup_append h.ids hid
  · simp only [hkeys]
    exact table.nodup_append h.reqs hkey
  · simp only [hkeys, List.mem_append, List.mem_singleton] at hk
    obtain hk | rfl := hk
    · exact h.cards k hk
    · exact ⟨id, rfl, hagreed⟩
  · simp only [hledger] at hl
    obtain ⟨id', p, hidem, hresv, hp, hle⟩ := h.bills l hl hkind
    exact ⟨id', p, hidem, hgrows.reserved hresv, hp, hle⟩

theorem addJob (h : Inv s seen) {j : MediaJob} (hj : Owns s j.reservation_id j.proposal_id) :
    Inv { s with media_jobs := s.media_jobs ++ [j] } seen := by
  refine ⟨h.proposals, h.ids, h.reqs, h.idem, h.cards, h.bills, fun i hi => ?_⟩
  obtain hi | hi := List.mem_append.mp hi
  · exact h.jobs i hi
  · exact List.mem_singleton.mp hi ▸ hj

/-- A ledger row under a key of its own; a bill is for a card at its price at most. -/
theorem post (h : Inv s seen) (db : Db) {row : LedgerRow} (hkeys : resvKeys db = resvKeys s.db)
    (hledger : db.ledger = s.db.ledger ++ [row])
    (hfresh : row.idem_key ∉ s.db.ledger.map LedgerRow.idem_key)
    (hrow : row.kind = .ai_turn → ∃ id p, row.idem_key = billKey id ∧ Reserved s id ∧
      s.proposal id = some p ∧ -row.delta_micro_usd ≤ p.price_micro) :
    Inv { s with db := db } seen := by
  have hgrows : Grows s { s with db := db } := Grows.books fun k hk => by rwa [hkeys]
  refine ⟨h.proposals, hkeys ▸ h.ids, hkeys ▸ h.reqs, ?_, fun k hk => h.cards k (hkeys ▸ hk),
    fun l hl hkind => ?_, fun j hj => hgrows.keys _ (h.jobs j hj)⟩
  · simp only [hledger]
    exact table.nodup_append h.idem hfresh
  · simp only [hledger, List.mem_append, List.mem_singleton] at hl
    obtain ⟨id, p, hidem, hresv, hp, hle⟩ : ∃ id p, l.idem_key = billKey id ∧ Reserved s id ∧
        s.proposal id = some p ∧ -l.delta_micro_usd ≤ p.price_micro := by
      obtain hl | rfl := hl
      · exact h.bills l hl hkind
      · exact hrow hkind
    exact ⟨id, p, hidem, hgrows.reserved hresv, hp, hle⟩

end Inv

theorem charge_le (actual : Option Int) (capMicro : Int) : charge actual capMicro ≤ capMicro := by
  unfold charge
  split
  · split <;> omega
  · exact Int.le_refl _

/-- A result is settled for its own card, at the card's price at most. -/
theorem inv_settleCapped {s s' : Studio} {seen : List (Nat × Int)} {w : Begun}
    {actual : Option Int} {now : Int} (h : Inv s seen) (hw : Working s w)
    (hop : settleCapped s w.reservationId actual w.proposal.price_micro now = .ok s') :
    Inv s' seen ∧ Grows s s' ∧ s'.items = s.items ∧ ∀ l ∈ s'.db.ledger, l ∈ s.db.ledger ∨
      (0 < charge actual w.proposal.price_micro ∧ l.idem_key = billKey w.proposal.id) := by
  unfold settleCapped at hop
  cases hsettle : settle s.db w.reservationId (charge actual w.proposal.price_micro) now with
  | error => simp [hsettle, Except.map] at hop
  | ok out =>
    simp only [hsettle, Except.map, Except.ok.injEq] at hop
    subst hop
    obtain ⟨hkeys, hledger⟩ := settle_ok hsettle
    have hgrows : Grows s { s with db := out.1 } := Grows.books fun k hk => by rwa [hkeys]
    obtain hledger | ⟨hpos, r, hr, row, hledger, hfresh, hkind, hidem, hdelta⟩ := hledger
    · exact ⟨h.keeps (Keeps.books h.proposals _ hkeys hledger), hgrows, rfl,
        fun l hl => .inl (hledger ▸ hl)⟩
    -- the reservation that is settled is the card's
    obtain ⟨hmem, hid⟩ := table.find_spec hr
    have hcols : (r.id, r.update_id, r.req_key) =
        (w.reservationId, none, some (cardKey w.proposal.id)) :=
      List.inj_on_of_nodup_map h.ids (List.mem_map_of_mem hmem) hw.owns hid
    simp only [Prod.mk.injEq] at hcols
    obtain ⟨-, hupdate, hreq⟩ := hcols
    have hkey : row.idem_key = billKey w.proposal.id := by
      rw [hidem, Reservation.idem, hupdate, hreq]
      rfl
    obtain ⟨p, hp, hprice⟩ := hw.price
    have hle : -row.delta_micro_usd ≤ p.price_micro := by
      rw [hdelta, neg_neg, hprice]
      exact charge_le _ _
    refine ⟨h.post _ hkeys hledger hfresh fun _ => ⟨_, p, hkey, hw.owns.reserved, hp, hle⟩, hgrows,
      rfl, fun l hl => ?_⟩
    simp only [hledger, List.mem_append, List.mem_singleton] at hl
    obtain hl | rfl := hl
    · exact .inl hl
    · exact .inr ⟨hpos, hkey⟩

/-- What a committed database keeps of the one before. -/
structure Sound (s s' : Studio) (seen : List (Nat × Int)) : Prop where
  inv : Inv s' seen
  grows : Grows s s'
  delivered : Delivered s → Delivered s'

theorem Keeps.sound {s s' : Studio} {seen : List (Nat × Int)} (hk : Keeps s s') (h : Inv s seen) :
    Sound s s' seen :=
  ⟨h.keeps hk, hk.grows, fun hd => hd.keeps hk⟩

/-- A press that starts a job, at a price that the user agreed to. -/
theorem startJob_sound {s : Studio} {seen : List (Nat × Int)} {p : Proposal} {now : Int}
    (h : Inv s seen) (hp : s.proposal p.id = some p)
    (hagreed : ∃ v ∈ lastSeen seen p.id, p.price_micro ≤ v) :
    (∀ s' ∈ (startJob s p now).1, Sound s s' seen) ∧ ∀ w, (startJob s p now).2 = .ok w →
      Working (committed s (startJob s p now).1) w := by
  let start (p : Proposal) : Proposal := { p with state := .started }
  have hstart : Keeps s (s.setProposal p.id start) := keeps_mark h.proposals p.id rfl
  have hinv := h.keeps hstart
  have hrow : (s.setProposal p.id start).proposal p.id = some (start p) := by
    rw [Studio.proposal] at hp
    have hid : ∀ q, Proposal.id q = p.id → (start q).id = p.id := fun _ hq => hq
    rw [Studio.proposal, Studio.setProposal, table.find_update hid, hp, Option.map_some]
  unfold startJob
  simp only
  split
  · -- nothing is reserved for the card, so it may be put back
    rename_i fault hop
    have hnone := reserve_error hop
    refine ⟨fun s' hs' => ?_, fun w hw => ?_⟩
    · obtain rfl | hs' := List.mem_cons.mp hs'
      · exact hstart.sound h
      · obtain rfl := List.mem_singleton.mp hs'
        have hback := hstart.trans (Keeps.setProposal hstart.ids p.id
          (fun q => { q with state :=
            if (s.setProposal p.id start).proposals.any fun q =>
              q.chat_id = p.chat_id && q.state = .opened && p.id < q.id then .replaced else .opened })
          (fun _ => rfl) fun q hresv _ => ?_)
        · exact hback.sound h
        · rw [Reserved, resvKeys, List.map_map] at hresv
          exact absurd hresv hnone
    · cases fault <;> cases hw
  · rename_i db resv hop
    obtain ⟨hdup, rfl⟩ | ⟨hdup, hledger, hid, hkey, hkeys⟩ := reserve_ok hop
    · rw [if_pos hdup]
      have hbooks := hstart.trans (Keeps.books hstart.ids (s.setProposal p.id start).books
        rfl rfl)
      refine ⟨fun s' hs' => ?_, fun w hw => by cases hw⟩
      obtain rfl | hs' := List.mem_cons.mp hs'
      · exact hstart.sound h
      · obtain rfl := List.mem_singleton.mp hs'
        exact hbooks.sound h
    · rw [if_neg (by simp [hdup])]
      have hcols : ∀ {α : Type} (c : Nat × Option Int × Option String → α),
          (resvKeys (s.setProposal p.id start).db).map c =
            (s.setProposal p.id start).books.reservations.map fun r =>
              c (r.id, r.update_id, r.req_key) := by
        intro α c
        rw [resvKeys, List.map_map]
        rfl
      have hreserve : Inv { s.setProposal p.id start with db := db } seen := by
        refine hinv.reserve hkeys hledger ?_ ?_ ⟨_, hrow, rfl, hagreed⟩
        · rw [hcols]
          exact hid
        · rw [Reserved, hcols]
          exact hkey
      have hgrows : Grows s { s.setProposal p.id start with db := db } :=
        hstart.grows.trans (Grows.books fun k hk => by
          rw [hkeys]
          exact List.mem_append_left _ hk)
      have howns : Owns { s.setProposal p.id start with db := db } resv.reservationId p.id := by
        rw [Owns, hkeys]
        exact List.mem_append_right _ (List.mem_singleton.mpr rfl)
      have hdeliver : ∀ jobs, Delivered s →
          Delivered { s.setProposal p.id start with db := db, media_jobs := jobs } := by
        intro jobs hd l hl
        simp only [hledger] at hl
        exact hd l hl
      refine ⟨fun s' hs' => ?_, fun w hw => ?_⟩
      · simp only [List.mem_cons, List.not_mem_nil, or_false] at hs'
        obtain rfl | rfl | rfl := hs'
        · exact hstart.sound h
        · exact ⟨hreserve, hgrows, hdeliver _⟩
        · exact ⟨hreserve.addJob howns, hgrows.trans ⟨fun _ hk => hk, fun _ q _ hq =>
            ⟨q, hq, fun h => ⟨h, rfl⟩⟩⟩, hdeliver _⟩
      · cases hw
        exact ⟨howns, start p, hrow, rfl⟩

/-- `beginJob`. -/
theorem beginJob_sound {s : Studio} {seen : List (Nat × Int)} (chatId now : Int) {id : Nat}
    {offer : Option (Option Quote)} (h : Inv s seen)
    (hagreed : ∀ p ∈ s.proposal id, p.state = .opened →
      offer = some (some ⟨p.price_micro, p.api_model⟩) → ∃ v ∈ lastSeen seen p.id, p.price_micro ≤ v) :
    (∀ s' ∈ (beginJob s chatId id offer now).1, Sound s s' seen) ∧
      ∀ w, (beginJob s chatId id offer now).2 = .ok w →
        Working (committed s (beginJob s chatId id offer now).1) w := by
  have hnothing : ∀ r : Refusal, (∀ s' ∈ ([] : List Studio), Sound s s' seen) ∧
      ∀ w, Pressed.refused r = .ok w → Working (committed s []) w :=
    fun r => ⟨fun s' hs' => (by cases hs'), fun w hw => (by cases hw)⟩
  unfold beginJob
  split
  · exact hnothing _
  rename_i p hp
  obtain ⟨-, hid⟩ := table.find_spec hp
  subst hid
  split
  · exact hnothing _
  split
  · exact hnothing _
  rename_i hopen
  rw [not_not] at hopen
  -- nothing is reserved for an open card, so it may change
  have hfree : ∀ f : Proposal → Proposal, (∀ q, (f q).id = q.id) →
      Keeps s (s.setProposal p.id f) := by
    intro f hid
    refine Keeps.setProposal h.proposals _ _ hid fun q _ hq hbegun => ?_
    obtain rfl := Option.some.inj (hp.symm.trans hq)
    rw [hopen] at hbegun
    cases hbegun
  split
  · refine ⟨fun s' hs' => ?_, fun w hw => by cases hw⟩
    obtain rfl := List.mem_singleton.mp hs'
    exact Keeps.sound (hfree _ fun _ => rfl) h
  split
  · exact hnothing _
  split
  · exact hnothing _
  split
  · exact hnothing _
  rename_i quote
  split
  · refine ⟨fun s' hs' => ?_, fun w hw => by cases hw⟩
    obtain rfl := List.mem_singleton.mp hs'
    exact Keeps.sound (hfree _ fun _ => rfl) h
  rename_i hquote
  split
  · exact hnothing _
  · rw [not_or, not_not, not_not] at hquote
    refine startJob_sound h hp (hagreed p hp hopen ?_)
    rw [← hquote.1, ← hquote.2]

/-- What is committed last is the database from before or one of those committed. -/
theorem committed_cases (s : Studio) (commits : List Studio) :
    committed s commits = s ∨ committed s commits ∈ commits := by
  unfold committed
  cases hlast : commits.getLast? with
  | none => exact .inl rfl
  | some last => exact .inr (List.mem_of_getLast? hlast)

/-- The databases that are committed, and that the last of the first `done` bills nothing without
an item. -/
structure Commits (s : Studio) (seen : List (Nat × Int)) (commits : List Studio) (done : Nat) :
    Prop where
  inv : ∀ s' ∈ commits, Inv s' seen ∧ Grows s s'
  delivered : Delivered (committed s (commits.take done))

theorem commits_of_sound {s : Studio} {seen : List (Nat × Int)} {commits : List Studio}
    (hd : Delivered s) (hs : ∀ s' ∈ commits, Sound s s' seen) (done : Nat) :
    Commits s seen commits done := by
  refine ⟨fun s' hs' => ⟨(hs s' hs').inv, (hs s' hs').grows⟩, ?_⟩
  obtain heq | hmem := committed_cases s (commits.take done)
  · rw [heq]
    exact hd
  · exact (hs _ (List.mem_of_mem_take hmem)).delivered hd

/-- A result is settled and then finished; only between the two is it billed without an item. -/
theorem deliver_commits {s : Studio} {seen : List (Nat × Int)} {w : Begun} {kind : MediaKind}
    {actual : Option Int} {now : Int} (h : Inv s seen) (hd : Delivered s) (hw : Working s w)
    {done : Nat} (hcut : done = 1 → charge actual w.proposal.price_micro ≤ 0) :
    Commits s seen (deliver s w kind actual now) done := by
  unfold deliver
  split
  · exact commits_of_sound hd (fun s' hs' => by cases hs') done
  rename_i settled hop
  obtain ⟨hinv, hgrows, hitems, hledger⟩ := inv_settleCapped h hw hop
  have hfinish : Keeps settled (finishJob settled w kind) := keeps_finishJob hinv.proposals w kind
  refine ⟨fun s' hs' => ?_, ?_⟩
  · simp only [List.mem_cons, List.not_mem_nil, or_false] at hs'
    obtain rfl | rfl := hs'
    · exact ⟨hinv, hgrows⟩
    · exact ⟨hinv.keeps hfinish, hgrows.trans hfinish.grows⟩
  have hold : ∀ l ∈ settled.db.ledger, l ∈ s.db.ledger → l.kind = .ai_turn →
      ∀ id, l.idem_key = billKey id → ∃ i ∈ settled.items, i.proposal_id = some id := by
    intro l _ hl hkind id hidem
    rw [hitems]
    exact hd l hl hkind id hidem
  match done with
  | 0 => exact hd
  | 1 =>
    intro l hl hkind id hidem
    obtain hl' | ⟨hpos, -⟩ := hledger l hl
    · exact hold l hl hl' hkind id hidem
    · have hzero := hcut rfl
      omega
  | n + 2 =>
    have hlast : committed s ([settled, finishJob settled w kind].take (n + 2)) =
        finishJob settled w kind := by simp [committed]
    rw [hlast]
    intro l hl hkind id hidem
    have hl : l ∈ settled.db.ledger := hfinish.ledger ▸ hl
    obtain hl' | ⟨-, hkey⟩ := hledger l hl
    · obtain ⟨i, hi, heq⟩ := hold l hl hl' hkind id hidem
      exact ⟨i, hfinish.items i hi, heq⟩
    · obtain rfl := billKey_injective (hidem.symm.trans hkey)
      exact ⟨_, List.mem_append_right _ (List.mem_singleton.mpr rfl), rfl⟩

/-- What holds of the bot between its actions, whether it is up or not. -/
structure BotInv (b : Bot) : Prop where
  inv : Inv b.disk b.seen
  delivered : Delivered b.disk
  working : ∀ w ∈ b.working, Working b.disk w
  polled : ∀ j ∈ b.polled, Owns b.disk j.reservation_id j.proposal_id
  reading : ∀ w ∈ b.clip, Working b.disk w

theorem Bot.task_mem {b : Bot} {jobId : Nat} {kind : MediaKind} {w : Begun}
    (h : b.task jobId kind = some w) : w ∈ b.working :=
  List.mem_of_find?_eq_some h

/-- What an action commits, and what is under way after it. -/
structure Performed (b : Bot) (commits : List Studio) (b' : Bot) (done : Nat) : Prop where
  commit : Commits b.disk b.seen commits done
  seen : b'.seen = b.seen
  working : ∀ w ∈ b'.working, w ∈ b.working ∨ Working (committed b.disk commits) w
  polled : ∀ j ∈ b'.polled, Owns b.disk j.reservation_id j.proposal_id
  reading : ∀ w ∈ b'.clip, Working b.disk w

/-- An action that leaves what is under way as it is. -/
theorem BotInv.performed {b : Bot} (h : BotInv b) {commits : List Studio}
    (hs : ∀ s' ∈ commits, Keeps b.disk s') (done : Nat) : Performed b commits b done :=
  ⟨commits_of_sound h.delivered (fun s' hs' => (hs s' hs').sound h.inv) done, rfl,
    fun _ hw => .inl hw, h.polled, h.reading⟩

/-- A job that comes to its end. -/
theorem BotInv.finished {b : Bot} (h : BotInv b) {commits : List Studio} {done : Nat}
    (hc : Commits b.disk b.seen commits done) (jobId : Nat) :
    Performed b commits (b.finish jobId) done :=
  ⟨hc, rfl, fun _ hw => .inl (List.mem_filter.mp hw).1, h.polled, h.reading⟩

theorem performed {b b' : Bot} {a : Action} {commits : List Studio} {done : Nat} (h : BotInv b)
    (hheeded : Heeded b (.dies a done)) (hperform : perform b a = some (commits, b')) :
    Performed b commits b' done := by
  have hids := h.inv.proposals
  have hunwind : ∀ w unknown, Commits b.disk b.seen (unwind b.disk w unknown) done :=
    fun w unknown => commits_of_sound h.delivered
      (fun s' hs' => (keeps_unwind hids w unknown s' hs').sound h.inv) done
  have hnone : Commits b.disk b.seen [] done :=
    commits_of_sound h.delivered (fun s' hs' => by cases hs') done
  cases a with
  | newCard chatId spec quote now ttlSec =>
    cases hperform
    exact h.performed (fun s' hs' => List.mem_singleton.mp hs' ▸
      keeps_createProposal hids chatId spec quote now ttlSec) done
  | cancel chatId proposalId =>
    cases hperform
    exact h.performed (fun s' hs' => List.mem_singleton.mp hs' ▸
      keeps_cancelProposal hids chatId proposalId) done
  | expire now =>
    cases hperform
    exact h.performed (fun s' hs' => List.mem_singleton.mp hs' ▸ keeps_expireCards hids now) done
  | upload chatId =>
    cases hperform
    exact h.performed (fun s' hs' => List.mem_singleton.mp hs' ▸ Keeps.addItem hids _) done
  | display proposalId =>
    obtain ⟨p, -, heq⟩ := Option.bind_eq_some_iff.mp hperform
    cases heq
    exact ⟨hnone, rfl, fun _ hw => .inl hw, h.polled, h.reading⟩
  | press chatId proposalId offer now =>
    obtain ⟨hsound, hworking⟩ := beginJob_sound chatId now h.inv hheeded
    have hc := commits_of_sound h.delivered hsound done
    simp only [perform, Option.some.injEq, Prod.mk.injEq] at hperform
    obtain ⟨rfl, rfl⟩ := hperform
    split
    · rename_i begun hpressed
      refine ⟨hc, rfl, fun w hw => ?_, h.polled, h.reading⟩
      obtain hw | hw := List.mem_append.mp hw
      · exact .inl hw
      · exact .inr (List.mem_singleton.mp hw ▸ hworking begun hpressed)
    · exact ⟨hc, rfl, fun _ hw => .inl hw, h.polled, h.reading⟩
  | picture jobId result now =>
    obtain ⟨w, htask, heq⟩ := Option.bind_eq_some_iff.mp hperform
    have hw := h.working w (Bot.task_mem htask)
    cases heq
    cases result with
    | made actual =>
      refine h.finished (deliver_commits h.inv h.delivered hw fun hone => ?_) jobId
      subst hone
      exact hheeded w htask
    | fails unknown => exact h.finished (hunwind w unknown) jobId
  | video jobId result =>
    obtain ⟨w, htask, heq⟩ := Option.bind_eq_some_iff.mp hperform
    cases heq
    cases result with
    | named remoteId =>
      refine h.finished (commits_of_sound h.delivered (fun s' hs' => ?_) done) jobId
      obtain rfl := List.mem_singleton.mp hs'
      exact Keeps.sound (Keeps.setJob hids jobId _ fun _ => rfl) h.inv
    | unnamed => exact h.finished (hunwind w true) jobId
    | fails unknown => exact h.finished (hunwind w unknown) jobId
  | poll =>
    obtain ⟨_, -, heq⟩ := Option.bind_eq_some_iff.mp hperform
    cases heq
    exact ⟨hnone, rfl, fun _ hw => .inl hw,
      fun j hj => h.inv.jobs j (List.mem_filter.mp hj).1, h.reading⟩
  | read =>
    obtain ⟨_, -, hperform⟩ := Option.bind_eq_some_iff.mp hperform
    obtain ⟨j, hj, hperform⟩ := Option.bind_eq_some_iff.mp hperform
    obtain ⟨p, hp, heq⟩ := Option.bind_eq_some_iff.mp hperform
    cases heq
    have howns := h.polled j (List.mem_of_mem_head? hj)
    obtain ⟨-, hid⟩ := table.find_spec hp
    refine ⟨hnone, rfl, fun _ hw => .inl hw, fun i hi => h.polled i (List.mem_of_mem_tail hi),
      fun w hw => ?_⟩
    obtain rfl := Option.some.inj hw
    exact ⟨by rw [hid]; exact howns, p, by rw [hid]; exact hp, rfl⟩
  | answer reply now =>
    obtain ⟨⟨j, p⟩, hreading, heq⟩ := Option.bind_eq_some_iff.mp hperform
    have hclip : b.clip = some ⟨p, j.reservation_id, j.id⟩ := by rw [Bot.clip, hreading]; rfl
    have hw := h.reading _ hclip
    have hend : ∀ {commits}, Commits b.disk b.seen commits done →
        Performed b commits { b with reading := none } done :=
      fun hc => ⟨hc, rfl, fun _ hw => .inl hw, h.polled, fun w hw => by cases hw⟩
    cases heq
    cases reply with
    | completed actual =>
      refine hend (deliver_commits h.inv h.delivered hw fun hone => ?_)
      subst hone
      exact hheeded _ hclip
    | failed => exact hend (hunwind _ false)
    | unfinished =>
      simp only
      split
      · exact hend (hunwind _ true)
      · exact hend hnone
    | unreadable =>
      simp only
      split
      · exact hend (hunwind _ true)
      · exact hend hnone
  | ageOut olderThanMinutes now =>
    cases hperform
    exact h.performed (fun s' hs' => keeps_ageOutAll hids olderThanMinutes now s' hs') done

/-- Between its actions the bot stays as it was while the database grows. -/
theorem BotInv.grows {b b' : Bot} (h : BotInv b) (hdisk : b'.disk = b.disk ∨
      (Inv b'.disk b.seen ∧ Grows b.disk b'.disk)) (hdelivered : Delivered b'.disk)
    (hseen : b'.seen = b.seen) (hworking : ∀ w ∈ b'.working, w ∈ b.working ∨ Working b'.disk w)
    (hpolled : ∀ j ∈ b'.polled, Owns b.disk j.reservation_id j.proposal_id)
    (hreading : ∀ w ∈ b'.clip, Working b.disk w) : BotInv b' := by
  obtain ⟨hinv, hgrows⟩ : Inv b'.disk b.seen ∧ Grows b.disk b'.disk := by
    obtain heq | hdisk := hdisk
    · rw [heq]
      exact ⟨h.inv, fun _ hk => hk, fun _ p _ hp => ⟨p, hp, fun h => ⟨h, rfl⟩⟩⟩
    · exact hdisk
  refine ⟨hseen.symm ▸ hinv, hdelivered, fun w hw => ?_, fun j hj => hgrows.keys _ (hpolled j hj),
    fun w hw => (hreading w hw).grows h.inv hgrows⟩
  obtain hw | hw := hworking w hw
  · exact (h.working w hw).grows h.inv hgrows
  · exact hw

/-- What is committed last, with all that is committed before it or only a part of it. -/
theorem Commits.last {s : Studio} {seen : List (Nat × Int)} {commits : List Studio} {done : Nat}
    (hc : Commits s seen commits done) (n : Nat) : committed s (commits.take n) = s ∨
      (Inv (committed s (commits.take n)) seen ∧ Grows s (committed s (commits.take n))) :=
  (committed_cases s (commits.take n)).imp_right fun hmem => hc.inv _ (List.mem_of_mem_take hmem)

theorem restart_commits {b : Bot} (h : BotInv b) (now : Int) (done : Nat) :
    Commits b.disk b.seen (restart b.disk now) done :=
  commits_of_sound h.delivered
    (fun s' hs' => (keeps_restart h.inv.proposals now s' hs').sound h.inv) done

/-- A card that is shown at another price, if it has not been started, or at no lower one. -/
theorem BotInv.lands {b : Bot} (h : BotInv b) {n : Nat} {card : Nat × Int}
    (hcard : b.edits[n]? = some card)
    (hheeded : ∀ card ∈ b.edits[n]?, ∀ p ∈ b.disk.proposal card.1, p.state.begun →
      p.price_micro ≤ card.2) (edits : List (Nat × Int)) :
    BotInv { b with seen := card :: b.seen, edits := edits } := by
  refine ⟨⟨h.inv.proposals, h.inv.ids, h.inv.reqs, h.inv.idem, fun k hk => ?_, h.inv.bills,
    h.inv.jobs⟩, h.delivered, h.working, h.polled, h.reading⟩
  obtain ⟨id, hkey, p, hp, hbegun, v, hv, hle⟩ := h.inv.cards k hk
  refine ⟨id, hkey, p, hp, hbegun, ?_⟩
  by_cases hid : card.1 = id
  · subst hid
    exact ⟨card.2, by simp [lastSeen], hheeded card hcard p hp hbegun⟩
  · refine ⟨v, ?_, hle⟩
    rw [lastSeen, List.find?_cons_of_neg (by simpa using hid)]
    exact hv

theorem enter_some {db db' : Db} {row : Option LedgerRow} (h : enter db row = some db') :
    db' = db ∨ ∃ r : LedgerRow, r.kind ≠ .ai_turn ∧
      r.idem_key ∉ db.ledger.map LedgerRow.idem_key ∧
      db' = { db with ledger := db.ledger ++ [r] } := by
  cases row with
  | none => exact .inl (Option.some.inj h).symm
  | some r =>
    simp only [enter] at h
    split at h
    · cases h
    rename_i hkind
    cases hop : db.insertLedger r with
    | error => simp [hop, Except.toOption] at h
    | ok out =>
      simp only [hop, Except.toOption, Option.some.injEq] at h
      exact .inr ⟨r, hkind, ledger_insertLedger hop, h ▸ insertLedger_ok hop⟩

theorem inv_step (b : Bot) (e : Event) (b' : Bot) (h : BotInv b) (hheeded : Heeded b e)
    (hstep : step b e = some b') : BotInv b' := by
  cases e with
  | act a =>
    simp only [step, Option.bind_eq_bind, Option.bind_eq_some_iff] at hstep
    obtain ⟨_, -, ⟨commits, c⟩, hperform, heq⟩ := hstep
    obtain rfl := Option.some.inj heq
    -- an action that is not cut short bills nothing without an item
    have hfull : Heeded b (.dies a (commits.length + 2)) := by
      cases a with
      | press => exact hheeded
      | picture jobId result now => cases result <;> trivial
      | answer reply now => cases reply <;> trivial
      | _ => trivial
    have hp := performed h hfull hperform
    have htake : commits.take (commits.length + 2) = commits := List.take_of_length_le (by omega)
    have hlast := hp.commit.last (commits.length + 2)
    have hdelivered := hp.commit.delivered
    rw [htake] at hlast hdelivered
    exact h.grows hlast hdelivered hp.seen hp.working hp.polled hp.reading
  | dies a done =>
    simp only [step, Option.bind_eq_bind, Option.bind_eq_some_iff] at hstep
    obtain ⟨_, -, ⟨commits, c⟩, hperform, heq⟩ := hstep
    obtain rfl := Option.some.inj heq
    have hp := performed h hheeded hperform
    exact h.grows (hp.commit.last done) hp.commit.delivered rfl (fun w hw => by cases hw)
      (fun j hj => by cases hj) fun w hw => by cases hw
  | restarts now =>
    simp only [step, Option.bind_eq_bind, Option.bind_eq_some_iff] at hstep
    obtain ⟨_, -, heq⟩ := hstep
    obtain rfl := Option.some.inj heq
    have hc := restart_commits h now (restart b.disk now).length
    have hlast := hc.last (restart b.disk now).length
    have hdelivered := hc.delivered
    rw [List.take_length] at hlast hdelivered
    exact h.grows hlast hdelivered rfl (fun w hw => .inl hw) h.polled h.reading
  | diesAgain now done =>
    simp only [step, Option.bind_eq_bind, Option.bind_eq_some_iff] at hstep
    obtain ⟨_, -, heq⟩ := hstep
    obtain rfl := Option.some.inj heq
    have hc := restart_commits h now done
    exact h.grows (hc.last done) hc.delivered rfl (fun w hw => .inl hw) h.polled h.reading
  | lands n =>
    simp only [step, Option.bind_eq_bind, Option.bind_eq_some_iff] at hstep
    obtain ⟨card, hcard, heq⟩ := hstep
    obtain rfl := Option.some.inj heq
    exact h.lands hcard hheeded _
  | others users row =>
    simp only [step, Option.bind_eq_bind, Option.bind_eq_some_iff] at hstep
    obtain ⟨db, hdb, heq⟩ := hstep
    obtain rfl := Option.some.inj heq
    obtain rfl | ⟨row, hkind, hfresh, rfl⟩ := enter_some hdb
    · have hk := Keeps.books h.inv.proposals { b.disk.db with users := users } rfl rfl
      exact h.grows (.inr ⟨h.inv.keeps hk, hk.grows⟩) (h.delivered.keeps hk) rfl
        (fun w hw => .inl hw) h.polled h.reading
    · have hinv := h.inv.post ({ b.disk.db with
        users := users, ledger := b.disk.db.ledger ++ [row] }) rfl rfl hfresh
        fun hturn => absurd hturn hkind
      refine h.grows (.inr ⟨hinv, Grows.books fun _ hk => hk⟩) (fun l hl hturn id hidem => ?_) rfl
        (fun w hw => .inl hw) h.polled h.reading
      obtain hl | hl := List.mem_append.mp hl
      · exact h.delivered l hl hturn id hidem
      · rw [List.mem_singleton.mp hl] at hturn
        exact absurd hturn hkind

theorem inv_start : BotInv {} := by
  refine ⟨⟨List.nodup_nil, List.nodup_nil, List.nodup_nil, List.nodup_nil, ?_, ?_, ?_⟩, ?_, ?_, ?_, ?_⟩
  · intro k hk
    cases hk
  · intro l hl
    cases hl
  · intro j hj
    cases hj
  · intro l hl
    cases hl
  · intro w hw
    cases hw
  · intro j hj
    cases hj
  · intro w hw
    cases hw

/-- Under a unique column at most one row has a value. -/
theorem length_filter_le {α β : Type} [DecidableEq β] {c : α → β} {rows : List α}
    (hnodup : (rows.map c).Nodup) (k : β) : (rows.filter (c · = k)).length ≤ 1 := by
  rw [← List.countP_eq_length_filter]
  have hcount := List.nodup_iff_count_le_one.mp hnodup k
  rw [List.count, List.countP_map] at hcount
  refine le_trans (le_of_eq (List.countP_congr fun x _ => ?_)) hcount
  simp

theorem fair_of_inv {b : Bot} (h : BotInv b) : Fair b := by
  have hbill : ∀ p, ∀ l ∈ b.disk.bills p, l ∈ b.disk.db.ledger ∧ l.kind = .ai_turn ∧
      l.idem_key = billKey p.id := by
    intro p l hl
    obtain ⟨hl, hkey⟩ := List.mem_filter.mp hl
    exact ⟨hl, by simpa using hkey⟩
  refine ⟨fun p hp => ⟨?_, ?_⟩, fun p hp l hl => ?_, fun _ p hp hne => ?_⟩
  · have hreqs := h.inv.reqs
    rw [resvKeys, List.map_map] at hreqs
    exact length_filter_le hreqs _
  · refine le_trans ?_ (length_filter_le h.inv.idem (billKey p.id))
    refine (List.monotone_filter_right _ fun l hl => ?_).length_le
    have hkey : l.kind = .ai_turn ∧ l.idem_key = billKey p.id := by simpa using hl
    simp [hkey.2]
  · obtain ⟨hl, hkind, hkey⟩ := hbill p l hl
    obtain ⟨id, q, hidem, hresv, hq, hle⟩ := h.inv.bills l hl hkind
    obtain rfl := billKey_injective (hkey.symm.trans hidem)
    obtain ⟨q', hq', -, v, hv, hprice⟩ := h.inv.agreedTo hresv
    obtain rfl := Option.some.inj (hq.symm.trans hq')
    exact ⟨v, hv, Int.le_trans hle hprice⟩
  · obtain ⟨l, hl⟩ := List.exists_mem_of_ne_nil _ hne
    obtain ⟨hl, hkind, hkey⟩ := hbill p l hl
    exact h.delivered l hl hkind p.id hkey

/-- Where nobody is charged a price that he has not seen, and the process does not die between a
bill and its item, every card is charged at most once, never above its button, and never for
nothing. -/
theorem cards_charged_fairly {b : Bot} (hrun : run.Steps step Heeded {} b) : Fair b :=
  fair_of_inv (hrun.invariant inv_step inv_start)

/-- A card at 100 that chat 7 sees, with 1000 on its balance. -/
def shown (kind : MediaKind) : List Event :=
  [.others [⟨7, 1000, 0⟩] none, .act (.newCard 7 ⟨kind, "model", []⟩ ⟨100, "api"⟩ 10 86400),
   .act (.display 1), .lands 0]

/-- A clip is begun, outlives the process that began it, and is delivered. -/
def clip : List Event :=
  shown .video ++ [.act (.press 7 1 (some (some ⟨100, "api"⟩)) 20),
    .act (.video 1 (.named "clip-1")), .dies (.expire 30) 1, .restarts 40, .act .poll, .act .read,
    .act (.answer (.completed (some 90)) 60)]

theorem cards_charged_fairly_clip :
    ∃ b, run.exec step {} clip = some b ∧ b.disk.db.users = [⟨7, 910, 0⟩] ∧
      b.disk.items.map StudioItem.proposal_id = [some 1] ∧ Fair b := by
  have hrun : ((run.exec step {} clip).map fun b =>
      (b.disk.db.users, b.disk.items.map StudioItem.proposal_id)) =
        some ([⟨7, 910, 0⟩], [some 1]) := by
    decide +kernel
  obtain ⟨b, hexec, hb⟩ := Option.map_eq_some_iff.mp hrun
  obtain ⟨husers, hitems⟩ := Prod.mk.inj hb
  refine ⟨b, hexec, husers, hitems, cards_charged_fairly (run.steps_of_exec _ hexec ?_)⟩
  decide +kernel

/-- The process dies after the bill of a picture: the bill stays, and the picture is lost. -/
theorem bill_without_item : ¬∀ b, run.Steps step (fun _ _ => True) {} b → Fair b := by
  have hrun : ((run.exec step {} (shown .image ++ [.act (.press 7 1 (some (some ⟨100, "api"⟩)) 20),
      .dies (.picture 1 (.made (some 90)) 50) 1, .restarts 60])).map fun b =>
        (b.up, b.disk.items, b.disk.proposals.map fun p => (b.disk.bills p).length)) =
      some (true, [], [1]) := by
    decide +kernel
  obtain ⟨b, hexec, hb⟩ := Option.map_eq_some_iff.mp hrun
  simp only [Prod.mk.injEq] at hb
  obtain ⟨hup, hitems, hbills⟩ := hb
  intro hall
  have hone : 1 ∈ b.disk.proposals.map fun p => (b.disk.bills p).length := by
    rw [hbills]
    exact List.mem_singleton.mpr rfl
  obtain ⟨p, hp, hlength⟩ := List.mem_map.mp hone
  have hne : b.disk.bills p ≠ [] := by
    intro heq
    rw [heq] at hlength
    cases hlength
  have hfair := hall b (run.steps_of_exec _ hexec (run.meets_true _ _))
  obtain ⟨i, hi, -⟩ := hfair.delivered hup p hp hne
  rw [hitems] at hi
  cases hi

/-- A card is priced anew, and pressed again before the new price is shown. -/
theorem charge_unseen_price : ¬∀ b, run.Steps step (fun _ _ => True) {} b →
    ∀ p ∈ b.disk.proposals, ∀ l ∈ b.disk.bills p,
      ∃ v ∈ lastSeen b.seen p.id, -l.delta_micro_usd ≤ v := by
  have hrun : ((run.exec step {} (shown .image ++
      ([.act (.press 7 1 (some (some ⟨200, "api"⟩)) 20), .act (.display 1),
        .act (.press 7 1 (some (some ⟨200, "api"⟩)) 20), .act (.picture 1 (.made none) 50)] :
        List Event))).map fun b => b.disk.proposals.flatMap fun p =>
        (b.disk.bills p).map fun l => (lastSeen b.seen p.id, l.delta_micro_usd)) =
      some [(some 100, -200)] := by
    decide +kernel
  obtain ⟨b, hexec, hb⟩ := Option.map_eq_some_iff.mp hrun
  intro hall
  have hmem : (some 100, -200) ∈ b.disk.proposals.flatMap fun p =>
      (b.disk.bills p).map fun l => (lastSeen b.seen p.id, l.delta_micro_usd) := by
    rw [hb]
    exact List.mem_singleton.mpr rfl
  obtain ⟨p, hp, hmem⟩ := List.mem_flatMap.mp hmem
  obtain ⟨l, hl, heq⟩ := List.mem_map.mp hmem
  obtain ⟨hseen, hdelta⟩ := Prod.mk.inj heq
  obtain ⟨v, hv, hle⟩ := hall b (run.steps_of_exec _ hexec (run.meets_true _ _)) p hp l hl
  rw [hseen] at hv
  cases hv
  omega

end pcoin.bot.studio
