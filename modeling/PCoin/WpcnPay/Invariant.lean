import PCoin.WpcnPay.Credit

/-! What holds between the verifier and the rails. -/

namespace pcoin.wpcnpay

/-- A claim file is named after its record. -/
def File.Named (f : File) : Prop :=
  ∀ c ∈ f.record, (c.txhash, c.log_index) = f.key ∧ c.figures.Unsigned

variable (cfg : Config) (chain : String → Receipt)

/-- The logs that a transaction pays us by. -/
def paidLogs (txhash : String) : List Nat := (transfers cfg (chain txhash)).map Log.logIndex

/-- What a request has answered is true, and it leaves out no transfer. -/
structure RequestOk (files : List File) (nextId : Nat) (r : Request) : Prop where
  id : r.id < nextId
  logs : r.results.map Result.logIndex ++ r.logs.map Log.logIndex = paidLogs cfg chain r.txhash
  some : paidLogs cfg chain r.txhash ≠ []
  tells : ∀ x ∈ r.results, Tells files r.id r.project r.user_ref r.txhash x

/-- What a call has read is true. -/
def WaitingOk (files : List File) (c : Call) : Waiting → Prop
  | .verify => True
  | .claims => True
  | .answered results => results ≠ [] ∧ results.map Result.logIndex = paidLogs cfg chain c.txhash ∧
      ∀ x ∈ results, Tells files c.id c.project c.chat_id c.txhash x
  | .listed claims =>
      (∀ x ∈ claims, x.mine c.project c.chat_id = true ∧ x.figures.Unsigned ∧
        readClaim files x.txhash x.log_index = some x) ∧
      ∀ i ∈ c.known, ∀ x ∈ readClaim files c.txhash i, (newer files x).length < 50 → x ∈ claims

/-- A call is a user's, and what was recorded for him when it began still is. -/
structure CallOk (files : List File) (rails : Rails) (nextId : Nat) (c : Call) : Prop where
  id : c.id < nextId
  user : (rails.user c.project c.chat_id).isSome
  known : ∀ i ∈ c.known, Own files c.project c.chat_id c.txhash i
  waiting : WaitingOk cfg chain files c c.waiting

/-- What holds between the verifier and the rails. -/
structure Inv (s : State) : Prop where
  files : (s.files.map File.key).Nodup
  named : ∀ f ∈ s.files, f.Named
  requests : (s.requests.map Request.id).Nodup
  request : ∀ r ∈ s.requests, RequestOk cfg chain s.files s.nextId r
  calls : (s.calls.map Call.id).Nodup
  call : ∀ c ∈ s.calls, CallOk cfg chain s.files s.rails s.nextId c
  /-- A request is the one that its call has opened. -/
  link : ∀ r ∈ s.requests, ∀ c ∈ s.calls, c.id = r.id → c.opened = true ∧
    c.project = r.project ∧ c.chat_id = r.user_ref ∧ c.txhash = r.txhash
  /-- A rail credits what is recorded for its user. -/
  backed : ∀ r ∈ s.rails.claims, Own s.files r.project r.chat_id r.txhash r.log_index
  rails : Kept s.rails
  owed : ∀ d ∈ s.owed, d ∈ s.rails.claims.map ClaimRow.paid

variable {cfg chain} {s : State}

theorem WaitingOk.append {files : List File} {c : Call} {w : Waiting}
    (h : WaitingOk cfg chain files c w) (hknown : ∀ i ∈ c.known, Own files c.project c.chat_id c.txhash i)
    (new : List File) : WaitingOk cfg chain (files ++ new) c w := by
  cases w with
  | verify => trivial
  | claims => trivial
  | answered results =>
    obtain ⟨hne, hlogs, htells⟩ := h
    exact ⟨hne, hlogs, fun x hx => (htells x hx).append new⟩
  | listed claims =>
    obtain ⟨hmine, hall⟩ := h
    refine ⟨fun x hx => ?_, fun i hi x hx hnewer => ?_⟩
    · obtain ⟨hx, hunsigned, hread⟩ := hmine x hx
      exact ⟨hx, hunsigned, readClaim_append hread new⟩
    · obtain ⟨y, hy, -⟩ := hknown i hi
      rw [readClaim_append hy new, Option.mem_some] at hx
      subst hx
      exact hall i hi y hy (Nat.lt_of_le_of_lt (newer_append y new) hnewer)

/-- What a readable row says. -/
theorem creditableRow_spec {logIndex : Nat} {f : Figures} {row : Row}
    (h : creditableRow logIndex f = some row) :
    row.logIndex = logIndex ∧ (f.Unsigned → 0 ≤ row.usdNano ∧ 0 ≤ row.rateE12) := by
  obtain ⟨usd, husd, h⟩ := Option.bind_eq_some_iff.mp h
  obtain ⟨rate, hrate, h⟩ := Option.bind_eq_some_iff.mp h
  obtain ⟨wpcn, -, h⟩ := Option.bind_eq_some_iff.mp h
  cases h
  exact ⟨rfl, fun hf => ⟨parseScaled_nonneg hf.1 husd, parseScaled_nonneg hf.2.1 hrate⟩⟩

theorem creditedRows_own {files : List File} {id : Nat} {project userRef txhash : String}
    {results : List Result} {row : Row}
    (htells : ∀ x ∈ results, Tells files id project userRef txhash x)
    (hrow : row ∈ creditedRows results) : Own files project userRef txhash row.logIndex := by
  obtain ⟨x, hx, hsome⟩ := List.mem_filterMap.mp hrow
  cases x with
  | credited logIndex figures =>
    rw [(creditableRow_spec hsome).1]
    exact (htells _ hx).own
  | already_claimed logIndex yours => cases hsome

namespace Inv

theorem file_append (h : Inv cfg chain s) {f : File} (hnew : file s.files f.txhash f.log_index = none)
    (hf : f.Named) : Inv cfg chain { s with files := s.files ++ [f] } where
  files := table.nodup_append h.files fun hmem => by
    obtain ⟨g, hg, hkey⟩ := List.mem_map.mp hmem
    exact table.find_eq_none hnew g hg hkey
  named g hg := by
    obtain hg | hg := List.mem_append.mp hg
    · exact h.named g hg
    · exact List.mem_singleton.mp hg ▸ hf
  requests := h.requests
  request r hr := { h.request r hr with tells := fun x hx => ((h.request r hr).tells x hx).append [f] }
  calls := h.calls
  call c hc :=
    { h.call c hc with
      known := fun i hi => ((h.call c hc).known i hi).append [f]
      waiting := (h.call c hc).waiting.append (h.call c hc).known [f] }
  link := h.link
  backed r hr := (h.backed r hr).append [f]
  rails := h.rails
  owed := h.owed

/-- Requests that fail or die. -/
theorem requests_filter (h : Inv cfg chain s) (p : Request → Bool) :
    Inv cfg chain { s with requests := s.requests.filter p } :=
  { h with
    requests := h.requests.sublist (List.filter_sublist.map _)
    request := fun r hr => h.request r (List.mem_of_mem_filter hr)
    link := fun r hr => h.link r (List.mem_of_mem_filter hr) }

theorem calls_filter (h : Inv cfg chain s) (p : Call → Bool) :
    Inv cfg chain { s with calls := s.calls.filter p } :=
  { h with
    calls := h.calls.sublist (List.filter_sublist.map _)
    call := fun c hc => h.call c (List.mem_of_mem_filter hc)
    link := fun r hr c hc => h.link r hr c (List.mem_of_mem_filter hc) }

/-- A request answers its next log. -/
theorem push (h : Inv cfg chain s) {id : Nat} {r : Request} (hr : s.request id = some r) {log : Log}
    (hlog : r.logs.head? = some log) {x : Result} (hindex : x.logIndex = log.logIndex)
    (hx : Tells s.files r.id r.project r.user_ref r.txhash x) :
    Inv cfg chain (s.setRequest id (·.push x)) := by
  obtain ⟨hmem, rfl⟩ := table.find_spec hr
  have hlogs : r.logs = log :: r.logs.tail := List.eq_cons_of_mem_head? hlog
  refine { h with requests := ?_, request := fun r' hr' => ?_, link := fun r' hr' => ?_ }
  · have hids : (s.setRequest r.id (·.push x)).requests.map Request.id = s.requests.map Request.id :=
      table.keys_update (fun _ _ => by rfl) s.requests
    rw [hids]
    exact h.requests
  · obtain rfl | ⟨hr', -⟩ := table.mem_update h.requests hmem hr'
    · have hr := h.request r hmem
      refine { hr with logs := ?_, tells := fun y hy => ?_ }
      · have := hr.logs
        rw [hlogs] at this
        simpa [Request.push, hindex] using this
      · obtain hy | hy := List.mem_append.mp hy
        · exact hr.tells y hy
        · exact List.mem_singleton.mp hy ▸ hx
    · exact h.request r' hr'
  · obtain rfl | ⟨hr', -⟩ := table.mem_update h.requests hmem hr'
    · exact h.link r hmem
    · exact h.link r' hr'

/-- A call reads something. -/
theorem wait (h : Inv cfg chain s) {c : Call} (hc : c ∈ s.calls) {w : Waiting}
    (hw : WaitingOk cfg chain s.files c w) : Inv cfg chain (s.wait c.id w) := by
  have hmem : ∀ c' ∈ (s.wait c.id w).calls, c' = { c with waiting := w } ∨ c' ∈ s.calls :=
    fun c' hc' => (table.mem_update h.calls hc hc').imp_right And.left
  refine { h with calls := ?_, call := fun c' hc' => ?_, link := fun r hr c' hc' => ?_ }
  · have hids : (s.wait c.id w).calls.map Call.id = s.calls.map Call.id :=
      table.keys_update (fun _ _ => by rfl) s.calls
    rw [hids]
    exact h.calls
  · obtain rfl | hc' := hmem c' hc'
    · exact { h.call c hc with waiting := hw }
    · exact h.call c' hc'
  · obtain rfl | hc' := hmem c' hc'
    · exact h.link r hr c hc
    · exact h.link r hr c' hc'

theorem ends (h : Inv cfg chain s) {c : Call}
    (hpaid : ∀ d ∈ dues s.files c, d ∈ s.rails.claims.map ClaimRow.paid) :
    Inv cfg chain (s.ends c) :=
  { h.calls_filter (·.id ≠ c.id) with
    owed := fun d hd => (List.mem_append.mp hd).elim (h.owed d) (hpaid d) }

/-- A rail credits rows that are recorded for a user. -/
theorem credited (h : Inv cfg chain s) {rails : Rails} {project chatId txhash : String}
    {rows : List Row} (hcredit : Credited s.rails rails project chatId txhash rows)
    (hrows : ∀ row ∈ rows, Own s.files project chatId txhash row.logIndex) :
    Inv cfg chain { s with rails := rails } where
  files := h.files
  named := h.named
  requests := h.requests
  request := h.request
  calls := h.calls
  call c hc := { h.call c hc with
    user := by
      rw [Rails.user, table.isSome_find, hcredit.users, ← table.isSome_find]
      exact (h.call c hc).user }
  link := h.link
  backed x hx := by
    obtain hx | ⟨row, hrow, hpaid⟩ := hcredit.new x hx
    · exact h.backed x hx
    · obtain ⟨hproject, hchat, htx, hindex⟩ : x.project = project ∧ x.chat_id = chatId ∧
          x.txhash = txhash ∧ x.log_index = row.logIndex := by
        simpa [ClaimRow.paid, Row.paid] using hpaid
      rw [hproject, hchat, htx, hindex]
      exact hrows row hrow
  rails := ⟨hcredit.keys, hcredit.ledger, hcredit.remainder⟩
  owed d hd := by
    obtain ⟨x, hx, rfl⟩ := List.mem_map.mp (h.owed d hd)
    exact List.mem_map_of_mem (hcredit.old x hx)

theorem named_of_read (h : Inv cfg chain s) {txhash : String} {logIndex : Nat} {x : Claim}
    (hx : readClaim s.files txhash logIndex = some x) : x.txhash = txhash ∧ x.log_index = logIndex := by
  obtain ⟨f, hf, hx⟩ := Option.bind_eq_some_iff.mp hx
  obtain ⟨hmem, hkey⟩ := table.find_spec hf
  have hname := (h.named f hmem x hx).1
  rw [hkey] at hname
  exact ⟨congrArg Prod.fst hname, congrArg Prod.snd hname⟩

/-- A recorded transfer that has a row on its rail was credited to its user. -/
theorem paid_of_key (h : Inv cfg chain s) {project chatId txhash : String} {logIndex : Nat}
    (hown : Own s.files project chatId txhash logIndex)
    (hkey : (project, txhash, logIndex) ∈ s.rails.claims.map ClaimRow.key) :
    ⟨project, chatId, txhash, logIndex⟩ ∈ s.rails.claims.map ClaimRow.paid := by
  obtain ⟨x, hx, hkey⟩ := List.mem_map.mp hkey
  obtain ⟨rfl, rfl, rfl⟩ : x.project = project ∧ x.txhash = txhash ∧ x.log_index = logIndex := by
    simpa [ClaimRow.key] using hkey
  obtain ⟨-, rfl⟩ := (h.backed x hx).unique hown
  exact List.mem_map_of_mem hx

/-- A call credits and ends; what it is owed was credited or is among the rows. -/
theorem credits (h : Inv cfg chain s) {c : Call} {rows : List Row}
    (hrows : ∀ row ∈ rows, Own s.files c.project c.chat_id c.txhash row.logIndex)
    (hpaid : ∀ d ∈ dues s.files c, d ∈ s.rails.claims.map ClaimRow.paid ∨
      (credit s.rails c.project c.chat_id c.txhash rows).isSome ∧
        ∃ row ∈ rows, d = row.paid c.project c.chat_id c.txhash) :
    Inv cfg chain (s.credits c rows) := by
  unfold State.credits
  split
  · rename_i hnone
    refine h.ends fun d hd => (hpaid d hd).resolve_right fun hsome => ?_
    rw [hnone] at hsome
    cases hsome.1
  · rename_i rails hsome
    have hcredit := credit_spec h.rails hsome
    have hnext := h.credited hcredit hrows
    refine hnext.ends fun d hd => ?_
    obtain hold | ⟨-, row, hrow, rfl⟩ := hpaid d hd
    · obtain ⟨x, hx, rfl⟩ := List.mem_map.mp hold
      exact List.mem_map_of_mem (hcredit.old x hx)
    · exact hnext.paid_of_key (hrows row hrow) (hcredit.all row hrow)

/-- A call reads an answer that credits what it is owed, or goes on to ask for it. -/
theorem reads (h : Inv cfg chain s) {c : Call} (hc : c ∈ s.calls) {results : List Result}
    (hw : c.waiting = .answered results) (payable : Bool) (hwhole : Short s c → Whole cfg chain s c) :
    Inv cfg chain (readAnswer s c results payable) := by
  have hok := (h.call c hc).waiting
  rw [hw] at hok
  obtain ⟨hne, hlogs, htells⟩ := hok
  by_cases hshort : Short s c
  · obtain ⟨hwhole, hrow⟩ := hwhole hshort
    -- every transfer is the user's, from before this request
    have hyours : ∀ x ∈ results, ∃ logIndex, x = .already_claimed logIndex true := by
      intro x hx
      have hindex : x.logIndex ∈ paidLogs cfg chain c.txhash := hlogs ▸ List.mem_map_of_mem hx
      obtain ⟨l, hl, hindex⟩ := List.mem_map.mp hindex
      obtain ⟨f, hf, hrequest, hmine⟩ := hwhole l hl
      rw [hindex, Option.mem_def] at hf
      cases x with
      | credited logIndex figures =>
        obtain ⟨g, -, hg, hid, -⟩ := htells _ hx
        obtain rfl : f = g := Option.some.inj (hf.symm.trans hg)
        exact absurd hid hrequest
      | already_claimed logIndex yours =>
        obtain ⟨g, hg, rfl⟩ := htells _ hx
        obtain rfl : f = g := Option.some.inj (hf.symm.trans hg)
        exact ⟨logIndex, by rw [hmine]⟩
    have hnone : results.any Result.isCredited = false := by
      rw [List.any_eq_false]
      intro x hx
      obtain ⟨_, rfl⟩ := hyours x hx
      simp [Result.isCredited]
    have hall : results.all Result.yours = true := by
      rw [List.all_eq_true]
      intro x hx
      obtain ⟨_, rfl⟩ := hyours x hx
      rfl
    have hread : readAnswer s c results payable = s.wait c.id .claims := by
      simp [readAnswer, hnone, hall, hne, hrow]
    rw [hread]
    exact h.wait hc trivial
  · have hpaid : ∀ d ∈ dues s.files c, d ∈ s.rails.claims.map ClaimRow.paid := by
      intro d hd
      by_contra hout
      exact hshort ⟨d, hd, hout⟩
    have hrows : ∀ row ∈ (if payable then creditedRows results else []),
        Own s.files c.project c.chat_id c.txhash row.logIndex := by
      intro row hrow
      split at hrow
      · exact creditedRows_own htells hrow
      · cases hrow
    unfold readAnswer
    simp only
    generalize (if payable then creditedRows results else []) = rows at hrows ⊢
    split
    · split
      · exact h.ends hpaid
      · exact h.credits hrows fun d hd => .inl (hpaid d hd)
    · split
      · exact h.wait hc trivial
      · exact h.ends hpaid

/-- A call credits from the list of the user's claims. -/
theorem heals (h : Inv cfg chain s) {c : Call} (hc : c ∈ s.calls) {claims : List Claim}
    (hw : c.waiting = .listed claims)
    (hread : ∀ d ∈ dues s.files c, d ∉ s.rails.claims.map ClaimRow.paid →
      ∀ r ∈ readClaim s.files c.txhash d.log_index, (creditableRow d.log_index r.figures).isSome) :
    Inv cfg chain (if ownClaimRows claims c.txhash = [] then s.ends c
      else s.credits c (ownClaimRows claims c.txhash)) := by
  have hok := (h.call c hc).waiting
  rw [hw] at hok
  obtain ⟨hmine, hlisted⟩ := hok
  have hrow : ∀ row ∈ ownClaimRows claims c.txhash, ∃ x ∈ claims, x.txhash = c.txhash ∧
      creditableRow x.log_index x.figures = some row := by
    intro row hrow
    obtain ⟨x, hx, hsome⟩ := List.mem_filterMap.mp hrow
    obtain ⟨hx, htx⟩ := List.mem_filter.mp hx
    exact ⟨x, hx, of_decide_eq_true htx, hsome⟩
  have hcredit : (credit s.rails c.project c.chat_id c.txhash (ownClaimRows claims c.txhash)).isSome := by
    refine credit_isSome h.rails (h.call c hc).user fun row hr => ?_
    obtain ⟨x, hx, -, hsome⟩ := hrow row hr
    exact (creditableRow_spec hsome).2 (hmine x hx).2.1
  -- what is owed is listed
  have hpaid : ∀ d ∈ dues s.files c, d ∈ s.rails.claims.map ClaimRow.paid ∨
      ∃ row ∈ ownClaimRows claims c.txhash, d = row.paid c.project c.chat_id c.txhash := by
    intro d hd
    by_cases hin : d ∈ s.rails.claims.map ClaimRow.paid
    · exact .inl hin
    have hreadable := hread d hd hin
    obtain ⟨i, hi, rfl⟩ := List.mem_map.mp hd
    obtain ⟨hknown, hnewer⟩ := List.mem_filter.mp hi
    obtain ⟨x, hx, -⟩ := (h.call c hc).known i hknown
    rw [hx, Option.any_some, decide_eq_true_eq] at hnewer
    have hmem := hlisted i hknown x hx hnewer
    obtain ⟨row, hsome⟩ := Option.isSome_iff_exists.mp (hreadable x hx)
    obtain ⟨htx, hindex⟩ := h.named_of_read hx
    refine .inr ⟨row, List.mem_filterMap.mpr ⟨x, List.mem_filter.mpr ⟨hmem, decide_eq_true htx⟩, ?_⟩, ?_⟩
    · rw [hindex]
      exact hsome
    · rw [Row.paid, (creditableRow_spec hsome).1]
  split
  · rename_i hnil
    refine h.ends fun d hd => (hpaid d hd).resolve_right ?_
    rw [hnil]
    rintro ⟨row, hrow, -⟩
    cases hrow
  · refine h.credits (fun row hr => ?_) fun d hd => (hpaid d hd).imp_right fun hd => ⟨hcredit, hd⟩
    obtain ⟨x, hx, htx, hsome⟩ := hrow row hr
    obtain ⟨hx, -, hread⟩ := hmine x hx
    rw [(creditableRow_spec hsome).1, ← htx]
    exact ⟨x, hread, hx⟩

end Inv

end pcoin.wpcnpay
