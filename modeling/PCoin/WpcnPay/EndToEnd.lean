import PCoin.WpcnPay.Invariant

/-! Every payment is credited once, end to end. -/

namespace pcoin.wpcnpay

variable {cfg : Config} {chain : String → Receipt} {s t : State}

/-- `verify` goes on to claim only if there is a transfer. -/
theorem gate_ok {receipt : Receipt} {head : Nat} {canonical : Option String} {logs : List Log}
    (h : (gate cfg (some receipt) head canonical).toOption = some logs) :
    logs = transfers cfg receipt ∧ logs ≠ [] := by
  unfold gate at h
  simp only at h
  split at h
  · cases h
  split at h
  · cases h
  rename_i hne
  split at h
  · cases h
  split at h
  · cases h
  · cases h
    exact ⟨rfl, hne⟩

namespace Inv

theorem account (h : Inv cfg chain s) (project chatId : String) :
    Inv cfg chain { s with rails := { s.rails with
      users := s.rails.users ++ [{ project := project, chat_id := chatId }] } } where
  files := h.files
  named := h.named
  requests := h.requests
  request := h.request
  calls := h.calls
  call c hc := { h.call c hc with
    user := by
      obtain ⟨u, hu⟩ := Option.isSome_iff_exists.mp (h.call c hc).user
      exact Option.isSome_iff_exists.mpr ⟨u, table.find_append hu _⟩ }
  link := h.link
  backed := h.backed
  rails :=
    { h.rails with
      remainder := fun u hu => by
        obtain hu | hu := List.mem_append.mp hu
        · exact h.rails.remainder u hu
        · rw [List.mem_singleton.mp hu] }
  owed := h.owed

theorem ask (h : Inv cfg chain s) {project chatId : String}
    (huser : (s.rails.user project chatId).isSome) (txhash : String) :
    Inv cfg chain { s with
      calls := s.calls ++ [
        { id := s.nextId, project := project, chat_id := chatId, txhash := txhash,
          known := recorded s.files project chatId txhash }]
      nextId := s.nextId + 1 } where
  files := h.files
  named := h.named
  requests := h.requests
  request r hr := { h.request r hr with id := Nat.lt_succ_of_lt (h.request r hr).id }
  calls := table.nodup_append h.calls fun hmem => by
    obtain ⟨c, hc, hid⟩ := List.mem_map.mp hmem
    exact Nat.ne_of_lt (h.call c hc).id hid
  call c hc := by
    obtain hc | hc := List.mem_append.mp hc
    · exact { h.call c hc with id := Nat.lt_succ_of_lt (h.call c hc).id }
    · obtain rfl := List.mem_singleton.mp hc
      exact ⟨Nat.lt_succ_self _, huser, fun i hi => mem_recorded h.files hi, trivial⟩
  link r hr c hc hid := by
    obtain hc | hc := List.mem_append.mp hc
    · exact h.link r hr c hc hid
    · obtain rfl := List.mem_singleton.mp hc
      exact absurd hid.symm (Nat.ne_of_lt (h.request r hr).id)
  backed := h.backed
  rails := h.rails
  owed := h.owed

/-- The verifier takes up the request of a call. -/
theorem opens (h : Inv cfg chain s) {c : Call} (hc : c ∈ s.calls) (hopened : c.opened = false)
    (hne : transfers cfg (chain c.txhash) ≠ []) :
    Inv cfg chain { s with
      requests := s.requests ++ [
        { id := c.id, project := c.project, user_ref := c.chat_id, txhash := c.txhash,
          logs := transfers cfg (chain c.txhash) }]
      calls := table.update Call.id c.id (fun c => { c with opened := true }) s.calls } where
  files := h.files
  named := h.named
  requests := table.nodup_append h.requests fun hmem => by
    obtain ⟨r, hr, hid⟩ := List.mem_map.mp hmem
    have hopen := (h.link r hr c hc hid.symm).1
    rw [hopened] at hopen
    cases hopen
  request r hr := by
    obtain hr | hr := List.mem_append.mp hr
    · exact h.request r hr
    · obtain rfl := List.mem_singleton.mp hr
      refine ⟨(h.call c hc).id, rfl, ?_, fun x hx => (by cases hx)⟩
      simpa [paidLogs] using hne
  calls := by
    have hids : (table.update Call.id c.id (fun c => { c with opened := true }) s.calls).map Call.id =
        s.calls.map Call.id := table.keys_update (fun _ _ => by rfl) s.calls
    rw [hids]
    exact h.calls
  call c' hc' := by
    obtain rfl | ⟨hc', -⟩ := table.mem_update h.calls hc hc'
    · have hcall := h.call c hc
      refine { hcall with waiting := ?_ }
      have hw := hcall.waiting
      revert hw
      cases c.waiting <;> exact id
    · exact h.call c' hc'
  link r hr c' hc' hid := by
    obtain rfl | ⟨hc', hne⟩ := table.mem_update h.calls hc hc'
    · obtain hr | hr := List.mem_append.mp hr
      · exact ⟨rfl, (h.link r hr c hc hid).2⟩
      · obtain rfl := List.mem_singleton.mp hr
        exact ⟨rfl, rfl, rfl, rfl⟩
    · obtain hr | hr := List.mem_append.mp hr
      · exact h.link r hr c' hc' hid
      · obtain rfl := List.mem_singleton.mp hr
        exact absurd hid hne
  backed := h.backed
  rails := h.rails
  owed := h.owed

/-- A request claims a log and credits it. -/
theorem claim (h : Inv cfg chain s) {id : Nat} {r : Request} (hr : s.request id = some r) {log : Log}
    (hlog : r.logs.head? = some log) {f : File} {c : Claim} (hf : f.Named) (hrecord : f.record = some c)
    (hkey : f.key = (r.txhash, log.logIndex)) (hid : f.request = id)
    (hmine : c.mine r.project r.user_ref = true)
    (hnone : file s.files r.txhash log.logIndex = none) :
    Inv cfg chain ({ s with files := s.files ++ [f] }.setRequest id fun r =>
      r.push (.credited log.logIndex c.figures)) := by
  have hnew : file s.files f.txhash f.log_index = none := by
    rw [file, ← File.key, hkey]
    exact hnone
  refine (h.file_append hnew hf).push hr hlog (x := .credited log.logIndex c.figures) rfl
    ⟨f, c, file_new hnone hkey, ?_, hrecord, hmine, rfl⟩
  rw [hid]
  exact (table.find_spec hr).2.symm

/-- The list of a user's claims. -/
theorem listed (h : Inv cfg chain s) {c : Call} (hc : c ∈ s.calls) {order : List Claim}
    (horder : order.Perm (s.files.filterMap File.record)) :
    WaitingOk cfg chain s.files c (.listed (claimsFor order c.project c.chat_id)) := by
  refine ⟨fun x hx => ?_, fun i hi x hx hnewer => ?_⟩
  · obtain ⟨hin, hmine⟩ := List.mem_filter.mp
      ((List.perm_insertionSort _ _).mem_iff.mp (List.mem_of_mem_take hx))
    obtain ⟨f, hf, hrecord⟩ := List.mem_filterMap.mp (horder.mem_iff.mp hin)
    obtain ⟨hkey, hunsigned⟩ := h.named f hf x hrecord
    refine ⟨hmine, hunsigned, Option.bind_eq_some_iff.mpr ⟨f, ?_, hrecord⟩⟩
    rw [file, hkey]
    exact table.find_eq_some h.files hf
  · obtain ⟨y, hy, hmine⟩ := (h.call c hc).known i hi
    obtain rfl : y = x := Option.some.inj (hy.symm.trans hx)
    obtain ⟨f, hf, hrecord⟩ := Option.bind_eq_some_iff.mp hy
    exact mem_claimsFor horder
      (List.mem_filterMap.mpr ⟨f, (table.find_spec hf).1, hrecord⟩) hmine hnewer

/-- A step that meets the condition keeps what holds. -/
theorem step (h : Inv cfg chain s) {e : Event} (hok : Heeded cfg chain s e)
    (hstep : wpcnpay.step cfg chain s e = some t) : Inv cfg chain t := by
  cases e with
  | account project chatId =>
    obtain ⟨-, -, hstep⟩ := Option.bind_eq_some_iff.mp hstep
    cases hstep
    exact h.account project chatId
  | ask project chatId txhash =>
    obtain ⟨_, huser, hstep⟩ := Option.bind_eq_some_iff.mp hstep
    cases hstep
    exact h.ask ((Option.guard_eq_some' _).mp huser) txhash
  | opens id head canonical =>
    obtain ⟨c, hc, hstep⟩ := Option.bind_eq_some_iff.mp hstep
    obtain ⟨_, hguard, hstep⟩ := Option.bind_eq_some_iff.mp hstep
    obtain ⟨logs, hlogs, hstep⟩ := Option.bind_eq_some_iff.mp hstep
    cases hstep
    obtain ⟨hmem, rfl⟩ := table.find_spec hc
    obtain ⟨rfl, hne⟩ := gate_ok hlogs
    exact h.opens hmem ((Option.guard_eq_some' _).mp hguard).1 hne
  | look id =>
    obtain ⟨r, hr, hstep⟩ := Option.bind_eq_some_iff.mp hstep
    obtain ⟨log, hlog, hstep⟩ := Option.bind_eq_some_iff.mp hstep
    obtain ⟨found, hfound, hstep⟩ := Option.bind_eq_some_iff.mp hstep
    cases hstep
    obtain ⟨f, hf, -⟩ := Option.bind_eq_some_iff.mp hfound
    rw [← hfound]
    exact h.push hr hlog rfl (tells_already r.id (Option.isSome_iff_exists.mpr ⟨f, hf⟩))
  | claim id figures time =>
    obtain ⟨r, hr, hstep⟩ := Option.bind_eq_some_iff.mp hstep
    obtain ⟨log, hlog, hstep⟩ := Option.bind_eq_some_iff.mp hstep
    obtain ⟨_, hunsigned, hstep⟩ := Option.bind_eq_some_iff.mp hstep
    unfold insertClaim at hstep
    simp only at hstep
    by_cases hsome : (file s.files r.txhash log.logIndex).isSome
    · rw [if_pos hsome] at hstep
      cases hstep
      exact h.push hr hlog rfl (tells_already r.id hsome)
    · rw [if_neg hsome] at hstep
      cases hstep
      let c : Claim := ⟨r.txhash, log.logIndex, r.project, r.user_ref, figures, time⟩
      let f : File := ⟨r.txhash, log.logIndex, some c, id⟩
      have hnamed : f.Named := fun x hx => by
        obtain rfl := Option.mem_some.mp hx
        exact ⟨rfl, (Option.guard_eq_some' _).mp hunsigned⟩
      have hmine : c.mine r.project r.user_ref = true := by simp [c, Claim.mine]
      exact h.claim (f := f) (c := c) hr hlog hnamed rfl rfl rfl hmine
        (Option.not_isSome_iff_eq_none.mp hsome)
  | tears id =>
    obtain ⟨r, -, hstep⟩ := Option.bind_eq_some_iff.mp hstep
    obtain ⟨log, -, hstep⟩ := Option.bind_eq_some_iff.mp hstep
    obtain ⟨_, hnone, hstep⟩ := Option.bind_eq_some_iff.mp hstep
    cases hstep
    let f : File := ⟨r.txhash, log.logIndex, none, id⟩
    have htorn := h.file_append (f := f) ((Option.guard_eq_some' _).mp hnone) fun c hc => (by cases hc)
    have hdied := htorn.requests_filter fun _ => false
    rwa [List.filter_false] at hdied
  | fails id =>
    obtain ⟨r, -, hstep⟩ := Option.bind_eq_some_iff.mp hstep
    cases hstep
    exact h.requests_filter _
  | crash =>
    cases hstep
    have hdied := h.requests_filter fun _ => false
    rwa [List.filter_false] at hdied
  | answers id =>
    obtain ⟨r, hr, hstep⟩ := Option.bind_eq_some_iff.mp hstep
    obtain ⟨c, hc, hstep⟩ := Option.bind_eq_some_iff.mp hstep
    obtain ⟨_, hguard, hstep⟩ := Option.bind_eq_some_iff.mp hstep
    cases hstep
    obtain ⟨hrmem, rfl⟩ := table.find_spec hr
    obtain ⟨hcmem, hid⟩ := table.find_spec hc
    obtain ⟨-, hproject, hchat, htx⟩ := h.link r hrmem c hcmem hid
    have hrequest := h.request r hrmem
    have hlogs := hrequest.logs
    rw [((Option.guard_eq_some' _).mp hguard).1, List.map_nil, List.append_nil, ← htx] at hlogs
    have hne : r.results ≠ [] := by
      intro hnil
      rw [hnil, List.map_nil] at hlogs
      exact hrequest.some (htx ▸ hlogs.symm)
    rw [← hid]
    refine (h.requests_filter _).wait hcmem ⟨hne, hlogs, ?_⟩
    rw [hid, hproject, hchat, htx]
    exact hrequest.tells
  | reads id payable =>
    obtain ⟨c, hc, hstep⟩ := Option.bind_eq_some_iff.mp hstep
    split at hstep
    · rename_i results hw
      cases hstep
      exact h.reads (table.find_spec hc).1 hw payable (hok c hc)
    · cases hstep
  | lists id order =>
    obtain ⟨c, hc, hstep⟩ := Option.bind_eq_some_iff.mp hstep
    obtain ⟨_, hguard, hstep⟩ := Option.bind_eq_some_iff.mp hstep
    cases hstep
    obtain ⟨hmem, rfl⟩ := table.find_spec hc
    exact h.wait hmem (h.listed hmem ((Option.guard_eq_some' _).mp hguard).2)
  | heals id =>
    obtain ⟨c, hc, hstep⟩ := Option.bind_eq_some_iff.mp hstep
    split at hstep
    · rename_i claims hw
      cases hstep
      exact h.heals (table.find_spec hc).1 hw (hok c hc)
    · cases hstep
  | givesUp id =>
    obtain ⟨c, -, hstep⟩ := Option.bind_eq_some_iff.mp hstep
    cases hstep
    exact h.calls_filter _
  | railCrash project =>
    cases hstep
    exact h.calls_filter _

theorem init : Inv cfg chain {} where
  files := List.nodup_nil
  named f hf := by cases hf
  requests := List.nodup_nil
  request r hr := by cases hr
  calls := List.nodup_nil
  call c hc := by cases hc
  link r hr := by cases hr
  backed r hr := by cases hr
  rails := ⟨List.nodup_nil, rfl, fun u hu => (by cases hu)⟩
  owed d hd := by cases hd

theorem toExact (h : Inv cfg chain s) : Exact s where
  once := by
    refine List.Nodup.map_on (fun x hx y hy hkey => ?_) (List.Nodup.of_map _ h.rails.keys)
    obtain ⟨htx, hindex⟩ := Prod.mk.inj hkey
    -- the claim file says which rail it is
    have hown := h.backed y hy
    rw [← htx, ← hindex] at hown
    obtain ⟨hproject, -⟩ := (h.backed x hx).unique hown
    refine List.inj_on_of_nodup_map h.rails.keys hx hy ?_
    rw [ClaimRow.key, ClaimRow.key, hproject, htx, hindex]
  ledger := h.rails.ledger
  owed := h.owed

end Inv

/-- Every payment is credited once, whatever fails, if every call that is owed one finds its
transaction whole. -/
theorem credited_once (cfg : Config) (chain : String → Receipt) (s : State)
    (hrun : run.Steps (step cfg chain) (Heeded cfg chain) {} s) : Exact s :=
  (hrun.invariant (fun _ _ _ h hok hstep => h.step hok hstep) Inv.init).toExact

namespace sample

def config : Config := { token := "0xtoken", payTo := "0xdesk", minConfirmations := 1 }

def log (logIndex : Nat) : Log :=
  { address := "0xToken", topics := [TRANSFER_TOPIC, "payer", "0x000000000000000000000000desk"],
    data := 100000000, logIndex := logIndex }

/-- Every transaction pays us by two logs. -/
def receipt (_ : String) : Receipt :=
  { status := "0x1", blockNumber := 5, blockHash := "0xhash", logs := [log 0, log 1] }

def figures : Figures := { wpcn := "1".toList, usd := "1.07".toList, rate := "1.07".toList }

/-- What the verifier has recorded. -/
def claim (logIndex : Nat) : Claim := ⟨"0xtx", logIndex, "rail", "7", figures, 10⟩

/-- The verifier claims the first log and answers nothing about the second. -/
def half : List Event :=
  [.account "rail" "7", .ask "rail" "7" "0xtx", .opens 0 5 (some "0xhash"), .claim 0 figures 10]

/-- The user asks again, once both logs are claimed, and the rail heals. -/
def heal : List Event :=
  [.ask "rail" "7" "0xtx", .opens 1 5 (some "0xhash"), .look 1, .look 1, .answers 1, .reads 1 true,
    .lists 1 [claim 0, claim 1], .heals 1]

/-- The rate is gone at the second log, and is there again when the user asks again. -/
def again : List Event :=
  [.fails 0, .givesUp 0, .ask "rail" "7" "0xtx", .opens 1 5 (some "0xhash"), .look 1,
    .claim 1 figures 10, .answers 1, .reads 1 true]

end sample

open sample in
theorem credited_once_heal :
    ∃ s, run.exec (step config receipt) {} (half ++ [.claim 0 figures 10, .crash] ++ heal) = some s ∧
      s.owed.length = 2 ∧ Exact s := by
  have hrun : ((run.exec (step config receipt) {}
      (half ++ [.claim 0 figures 10, .crash] ++ heal)).map fun s => s.owed.length) = some 2 := by
    decide +kernel
  obtain ⟨s, hexec, howed⟩ := Option.map_eq_some_iff.mp hrun
  refine ⟨s, hexec, howed, credited_once config receipt s (run.steps_of_exec _ hexec ?_)⟩
  decide +kernel

open sample in
/-- The rate is gone at the second of two logs. Asked again, the rail credits the second, and never
the first. -/
theorem second_log_credited_only :
    ¬∀ cfg chain s, run.Steps (step cfg chain) (fun _ _ => True) {} s → Exact s := by
  have hrun : ((run.exec (step config receipt) {} (half ++ again)).map fun s =>
      (s.owed, s.rails.claims.map ClaimRow.paid)) =
        some ([⟨"rail", "7", "0xtx", 0⟩], [⟨"rail", "7", "0xtx", 1⟩]) := by
    decide +kernel
  obtain ⟨s, hexec, hs⟩ := Option.map_eq_some_iff.mp hrun
  obtain ⟨howed, hpaid⟩ := Prod.mk.inj hs
  intro hall
  have hexact := hall config receipt s (run.steps_of_exec _ hexec (run.meets_true _ _))
  have hmem := hexact.owed ⟨"rail", "7", "0xtx", 0⟩ (howed ▸ List.mem_singleton.mpr rfl)
  rw [hpaid] at hmem
  revert hmem
  decide

end pcoin.wpcnpay
